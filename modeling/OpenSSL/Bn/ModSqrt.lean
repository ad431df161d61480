import OpenSSL.Bn.Kronecker

/- Square roots modulo a prime, as in crypto/bn/bn_sqrt.c. -/
namespace Ossl
open BnValue Rounds

def vrfy (A p ret : Int) : Option Int := if modSqr ret p = A then some ret else none

def sqrtEasy (A p : Int) : Int := modExp A ((rshift p 2).natAbs + 1) p

def sqrtAtkin (A p : Int) : Int :=
  let t := modLshift1Quick A p
  let b := modExp t (rshift p 3).natAbs p
  let y := modSqr b p
  let t := modMul t y p - 1
  modMul (modMul A b p) t p

def sqrtCandidate (rand : Nat → Nat) (p : Int) (i : Nat) : Int :=
  if i < 22 then i
  else
    let y : Int := rand i
    let y := if p.natAbs ≤ y.natAbs then y - p.natAbs else y
    if y = 0 then i else y

def searchNonsquare (rand : Nat → Nat) (p : Int) : Nat → Nat → Option (Option Int)
  | 0, _ => some none
  | left + 1, i =>
    let y := sqrtCandidate rand p i
    match bnKronecker y p.natAbs with
    | none => none
    | some r =>
      if r < -1 ∨ r = 0 then some none
      else if r = 1 then searchNonsquare rand p left (i + 1)
      else some (some y)

def orderRounds (p : Int) : Nat → Nat → Int → Option Nat
  | 0, _, _ => none
  | left + 1, i, t => if t = 1 then some i else orderRounds p left (i + 1) (modMul t t p)

def orderSearch (p b : Int) (e : Nat) : Option Nat := orderRounds p (e - 1) 1 (modSqr b p)

def squareTimes (p : Int) : Nat → Int → Int
  | 0, t => t
  | j + 1, t => squareTimes p j (modSqr t p)

structure TonelliState where
  e : Nat
  x : Int
  y : Int
  b : Int
  deriving DecidableEq

def tonelliRound (A p : Int) (s : TonelliState) : Option Int ⊕ TonelliState :=
  if s.b = 1 then .inl (vrfy A p s.x)
  else
    match orderSearch p s.b s.e with
    | none => .inl none
    | some i =>
      let t := squareTimes p (s.e - i - 1) s.y
      let y := modMul t t p
      .inr { e := i, x := modMul s.x t p, y := y, b := modMul s.b y p }

def tonelliStart (A p q : Int) : Option Int :=
  let t := rshift1 q
  if t = 0 then if nnmod A p = 0 then none else some 1
  else
    let x := modExp A t.natAbs p
    if x = 0 then none else some x

def sqrtTonelli (A p y : Int) (e : Nat) : Option (Option Int) :=
  let q := rshift p.natAbs e
  let y := modExp y q.natAbs p
  if y = 1 then some none
  else
    match tonelliStart A p q with
    | none => some (some 0)
    | some x =>
      let b := modMul (modSqr x p) A p
      rounds (tonelliRound A p) (e + 1) { e := e, x := modMul x A p, y := y, b := b }

/- The random numbers are a parameter. The result is none where the rounds do
   not suffice, some none for NULL. -/
def bnModSqrt (rand : Nat → Nat) (a p : Int) : Option (Option Int) :=
  if isOdd p = false ∨ absIsWord p 1 then
    if absIsWord p 2 then some (some (if isBitSet a 0 then 1 else 0)) else some none
  else if a = 0 ∨ a = 1 then some (some (if a = 1 then 1 else 0))
  else
    let A := nnmod a p
    match rounds (bitRound p) (numBits p + 1) 1 with
    | none => none
    | some e =>
      if e = 1 then some (vrfy A p (sqrtEasy A p))
      else if e = 2 then some (vrfy A p (sqrtAtkin A p))
      else
        match searchNonsquare rand p 80 2 with
        | none => none
        | some none => some none
        | some (some y) => sqrtTonelli A p y e

end Ossl
