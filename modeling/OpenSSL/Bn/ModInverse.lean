import OpenSSL.Bn.Values
import OpenSSL.Lib.Rounds

/- Modular inversion, as in crypto/bn/bn_gcd.c: three loops for one answer. -/
namespace Ossl
open BnValue Rounds

structure Inversion where
  A : Int
  B : Int
  X : Int
  Y : Int
  sign : Int
  deriving DecidableEq

def startInversion (a n : Int) : Inversion :=
  let A : Int := n.natAbs
  { A := A, B := if a < 0 ∨ A ≤ a.natAbs then nnmod a A else a, X := 1, Y := 0, sign := -1 }

def Inversion.turn (s : Inversion) (D M product : Int) : Inversion :=
  { A := s.B, B := M, X := product + s.Y, Y := s.X, sign := -s.sign }

def noBranchRound (s : Inversion) : Inversion ⊕ Inversion :=
  if s.B = 0 then .inl s
  else
    let (D, M) := divRem s.A s.B
    .inr (s.turn D M (D * s.X))

def shortDivRem (A B : Int) : Int × Int :=
  if numBits A = numBits B then (1, A - B)
  else if numBits A = numBits B + 1 then
    let T := lshift B 1
    if A.natAbs < T.natAbs then (1, A - B)
    else
      let M := A - T
      let D := T + B
      if A.natAbs < D.natAbs then (2, M) else (3, M - B)
  else divRem A B

def shortProduct (D X : Int) : Int :=
  if D = 1 then X
  else if D = 2 then lshift X 1
  else if D = 4 then lshift X 2
  else if oneWord D then X * lsw D
  else D * X

def generalRound (s : Inversion) : Inversion ⊕ Inversion :=
  if s.B = 0 then .inl s
  else
    let (D, M) := shortDivRem s.A s.B
    .inr (s.turn D M (shortProduct D s.X))

/- One of the rounds that take the powers of two out of B, the number of them
   and the cofactor beside it. -/
def halveRound (n B : Int) (s : Nat × Int) : (Nat × Int) ⊕ (Nat × Int) :=
  if isBitSet B s.1 then .inl s
  else .inr (s.1 + 1, rshift1 (if isOdd s.2 then uadd s.2 n else s.2))

def takeTwos (n B X : Int) : Option (Int × Int) :=
  (rounds (halveRound n B) (numBits B + 1) (0, X)).map fun (shift, X) =>
    (if 0 < shift then rshift B shift else B, X)

def binaryRound (n : Int) (s : Inversion) : Option Inversion ⊕ Inversion :=
  if s.B = 0 then .inl (some s)
  else
    match takeTwos n s.B s.X, takeTwos n s.A s.Y with
    | some (B, X), some (A, Y) =>
      if A.natAbs ≤ B.natAbs then .inr { s with A := A, Y := Y, B := usub B A, X := uadd X Y }
      else .inr { s with B := B, X := X, A := usub A B, Y := uadd Y X }
    | _, _ => .inl none

inductive InverseAlgorithm where
  | binary
  | general
  | noBranch
  deriving DecidableEq

def inverseLoop (algorithm : InverseAlgorithm) (n : Int) (s : Inversion) : Option Inversion :=
  let fuel := s.A.natAbs + s.B.natAbs + 1
  match algorithm with
  | .binary => (rounds (binaryRound n) fuel s).join
  | .general => rounds generalRound fuel s
  | .noBranch => rounds noBranchRound fuel s

structure InverseResult where
  value : Option Int
  noinv : Bool
  deriving DecidableEq

def finishInverse (n : Int) (s : Inversion) : InverseResult :=
  let Y := if s.sign < 0 then n - s.Y else s.Y
  if s.A = 1 then
    ⟨some (if 0 ≤ Y ∧ Y.natAbs < n.natAbs then Y else nnmod Y n), false⟩
  else ⟨none, true⟩

def inverseBy (algorithm : InverseAlgorithm) (a n : Int) : Option InverseResult :=
  (inverseLoop algorithm n (startInversion a n)).map (finishInverse n)

def intBnModInverse (constTime : Bool) (a n : Int) : Option InverseResult :=
  if absIsWord n 1 ∨ n = 0 then some ⟨none, true⟩
  else if constTime then inverseBy .noBranch a n
  else if isOdd n ∧ numBits n ≤ 2048 then inverseBy .binary a n
  else inverseBy .general a n

def bnModInverse (constTime : Bool) (a n : Int) : Option (Option Int) :=
  (intBnModInverse constTime a n).map InverseResult.value

end Ossl
