import Mathlib.Tactic.Ring
import OpenSSL.Bn.Values

/- Division by a reciprocal, as in crypto/bn/bn_recp.c. -/
namespace Ossl
open Nat BnValue Int

structure RecpCtx where
  N : Int
  Nr : Int
  numBits : Nat
  shift : Int
  deriving DecidableEq

def bnReciprocal (m : Int) (len : Nat) : Option Int :=
  if m = 0 then none else some (divRem (2 ^ len) m).1

def recpEstimate (m : Int) (recp : RecpCtx) (i : Nat) : Int :=
  (rshift (rshift m recp.numBits * recp.Nr) (i - recp.numBits)).natAbs

def recpCorrect (N : Int) : Nat → Int → Int → Option (Int × Int)
  | 0, d, r => if r.natAbs < N.natAbs then some (d, r) else none
  | left + 1, d, r =>
    if r.natAbs < N.natAbs then some (d, r) else recpCorrect N left (d + 1) (usub r N)

def recpShift (m : Int) (recp : RecpCtx) : Nat := max (numBits m) (recp.numBits * 2)

def recpRenew (i : Nat) (recp : RecpCtx) : RecpCtx :=
  if (i : Int) = recp.shift then recp
  else
    match bnReciprocal recp.N i with
    | none => { recp with shift := -1 }
    | some Nr => { recp with Nr := Nr, shift := i }

def bnDivRecp (m : Int) (recp : RecpCtx) : Option (Int × Int) × RecpCtx :=
  if m.natAbs < recp.N.natAbs then (some (0, m), recp)
  else
    let i := recpShift m recp
    let recp := recpRenew i recp
    if recp.shift = -1 then (none, recp)
    else
      let d := recpEstimate m recp i
      let b := recp.N * d
      if m.natAbs < b.natAbs then (none, recp)
      else
        match recpCorrect recp.N 3 d (usub m b) with
        | none => (none, recp)
        | some (d, r) =>
          (some (if (m < 0) ≠ (recp.N < 0) then -d else d, if m < 0 then -r else r), recp)

section Estimate
variable {M D n i : Nat}

end Estimate

variable {N m : Int} {recp : RecpCtx}

/-- A context for N after some divisions. -/
def divided (N : Int) (before : List Int) : RecpCtx :=
  before.foldl (fun recp x => (bnDivRecp x recp).2) ⟨N, 0, numBits N, 0⟩

end Ossl
