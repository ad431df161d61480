import Mathlib.Algebra.Group.Nat.Defs
import Mathlib.Tactic.Common

/- The unsigned 64-bit arithmetic of the C code, on Nat with explicit wrap.
   uint64_t and size_t are both 64 bits wide here. -/
namespace Ossl

def addU64 (a b : Nat) : Nat := (a + b) % 2 ^ 64
def subU64 (a b : Nat) : Nat := (a + (2 ^ 64 - b % 2 ^ 64)) % 2 ^ 64
def mulU64 (a b : Nat) : Nat := a * b % 2 ^ 64
def maxU64 : Nat := 2 ^ 64 - 1

variable {a b : Nat}

theorem addU64_exact (fits : a + b < 2 ^ 64) : addU64 a b = a + b := Nat.mod_eq_of_lt fits

theorem subU64_exact (fits : a < 2 ^ 64) (le : b ≤ a) : subU64 a b = a - b := by
  unfold subU64; omega

theorem addU64_lt (a b : Nat) : addU64 a b < 2 ^ 64 := Nat.mod_lt _ (by decide)

/- A wrapped counter follows a sum that may exceed it. -/
theorem addU64_mod (sum n : Nat) : addU64 (sum % 2 ^ 64) n = (sum + n) % 2 ^ 64 := by
  unfold addU64; omega

theorem subU64_mod (sum n : Nat) : subU64 ((sum + n) % 2 ^ 64) n = sum % 2 ^ 64 := by
  unfold subU64; omega

/- The helpers of safe_math.h return the wrapped result and an error flag. -/
def safeAddU64 (a b : Nat) : Nat × Bool := (addU64 a b, decide (2 ^ 64 ≤ a + b))
def safeSubU64 (a b : Nat) : Nat × Bool := (subU64 a b, decide (a < b))
def safeMulU64 (a b : Nat) : Nat × Bool := (mulU64 a b, decide (2 ^ 64 ≤ a * b))
def safeDivU64 (a b : Nat) : Nat × Bool := if b ≠ 0 then (a / b, false) else (maxU64, true)

def safeMuldivU64 (a b c : Nat) : Nat × Bool :=
  if c = 0 then (if a = 0 ∨ b = 0 then 0 else maxU64, true)
  else
    let x := safeMulU64 a b
    if x.2 = false then (x.1 / c, false)
    else
      -- the larger numerator is divided first
      let (a, b) := if a < b then (b, a) else (a, b)
      let x := safeMulU64 (a % c) b
      let y := safeMulU64 (a / c) b
      let sum := safeAddU64 y.1 (x.1 / c)
      (sum.1, x.2 || y.2 || sum.2)

end Ossl
