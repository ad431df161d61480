import Mathlib.Algebra.Group.Nat.Defs

/- Words that are all ones or zero, in place of conditions. -/
namespace Ossl
open Nat

def constantTimeMsbS (a : UInt64) : UInt64 := (0 : UInt64) - (a >>> 63)

def constantTimeLtS (a b : UInt64) : UInt64 :=
  constantTimeMsbS (a ^^^ ((a ^^^ b) ||| ((a - b) ^^^ b)))

def constantTimeGeS (a b : UInt64) : UInt64 := ~~~constantTimeLtS a b

def constantTimeGe8S (a b : UInt64) : UInt8 := (constantTimeGeS a b).toUInt8

def constantTimeIsZeroS (a : UInt64) : UInt64 := constantTimeMsbS (~~~a &&& (a - 1))

def constantTimeEqS (a b : UInt64) : UInt64 := constantTimeIsZeroS (a ^^^ b)

/- The same for an unsigned int. -/
def constantTimeIsZero (a : UInt32) : UInt32 := (0 : UInt32) - ((~~~a &&& (a - 1)) >>> 31)

def constantTimeEq8 (a b : UInt32) : UInt8 := (constantTimeIsZero (a ^^^ b)).toUInt8

def constantTimeSelect8 (mask a b : UInt8) : UInt8 := (mask &&& a) ||| (~~~mask &&& b)

/-- The word that stands for a condition. -/
def ones (p : Prop) [Decidable p] : UInt64 := if p then 0 - 1 else 0

variable (a b : UInt64)

theorem msb_eq : constantTimeMsbS a = ones (2 ^ 63 ≤ a.toNat) := by
  have word := a.toNat_lt
  have shifted : (a >>> 63).toNat = a.toNat / 2 ^ 63 := by
    rw [UInt64.toNat_shiftRight, shiftRight_eq_div_pow]
    rfl
  unfold constantTimeMsbS ones
  split
  · have one : a >>> 63 = 1 := by
      apply UInt64.toNat_inj.mp
      rw [shifted]
      change _ = 1
      omega
    rw [one]
  · have none_ : a >>> 63 = 0 := by
      apply UInt64.toNat_inj.mp
      rw [shifted]
      change _ = 0
      omega
    rw [none_]
    decide

theorem isZeroS_eq : constantTimeIsZeroS a = ones (a = 0) := by
  rw [constantTimeIsZeroS, msb_eq]
  by_cases zero : a = 0
  · rw [zero]
    decide
  · have pos : a.toNat ≠ 0 := by
      intro is
      exact zero (UInt64.toNat_inj.mp is)
    have low : (~~~a &&& (a - 1)).toNat < 2 ^ 63 := by
      rw [UInt64.toNat_and]
      by_cases high : 2 ^ 63 ≤ a.toNat
      · have inverted : (~~~a).toNat < 2 ^ 63 := by
          rw [UInt64.toNat_not, UInt64.size]
          omega
        exact Nat.lt_of_le_of_lt and_le_left inverted
      · have before : (a - 1).toNat < 2 ^ 63 := by
          rw [UInt64.toNat_sub]
          change (2 ^ 64 - 1 + a.toNat) % 2 ^ 64 < 2 ^ 63
          omega
        exact Nat.lt_of_le_of_lt and_le_right before
    rw [ones, ones, if_neg (by omega), if_neg zero]

theorem eqS_eq : constantTimeEqS a b = ones (a = b) := by
  have same : a ^^^ b = 0 ↔ a = b := by
    constructor
    · intro zero
      have := congrArg (· ^^^ b) zero
      simpa [UInt64.xor_assoc] using this
    · rintro rfl
      exact UInt64.xor_self
  rw [constantTimeEqS, isZeroS_eq]
  simp only [ones, same]

/-- The highest bit decides, and where both numbers have it, the difference does. -/
theorem ltS_eq : constantTimeLtS a b = ones (a < b) := by
  have wordA := a.toNat_lt
  have wordB := b.toNat_lt
  have high (x : UInt64) : 2 ^ 63 ≤ x.toNat ↔ x.toNat.testBit 63 = true := by
    have word := x.toNat_lt
    rw [testBit_eq_decide_div_mod_eq, decide_eq_true_eq]
    omega
  have iff : 2 ^ 63 ≤ (a ^^^ ((a ^^^ b) ||| ((a - b) ^^^ b))).toNat ↔ a < b := by
    rw [high, UInt64.toNat_xor, UInt64.toNat_or, UInt64.toNat_xor, UInt64.toNat_xor,
      testBit_xor, testBit_or, testBit_xor, testBit_xor]
    have bitA := high a
    have bitB := high b
    have bitD := high (a - b)
    have difference : (a - b).toNat + b.toNat = a.toNat ∨
        (a - b).toNat + b.toNat = a.toNat + 2 ^ 64 := by
      rw [UInt64.toNat_sub]
      omega
    have wordD := (a - b).toNat_lt
    rw [UInt64.lt_iff_toNat_lt]
    generalize (a - b).toNat = d at *
    generalize a.toNat = x at *
    generalize b.toNat = y at *
    cases isA : x.testBit 63 <;> cases isB : y.testBit 63 <;> cases isD : d.testBit 63 <;>
      simp only [isA, isB, isD, iff_true, iff_false, reduceCtorEq] at bitA bitB bitD <;>
      simp only [Bool.xor_false, Bool.xor_true, Bool.or_true, Bool.or_false, Bool.not_true,
        Bool.not_false, true_iff, false_iff, reduceCtorEq] <;>
      omega
  rw [constantTimeLtS, msb_eq]
  simp only [ones, iff]

theorem geS_eq : constantTimeGeS a b = ones (b ≤ a) := by
  rw [constantTimeGeS, ltS_eq]
  unfold ones
  by_cases less : a < b
  · rw [if_pos less, if_neg (UInt64.not_le.mpr less)]
    decide
  · rw [if_neg less, if_pos (UInt64.not_lt.mp less)]
    decide

section Masks
variable {p : Prop} [Decidable p] (a : UInt64)

theorem and_ones_eq : a &&& ones p = if p then a else 0 := by
  unfold ones
  split
  · apply UInt64.toBitVec_inj.mp
    simp
  · exact UInt64.and_zero

theorem ones_and_eq : ones p &&& a = if p then a else 0 := by
  rw [UInt64.and_comm, and_ones_eq]

end Masks

end Ossl
