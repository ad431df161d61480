import Mathlib.Algebra.Order.Ring.Nat
import Mathlib.Tactic.Linarith
import Mathlib.Tactic.Ring

/- Quotients of long numbers, estimated from their leading parts. -/
namespace KnuthDivision
variable {b p q u v ul vl : Nat}

/-- The quotient of the leading parts is the quotient, or one too large. -/
theorem leading_near (lowV : vl < p) (lowU : ul < p) (most : q * v ≤ u) (least : u < (q + 1) * v)
    (small : q ≤ b) (large : b ≤ v) :
    (u * p + ul) / (v * p + vl) ≤ q ∧ q ≤ (u * p + ul) / (v * p + vl) + 1 := by
  have pos : 0 < v * p + vl := by
    have : 0 < v := by
      by_contra none_
      have zero : v = 0 := by omega
      rw [zero] at least
      omega
    have := mul_pos this (by omega : 0 < p)
    omega
  constructor
  · apply Nat.le_of_lt_succ
    rw [Nat.div_lt_iff_lt_mul pos]
    calc u * p + ul
        < (u + 1) * p := by
          rw [add_mul, one_mul]
          omega
      _ ≤ (q + 1) * v * p := Nat.mul_le_mul_right p least
      _ ≤ (q + 1) * (v * p + vl) := by
          rw [mul_assoc]
          exact Nat.mul_le_mul_left _ (Nat.le_add_right _ _)
  · by_cases none_ : q = 0
    · rw [none_]
      exact Nat.zero_le _
    · have back : q - 1 ≤ (u * p + ul) / (v * p + vl) := by
        rw [Nat.le_div_iff_mul_le pos]
        obtain ⟨k, rfl⟩ := Nat.exists_eq_succ_of_ne_zero none_
        rw [Nat.succ_sub_one]
        have first : (k + 1) * v * p ≤ u * p := Nat.mul_le_mul_right p most
        have second : k * vl ≤ k * p := Nat.mul_le_mul_left k (le_of_lt lowV)
        have third : k * p ≤ v * p := Nat.mul_le_mul_right p (by omega)
        calc k * (v * p + vl)
            = k * v * p + k * vl := by ring
          _ ≤ k * v * p + v * p := by omega
          _ = (k + 1) * v * p := by ring
          _ ≤ u * p + ul := by omega
      omega

/-- With equal leading digits, the largest digit is the quotient, or one too large, if the divisor
    begins with a large digit. -/
theorem equal_near {d : Nat} (normal : b ≤ 2 * d) (lowV : vl < p) (least : d * (b * p) ≤ u)
    (less : u < b * (d * p + vl)) :
    u / (d * p + vl) ≤ b - 1 ∧ b - 1 ≤ u / (d * p + vl) + 1 := by
  have pos : 0 < d * p + vl := by
    by_contra none_
    have zero : d * p + vl = 0 := by omega
    rw [zero, mul_zero] at less
    omega
  constructor
  · have := (Nat.div_lt_iff_lt_mul pos).mpr less
    omega
  · by_cases tiny : b ≤ 2
    · exact le_trans (by omega : b - 1 ≤ 1) (Nat.le_add_left _ _)
    · have back : b - 2 ≤ u / (d * p + vl) := by
        rw [Nat.le_div_iff_mul_le pos]
        obtain ⟨k, rfl⟩ := Nat.exists_eq_add_of_le (by omega : 2 ≤ b)
        rw [Nat.add_sub_cancel_left]
        have second : k * vl ≤ k * p := Nat.mul_le_mul_left k (le_of_lt lowV)
        have third : k * p ≤ 2 * d * p := Nat.mul_le_mul_right p (by omega)
        calc k * (d * p + vl)
            = k * d * p + k * vl := by ring
          _ ≤ k * d * p + 2 * d * p := by omega
          _ = d * ((2 + k) * p) := by ring
          _ ≤ u := least
      omega

end KnuthDivision
