import Mathlib.Algebra.Field.Basic
import Mathlib.Tactic.LinearCombination
import Mathlib.Tactic.Ring

/- Square roots in a field out of powers: for one element whose order is nearly
   odd at once, and else by the rounds of Tonelli and Shanks. -/
namespace TonelliShanks

variable {F : Type*} [Field F]

variable {a b : F}

variable {e i k : Nat} {x y : F}

theorem easy_root (half : a = 0 ∨ a ^ (2 * k + 1) = 1) : (a ^ (k + 1)) ^ 2 = a := by
  cases half with
  | inl zero => rw [zero, zero_pow (by omega), zero_pow (by decide)]
  | inr one =>
    calc (a ^ (k + 1)) ^ 2 = a ^ (2 * k + 1) * a := by ring
      _ = a := by rw [one, one_mul]

theorem atkin_root (half : a = 0 ∨ (2 * a) ^ (4 * k + 2) = -1) :
    (a * (2 * a) ^ k * (2 * a * ((2 * a) ^ k) ^ 2 - 1)) ^ 2 = a := by
  cases half with
  | inl zero =>
    rw [zero]
    ring
  | inr minus =>
    generalize power : (2 * a) ^ k = b
    have square : (2 * a * b ^ 2) ^ 2 = -1 := by
      rw [← power, ← minus]
      ring
    linear_combination (a ^ 2 * b ^ 2 - a) * square

structure Keeps (a : F) (e : Nat) (x y b : F) : Prop where
  some_ : 1 ≤ e
  square : x ^ 2 = a * b
  order : y ^ 2 ^ (e - 1) = -1
  power : b ^ 2 ^ (e - 1) = 1

structure LeastSquarings (b : F) (i : Nat) : Prop where
  some_ : 1 ≤ i
  one : b ^ 2 ^ i = 1
  below : ∀ k, 1 ≤ k → k < i → b ^ 2 ^ k ≠ 1

/-- One squaring less gives minus one. -/
theorem least_half (least : LeastSquarings b i) (other : b ≠ 1) : b ^ 2 ^ (i - 1) = -1 := by
  have split_ : i = i - 1 + 1 := by have := least.some_; omega
  have square : (b ^ 2 ^ (i - 1)) * (b ^ 2 ^ (i - 1)) = 1 := by
    rw [← pow_two, ← pow_mul, ← pow_succ, ← split_]
    exact least.one
  cases mul_self_eq_one_iff.mp square with
  | inr minus => exact minus
  | inl one =>
    by_cases first : i = 1
    · rw [first, Nat.sub_self, pow_zero, pow_one] at one
      contradiction
    · exact absurd one (least.below (i - 1) (by omega) (by omega))

/-- There are rounds to go while b is not one. -/
theorem least_exists (keeps : Keeps a e x y b) (other : b ≠ 1)
    (none_ : ∀ k, 1 ≤ k → k < e → b ^ 2 ^ k ≠ 1) : False := by
  have power := keeps.power
  have some_ := keeps.some_
  by_cases first : e = 1
  · rw [first, Nat.sub_self, pow_zero, pow_one] at power
    contradiction
  · exact none_ (e - 1) (by omega) (by omega) power

/-- A round makes the order of y smaller. -/
theorem keeps_step {t : F} (keeps : Keeps a e x y b) (other : b ≠ 1) (least : LeastSquarings b i)
    (below : i < e) (power : t = y ^ 2 ^ (e - i - 1)) :
    Keeps a i (x * t) (t * t) (b * (t * t)) := by
  have some_ := least.some_
  have root : (t * t) ^ 2 ^ (i - 1) = -1 := by
    have exponent : 2 ^ (e - i - 1) * (2 * 2 ^ (i - 1)) = 2 ^ (e - 1) := by
      rw [← pow_succ', ← pow_add]
      congr 1
      omega
    rw [power, ← pow_two, ← pow_mul, ← pow_mul, exponent]
    exact keeps.order
  refine ⟨some_, ?_, root, ?_⟩
  · linear_combination t ^ 2 * keeps.square
  · rw [mul_pow, root, least_half least other]
    ring

end TonelliShanks
