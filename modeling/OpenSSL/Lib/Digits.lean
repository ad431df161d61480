import Mathlib.Data.Nat.Digits.Defs
import Mathlib.Tactic.Ring

/- Numbers as digits of a type with a largest one, the least significant first. -/
namespace Digits
open Nat
variable {α : Type} (b : Nat) (digit : α → Nat)

def value (ds : List α) : Nat := ofDigits b (ds.map digit)

@[simp] theorem value_nil : value b digit [] = 0 := rfl

@[simp] theorem value_cons (d : α) (ds : List α) :
    value b digit (d :: ds) = digit d + b * value b digit ds := by
  simp [value, ofDigits_cons]

theorem value_append (low high : List α) :
    value b digit (low ++ high) = value b digit low + b ^ low.length * value b digit high := by
  simp [value, ofDigits_append]

theorem value_concat (ds : List α) (d : α) :
    value b digit (ds ++ [d]) = value b digit ds + b ^ ds.length * digit d := by
  rw [value_append, value_cons, value_nil, mul_zero, add_zero]

theorem value_zeros {ds : List α} (zeros : ∀ d ∈ ds, digit d = 0) : value b digit ds = 0 := by
  induction ds with
  | nil => exact value_nil b digit
  | cons d ds ih =>
    rw [value_cons, zeros d (by simp), ih (by intro x hx; exact zeros x (by simp [hx]))]
    simp

variable {b digit}

variable (small : ∀ d, digit d < b)
include small

theorem value_lt (ds : List α) : value b digit ds < b ^ ds.length := by
  induction ds with
  | nil => simp
  | cons d ds ih =>
    have first := small d
    rw [value_cons, List.length_cons, pow_succ]
    calc digit d + b * value b digit ds
        < b + b * value b digit ds := by omega
      _ = (value b digit ds + 1) * b := by ring
      _ ≤ b ^ ds.length * b := mul_le_mul_right b ih

theorem value_split (ds : List α) (k : Nat) (within : k ≤ ds.length) :
    value b digit (ds.take k) = value b digit ds % b ^ k ∧
      value b digit (ds.drop k) = value b digit ds / b ^ k := by
  have low := value_lt small (ds.take k)
  have whole := value_append b digit (ds.take k) (ds.drop k)
  rw [List.take_append_drop] at whole
  rw [List.length_take, min_eq_left within] at low whole
  rw [whole, add_mul_mod_self_left, mod_eq_of_lt low,
    add_mul_div_left _ _ (by omega), div_eq_of_lt low, zero_add]
  exact ⟨rfl, rfl⟩

theorem digit_get (ds : List α) (k : Nat) (within : k < ds.length) :
    digit (ds[k]) = value b digit ds / b ^ k % b := by
  rw [← (value_split small ds k (by omega)).2, List.drop_eq_getElem_cons within, value_cons,
    add_mul_mod_self_left, mod_eq_of_lt (small _)]

theorem value_inj (apart : ∀ d e, digit d = digit e → d = e) {xs ys : List α}
    (same : xs.length = ys.length) (equal : value b digit xs = value b digit ys) : xs = ys := by
  induction xs generalizing ys with
  | nil => exact (List.length_eq_zero_iff.mp same.symm).symm
  | cons x xs ih =>
    cases ys with
    | nil => simp at same
    | cons y ys =>
      rw [value_cons, value_cons] at equal
      have first : digit x = digit y := by
        rw [← mod_eq_of_lt (small x), ← mod_eq_of_lt (small y),
          ← add_mul_mod_self_left (digit x) b (value b digit xs),
          ← add_mul_mod_self_left (digit y) b (value b digit ys), equal]
      have rest : value b digit xs = value b digit ys := by
        have base := small x
        apply Nat.eq_of_mul_eq_mul_left (by omega : 0 < b)
        omega
      rw [apart x y first, ih (by simpa using same) rest]

end Digits
