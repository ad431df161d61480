import Mathlib.Tactic.LinearCombination
import OpenSSL.Lib.Digits

/- Passes over the digits of numbers that carry something from one digit to the next. -/
namespace CarryChain
open List Digits
variable {α C : Type}

/-- From the least significant digits up. -/
def up (f : α → α → C → α × C) : List α → List α → C → List α × C
  | x :: xs, y :: ys, c =>
    let (w, c) := f x y c
    let (ws, c) := up f xs ys c
    (w :: ws, c)
  | _, _, c => ([], c)

/-- From the most significant digit, which is the last one, down. -/
def down (f : α → C → α × C) : List α → C → List α × C
  | [], c => ([], c)
  | x :: xs, c =>
    let (ws, c) := down f xs c
    let (w, c) := f x c
    (w :: ws, c)

theorem up_cons (f : α → α → C → α × C) (x y : α) (xs ys : List α) (c : C) :
    up f (x :: xs) (y :: ys) c =
      ((f x y c).1 :: (up f xs ys (f x y c).2).1, (up f xs ys (f x y c).2).2) := rfl

theorem down_cons (f : α → C → α × C) (x : α) (xs : List α) (c : C) :
    down f (x :: xs) c =
      ((f x (down f xs c).2).1 :: (down f xs c).1, (f x (down f xs c).2).2) := rfl

variable {xs ys : List α} {c : C}

theorem up_length (f : α → α → C → α × C) (same : xs.length = ys.length) (c : C) :
    (up f xs ys c).1.length = xs.length := by
  induction xs generalizing ys c with
  | nil => cases ys <;> rfl
  | cons x xs ih =>
    cases ys with
    | nil => simp at same
    | cons y ys =>
      rw [up_cons, length_cons, length_cons, ih (by simpa using same)]

theorem down_length (f : α → C → α × C) (xs : List α) (c : C) :
    (down f xs c).1.length = xs.length := by
  induction xs with
  | nil => rfl
  | cons x xs ih => rw [down_cons, length_cons, length_cons, ih]

/-- The digits above are passed over before the ones below. -/
theorem down_append (f : α → C → α × C) (xs ys : List α) (c : C) :
    down f (xs ++ ys) c =
      ((down f xs (down f ys c).2).1 ++ (down f ys c).1, (down f xs (down f ys c).2).2) := by
  induction xs with
  | nil => rfl
  | cons x xs ih => rw [cons_append, down_cons, ih, down_cons, cons_append]

variable (b : Nat) (digit : α → Nat)

/-- If each step gives back what it takes in, so does the pass up. -/
theorem up_value {f : α → α → C → α × C} (carry : C → Int) (ok : C → Prop) (p q : Int)
    (step : ∀ x y c, ok c → ok (f x y c).2 ∧
      (digit (f x y c).1 : Int) + b * carry (f x y c).2 = p * digit x + q * digit y + carry c)
    (same : xs.length = ys.length) (start : ok c) : ok (up f xs ys c).2 ∧
      (value b digit (up f xs ys c).1 : Int) + b ^ xs.length * carry (up f xs ys c).2 =
        p * value b digit xs + q * value b digit ys + carry c := by
  induction xs generalizing ys c with
  | nil =>
    have none_ : ys = [] := length_eq_zero_iff.mp same.symm
    subst none_
    exact ⟨start, by simp [up]⟩
  | cons x xs ih =>
    cases ys with
    | nil => simp at same
    | cons y ys =>
      obtain ⟨next, first⟩ := step x y c start
      obtain ⟨last, rest⟩ := ih (show xs.length = ys.length by simpa using same) next
      refine ⟨last, ?_⟩
      rw [up_cons]
      simp only [value_cons, length_cons]
      push_cast
      linear_combination (b : Int) * rest + first

/-- If each step divides what comes from above and its digit, so does the pass down. -/
theorem down_value {f : α → C → α × C} (carry : C → Nat) (ok : C → Prop) (d m : Nat)
    (step : ∀ x c, ok c → ok (f x c).2 ∧
      d * digit (f x c).1 + carry (f x c).2 = b * carry c + m * digit x) (xs : List α)
    (start : ok c) : ok (down f xs c).2 ∧
      d * value b digit (down f xs c).1 + carry (down f xs c).2 =
        b ^ xs.length * carry c + m * value b digit xs := by
  induction xs with
  | nil => exact ⟨start, by simp [down]⟩
  | cons x xs ih =>
    obtain ⟨next, above⟩ := ih
    obtain ⟨last, here⟩ := step x (down f xs c).2 next
    refine ⟨last, ?_⟩
    rw [down_cons]
    simp only [value_cons, length_cons]
    linear_combination b * above + here

end CarryChain
