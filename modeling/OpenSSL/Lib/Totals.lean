import Mathlib.Algebra.GroupWithZero.Nat
import Mathlib.Algebra.BigOperators.Group.List.Basic
import Mathlib.Algebra.Order.BigOperators.Group.List

/- The total of a quantity over the members of a list, as members come and change. -/
namespace Totals
variable {Member : Type*}

def total (amount : Member → Nat) (members : List Member) : Nat := (members.map amount).sum

@[simp] theorem total_nil (amount : Member → Nat) : total amount [] = 0 := rfl

@[simp] theorem total_cons (amount : Member → Nat) (x : Member) (xs : List Member) :
    total amount (x :: xs) = amount x + total amount xs := rfl

theorem total_append (amount : Member → Nat) (xs ys : List Member) :
    total amount (xs ++ ys) = total amount xs + total amount ys := by
  induction xs with
  | nil => simp
  | cons x xs ih => simp [ih, add_assoc]

variable {xs : List Member}

theorem total_le_total {amount larger : Member → Nat} (le : ∀ x ∈ xs, amount x ≤ larger x) :
    total amount xs ≤ total larger xs := by
  induction xs with
  | nil => exact le_refl _
  | cons x xs ih =>
    have first := le x (by simp)
    have later := ih (fun y member => le y (by simp [member]))
    rw [total_cons, total_cons]
    omega

/-- A member that changes moves the total by the same amount. -/
theorem total_set (amount : Member → Nat) {i : Nat} {x : Member} (here : xs[i]? = some x)
    (y : Member) : total amount (xs.set i y) + amount x = total amount xs + amount y := by
  induction xs generalizing i with
  | nil => simp at here
  | cons z zs ih =>
    cases i with
    | zero =>
      obtain rfl := Option.some.inj here
      simp only [List.set_cons_zero, total_cons]
      omega
    | succ n =>
      have later := ih (by simpa using here)
      simp only [List.set_cons_succ, total_cons]
      omega

theorem forall_set {Good : Member → Prop} (all : ∀ x ∈ xs, Good x) (i : Nat) {y : Member}
    (good : Good y) : ∀ x ∈ xs.set i y, Good x := by
  intro x member
  rcases List.mem_or_eq_of_mem_set member with old | rfl
  · exact all x old
  · exact good

end Totals
