import Mathlib.Algebra.BigOperators.Group.Finset.Basic
import Mathlib.Algebra.Order.BigOperators.Group.Multiset
import Mathlib.Algebra.Order.Group.Nat

/- A ledger of items on the shelves of several places. What was entered is on a shelf or has left
   under some tag, once and only once; a total weight follows every move. -/
namespace Ledger
open Prod
variable {Place Item Tag : Type*}

def weigh (weight : Item → Nat) (items : Multiset Item) : Nat := (items.map weight).sum

@[simp] theorem weigh_add (weight : Item → Nat) (xs ys : Multiset Item) :
    weigh weight (xs + ys) = weigh weight xs + weigh weight ys := by
  simp [weigh]

@[simp] theorem weigh_zero (weight : Item → Nat) : weigh weight 0 = 0 := rfl

theorem weigh_coe_cons (weight : Item → Nat) (x : Item) (xs : List Item) :
    weigh weight (x :: xs : List Item) = weight x + weigh weight (xs : Multiset Item) := by
  simp [weigh]

section Shelves
variable [Fintype Place]

def held (shelf : Place → List Item) : Multiset Item := ∑ p, (shelf p : Multiset Item)

variable {shelf : Place → List Item}

variable {x : Item} {after : Place → List Item} {p : Place}

theorem mem_held : x ∈ held shelf ↔ ∃ p, x ∈ shelf p := by
  simp [held, Multiset.mem_sum]

theorem held_of_leave [DecidableEq Place] {gone : List Item}
    (here : (shelf p).Perm (gone ++ after p)) (elsewhere : ∀ q, q ≠ p → after q = shelf q) :
    held shelf = gone + held after := by
  have rest : ∑ q ∈ Finset.univ.erase p, (shelf q : Multiset Item) =
      ∑ q ∈ Finset.univ.erase p, (after q : Multiset Item) :=
    Finset.sum_congr rfl (fun q hq => by rw [elsewhere q (Finset.ne_of_mem_erase hq)])
  unfold held
  rw [← Finset.add_sum_erase _ _ (Finset.mem_univ p), rest,
    ← Finset.add_sum_erase _ (fun q => (after q : Multiset Item)) (Finset.mem_univ p), ← add_assoc]
  congr 1
  rw [Multiset.coe_add]
  exact Multiset.coe_eq_coe.mpr here

theorem held_of_enter [DecidableEq Place] (here : after p = shelf p ++ [x])
    (elsewhere : ∀ q, q ≠ p → after q = shelf q) : held after = held shelf + {x} := by
  have perm : (after p).Perm ([x] ++ shelf p) := by rw [here]; exact List.perm_append_comm
  rw [held_of_leave perm (fun q hq => (elsewhere q hq).symm), add_comm]
  rfl

end Shelves

/-- The entered items are those held and those that left. -/
def Balanced (entered stock : Multiset Item) (gone : List (Tag × Item)) : Prop :=
  entered = stock + (gone.map snd : List Item)

theorem balanced_empty : Balanced (0 : Multiset Item) 0 ([] : List (Tag × Item)) := rfl

variable {entered stock : Multiset Item} {gone : List (Tag × Item)}

theorem balanced_enter (bal : Balanced entered stock gone) (x : Item) :
    Balanced (entered + {x}) (stock + {x}) gone := by
  unfold Balanced at *
  rw [bal, add_right_comm]

variable {after : Multiset Item}

theorem balanced_leave {more : List (Tag × Item)} (bal : Balanced entered stock gone)
    (leaves : stock = (more.map snd : List Item) + after) :
    Balanced entered after (gone ++ more) := by
  unfold Balanced at *
  rw [bal, leaves, List.map_append, ← Multiset.coe_add, add_comm _ after, add_assoc,
    add_comm ((more.map snd : List Item) : Multiset Item)]

/-- With nothing entered in between, what is held before is held after or has left. -/
theorem balanced_stock {more : List (Tag × Item)} (first : Balanced entered stock gone)
    (second : Balanced entered after (gone ++ more)) :
    stock = (more.map snd : List Item) + after := by
  unfold Balanced at first second
  rw [List.map_append, ← Multiset.coe_add, add_left_comm, first, add_comm stock] at second
  rw [add_left_cancel second, add_comm]

end Ledger
