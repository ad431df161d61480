import Mathlib.Data.List.Perm.Basic
import Mathlib.Data.List.Nodup
import Mathlib.Data.List.Range
import Mathlib.Logic.Equiv.Basic

/- Binary heaps laid out in an array, here a function of the index: what sifting an
   item up or down leaves in order, for any preorder `le`. -/
namespace BinHeap
open List Function
variable {Item : Type*}

def parent (i : Nat) : Nat := (i - 1) / 2

def swapAt (f : Nat → Item) (i j : Nat) : Nat → Item := update (update f i (f j)) j (f i)

theorem swapAt_right (f : Nat → Item) (i j : Nat) : swapAt f i j j = f i := update_self ..

theorem swapAt_left (f : Nat → Item) (i j : Nat) : swapAt f i j i = f j := by
  by_cases same : i = j
  · subst same
    exact swapAt_right f i i
  · rw [swapAt, update_of_ne same, update_self]

variable {c i j : Nat}

theorem swapAt_other (f : Nat → Item) {k : Nat} (left : k ≠ i) (right : k ≠ j) :
    swapAt f i j k = f k := by
  rw [swapAt, update_of_ne right, update_of_ne left]

def items (size : Nat) (f : Nat → Item) : List Item := (List.range size).map f

theorem mem_items {size : Nat} {f : Nat → Item} {x : Item} :
    x ∈ items size f ↔ ∃ i, i < size ∧ f i = x := by
  simp [items]

theorem items_length (size : Nat) (f : Nat → Item) : (items size f).length = size := by
  simp [items]

theorem items_succ (size : Nat) (f : Nat → Item) :
    items (size + 1) f = items size f ++ [f size] := by
  simp [items, range_succ]

theorem items_congr {size : Nat} {f g : Nat → Item} (same : ∀ i, i < size → f i = g i) :
    items size f = items size g := by
  apply map_congr_left
  intro i inside
  exact same i (mem_range.mp inside)

theorem items_swap (f : Nat → Item) {size : Nat} (left : i < size) (right : j < size) :
    (items size (swapAt f i j)).Perm (items size f) := by
  have composed : swapAt f i j = f ∘ Equiv.swap i j := by
    funext k
    by_cases atLeft : k = i
    · subst atLeft
      simp [swapAt_left]
    · by_cases atRight : k = j
      · subst atRight
        simp [swapAt_right]
      · simp [swapAt_other f atLeft atRight, Equiv.swap_apply_of_ne_of_ne atLeft atRight]
  have shuffled : ((range size).map (Equiv.swap i j)).Perm (range size) := by
    apply (perm_ext_iff_of_nodup _ nodup_range).mpr
    · intro k
      rw [mem_map, mem_range]
      constructor
      · intro found
        obtain ⟨before, inside, rfl⟩ := found
        have low := mem_range.mp inside
        rw [Equiv.swap_apply_def]
        split
        · exact right
        · split
          · exact left
          · exact low
      · intro low
        exists Equiv.swap i j k
        rw [Equiv.swap_apply_self, Equiv.swap_apply_def]
        constructor
        · split
          · exact mem_range.mpr right
          · split
            · exact mem_range.mpr left
            · exact mem_range.mpr low
        · rfl
    · exact nodup_range.map (Equiv.swap i j).injective
  rw [items, composed, ← map_map]
  exact shuffled.map f

/-- The first item leaves, and the last one takes its place. -/
theorem items_cut (f : Nat → Item) {size : Nat} (nonempty : 0 < size) :
    (items (size + 1) f).Perm (f 0 :: items size (update f 0 (f size))) := by
  cases size with
  | zero => cases nonempty
  | succ n =>
    have split (g : Nat → Item) : items (n + 1) g = g 0 :: (range' 1 n).map g := by
      rw [items, range_eq_range', range'_succ, map_cons]
    have later : (range' 1 n).map (update f 0 (f (n + 1))) =
        (range' 1 n).map f := by
      apply map_congr_left
      intro i inside
      have low := mem_range'_1.mp inside
      exact update_of_ne (by omega) ..
    rw [items_succ, split, split, later, update_self]
    apply List.Perm.cons
    exact perm_append_singleton ..

/- Order. -/

section
variable (le : Item → Item → Prop)

/-- No item comes before its parent. -/
def Ordered (size : Nat) (f : Nat → Item) : Prop := ∀ i, 0 < i → i < size → le (f (parent i)) (f i)

/-- The item at `n` may stand anywhere; the others are in order around it. -/
structure Parted (size : Nat) (f : Nat → Item) (n : Nat) : Prop where
  others : ∀ i, 0 < i → i < size → i ≠ n → parent i ≠ n → le (f (parent i)) (f i)
  around : 0 < n → ∀ i, 0 < i → i < size → parent i = n → le (f (parent n)) (f i)

/-- The item at `n` is not after its children. -/
def Leads (size : Nat) (f : Nat → Item) (n : Nat) : Prop :=
  ∀ i, 0 < i → i < size → parent i = n → le (f n) (f i)

def Follows (f : Nat → Item) (n : Nat) : Prop := 0 < n → le (f (parent n)) (f n)

end

variable {le : Item → Item → Prop} {size : Nat} {f : Nat → Item} {n : Nat}

theorem parent_lt (pos : 0 < i) : parent i < i := by
  unfold parent
  omega

theorem ordered_of_parted (parted : Parted le size f n) (leads : Leads le size f n)
    (follows : Follows le f n) : Ordered le size f := by
  intro i pos inside
  by_cases here : i = n
  · subst here
    exact follows pos
  · by_cases below : parent i = n
    · rw [below]
      exact leads i pos inside below
    · exact parted.others i pos inside here below

theorem root_first (refl : ∀ x, le x x) (trans : ∀ x y z, le x y → le y z → le x z)
    (ordered : Ordered le size f) : ∀ i, i < size → le (f 0) (f i) := by
  intro i
  induction i using Nat.strongRecOn with
  | ind i ih =>
    intro inside
    cases Nat.eq_zero_or_pos i with
    | inl root =>
      subst root
      exact refl _
    | inr pos =>
      have above := parent_lt pos
      exact trans _ _ _ (ih (parent i) above (by omega)) (ordered i pos inside)

theorem parted_of_ordered (trans : ∀ x y z, le x y → le y z → le x z)
    (ordered : Ordered le size f) (inside : n < size) : Parted le size f n where
  others := fun i pos low _ _ => ordered i pos low
  around := by
    intro pos i childPos low child
    have below := ordered i childPos low
    rw [child] at below
    exact trans _ _ _ (ordered n pos inside) below

/-- Moving the item at `n` one place towards the root. -/
theorem parted_up (trans : ∀ x y z, le x y → le y z → le x z) (parted : Parted le size f n)
    (pos : 0 < n) (inside : n < size) : Parted le size (swapAt f n (parent n)) (parent n) := by
  have up := parent_lt pos
  constructor
  · intro i childPos low here above
    by_cases old : i = n
    · subst old
      exact absurd rfl above
    · rw [swapAt_other f old here]
      by_cases below : parent i = n
      · rw [below, swapAt_left]
        exact parted.around pos i childPos low below
      · rw [swapAt_other f below above]
        exact parted.others i childPos low old below
  · intro parentPos i childPos low child
    have higher := parent_lt parentPos
    rw [swapAt_other f (by omega : parent (parent n) ≠ n) (by omega)]
    have top := parted.others (parent n) parentPos (by omega) (by omega) (by omega)
    by_cases old : i = n
    · subst old
      rw [swapAt_left]
      exact top
    · have down := parent_lt childPos
      rw [swapAt_other f old (by omega)]
      have next := parted.others i childPos low old (by omega)
      rw [child] at next
      exact trans _ _ _ top next

/-- An item moved towards the root is not after its new children when it came
    before its parent. -/
theorem leads_up (trans : ∀ x y z, le x y → le y z → le x z) (parted : Parted le size f n)
    (pos : 0 < n) (before : le (f n) (f (parent n))) :
    Leads le size (swapAt f n (parent n)) (parent n) := by
  have up := parent_lt pos
  intro i childPos low child
  rw [swapAt_right]
  by_cases old : i = n
  · subst old
    rw [swapAt_left]
    exact before
  · have down := parent_lt childPos
    rw [swapAt_other f old (by omega)]
    have next := parted.others i childPos low old (by omega)
    rw [child] at next
    exact trans _ _ _ before next

/-- Moving the item at `n` one place away from the root, to its first child in the
    order. -/
theorem parted_down (parted : Parted le size f n) (pos : 0 < c) (inside : c < size)
    (child : parent c = n) (least : ∀ i, 0 < i → i < size → parent i = n → le (f c) (f i)) :
    Parted le size (swapAt f c n) c := by
  have down := parent_lt pos
  constructor
  · intro i childPos low here below
    by_cases old : i = n
    · subst old
      have up := parent_lt childPos
      rw [swapAt_right, swapAt_other f below (by omega)]
      exact parted.around childPos c pos inside child
    · rw [swapAt_other f here old]
      by_cases sibling : parent i = n
      · rw [sibling, swapAt_right]
        exact least i childPos low sibling
      · rw [swapAt_other f below sibling]
        exact parted.others i childPos low old sibling
  · intro _ i childPos low grandchild
    have lower := parent_lt childPos
    rw [child, swapAt_right, swapAt_other f (by omega : i ≠ c) (by omega)]
    have next := parted.others i childPos low (by omega) (by omega)
    rw [grandchild] at next
    exact next

theorem follows_down (child : parent c = n) (before : le (f c) (f n)) :
    Follows le (swapAt f c n) c := by
  intro _
  rw [child, swapAt_right, swapAt_left]
  exact before

/-- The root may be replaced, and items at the end may leave. -/
theorem parted_root {smaller : Nat} (parted : Parted le size f 0) (fewer : smaller ≤ size)
    (x : Item) : Parted le smaller (update f 0 x) 0 where
  others := by
    intro i pos low here above
    rw [update_of_ne here, update_of_ne above]
    exact parted.others i pos (by omega) here above
  around := fun pos => absurd pos (lt_irrefl 0)

end BinHeap
