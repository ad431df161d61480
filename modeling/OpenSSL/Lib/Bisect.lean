import Mathlib.Data.List.Basic
import Mathlib.Tactic.Common

/- Three-way comparisons as C has them, and the search of a sorted sequence by halves. -/
namespace Bisect
variable {α : Type*}

/-- The sign of the result is that of a total preorder. -/
structure Preorders (cmp : α → α → Int) : Prop where
  flip : ∀ x y, 0 < cmp x y ↔ cmp y x < 0
  trans : ∀ x y z, cmp x y ≤ 0 → cmp y z ≤ 0 → cmp x z ≤ 0

theorem Preorders.total {cmp : α → α → Int} (preorders : Preorders cmp) (x y : α) :
    cmp x y ≤ 0 ∨ cmp y x ≤ 0 := by
  by_cases le : cmp x y ≤ 0
  · exact .inl le
  · have less := (preorders.flip x y).mp (by omega)
    exact .inr (by omega)

/- The halving loop. sign says where the key is in relation to the element at an index; i and c
   are what the last round left. An index from limit on cannot be looked at. -/
def halve (sign : Nat → Int) (limit : Nat) : Nat → Nat → Nat → Nat → Int → Option (Nat × Int)
  | 0, _, _, i, c => some (i, c)
  | fuel + 1, l, h, i, c =>
    if l < h then
      let i := (l + h) / 2
      if limit ≤ i then none
      else
        let c := sign i
        if c < 0 then halve sign limit fuel l i i c
        else if 0 < c then halve sign limit fuel (i + 1) h i c
        else some (i, c)
    else some (i, c)

def descend (sign : Nat → Int) : Nat → Nat
  | 0 => 0
  | i + 1 => if sign i = 0 then descend sign i else i + 1

/-- The elements do not decrease: below an index that is not above the key no index is. -/
def Falling (sign : Nat → Int) (num : Nat) : Prop :=
  ∀ i j, i ≤ j → j < num → (sign i < 0 → sign j < 0) ∧ (sign i ≤ 0 → sign j ≤ 0)

variable {sign : Nat → Int} {num limit : Nat}

/-- The loop ends at a match, or there is none. -/
theorem halve_finds (falling : Falling sign num) {fuel l h i : Nat} {c : Int}
    (enough : h - l ≤ fuel) (below : ∀ j < l, 0 < sign j)
    (above : ∀ j, h ≤ j → j < num → sign j < 0) (most : h ≤ num) (within : num ≤ limit)
    (start : l < h ∨ i < num ∧ c ≠ 0) :
    ∃ found, halve sign limit fuel l h i c = some found ∧ found.1 < num ∧
      (found.2 = 0 ∧ sign found.1 = 0 ∨ found.2 ≠ 0 ∧ ∀ j < num, sign j ≠ 0) := by
  induction fuel generalizing l h i c with
  | zero =>
    obtain ⟨inside, other⟩ : i < num ∧ c ≠ 0 := by
      cases start with
      | inl less => omega
      | inr last => exact last
    refine ⟨_, rfl, inside, .inr ⟨other, ?_⟩⟩
    intro j less
    by_cases low : j < l
    · have := below j low
      omega
    · have := above j (by omega) less
      omega
  | succ fuel ih =>
    rw [halve]
    by_cases less : l < h
    · rw [if_pos less]
      dsimp only
      have middle : l ≤ (l + h) / 2 ∧ (l + h) / 2 < h := by omega
      generalize (l + h) / 2 = m at middle
      rw [if_neg (by omega)]
      split_ifs with left right
      · apply ih (by omega) below _ (by omega) (.inr ⟨by omega, by omega⟩)
        intro j le inside
        exact (falling m j le inside).1 left
      · apply ih (by omega) _ above most (.inr ⟨by omega, by omega⟩)
        intro j le
        by_contra not
        have := (falling j m (by omega) (by omega)).2 (by omega)
        omega
      · exact ⟨_, rfl, by dsimp only; omega, .inl ⟨by dsimp only; omega, by dsimp only; omega⟩⟩
    · rw [if_neg less]
      obtain ⟨inside, other⟩ : i < num ∧ c ≠ 0 := by
        cases start with
        | inl less' => exact absurd less' less
        | inr last => exact last
      refine ⟨_, rfl, inside, .inr ⟨other, ?_⟩⟩
      intro j inside'
      by_cases low : j < l
      · have := below j low
        omega
      · have := above j (by omega) inside'
        omega

theorem descend_first (falling : Falling sign num) {i : Nat} (inside : i < num)
    (match_ : sign i = 0) :
    descend sign i ≤ i ∧ sign (descend sign i) = 0 ∧ ∀ j < descend sign i, sign j ≠ 0 := by
  induction i with
  | zero =>
    refine ⟨Nat.le_refl _, match_, ?_⟩
    intro j less
    contradiction
  | succ i ih =>
    rw [descend]
    split_ifs with again
    · obtain ⟨le, first, others⟩ := ih (by omega) again
      exact ⟨by omega, first, others⟩
    · refine ⟨Nat.le_refl _, match_, ?_⟩
      intro j less same
      have down := (falling j i (by omega) (by omega)).2 (by omega)
      have not := (falling i (i + 1) (by omega) inside).1
      omega

end Bisect
