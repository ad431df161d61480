import Mathlib.Order.CompletePartialOrder
import OpenSSL.Lib.Spans
import Mathlib.Data.List.Forall2

/- One pass over two lists of ranges that tells whether the ranges of one lie inside of
   those of the other. A range may turn out not to have bounds. -/
namespace Cover
open Option List Spans

section Pass
variable {α β : Type*} (bounds : β → Option (α × α)) (cmp : α → α → Int)

/-- The ranges from the first one on that ends at the child or behind it, if that one
    does not begin inside of the child. -/
def advance (child : α × α) : List β → Option (List β)
  | [] => none
  | p :: parent =>
    match bounds p with
    | none => none
    | some range =>
      if cmp range.2 child.2 < 0 then advance child parent
      else if 0 < cmp range.1 child.1 then none
      else some (p :: parent)

def contains : List β → List β → Bool
  | _, [] => true
  | parent, c :: child =>
    match bounds c with
    | none => false
    | some range =>
      match advance bounds cmp range parent with
      | none => false
      | some parent => contains parent child

end Pass

section Spans
variable {α β ν : Type*} (bounds : β → Option (α × α)) (value : α → ν)

def spanOf (b : β) : Option (Span ν) := (bounds b).map fun r => ⟨value r.1, value r.2⟩

def spansOf (l : List β) : List (Span ν) := l.filterMap (spanOf bounds value)

variable {bounds value}

variable {l : List β}

theorem mem_spansOf {s : Span ν} :
    s ∈ spansOf bounds value l ↔ ∃ b ∈ l, ∃ r, bounds b = some r ∧ s = ⟨value r.1, value r.2⟩ := by
  rw [spansOf, mem_filterMap]
  constructor
  · intro found
    obtain ⟨b, member, is⟩ := found
    obtain ⟨r, bounded, same⟩ := map_eq_some_iff.mp is
    exact ⟨b, member, r, bounded, same.symm⟩
  · intro found
    obtain ⟨b, member, r, bounded, same⟩ := found
    exact ⟨b, member, map_eq_some_iff.mpr ⟨r, bounded, same.symm⟩⟩

theorem spansOf_cons {b : β} {r : α × α} (is : bounds b = some r) :
    spansOf bounds value (b :: l) = ⟨value r.1, value r.2⟩ :: spansOf bounds value l := by
  rw [spansOf, filterMap_cons, spanOf, is]
  rfl

theorem spansOf_sublist {m : List β} (sub : l.Sublist m) :
    (spansOf bounds value l).Sublist (spansOf bounds value m) := sub.filterMap _

end Spans

section Values
variable {α β ν : Type*} [LinearOrder ν] {bounds : β → Option (α × α)} {value : α → ν}
  {cmp : α → α → Int}

def Compares (bounds : β → Option (α × α)) (value : α → ν) (cmp : α → α → Int) : Prop :=
  ∀ b c r s, bounds b = some r → bounds c = some s →
    (cmp r.2 s.2 < 0 ↔ value r.2 < value s.2) ∧ (0 < cmp r.1 s.1 ↔ value s.1 < value r.1)

/-- There is room between any two spans. -/
structure Gapped (l : List (Span ν)) : Prop where
  nonempty : ∀ s ∈ l, s.start ≤ s.stop
  gap : l.Pairwise fun s t => ∃ g, s.stop < g ∧ g < t.start

def Inside (c p : Span ν) : Prop := p.start ≤ c.start ∧ c.stop ≤ p.stop

variable {l : List (Span ν)} {child : List β}

theorem gapped_ascending (gapped : Gapped l) : Ascending l := by
  constructor
  · exact gapped.nonempty
  · apply gapped.gap.imp
    intro s t between
    obtain ⟨g, low, high⟩ := between
    exact lt_trans low high

variable {m ps : List (Span ν)} {c : β}

theorem gapped_tail {p : Span ν} (gapped : Gapped (p :: ps)) : Gapped ps :=
  ⟨fun s member => gapped.nonempty s (mem_cons_of_mem p member), gapped.gap.of_cons⟩

/-- A span made of points of a gapped list lies inside of one of its spans. -/
theorem inside_one (gapped : Gapped ps) {c : Span ν} (some_ : c.start ≤ c.stop)
    (covered : ∀ x, c.Contains x → x ∈ points ps) : ∃ p ∈ ps, Inside c p := by
  induction ps with
  | nil =>
    have bad := covered c.start ⟨le_refl _, some_⟩
    rw [points_nil] at bad
    exact absurd bad (Set.notMem_empty _)
  | cons p ps ih =>
    have ascending := gapped_ascending gapped
    by_cases here : c.start ≤ p.stop
    · apply Exists.intro p
      constructor
      · exact mem_cons_self
      constructor
      · exact first_le_points ascending (covered c.start ⟨le_refl _, some_⟩)
      · by_contra beyond
        rw [not_le] at beyond
        -- a point of the child in the gap behind p
        have hole : ∃ m, p.stop < m ∧ m ≤ c.stop ∧ ∀ q ∈ ps, m < q.start := by
          cases ps with
          | nil => exact ⟨c.stop, beyond, le_refl _, nofun⟩
          | cons q qs =>
            obtain ⟨first, rest⟩ := pairwise_cons.mp gapped.gap
            obtain ⟨g, low, high⟩ := first q mem_cons_self
            refine ⟨min g c.stop, lt_min low beyond, min_le_right _ _, ?_⟩
            intro t member
            apply lt_of_le_of_lt (min_le_left _ _)
            cases mem_cons.mp member with
            | inl is =>
              rw [is]
              exact high
            | inr later =>
              obtain ⟨g', low', high'⟩ := (pairwise_cons.mp rest).1 t later
              have valid := gapped.nonempty q (mem_cons_of_mem p mem_cons_self)
              exact lt_trans (lt_of_lt_of_le high valid) (lt_trans low' high')
        obtain ⟨m, low, high, below⟩ := hole
        have bad := covered m ⟨le_trans here (le_of_lt low), high⟩
        rw [mem_points_cons] at bad
        cases bad with
        | inl inside => exact absurd inside.2 (not_le.mpr low)
        | inr later =>
          obtain ⟨q, member, inside⟩ := later
          exact absurd inside.1 (not_le.mpr (below q member))
    · rw [not_le] at here
      have later : ∀ x, c.Contains x → x ∈ points ps := by
        intro x inside
        have at_ := covered x inside
        rw [mem_points_cons] at at_
        cases at_ with
        | inl first => exact absurd (lt_of_lt_of_le here inside.1) (not_lt.mpr first.2)
        | inr rest => exact rest
      obtain ⟨q, member, inside⟩ := ih (gapped_tail gapped) later
      exact ⟨q, mem_cons_of_mem p member, inside⟩

/-- The spans of a gapped list are among those of any other one with its points. -/
theorem gapped_subset (gappedL : Gapped l) (gappedM : Gapped m) (same : points l = points m) :
    l ⊆ m := by
  intro s member
  have valid := gappedL.nonempty s member
  obtain ⟨t, inM, low, high⟩ := inside_one gappedM valid fun x here =>
    same ▸ mem_points_of_mem member here
  obtain ⟨u, inL, low', high'⟩ := inside_one gappedL (gappedM.nonempty t inM) fun x here =>
    same ▸ mem_points_of_mem inM here
  -- s lies inside of t and t inside of u, which can only be s again
  have one := ascending_unique (gapped_ascending gappedL) member inL ⟨le_refl _, valid⟩
    ⟨le_trans low' low, le_trans valid (le_trans high high')⟩
  rw [← one] at low' high'
  have is : s = t := by
    cases s
    cases t
    rw [Span.mk.injEq]
    exact ⟨le_antisymm low' low, le_antisymm high high'⟩
  rw [is]
  exact inM

theorem gapped_sorted (gapped : Gapped l) : l.Pairwise fun s t => s.start < t.start := by
  have ascending := gapped_ascending gapped
  apply ascending.ordered.imp_of_mem
  intro s t member _ less
  exact lt_of_le_of_lt (ascending.nonempty s member) less

theorem gapped_unique (gappedL : Gapped l) (gappedM : Gapped m) (same : points l = points m) :
    l = m := by
  have nodup : ∀ {k : List (Span ν)}, Gapped k → k.Nodup := fun gapped =>
    (gapped_sorted gapped).imp fun less is => absurd (is ▸ less) (lt_irrefl _)
  have perm : l.Perm m := by
    rw [perm_ext_iff_of_nodup (nodup gappedL) (nodup gappedM)]
    exact fun s => ⟨fun here => gapped_subset gappedL gappedM same here,
      fun here => gapped_subset gappedM gappedL same.symm here⟩
  apply perm.eq_of_pairwise _ (gapped_sorted gappedL) (gapped_sorted gappedM)
  exact fun s t _ _ less more => absurd less (lt_asymm more)

theorem advance_stops (compares : Compares bounds value cmp) {child : α × α}
    (isc : bounds c = some child) {parent rest : List β}
    (run : advance bounds cmp child parent = some rest) :
    ∃ p tail r, rest = p :: tail ∧ bounds p = some r ∧ rest <:+ parent ∧
      Inside ⟨value child.1, value child.2⟩ (⟨value r.1, value r.2⟩ : Span ν) := by
  induction parent with
  | nil => contradiction
  | cons p parent ih =>
    rw [advance] at run
    cases is : bounds p with
    | none =>
      rw [is] at run
      contradiction
    | some r =>
      rw [is] at run
      dsimp only at run
      by_cases short : cmp r.2 child.2 < 0
      · rw [if_pos short] at run
        obtain ⟨q, tail, r', split, bounds', suffix, inside⟩ := ih run
        exact ⟨q, tail, r', split, bounds', suffix.trans (suffix_cons p parent), inside⟩
      · rw [if_neg short] at run
        by_cases late : 0 < cmp r.1 child.1
        · rw [if_pos late] at run
          contradiction
        · rw [if_neg late] at run
          obtain rfl := some.inj run
          refine ⟨p, parent, r, rfl, is, suffix_rfl, ?_, ?_⟩
          · exact not_lt.mp fun bad => late ((compares _ _ _ _ is isc).2.mpr bad)
          · exact not_lt.mp fun bad => short ((compares _ _ _ _ is isc).1.mpr bad)

variable {parent : List β}

/-- A list that contains another one has bounds for all of it and covers its points. -/
theorem contains_sound (compares : Compares bounds value cmp)
    (run : contains bounds cmp parent child = true) : (∀ c ∈ child, (bounds c).isSome = true) ∧
      points (spansOf bounds value child) ⊆ points (spansOf bounds value parent) := by
  induction child generalizing parent with
  | nil =>
    constructor
    · exact nofun
    · intro x inside
      obtain ⟨s, member, _⟩ := inside
      nomatch member
  | cons c child ih =>
    rw [contains] at run
    cases is : bounds c with
    | none =>
      rw [is] at run
      contradiction
    | some range =>
      rw [is] at run
      dsimp only at run
      cases ahead : advance bounds cmp range parent with
      | none =>
        rw [ahead] at run
        contradiction
      | some rest =>
        rw [ahead] at run
        obtain ⟨p, tail, r, split, bounds', suffix, inside⟩ := advance_stops compares is ahead
        obtain ⟨some_, covered⟩ := ih run
        constructor
        · intro d member
          cases mem_cons.mp member with
          | inl same => rw [same, is, isSome_some]
          | inr later => exact some_ d later
        · intro x at_
          rw [spansOf_cons is, mem_points_cons] at at_
          cases at_ with
          | inl first =>
            have member : p ∈ parent := suffix.subset (split ▸ mem_cons_self)
            exact ⟨_, mem_spansOf.mpr ⟨p, member, r, bounds', rfl⟩,
              le_trans inside.1 first.1, le_trans first.2 inside.2⟩
          | inr later =>
            obtain ⟨s, member, here⟩ := covered later
            obtain ⟨b, among, rb, isb, same⟩ := mem_spansOf.mp member
            exact ⟨s, mem_spansOf.mpr ⟨b, suffix.subset among, rb, isb, same⟩, here⟩

/-- The advance finds the span that the child lies in. -/
theorem advance_finds (compares : Compares bounds value cmp) {range : α × α}
    (isc : bounds c = some range) (all : ∀ p ∈ parent, (bounds p).isSome = true)
    (ascending : Ascending (spansOf bounds value parent)) (some_ : value range.1 ≤ value range.2)
    (found : ∃ s ∈ spansOf bounds value parent, Inside ⟨value range.1, value range.2⟩ s) :
    ∃ rest, advance bounds cmp range parent = some rest ∧ rest <:+ parent ∧
      ∀ s ∈ spansOf bounds value parent, s ∈ spansOf bounds value rest ∨ s.stop < value range.2 := by
  induction parent with
  | nil =>
    obtain ⟨s, member, _⟩ := found
    nomatch member
  | cons p parent ih =>
    obtain ⟨r, is⟩ := isSome_iff_exists.mp (all p mem_cons_self)
    rw [spansOf_cons is] at ascending found
    obtain ⟨_, tail, apart⟩ := ascending_cons.mp ascending
    rw [advance, is]
    dsimp only
    by_cases short : cmp r.2 range.2 < 0
    · rw [if_pos short]
      have before := (compares _ _ _ _ is isc).1.mp short
      have later : ∃ s ∈ spansOf bounds value parent, Inside ⟨value range.1, value range.2⟩ s := by
        obtain ⟨s, member, inside⟩ := found
        cases mem_cons.mp member with
        | inl same =>
          rw [same] at inside
          exact absurd inside.2 (not_le.mpr before)
        | inr rest => exact ⟨s, rest, inside⟩
      obtain ⟨rest, run, suffix, others⟩ := ih (fun q member => all q
        (mem_cons_of_mem p member)) tail later
      refine ⟨rest, run, suffix.trans (suffix_cons p parent), ?_⟩
      intro s member
      rw [spansOf_cons is] at member
      cases mem_cons.mp member with
      | inl same =>
        rw [same]
        exact .inr before
      | inr among => exact others s among
    · rw [if_neg short]
      have reaches : value range.2 ≤ value r.2 :=
        not_lt.mp fun bad => short ((compares _ _ _ _ is isc).1.mpr bad)
      have early : ¬ 0 < cmp r.1 range.1 := by
        intro late
        have behind := (compares _ _ _ _ is isc).2.mp late
        obtain ⟨s, member, inside⟩ := found
        cases mem_cons.mp member with
        | inl same =>
          rw [same] at inside
          exact absurd inside.1 (not_le.mpr behind)
        | inr among =>
          have after := apart s among
          have begins : value r.2 < value range.1 := lt_of_lt_of_le after inside.1
          exact absurd (lt_of_lt_of_le begins some_) (not_lt.mpr reaches)
      rw [if_neg early]
      exact ⟨p :: parent, rfl, suffix_rfl, fun s member => .inl member⟩

theorem contains_complete (compares : Compares bounds value cmp)
    (allP : ∀ p ∈ parent, (bounds p).isSome = true) (allC : ∀ c ∈ child, (bounds c).isSome = true)
    (ascendingP : Ascending (spansOf bounds value parent))
    (ascendingC : Ascending (spansOf bounds value child))
    (inside : ∀ c ∈ spansOf bounds value child, ∃ p ∈ spansOf bounds value parent, Inside c p) :
    contains bounds cmp parent child = true := by
  induction child generalizing parent with
  | nil => rw [contains]
  | cons c child ih =>
    obtain ⟨range, is⟩ := isSome_iff_exists.mp (allC c mem_cons_self)
    rw [spansOf_cons is] at ascendingC inside
    obtain ⟨valid, tail, apart⟩ := ascending_cons.mp ascendingC
    obtain ⟨rest, run, suffix, others⟩ := advance_finds compares is allP ascendingP valid
      (inside _ mem_cons_self)
    rw [contains, is]
    dsimp only
    rw [run]
    apply ih
    · exact fun p member => allP p (suffix.subset member)
    · exact fun d member => allC d (mem_cons_of_mem c member)
    · exact ascending_sublist (spansOf_sublist suffix.sublist) ascendingP
    · exact tail
    · intro d member
      obtain ⟨p, among, within⟩ := inside d (mem_cons_of_mem _ member)
      apply Exists.intro p
      constructor
      · cases others p among with
        | inl still => exact still
        | inr gone =>
          have later := apart d member
          have ends := tail.nonempty d member
          have bad : p.stop < d.stop := lt_of_lt_of_le (lt_trans gone later) ends
          exact absurd within.2 (not_le.mpr bad)
      · exact within

/-- On gapped lists the pass decides inclusion. -/
theorem contains_iff (compares : Compares bounds value cmp)
    (allP : ∀ p ∈ parent, (bounds p).isSome = true)
    (gappedP : Gapped (spansOf bounds value parent))
    (gappedC : Gapped (spansOf bounds value child)) : contains bounds cmp parent child = true ↔
      (∀ c ∈ child, (bounds c).isSome = true) ∧
        points (spansOf bounds value child) ⊆ points (spansOf bounds value parent) := by
  constructor
  · exact contains_sound compares
  · intro covered
    apply contains_complete compares allP covered.1 (gapped_ascending gappedP)
      (gapped_ascending gappedC)
    intro c member
    apply inside_one gappedP (gappedC.nonempty c member)
    exact fun x here => covered.2 ⟨c, member, here⟩

end Values
end Cover
