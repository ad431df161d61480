import OpenSSL.X509.V3Asid
import Mathlib.Data.List.Pairwise

/- How lists of AS numbers are built and brought to canonical form: crypto/x509/v3_asid.c.
   A merged entry gets its bounds from the two it replaces. -/
namespace Ossl
open List Spans Cover

def asIdOrRangeCmp : ASIdOrRange → ASIdOrRange → Int
  | .id a, .id b => asn1IntegerCmp a b
  | .range aMin aMax, .range bMin bMax =>
    let r := asn1IntegerCmp aMin bMin
    if r ≠ 0 then r else asn1IntegerCmp aMax bMax
  | .id a, .range bMin _ => asn1IntegerCmp a bMin
  | .range aMin _, .id b => asn1IntegerCmp aMin b

def asIdOrRangeOf (min : Int) : Option Int → ASIdOrRange
  | none => .id min
  | some max => .range min max

def asChoiceAdd (choice : Option ASIdentifierChoice) (aor : ASIdOrRange) (fresh : Nat) :
    Bool × Option ASIdentifierChoice :=
  match choice with
  | none => (true, some (.asIdsOrRanges ⟨fresh, [aor]⟩))
  | some .inherit => (false, choice)
  | some (.asIdsOrRanges ranges) =>
    (true, some (.asIdsOrRanges { ranges with elems := ranges.elems ++ [aor] }))

def asidAddIdOrRange (asid : ASIdentifiers) (which min : Int) (max : Option Int) (fresh : Nat) :
    Bool × ASIdentifiers :=
  let aor := asIdOrRangeOf min max
  if which = 0 then
    let (ok, asnum) := asChoiceAdd asid.asnum aor fresh
    (ok, { asid with asnum := asnum })
  else if which = 1 then
    let (ok, rdi) := asChoiceAdd asid.rdi aor fresh
    (ok, { asid with rdi := rdi })
  else (false, asid)

/- The entry a before the others; a merged entry is looked at again. -/
def asCanonizeRounds (a : ASIdOrRange) : List ASIdOrRange → Option (List ASIdOrRange)
  | [] => some [a]
  | b :: rest =>
    match asExtractMinMax a, asExtractMinMax b with
    | some (aMin, aMax), some (bMin, bMax) =>
      if 0 < asn1IntegerCmp aMin bMin then none
      else if 0 < asn1IntegerCmp aMin aMax ∨ 0 < asn1IntegerCmp bMin bMax then none
      else if 0 ≤ asn1IntegerCmp aMax bMin then none
      else if asn1IntegerCmp (aMax + 1) bMin = 0 then asCanonizeRounds (.range aMin bMax) rest
      else (asCanonizeRounds b rest).map (a :: ·)
    | _, _ => none

def asLastNotInverted (elems : List ASIdOrRange) : Bool :=
  match elems.getLast? with
  | some (.range min max) => decide (asn1IntegerCmp min max ≤ 0)
  | _ => true

/- A failed assertion is a refusal here. -/
def asRangesCanonize (elems : List ASIdOrRange) : Option (List ASIdOrRange) :=
  match elems.mergeSort fun a b => decide (asIdOrRangeCmp a b ≤ 0) with
  | [] => none
  | a :: rest =>
    match asCanonizeRounds a rest with
    | none => none
    | some elems =>
      if asLastNotInverted elems = false then none
      else if asRangesAreCanonical elems = false then none
      else some elems

def asChoiceCanonize : Option ASIdentifierChoice → Option (Option ASIdentifierChoice)
  | none => some none
  | some .inherit => some (some .inherit)
  | some (.asIdsOrRanges ranges) =>
    (asRangesCanonize ranges.elems).map fun elems =>
      some (.asIdsOrRanges { ranges with elems := elems })

def asidCanonize (asid : ASIdentifiers) : Option ASIdentifiers := do
  let asnum ← asChoiceCanonize asid.asnum
  let rdi ← asChoiceCanonize asid.rdi
  some { asid with asnum := asnum, rdi := rdi }

section Entries

def ASIdOrRange.lo : ASIdOrRange → Int
  | .id n => n
  | .range min _ => min

def ASIdOrRange.hi : ASIdOrRange → Int
  | .id n => n
  | .range _ max => max

@[simp] theorem ASIdOrRange.lo_range (min max : Int) : (range min max).lo = min := rfl

@[simp] theorem ASIdOrRange.hi_range (min max : Int) : (range min max).hi = max := rfl

@[simp] theorem asExtractMinMax_eq (a : ASIdOrRange) : asExtractMinMax a = some (a.lo, a.hi) := by
  cases a with
  | id n => rfl
  | range min max => rfl

abbrev asSpans (elems : List ASIdOrRange) : List (Span Int) := spansOf asExtractMinMax id elems

@[simp] theorem asSpans_cons (a : ASIdOrRange) (elems : List ASIdOrRange) :
    asSpans (a :: elems) = ⟨a.lo, a.hi⟩ :: asSpans elems :=
  spansOf_cons (asExtractMinMax_eq a)

@[simp] theorem asSpans_nil : asSpans [] = [] := rfl

@[simp] theorem mem_asSpans {s : Span Int} {elems : List ASIdOrRange} :
    s ∈ asSpans elems ↔ ∃ a ∈ elems, s = ⟨a.lo, a.hi⟩ := by
  simp [mem_spansOf]

def asNumbers (elems : List ASIdOrRange) : Set Int := points (asSpans elems)

variable {elems : List ASIdOrRange}

theorem mem_asNumbers {x : Int} : x ∈ asNumbers elems ↔ ∃ a ∈ elems, a.lo ≤ x ∧ x ≤ a.hi := by
  simp only [asNumbers, points, Set.mem_ofPred_eq, mem_asSpans]
  constructor
  · intro found
    obtain ⟨s, ⟨a, member, is⟩, here⟩ := found
    rw [is] at here
    exact ⟨a, member, here⟩
  · intro found
    obtain ⟨a, member, here⟩ := found
    exact ⟨⟨a.lo, a.hi⟩, ⟨a, member, rfl⟩, here⟩

def AsUpright (elems : List ASIdOrRange) : Prop := ∀ min max, .range min max ∈ elems → min ≤ max

def AsApart (elems : List ASIdOrRange) : Prop :=
  elems.Pairwise fun a b => Disjoint (asNumbers [a]) (asNumbers [b])

theorem asUpright_iff : AsUpright elems ↔ ∀ a ∈ elems, a.lo ≤ a.hi := by
  constructor
  · intro upright a member
    cases a with
    | id n => exact le_refl n
    | range min max => exact upright min max member
  · exact fun all min max member => all _ member

theorem asApart_iff {a b : ASIdOrRange} (validA : a.lo ≤ a.hi) (validB : b.lo ≤ b.hi) :
    Disjoint (asNumbers [a]) (asNumbers [b]) ↔ a.hi < b.lo ∨ b.hi < a.lo := by
  rw [Set.disjoint_left]
  simp only [mem_asNumbers, mem_singleton, exists_eq_left]
  constructor
  · intro disjoint
    by_contra meets
    apply disjoint (a := max a.lo b.lo)
    · omega
    · omega
  · omega

end Entries

section Order
variable {a b : Int}

@[simp] theorem asn1IntegerCmp_neg : asn1IntegerCmp a b < 0 ↔ a < b := (asn1IntegerCmp_order a b).1

@[simp] theorem asn1IntegerCmp_pos : 0 < asn1IntegerCmp a b ↔ b < a := (asn1IntegerCmp_order a b).2

@[simp] theorem asn1IntegerCmp_le : asn1IntegerCmp a b ≤ 0 ↔ a ≤ b := by
  rw [← not_lt, asn1IntegerCmp_pos, not_lt]

@[simp] theorem asn1IntegerCmp_nonneg : 0 ≤ asn1IntegerCmp a b ↔ b ≤ a := by
  rw [← not_lt, asn1IntegerCmp_neg, not_lt]

@[simp] theorem asn1IntegerCmp_zero : asn1IntegerCmp a b = 0 ↔ a = b := by
  have less := asn1IntegerCmp_neg (a := a) (b := b)
  have more := asn1IntegerCmp_pos (a := a) (b := b)
  omega

end Order

section Rounds

theorem asCanonizeRounds_cons (a b : ASIdOrRange) (rest : List ASIdOrRange) :
    asCanonizeRounds a (b :: rest) =
      if a.lo ≤ a.hi ∧ b.lo ≤ b.hi ∧ a.hi < b.lo then
        if a.hi + 1 = b.lo then asCanonizeRounds (.range a.lo b.hi) rest
        else (asCanonizeRounds b rest).map (a :: ·)
      else none := by
  rw [asCanonizeRounds, asExtractMinMax_eq, asExtractMinMax_eq]
  simp only [asn1IntegerCmp_pos, asn1IntegerCmp_nonneg, asn1IntegerCmp_zero]
  split_ifs <;> first | rfl | omega

variable {a : ASIdOrRange} {l : List ASIdOrRange}

/-- The rounds keep the numbers and the least of them, and make ranges of more than one number
    only. -/
theorem asCanonizeRounds_keeps {r : List ASIdOrRange} (run : asCanonizeRounds a l = some r) :
    asNumbers r = asNumbers (a :: l) ∧ (∃ h t, r = h :: t ∧ h.lo = a.lo) ∧
      ∀ e ∈ r, e ∈ a :: l ∨ ∃ lo hi, lo < hi ∧ e = .range lo hi := by
  induction l generalizing a r with
  | nil =>
    obtain rfl := Option.some.inj run
    exact ⟨rfl, ⟨a, [], rfl, rfl⟩, fun e member => .inl member⟩
  | cons b rest ih =>
    rw [asCanonizeRounds_cons] at run
    by_cases orderly : a.lo ≤ a.hi ∧ b.lo ≤ b.hi ∧ a.hi < b.lo
    · rw [if_pos orderly] at run
      by_cases adjacent : a.hi + 1 = b.lo
      · rw [if_pos adjacent] at run
        obtain ⟨same, first, entries⟩ := ih run
        refine ⟨?_, first, ?_⟩
        · rw [same]
          ext x
          simp only [mem_asNumbers, exists_mem_cons_iff, ASIdOrRange.lo_range, ASIdOrRange.hi_range]
          rw [← or_assoc]
          apply or_congr_left
          omega
        · intro e member
          cases entries e member with
          | inr made => exact .inr made
          | inl old =>
            cases mem_cons.mp old with
            | inl is => exact .inr ⟨a.lo, b.hi, by omega, is⟩
            | inr later => exact .inl (by simp [later])
      · rw [if_neg adjacent] at run
        obtain ⟨r', runB, is⟩ := Option.map_eq_some_iff.mp run
        obtain ⟨same, _, entries⟩ := ih runB
        rw [← is]
        refine ⟨?_, ⟨a, r', rfl, rfl⟩, ?_⟩
        · ext x
          have tail := Set.ext_iff.mp same x
          rw [mem_asNumbers, mem_asNumbers] at tail
          rw [mem_asNumbers, mem_asNumbers, exists_mem_cons_iff, tail, exists_mem_cons_iff (a := a)]
        · intro e member
          cases mem_cons.mp member with
          | inl first => exact .inl (by simp [first])
          | inr later =>
            cases entries e later with
            | inl old => exact .inl (mem_cons_of_mem a old)
            | inr made => exact .inr made
    · rw [if_neg orderly] at run
      contradiction

theorem asPairIsCanonical_iff {b : ASIdOrRange} : asPairIsCanonical a b = true ↔
    a.lo < b.lo ∧ a.lo ≤ a.hi ∧ b.lo ≤ b.hi ∧ a.hi + 1 < b.lo := by
  rw [asPairIsCanonical, asExtractMinMax_eq, asExtractMinMax_eq]
  simp [and_assoc]

theorem asLastIsCanonical_iff : asLastIsCanonical a = true ↔ a.lo ≤ a.hi := by
  cases a with
  | id n => exact iff_of_true rfl (le_refl n)
  | range min max => simp [asLastIsCanonical, ASIdOrRange.lo, ASIdOrRange.hi]

theorem asRangesAreCanonical_first (canonical : asRangesAreCanonical (a :: l) = true) :
    a.lo ≤ a.hi := by
  cases l with
  | nil => exact asLastIsCanonical_iff.mp canonical
  | cons b l =>
    rw [asRangesAreCanonical, Bool.and_eq_true, asPairIsCanonical_iff] at canonical
    exact canonical.1.2.1

/-- The rounds end in a canonical list exactly when the entries ascend. -/
theorem asCanonizeRounds_ascending (a : ASIdOrRange) (l : List ASIdOrRange) :
    (∃ r, asCanonizeRounds a l = some r ∧ asRangesAreCanonical r = true) ↔
      Ascending (asSpans (a :: l)) := by
  induction l generalizing a with
  | nil =>
    have alone : Ascending (asSpans [a]) ↔ a.lo ≤ a.hi := by
      simp [ascending_cons, ascending_nil]
    rw [alone]
    simp [asCanonizeRounds, asRangesAreCanonical, asLastIsCanonical_iff]
  | cons b rest ih =>
    have split : Ascending (asSpans (a :: b :: rest)) ↔
        (a.lo ≤ a.hi ∧ b.lo ≤ b.hi ∧ a.hi < b.lo) ∧ Ascending (asSpans (b :: rest)) := by
      simp only [asSpans_cons, ascending_cons, forall_mem_cons]
      constructor
      · intro all
        exact ⟨⟨all.1, all.2.1.1, all.2.2.1⟩, all.2.1⟩
      · intro all
        refine ⟨all.1.1, all.2, all.1.2.2, ?_⟩
        intro t member
        have := all.2.2.2 t member
        omega
    rw [asCanonizeRounds_cons, split]
    by_cases orderly : a.lo ≤ a.hi ∧ b.lo ≤ b.hi ∧ a.hi < b.lo
    · rw [if_pos orderly, and_iff_right orderly]
      by_cases adjacent : a.hi + 1 = b.lo
      · rw [if_pos adjacent, ih]
        simp only [asSpans_cons, ascending_cons, ASIdOrRange.lo_range, ASIdOrRange.hi_range]
        exact and_congr_left fun _ => by omega
      · rw [if_neg adjacent, ← ih]
        constructor
        · intro made
          obtain ⟨r, run, canonical⟩ := made
          obtain ⟨r', runB, is⟩ := Option.map_eq_some_iff.mp run
          obtain ⟨_, ⟨h, t, first, _⟩, _⟩ := asCanonizeRounds_keeps runB
          rw [← is, first, asRangesAreCanonical, Bool.and_eq_true, ← first] at canonical
          exact ⟨r', runB, canonical.2⟩
        · intro made
          obtain ⟨r', runB, canonical⟩ := made
          obtain ⟨_, ⟨h, t, first, starts⟩, _⟩ := asCanonizeRounds_keeps runB
          rw [runB]
          refine ⟨a :: r', rfl, ?_⟩
          have valid := asRangesAreCanonical_first (first ▸ canonical)
          rw [first, asRangesAreCanonical, Bool.and_eq_true, ← first, asPairIsCanonical_iff]
          exact ⟨by omega, canonical⟩
    · rw [if_neg orderly]
      exact iff_of_false (by simp) fun both => orderly both.1

theorem asLastNotInverted_canonical (canonical : asRangesAreCanonical l = true) :
    asLastNotInverted l = true := by
  have upright := (as_canonical_gapped canonical).nonempty
  rw [asLastNotInverted]
  cases last : l.getLast? with
  | none => rfl
  | some e =>
    have valid := upright ⟨e.lo, e.hi⟩ (mem_asSpans.mpr ⟨e, mem_of_getLast? last, rfl⟩)
    cases e with
    | id n => rfl
    | range min max => exact decide_eq_true (asn1IntegerCmp_le.mpr valid)

end Rounds

section Sorting

variable {l : List ASIdOrRange}

/-- An ascending list is upright and its entries are apart. -/
theorem ascending_proper (ascending : Ascending (asSpans l)) : AsUpright l ∧ AsApart l := by
  have upright : ∀ a ∈ l, a.lo ≤ a.hi := fun a member =>
    ascending.nonempty ⟨a.lo, a.hi⟩ (mem_asSpans.mpr ⟨a, member, rfl⟩)
  refine ⟨asUpright_iff.mpr upright, ?_⟩
  induction l with
  | nil => exact .nil
  | cons a l ih =>
    rw [asSpans_cons, ascending_cons] at ascending
    obtain ⟨valid, tail, behind⟩ := ascending
    rw [AsApart, pairwise_cons]
    constructor
    · intro b member
      rw [asApart_iff valid (upright b (by simp [member]))]
      exact .inl (behind ⟨b.lo, b.hi⟩ (mem_asSpans.mpr ⟨b, member, rfl⟩))
    · exact ih tail fun b member => upright b (by simp [member])

/-- Entries that are apart ascend when they are sorted by where they begin. -/
theorem proper_ascending (upright : AsUpright l) (apart : AsApart l)
    (sorted : l.Pairwise fun a b => a.lo ≤ b.lo) : Ascending (asSpans l) := by
  rw [asUpright_iff] at upright
  induction l with
  | nil => exact ascending_nil
  | cons a l ih =>
    rw [AsApart, pairwise_cons] at apart
    rw [pairwise_cons] at sorted
    rw [asSpans_cons, ascending_cons]
    refine ⟨upright a mem_cons_self, ?_, ?_⟩
    · exact ih (fun b member => upright b (mem_cons_of_mem a member)) apart.2 sorted.2
    · intro t member
      obtain ⟨b, inL, is⟩ := mem_asSpans.mp member
      have valid := upright b (mem_cons_of_mem a inL)
      have away := (asApart_iff (upright a mem_cons_self) valid).mp (apart.1 b inL)
      have first := sorted.1 b inL
      rw [is]
      dsimp only
      omega

variable {a b : ASIdOrRange}

theorem apart_one (upright : AsUpright l) (apart : AsApart l) (inA : a ∈ l) (inB : b ∈ l)
    (meet : a.lo ≤ b.hi ∧ b.lo ≤ a.hi) : a = b := by
  rw [asUpright_iff] at upright
  by_contra differ
  have away := List.Pairwise.forall apart inA inB differ
  rw [asApart_iff (upright a inA) (upright b inB)] at away
  omega

theorem asIdOrRangeCmp_self (a : ASIdOrRange) : asIdOrRangeCmp a a = 0 := by
  cases a with
  | id n => simp [asIdOrRangeCmp]
  | range min max => simp [asIdOrRangeCmp]

theorem asIdOrRangeCmp_lo (differ : a.lo ≠ b.lo) : asIdOrRangeCmp a b ≤ 0 ↔ a.lo ≤ b.lo := by
  cases a with
  | id m =>
    cases b with
    | id n => exact asn1IntegerCmp_le
    | range min max => exact asn1IntegerCmp_le
  | range aMin aMax =>
    cases b with
    | id n => exact asn1IntegerCmp_le
    | range bMin bMax =>
      have first : asn1IntegerCmp aMin bMin ≠ 0 := mt asn1IntegerCmp_zero.mp differ
      rw [asIdOrRangeCmp, if_pos first]
      exact asn1IntegerCmp_le

theorem asSort_sorted (upright : AsUpright l) (apart : AsApart l) :
    (l.mergeSort fun a b => decide (asIdOrRangeCmp a b ≤ 0)).Pairwise fun a b => a.lo ≤ b.lo := by
  have same := map_mergeSort (f := id) (r := fun a b => decide (asIdOrRangeCmp a b ≤ 0))
    (s := fun a b : ASIdOrRange => decide (a.lo ≤ b.lo)) (l := l) (by
      intro a inA b inB
      apply decide_eq_decide.mpr
      by_cases starts : a.lo = b.lo
      · have valid := asUpright_iff.mp upright
        have one := apart_one upright apart inA inB ⟨starts ▸ valid b inB, starts ▸ valid a inA⟩
        rw [one, asIdOrRangeCmp_self]
        exact iff_of_true (le_refl 0) (le_refl _)
      · exact asIdOrRangeCmp_lo starts)
  rw [map_id, map_id] at same
  rw [same]
  have transitive : ∀ a b c : ASIdOrRange, decide (a.lo ≤ b.lo) = true →
      decide (b.lo ≤ c.lo) = true → decide (a.lo ≤ c.lo) = true := by
    intro a b c ab bc
    rw [decide_eq_true_iff] at *
    exact le_trans ab bc
  have total : ∀ a b : ASIdOrRange, (decide (a.lo ≤ b.lo) || decide (b.lo ≤ a.lo)) = true := by
    intro a b
    rw [Bool.or_eq_true, decide_eq_true_iff, decide_eq_true_iff]
    exact le_total _ _
  have sorts := pairwise_mergeSort transitive total l
  exact sorts.imp of_decide_eq_true

end Sorting

section Lists

variable {l r : List ASIdOrRange}

variable {m s : List ASIdOrRange} {n : Int}

theorem asNumbers_perm (perm : l.Perm m) : asNumbers l = asNumbers m := by
  ext x
  simp only [mem_asNumbers, perm.mem_iff]

/-- A list is canonized exactly when it has entries, no inverted range and no overlap. The numbers
    stay the same, and an entry that is new is a range of more than one of them. -/
theorem asRangesCanonize_spec (elems : List ASIdOrRange) :
    ((asRangesCanonize elems).isSome = true ↔ elems ≠ [] ∧ AsUpright elems ∧ AsApart elems) ∧
    ∀ r, asRangesCanonize elems = some r → asRangesAreCanonical r = true ∧
      asNumbers r = asNumbers elems ∧
      ∀ e ∈ r, e ∈ elems ∨ ∃ lo hi, lo < hi ∧ e = .range lo hi := by
  have perm := mergeSort_perm elems fun a b => decide (asIdOrRangeCmp a b ≤ 0)
  have sorts := asSort_sorted (l := elems)
  rw [asRangesCanonize]
  cases is : elems.mergeSort fun a b => decide (asIdOrRangeCmp a b ≤ 0) with
  | nil =>
    rw [is] at perm
    exact ⟨iff_of_false (by simp) fun all => all.1 (nil_perm.mp perm), by simp⟩
  | cons a rest =>
    rw [is] at perm sorts
    have some_ : elems ≠ [] := by
      intro bad
      rw [bad] at perm
      exact cons_ne_nil a rest perm.eq_nil
    have apart_ : AsApart (a :: rest) ↔ AsApart elems :=
      perm.pairwise_iff fun disjoint => disjoint.symm
    have ascends : Ascending (asSpans (a :: rest)) ↔ AsUpright elems ∧ AsApart elems := by
      constructor
      · intro ascending
        obtain ⟨upright, apart⟩ := ascending_proper ascending
        constructor
        · exact fun min max member => upright min max (perm.mem_iff.mpr member)
        · exact apart_.mp apart
      · intro proper
        apply proper_ascending
        · exact fun min max member => proper.1 min max (perm.mem_iff.mp member)
        · exact apart_.mpr proper.2
        · exact sorts proper.1 proper.2
    rw [and_iff_right some_, ← ascends, ← asCanonizeRounds_ascending]
    dsimp only
    cases run : asCanonizeRounds a rest with
    | none => simp
    | some r =>
      obtain ⟨same, _, entries⟩ := asCanonizeRounds_keeps run
      by_cases canonical : asRangesAreCanonical r = true
      · simp only [asLastNotInverted_canonical canonical, canonical, Bool.true_eq_false, if_false,
          Option.isSome_some, true_iff]
        refine ⟨⟨r, rfl, canonical⟩, ?_⟩
        intro r' made
        obtain rfl := Option.some.inj made
        refine ⟨canonical, same.trans (asNumbers_perm perm), ?_⟩
        intro e member
        rw [← perm.mem_iff]
        exact entries e member
      · rw [Bool.not_eq_true] at canonical
        simp [canonical]

/-- A number that has no neighbour in the set. -/
def Isolated (s : Set Int) (n : Int) : Prop := n ∈ s ∧ n - 1 ∉ s ∧ n + 1 ∉ s

/-- A number with no neighbour is written as a range in both lists or in neither. -/
def AsShapesAgree (l m : List ASIdOrRange) : Prop :=
  ∀ n, Isolated (asNumbers l) n → (.range n n ∈ l ↔ .range n n ∈ m)

/-- An isolated number keeps the shape that the list has for it. -/
theorem asRangesCanonize_isolated (run : asRangesCanonize l = some r)
    (isolated : Isolated (asNumbers l) n) : .range n n ∈ r ↔ .range n n ∈ l := by
  obtain ⟨decides, result⟩ := asRangesCanonize_spec l
  obtain ⟨_, upright, apart⟩ := decides.mp (by simp [run])
  obtain ⟨canonical, same, entries⟩ := result r run
  have old : ∀ e ∈ r, e.lo = n → e.hi = n → e ∈ l := by
    intro e member lo hi
    cases entries e member with
    | inl old => exact old
    | inr made =>
      obtain ⟨low, high, less, is⟩ := made
      rw [is] at lo hi
      exact absurd (lo.trans hi.symm) (ne_of_lt less)
  constructor
  · exact fun member => old _ member rfl rfl
  · intro member
    have inside := isolated.1
    rw [← same, mem_asNumbers] at inside
    obtain ⟨e, inR, low, high⟩ := inside
    have within : ∀ x, e.lo ≤ x → x ≤ e.hi → x ∈ asNumbers l := fun x above below =>
      same ▸ mem_asNumbers.mpr ⟨e, inR, above, below⟩
    have first : e.lo = n := by
      by_contra differ
      exact isolated.2.1 (within (n - 1) (by omega) (by omega))
    have last : e.hi = n := by
      by_contra differ
      exact isolated.2.2 (within (n + 1) (by omega) (by omega))
    have one := apart_one upright apart (old e inR first last) member
      ⟨le_of_eq first, le_of_eq last.symm⟩
    rw [← one]
    exact inR

/-- A number that is an entry of a canonical list by itself is isolated. -/
theorem canonical_isolated (canonical : asRangesAreCanonical r = true) {e : ASIdOrRange}
    (member : e ∈ r) (one : e.lo = e.hi) : Isolated (asNumbers r) e.lo := by
  have gapped := as_canonical_gapped canonical
  have symmetric : Std.Symm fun s t : Span Int => s.stop + 1 < t.start ∨ t.stop + 1 < s.start :=
    ⟨fun _ _ => Or.symm⟩
  have apart : (asSpans r).Pairwise fun s t => s.stop + 1 < t.start ∨ t.stop + 1 < s.start := by
    apply gapped.gap.imp
    intro s t between
    obtain ⟨g, low, high⟩ := between
    omega
  have other : ∀ x, x ∈ asNumbers r → e.lo ≤ x ∧ x ≤ e.hi ∨ x + 1 < e.lo ∨ e.hi + 1 < x := by
    intro x inside
    obtain ⟨f, inR, low, high⟩ := mem_asNumbers.mp inside
    by_cases same : (⟨f.lo, f.hi⟩ : Span Int) = ⟨e.lo, e.hi⟩
    · rw [Span.mk.injEq] at same
      omega
    · have away := apart.forall (mem_asSpans.mpr ⟨f, inR, rfl⟩)
        (mem_asSpans.mpr ⟨e, member, rfl⟩) same
      dsimp only at away
      omega
  refine ⟨mem_asNumbers.mpr ⟨e, member, le_refl _, le_of_eq one⟩, ?_, ?_⟩
  · intro before
    have := other _ before
    omega
  · intro after
    have := other _ after
    omega

/-- Lists with the same spans are one list if no number is an id in one and a range in the
    other. -/
theorem asSpans_unique (spans : asSpans r = asSpans s)
    (alike : ∀ n, (.range n n ∈ r → .id n ∉ s) ∧ (.id n ∈ r → .range n n ∉ s)) : r = s := by
  induction r generalizing s with
  | nil =>
    cases s with
    | nil => rfl
    | cons f s => simp at spans
  | cons e r ih =>
    cases s with
    | nil => simp at spans
    | cons f s =>
      simp only [asSpans_cons, cons.injEq, Span.mk.injEq] at spans
      obtain ⟨⟨lo, hi⟩, rest⟩ := spans
      have tail := ih rest fun n =>
        ⟨fun member bad => (alike n).1 (by simp [member]) (by simp [bad]),
          fun member bad => (alike n).2 (by simp [member]) (by simp [bad])⟩
      have head : e = f := by
        cases e with
        | id m =>
          cases f with
          | id n => exact congrArg ASIdOrRange.id lo
          | range min max =>
            obtain rfl : m = min := lo
            obtain rfl : m = max := hi
            exact absurd mem_cons_self ((alike m).2 mem_cons_self)
        | range min max =>
          cases f with
          | range min' max' => exact congrArg₂ ASIdOrRange.range lo hi
          | id n =>
            obtain rfl : min = n := lo
            obtain rfl : max = min := hi
            exact absurd mem_cons_self ((alike max).1 mem_cons_self)
      rw [head, tail]

theorem canonical_one_shape (canonical : asRangesAreCanonical r = true) (range : .range n n ∈ r) :
    .id n ∉ r := by
  intro id
  obtain ⟨upright, apart⟩ := ascending_proper (gapped_ascending (as_canonical_gapped canonical))
  have one := apart_one upright apart range id ⟨le_refl n, le_refl n⟩
  contradiction

/-- Canonized lists of the same numbers are one list exactly when the shapes of their isolated
    numbers agree. -/
theorem asRangesCanonize_unique (runL : asRangesCanonize l = some r)
    (runM : asRangesCanonize m = some s) (same : asNumbers l = asNumbers m) :
    r = s ↔ AsShapesAgree l m := by
  obtain ⟨canonicalR, sameR, _⟩ := (asRangesCanonize_spec l).2 r runL
  obtain ⟨canonicalS, sameS, _⟩ := (asRangesCanonize_spec m).2 s runM
  have kept : ∀ n, Isolated (asNumbers l) n →
      ((.range n n ∈ r ↔ .range n n ∈ s) ↔ (.range n n ∈ l ↔ .range n n ∈ m)) := by
    intro n isolated
    rw [asRangesCanonize_isolated runL isolated, asRangesCanonize_isolated runM (same ▸ isolated)]
  constructor
  · intro one n isolated
    exact (kept n isolated).mp (by rw [one])
  · intro agree
    have shapes : ∀ n, Isolated (asNumbers l) n → (.range n n ∈ r ↔ .range n n ∈ s) :=
      fun n isolated => (kept n isolated).mpr (agree n isolated)
    apply asSpans_unique
    · exact gapped_unique (as_canonical_gapped canonicalR) (as_canonical_gapped canonicalS)
        (sameR.trans (same.trans sameS.symm))
    · intro n
      constructor
      · intro inR
        have isolated := canonical_isolated canonicalR inR rfl
        rw [sameR] at isolated
        exact canonical_one_shape canonicalS ((shapes n isolated).mp inR)
      · intro inR inS
        have isolated := canonical_isolated canonicalR inR rfl
        rw [sameR] at isolated
        exact canonical_one_shape canonicalR ((shapes n isolated).mpr inS) inR

end Lists

section Choices

def asList : Option ASIdentifierChoice → List ASIdOrRange
  | some (.asIdsOrRanges ranges) => ranges.elems
  | _ => []

def AsBuilt (choice : Option ASIdentifierChoice) : Prop :=
  choice = none ∨ ∃ ranges, choice = some (.asIdsOrRanges ranges) ∧ ranges.elems ≠ []

variable {choice : Option ASIdentifierChoice}

theorem asChoiceAdd_built (built : AsBuilt choice) (aor : ASIdOrRange) (fresh : Nat) :
    AsBuilt (asChoiceAdd choice aor fresh).2 := by
  cases built with
  | inl is =>
    rw [is]
    exact .inr ⟨⟨fresh, [aor]⟩, rfl, by simp⟩
  | inr has =>
    obtain ⟨ranges, is, _⟩ := has
    rw [is]
    exact .inr ⟨{ ranges with elems := ranges.elems ++ [aor] }, rfl, by simp⟩

theorem asChoiceCanonize_spec (built : AsBuilt choice) : ((asChoiceCanonize choice).isSome = true ↔
      AsUpright (asList choice) ∧ AsApart (asList choice)) ∧
    ∀ c, asChoiceCanonize choice = some c → asChoiceIsCanonical c = true ∧
      asNumbers (asList c) = asNumbers (asList choice) := by
  cases built with
  | inl is =>
    rw [is]
    constructor
    · exact iff_of_true rfl ⟨by simp [AsUpright, asList], List.Pairwise.nil⟩
    · intro c run
      obtain rfl := Option.some.inj run
      exact ⟨rfl, rfl⟩
  | inr has =>
    obtain ⟨ranges, is, some_⟩ := has
    obtain ⟨decides, result⟩ := asRangesCanonize_spec ranges.elems
    rw [is, asChoiceCanonize, Option.isSome_map, decides, and_iff_right some_]
    refine ⟨Iff.rfl, ?_⟩
    intro c run
    obtain ⟨elems, made, isC⟩ := Option.map_eq_some_iff.mp run
    obtain ⟨canonical, same, _⟩ := result elems made
    rw [← isC]
    exact ⟨canonical, same⟩

theorem asNumbers_canonical {l : List ASIdOrRange} (canonical : asRangesAreCanonical l = true) :
    (asNumbers l).Nonempty := by
  cases l with
  | nil => contradiction
  | cons a l =>
    have valid := asRangesAreCanonical_first canonical
    exact ⟨a.lo, mem_asNumbers.mpr ⟨a, mem_cons_self, le_refl _, valid⟩⟩

variable {c : Option ASIdentifierChoice}

theorem asChoiceCanonize_list (built : AsBuilt choice) (run : asChoiceCanonize choice = some c) :
    asList choice = [] ∧ asList c = [] ∨ asRangesCanonize (asList choice) = some (asList c) := by
  cases built with
  | inl is =>
    rw [is] at run
    rw [is, ← Option.some.inj run]
    exact .inl ⟨rfl, rfl⟩
  | inr has =>
    obtain ⟨ranges, is, _⟩ := has
    rw [is] at run
    obtain ⟨elems, made, isC⟩ := Option.map_eq_some_iff.mp run
    rw [is, ← isC]
    exact .inr made

theorem asChoiceCanonize_unique {choice' c' : Option ASIdentifierChoice} (built : AsBuilt choice)
    (built' : AsBuilt choice') (run : asChoiceCanonize choice = some c)
    (run' : asChoiceCanonize choice' = some c')
    (same : asNumbers (asList choice) = asNumbers (asList choice')) :
    asList c = asList c' ↔ AsShapesAgree (asList choice) (asList choice') := by
  have empty : ∀ {l r : List ASIdOrRange}, asRangesCanonize l = some r →
      asNumbers l ≠ asNumbers [] := by
    intro l r made none_
    obtain ⟨canonical, kept, _⟩ := (asRangesCanonize_spec l).2 r made
    obtain ⟨x, inside⟩ := asNumbers_canonical canonical
    rw [kept, none_, mem_asNumbers] at inside
    simp at inside
  cases asChoiceCanonize_list built run with
  | inl no =>
    cases asChoiceCanonize_list built' run' with
    | inl no' =>
      rw [no.1, no'.1, no.2, no'.2]
      exact iff_of_true rfl fun _ _ => Iff.rfl
    | inr made' =>
      rw [no.1] at same
      exact absurd same.symm (empty made')
  | inr made =>
    cases asChoiceCanonize_list built' run' with
    | inl no' =>
      rw [no'.1] at same
      exact absurd same (empty made)
    | inr made' => exact asRangesCanonize_unique made made' same

end Choices

section Identifiers

/- One addition; a list that it makes is at the fresh address. -/
structure AsidAdd where
  which : Int
  min : Int
  max : Option Int
  fresh : Nat

def asidBuild (ptr : Nat) (adds : List AsidAdd) : ASIdentifiers :=
  adds.foldl (fun asid add => (asidAddIdOrRange asid add.which add.min add.max add.fresh).2)
    ⟨ptr, none, none⟩

def AsidProper (asid : ASIdentifiers) : Prop :=
  ∀ part : AsPart, AsUpright (asList (part.of asid)) ∧ AsApart (asList (part.of asid))

/-- Canonizing refuses inverted ranges and overlaps and nothing else; the canonical form has the
    numbers of the lists. -/
def AsidCanonizes (asid : ASIdentifiers) : Prop :=
  ((asidCanonize asid).isSome = true ↔ AsidProper asid) ∧
    ∀ r, asidCanonize asid = some r → asidIsCanonical (some r) = true ∧
      ∀ part : AsPart, asNumbers (asList (part.of r)) = asNumbers (asList (part.of asid))

/-- Lists with the same numbers are canonized to the same list. -/
def AsidUnique (a b : ASIdentifiers) : Prop :=
  ∀ r s, asidCanonize a = some r → asidCanonize b = some s → ∀ part part' : AsPart,
    asNumbers (asList (part.of a)) = asNumbers (asList (part'.of b)) →
      asList (part.of r) = asList (part'.of s)

/-- Lists that are canonized and have the same numbers agree in the shapes of the isolated
    ones. -/
def AsidShapesAgree (a b : ASIdentifiers) : Prop :=
  AsidProper a → AsidProper b → ∀ part part' : AsPart,
    asNumbers (asList (part.of a)) = asNumbers (asList (part'.of b)) →
      AsShapesAgree (asList (part.of a)) (asList (part'.of b))

variable {asid : ASIdentifiers}

theorem asidAddIdOrRange_built (add : AsidAdd) (built : ∀ part : AsPart, AsBuilt (part.of asid))
    (part : AsPart) :
    AsBuilt (part.of (asidAddIdOrRange asid add.which add.min add.max add.fresh).2) := by
  rw [asidAddIdOrRange]
  split_ifs
  · cases part with
    | asnum => exact asChoiceAdd_built (built .asnum) _ _
    | rdi => exact built .rdi
  · cases part with
    | asnum => exact built .asnum
    | rdi => exact asChoiceAdd_built (built .rdi) _ _
  · exact built part

theorem asidBuild_built (ptr : Nat) (adds : List AsidAdd) (part : AsPart) :
    AsBuilt (part.of (asidBuild ptr adds)) := by
  have run : ∀ asid : ASIdentifiers, (∀ part : AsPart, AsBuilt (part.of asid)) →
      ∀ part : AsPart, AsBuilt (part.of (adds.foldl (fun asid add =>
        (asidAddIdOrRange asid add.which add.min add.max add.fresh).2) asid)) := by
    induction adds with
    | nil => exact fun asid built => built
    | cons add adds ih =>
      exact fun asid built => ih _ (asidAddIdOrRange_built add built)
  apply run
  intro part
  cases part with
  | asnum => exact .inl rfl
  | rdi => exact .inl rfl

theorem asidCanonize_some {r : ASIdentifiers} : asidCanonize asid = some r ↔
    r.ptr = asid.ptr ∧ ∀ part : AsPart, asChoiceCanonize (part.of asid) = some (part.of r) := by
  have parts : (∀ part : AsPart, asChoiceCanonize (part.of asid) = some (part.of r)) ↔
      asChoiceCanonize asid.asnum = some r.asnum ∧ asChoiceCanonize asid.rdi = some r.rdi := by
    constructor
    · exact fun all => ⟨all .asnum, all .rdi⟩
    · intro both part
      cases part with
      | asnum => exact both.1
      | rdi => exact both.2
  rw [parts]
  cases r
  simp only [asidCanonize, Option.bind_eq_bind, Option.bind_eq_some_iff, Option.some.injEq,
    ASIdentifiers.mk.injEq]
  constructor
  · intro run
    obtain ⟨asnum, first, rdi, second, ptr, isAsnum, isRdi⟩ := run
    rw [← isAsnum, ← isRdi]
    exact ⟨ptr.symm, first, second⟩
  · intro run
    exact ⟨_, run.2.1, _, run.2.2, run.1.symm, rfl, rfl⟩

theorem asidCanonize_canonizes (built : ∀ part : AsPart, AsBuilt (part.of asid)) :
    AsidCanonizes asid := by
  have specs := fun part => asChoiceCanonize_spec (built part)
  constructor
  · constructor
    · intro accepted
      obtain ⟨r, run⟩ := Option.isSome_iff_exists.mp accepted
      exact fun part => (specs part).1.mp (by simp [(asidCanonize_some.mp run).2 part])
    · intro proper
      obtain ⟨asnum, first⟩ := Option.isSome_iff_exists.mp ((specs .asnum).1.mpr (proper .asnum))
      obtain ⟨rdi, second⟩ := Option.isSome_iff_exists.mp ((specs .rdi).1.mpr (proper .rdi))
      have run : asidCanonize asid = some ⟨asid.ptr, asnum, rdi⟩ := by
        apply asidCanonize_some.mpr
        refine ⟨rfl, ?_⟩
        intro part
        cases part with
        | asnum => exact first
        | rdi => exact second
      rw [run]
      rfl
  · intro r run
    have results := fun part => (specs part).2 _ ((asidCanonize_some.mp run).2 part)
    refine ⟨?_, fun part => (results part).2⟩
    rw [asidIsCanonical, Bool.and_eq_true]
    exact ⟨(results .asnum).1, (results .rdi).1⟩

/-- Canonizing keeps and refuses what it should for every list that is built, but the canonical
    form is the only one of its numbers just where the isolated numbers come in one shape. -/
theorem asid_canonize_exact (ptr ptr' : Nat) (adds adds' : List AsidAdd) :
    (AsidCanonizes (asidBuild ptr adds) ∧ AsidCanonizes (asidBuild ptr' adds') ∧
      AsidUnique (asidBuild ptr adds) (asidBuild ptr' adds')) ↔
    AsidShapesAgree (asidBuild ptr adds) (asidBuild ptr' adds') := by
  have built := asidBuild_built ptr adds
  have built' := asidBuild_built ptr' adds'
  have canonizes := asidCanonize_canonizes built
  have canonizes' := asidCanonize_canonizes built'
  rw [and_iff_right canonizes, and_iff_right canonizes']
  constructor
  · intro unique proper proper' part part' same
    obtain ⟨r, run⟩ := Option.isSome_iff_exists.mp (canonizes.1.mpr proper)
    obtain ⟨s, run'⟩ := Option.isSome_iff_exists.mp (canonizes'.1.mpr proper')
    exact (asChoiceCanonize_unique (built part) (built' part') ((asidCanonize_some.mp run).2 part)
      ((asidCanonize_some.mp run').2 part') same).mp (unique r s run run' part part' same)
  · intro agree r s run run' part part' same
    have proper := canonizes.1.mp (by rw [run]; rfl)
    have proper' := canonizes'.1.mp (by rw [run']; rfl)
    exact (asChoiceCanonize_unique (built part) (built' part') ((asidCanonize_some.mp run).2 part)
      ((asidCanonize_some.mp run').2 part') same).mpr (agree proper proper' part part' same)

/-- A number and the range from it to itself stay two canonical lists. -/
theorem asid_canonize_shapes : ¬ (AsidCanonizes (asidBuild 1 [⟨0, 5, none, 2⟩]) ∧
    AsidCanonizes (asidBuild 3 [⟨0, 5, some 5, 4⟩]) ∧
    AsidUnique (asidBuild 1 [⟨0, 5, none, 2⟩]) (asidBuild 3 [⟨0, 5, some 5, 4⟩])) := by
  intro all
  have one := all.2.2 ⟨1, some (.asIdsOrRanges ⟨2, [.id 5]⟩), none⟩
    ⟨3, some (.asIdsOrRanges ⟨4, [.range 5 5]⟩), none⟩
    (by simp [asidBuild, asidAddIdOrRange, asChoiceAdd, asIdOrRangeOf, asidCanonize,
      asChoiceCanonize, asRangesCanonize, asCanonizeRounds, asLastNotInverted,
      asRangesAreCanonical, asLastIsCanonical])
    (by simp [asidBuild, asidAddIdOrRange, asChoiceAdd, asIdOrRangeOf, asidCanonize,
      asChoiceCanonize, asRangesCanonize, asCanonizeRounds, asLastNotInverted,
      asRangesAreCanonical, asLastIsCanonical])
    .asnum .asnum rfl
  simp [AsPart.of, asList] at one

end Identifiers
end Ossl
