import OpenSSL.Quic.UintSetLaws

/- Runs of ossl_uint_set_insert and ossl_uint_set_remove from the empty set, with the set that a run
   should hold: a call that returns 1 unites or subtracts its range, one that returns 0 changes
   nothing. -/
namespace Ossl
open Spans Runs

inductive UintSetCall where
  | insert (mem : Bool) (range : UintRange)
  | remove (range : UintRange)
  deriving DecidableEq

def UintSetCall.range : UintSetCall → UintRange
  | .insert _ r => r
  | .remove r => r

structure TracedSet where
  set : UintSet
  members : Set Nat

def emptySet : TracedSet := ⟨[], ∅⟩

def applyCall (s : TracedSet) : UintSetCall → TracedSet
  | .insert mem r =>
    let result := uintSetInsert mem s.set r
    ⟨result.2, if result.1 then s.members ∪ Set.Icc r.start r.stop else s.members⟩
  | .remove r =>
    let result := uintSetRemove s.set r
    ⟨result.2, if result.1 then s.members \ Set.Icc r.start r.stop else s.members⟩

structure TracedSetOk (s : TracedSet) : Prop where
  list : UintSetOk s.set
  holds : points s.set = s.members

theorem emptySet_ok : TracedSetOk emptySet := ⟨⟨ascending_nil, by simp [emptySet]⟩, points_nil⟩

theorem applyCall_ok (s : TracedSet) (c : UintSetCall) (hs : TracedSetOk s)
    (hr : RangeOk c.range) : TracedSetOk (applyCall s c) := by
  cases c with
  | insert mem r =>
    change RangeOk r at hr
    rcases uintSetInsert_outcome mem hs.list hr with ⟨same, _, _⟩ | ⟨done, outcome⟩
    · simp only [applyCall, same, Bool.false_eq_true, if_false]
      exact hs
    · refine ⟨outcome_ok hs.list hr outcome, ?_⟩
      ext x
      simp only [applyCall, done, if_true, ← hs.holds]
      exact outcome_points outcome x
  | remove r =>
    change RangeOk r at hr
    obtain ⟨kept, hk, same⟩ := uintSetRemove_kept hs.list hr
    simp only [applyCall, same, if_true]
    refine ⟨kept_ok hs.list hk, ?_⟩
    ext x
    simp only [← hs.holds]
    rw [hk.exact, points_reverse]
    rfl

theorem run_calls_ok {calls : List UintSetCall} (valid : ∀ c ∈ calls, RangeOk c.range) :
    TracedSetOk (run applyCall emptySet calls) :=
  run_invariant applyCall_ok emptySet_ok (admissible_of_forall valid)

/-- The list is the set: queries answer as the united and subtracted ranges say, the stored ranges
    stay sorted, non-empty and disjoint, and a call fails only for want of memory. -/
theorem uint_set_refines_set (calls : List UintSetCall) (valid : ∀ c ∈ calls, RangeOk c.range) :
    let s := run applyCall emptySet calls
    (∀ v, uintSetQuery s.set v = true ↔ v ∈ s.members) ∧ Ascending s.set ∧
      ∀ r, RangeOk r →
        (uintSetInsert true s.set r).1 = true ∧ (uintSetRemove s.set r).1 = true := by
  intro s
  have ok : TracedSetOk s := run_calls_ok valid
  refine ⟨fun v => ?_, ok.list.ascending, fun r hr => ⟨?_, by simp [uintSetRemove, hr.valid]⟩⟩
  · rw [uintSetQuery_iff ok.list.ascending, ok.holds]
  · rcases uintSetInsert_outcome true ok.list hr with ⟨_, none, _⟩ | ⟨done, _⟩
    · simp at none
    · exact done

/- Both ends of the type, a range swallowing several items, a split. -/
def sampleCalls : List UintSetCall :=
  [.insert true ⟨0, 3⟩, .insert true ⟨2 ^ 64 - 2, 2 ^ 64 - 1⟩, .insert true ⟨7, 9⟩,
    .insert true ⟨2, 20⟩, .remove ⟨5, 6⟩]

theorem sampleCalls_valid : ∀ c ∈ sampleCalls, RangeOk c.range := by
  intro c member
  simp only [sampleCalls, List.mem_cons, List.not_mem_nil, or_false] at member
  rcases member with rfl | rfl | rfl | rfl | rfl <;> exact ⟨by decide, by decide⟩

theorem uint_set_refines_set_sample :
    uintSetQuery (run applyCall emptySet sampleCalls).set (2 ^ 64 - 1) = true ↔
      (2 ^ 64 - 1) ∈ (run applyCall emptySet sampleCalls).members :=
  (uint_set_refines_set sampleCalls sampleCalls_valid).1 _

/-- No two consecutive items border one another. -/
def Unbordered (s : UintSet) : Prop :=
  ∀ pre a b post, s = pre ++ a :: b :: post → a.stop + 1 ≠ b.start

/-- A set whose members are one contiguous interval is stored as one item. -/
def OneItem (s : UintSet) : Prop := ∀ lo hi, lo ≤ hi → points s = Set.Icc lo hi → s = [⟨lo, hi⟩]

def Canonical (s : TracedSet) : Prop := Unbordered s.set ∧ OneItem s.set

theorem unbordered_separated {s : UintSet} (asc : Ascending s) (free : Unbordered s) :
    Separated s := by
  induction s with
  | nil => exact separated_nil
  | cons a rest ih =>
    obtain ⟨valid, tail, first⟩ := ascending_cons.mp asc
    have inner := ih tail (fun pre x y post split => free (a :: pre) x y post (by simp [split]))
    refine separated_cons.mpr ⟨valid, inner, ?_⟩
    intro t ht
    cases rest with
    | nil => simp at ht
    | cons b post =>
      have next := free [] a b post rfl
      have above := first b (by simp)
      rcases List.mem_cons.mp ht with same | ht
      · subst same; omega
      · have := (separated_cons.mp inner).1; have := (separated_cons.mp inner).2.2 t ht
        omega

theorem canonical_iff_separated {s : TracedSet} (ok : TracedSetOk s) :
    Canonical s ↔ Separated s.set := by
  refine ⟨fun h => unbordered_separated ok.list.ascending h.1, fun sep => ⟨?_, ?_⟩⟩
  · intro pre a b post split
    exact (separated_iff_no_border ok.list.ascending).mp sep a (by rw [split]; simp) b
      (by rw [split]; simp)
  · intro lo hi valid interval
    exact separated_interval sep valid interval

/-- An insertion closes every gap it should unless its range overlaps a stored
    item and borders another one. -/
def MergesCleanly (s : TracedSet) : UintSetCall → Prop
  | .insert _ r => ¬ OverlapsAndBorders s.set r
  | .remove _ => True

theorem applyCall_canonical_iff (s : TracedSet) (c : UintSetCall) (ok : TracedSetOk s)
    (good : Canonical s) (hr : RangeOk c.range) :
    Canonical (applyCall s c) ↔ MergesCleanly s c := by
  rw [canonical_iff_separated (applyCall_ok s c ok hr)]
  have sep := (canonical_iff_separated ok).mp good
  cases c with
  | insert mem r =>
    change RangeOk r at hr
    rcases uintSetInsert_outcome mem ok.list hr with ⟨same, _, miss⟩ | ⟨_, outcome⟩
    · simp only [applyCall, same, MergesCleanly]
      refine ⟨fun _ => ?_, fun _ => sep⟩
      rintro ⟨⟨t, ht, low, high⟩, _⟩
      have := miss t ht
      omega
    · exact outcome_separated_iff sep hr outcome
  | remove r =>
    change RangeOk r at hr
    obtain ⟨kept, hk, same⟩ := uintSetRemove_kept ok.list hr
    simp only [applyCall, same, MergesCleanly, iff_true]
    exact hk.separated (by simpa using sep)

/-- A run keeps the set canonical in every state exactly when none of its
    insertions overlaps a stored item while bordering another one. -/
theorem uint_set_canonical_iff (calls : List UintSetCall)
    (valid : ∀ c ∈ calls, RangeOk c.range) :
    (∀ s ∈ visited applyCall emptySet calls, Canonical s) ↔
      Admissible applyCall MergesCleanly emptySet calls :=
  visited_good_iff applyCall_ok applyCall_canonical_iff emptySet_ok
    ((canonical_iff_separated emptySet_ok).mpr separated_nil) (admissible_of_forall valid)

def borderingCalls : List UintSetCall :=
  [.insert true ⟨1, 3⟩, .insert true ⟨6, 8⟩, .insert true ⟨3, 5⟩]

theorem borderingCalls_valid : ∀ c ∈ borderingCalls, RangeOk c.range := by
  intro c member
  simp only [borderingCalls, List.mem_cons, List.not_mem_nil, or_false] at member
  rcases member with rfl | rfl | rfl <;> exact ⟨by decide, by decide⟩

theorem borderingCalls_stored :
    (run applyCall emptySet borderingCalls).set = [⟨1, 5⟩, ⟨6, 8⟩] := by
  decide

theorem uint_set_not_canonical :
    ¬ ∀ calls : List UintSetCall, (∀ c ∈ calls, RangeOk c.range) →
      Canonical (run applyCall emptySet calls) := by
  intro always
  have free := (always borderingCalls borderingCalls_valid).1
  exact free [] ⟨1, 5⟩ ⟨6, 8⟩ [] borderingCalls_stored rfl

theorem uint_set_canonical_iff_bordering :
    ¬ Admissible applyCall MergesCleanly emptySet borderingCalls := by
  intro clean
  have canonical := (uint_set_canonical_iff borderingCalls borderingCalls_valid).mpr clean
    (run applyCall emptySet borderingCalls) (by simp [visited, borderingCalls])
  exact canonical.1 [] ⟨1, 5⟩ ⟨6, 8⟩ [] borderingCalls_stored rfl

end Ossl
