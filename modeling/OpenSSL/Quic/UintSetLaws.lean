import OpenSSL.Lib.Runs
import OpenSSL.Quic.UintSet

/- The integer set as a set of 64-bit integers: what insert, remove and query do
   to the stored points, over single calls and over whole runs of calls. -/
namespace Ossl
open List Spans Runs

variable {m s : UintSet} {r : UintRange} {prevs : List UintRange}

theorem outcome_splice (outcome : InsertOutcome s r m) :
    ((∃ t ∈ s, t.start ≤ r.start ∧ r.stop ≤ t.stop) ∧ m = s) ∨
      ∃ pre mid post lo hi, Splice s r m pre mid post lo hi := by
  cases outcome with
  | held member low high => exact .inl ⟨⟨_, member, low, high⟩, rfl⟩
  | overlap _ _ _ splice _ _ => exact .inr ⟨_, _, _, _, _, splice⟩
  | gap _ _ _ splice _ _ => exact .inr ⟨_, _, _, _, _, splice⟩

theorem outcome_points (outcome : InsertOutcome s r m) (x : Nat) :
    x ∈ points m ↔ x ∈ points s ∨ r.Contains x := by
  rcases outcome_splice outcome with ⟨⟨t, ht, low, high⟩, same⟩ | ⟨_, _, _, _, _, splice⟩
  · subst same
    constructor
    · exact .inl
    · rintro (inside | ⟨above, below⟩)
      · exact inside
      · exact mem_points_of_mem ht ⟨by omega, by omega⟩
  · exact splice_points splice x

theorem outcome_ok (hs : UintSetOk s) (hr : RangeOk r) (outcome : InsertOutcome s r m) :
    UintSetOk m := by
  rcases outcome_splice outcome with ⟨_, same⟩ | ⟨pre, mid, post, lo, hi, splice⟩
  · exact same ▸ hs
  · refine ⟨splice_ascending splice hs.ascending, ?_⟩
    intro t ht
    have top : hi < 2 ^ 64 := by
      rcases (splice.cover hi).mp ⟨splice.valid, le_refl _⟩ with inside | ⟨u, hu, inside⟩
      · have := inside.2; have := hr.bounded; omega
      · have := inside.2; have := hs.bounded u (by rw [splice.before]; simp [hu]); omega
    rw [splice.after] at ht
    simp only [mem_append, mem_cons] at ht
    rcases ht with ht | rfl | ht
    · exact hs.bounded t (by rw [splice.before]; simp [ht])
    · exact top
    · exact hs.bounded t (by rw [splice.before]; simp [ht])

/-- The range overlaps a stored item and borders another one. -/
def OverlapsAndBorders (s : UintSet) (r : UintRange) : Prop :=
  (∃ t ∈ s, t.start ≤ r.stop ∧ r.start ≤ t.stop) ∧
    ∃ t ∈ s, t.stop + 1 = r.start ∨ r.stop + 1 = t.start

theorem outcome_separated_iff (sep : Separated s) (hr : RangeOk r) (outcome : InsertOutcome s r m) :
    Separated m ↔ ¬ OverlapsAndBorders s r := by
  have valid := hr.valid
  have apart := (separated_iff_no_border (separated_ascending sep)).mp sep
  cases outcome with
  | @held t member low high =>
    refine ⟨fun _ => ?_, fun _ => sep⟩
    rintro ⟨_, u, hu, border⟩
    -- a stored item bordering the range would touch or border the item holding it
    have vu := sep.nonempty u hu
    by_cases left : u.stop + 1 = r.start
    · by_cases inside : t.start ≤ u.stop
      · have := ascending_unique (separated_ascending sep) member hu (x := u.stop)
          ⟨inside, by omega⟩ ⟨vu, le_refl _⟩
        subst this; omega
      · exact apart u hu t member (by omega)
    · by_cases inside : u.start ≤ t.stop
      · have := ascending_unique (separated_ascending sep) member hu (x := u.start)
          ⟨by omega, inside⟩ ⟨le_refl _, vu⟩
        subst this; omega
      · exact apart t member u hu (by omega)
  | @gap pre mid post _ lo hi splice miss far =>
    refine ⟨fun _ => ?_, fun _ => (splice_separated_iff splice sep).mpr (far sep)⟩
    rintro ⟨⟨t, ht, low, high⟩, _⟩
    have := miss t ht
    omega
  | @overlap pre mid post _ lo hi splice some hit =>
    rw [splice_separated_iff splice sep]
    have inPre : ∀ p ∈ pre, p ∈ s := fun p hp => by rw [splice.before]; simp [hp]
    have inMid : ∀ p ∈ mid, p ∈ s := fun p hp => by rw [splice.before]; simp [hp]
    have inPost : ∀ p ∈ post, p ∈ s := fun p hp => by rw [splice.before]; simp [hp]
    have bottom := (splice.cover r.start).mpr (.inl ⟨le_refl _, valid⟩)
    have top := (splice.cover r.stop).mpr (.inl ⟨valid, le_refl _⟩)
    have midIn : ∀ t ∈ mid, lo ≤ t.start ∧ t.stop ≤ hi := by
      intro t ht
      have vt := sep.nonempty t (inMid t ht)
      exact ⟨((splice.cover t.start).mpr (.inr ⟨t, ht, le_refl _, vt⟩)).1,
        ((splice.cover t.stop).mpr (.inr ⟨t, ht, vt, le_refl _⟩)).2⟩
    constructor
    · rintro ⟨down, up⟩ ⟨_, t, ht, border⟩
      have vt := sep.nonempty t ht
      rw [splice.before] at ht
      simp only [mem_append] at ht
      rcases ht with ht | ht | ht
      · have := splice.below t ht; have := down t ht; omega
      · have := hit t ht; omega
      · have := splice.above t ht; have := up t ht; omega
    · intro clean
      obtain ⟨u, rest, midEq⟩ := exists_cons_of_ne_nil some
      have overlapped : ∃ t ∈ s, t.start ≤ r.stop ∧ r.start ≤ t.stop :=
        ⟨u, inMid u (by simp [midEq]), hit u (by simp [midEq])⟩
      constructor
      · intro p hp borders
        rcases (splice.cover lo).mp ⟨le_refl _, splice.valid⟩ with inside | ⟨t, ht, inside⟩
        · have := inside.1
          exact clean ⟨overlapped, p, inPre p hp, .inl (by omega)⟩
        · have := inside.1; have := (midIn t ht).1
          exact apart p (inPre p hp) t (inMid t ht) (by omega)
      · intro q hq borders
        rcases (splice.cover hi).mp ⟨splice.valid, le_refl _⟩ with inside | ⟨t, ht, inside⟩
        · have := inside.2
          exact clean ⟨overlapped, q, inPost q hq, .inr (by omega)⟩
        · have := inside.2; have := (midIn t ht).2
          exact apart t (inMid t ht) q (inPost q hq) (by omega)

/-- What removeWalk keeps of the items before the walk position: the points
    outside the range, in items that lie inside former items. -/
structure Kept (r : UintRange) (prevs kept : List UintRange) : Prop where
  ascending : Ascending kept
  separated : Separated prevs.reverse → Separated kept
  inside : ∀ t ∈ kept, ∃ u ∈ prevs, u.start ≤ t.start ∧ t.stop ≤ u.stop
  exact : ∀ x, x ∈ points kept ↔ x ∈ points prevs ∧ ¬ r.Contains x

theorem kept_join {z : UintRange} {front pieces : List UintRange}
    (asc : Ascending (z :: prevs).reverse) (hf : Kept r prevs front)
    (ascending : Ascending pieces) (separated : Separated pieces)
    (inside : ∀ t ∈ pieces, z.start ≤ t.start ∧ t.stop ≤ z.stop)
    (exact : ∀ x, x ∈ points pieces ↔ z.Contains x ∧ ¬ r.Contains x) :
    Kept r (z :: prevs) (front ++ pieces) := by
  obtain ⟨_, _, under⟩ := ascending_reverse_cons.mp asc
  refine ⟨ascending_append.mpr ⟨hf.ascending, ascending, ?_⟩, ?_, ?_, ?_⟩
  · intro t ht w hw
    obtain ⟨u, hu, _, high⟩ := hf.inside t ht
    have := under u hu; have := (inside w hw).1
    omega
  · intro sep
    rw [reverse_cons] at sep
    obtain ⟨sprevs, _, cross⟩ := separated_append.mp sep
    refine separated_append.mpr ⟨hf.separated sprevs, separated, ?_⟩
    intro t ht w hw
    obtain ⟨u, hu, _, high⟩ := hf.inside t ht
    have := cross u (mem_reverse.mpr hu) z (by simp); have := (inside w hw).1
    omega
  · intro t ht
    rcases mem_append.mp ht with ht | ht
    · obtain ⟨u, hu, bounds⟩ := hf.inside t ht
      exact ⟨u, mem_cons_of_mem z hu, bounds⟩
    · exact ⟨z, by simp, inside t ht⟩
  · intro x
    rw [mem_points_append, mem_points_cons, hf.exact, exact]
    tauto

theorem kept_below (asc : Ascending prevs.reverse) (below : ∀ t ∈ prevs, t.stop < r.start) :
    Kept r prevs prevs.reverse := by
  refine ⟨asc, id, fun t ht => ⟨t, mem_reverse.mp ht, le_refl _, le_refl _⟩, ?_⟩
  intro x
  rw [points_reverse]
  refine ⟨fun h => ⟨h, ?_⟩, And.left⟩
  obtain ⟨t, ht, _, high⟩ := h
  rintro ⟨low, _⟩
  have := below t ht
  omega

theorem removeWalk_kept (hr : RangeOk r) (prevs : List UintRange) (asc : Ascending prevs.reverse)
    (bounded : ∀ t ∈ prevs, t.stop < 2 ^ 64) :
    ∃ kept, Kept r prevs kept ∧ ∀ after, removeWalk r prevs after = kept ++ after := by
  have valid := hr.valid
  have top := hr.bounded
  induction prevs with
  | nil =>
    exact ⟨[], ⟨ascending_nil, fun _ => separated_nil, by simp, by simp⟩, fun _ => rfl⟩
  | cons z rest ih =>
    obtain ⟨vz, front, under⟩ := ascending_reverse_cons.mp asc
    have bz := bounded z (by simp)
    obtain ⟨kept, hk, runs⟩ := ih front (fun t ht => bounded t (mem_cons_of_mem z ht))
    have succ : r.stop < z.stop → addU64 r.stop 1 = r.stop + 1 := fun h => addU64_exact (by omega)
    have pred : 0 < r.start → subU64 r.start 1 = r.start - 1 := fun h => subU64_exact (by omega) h
    by_cases past : z.stop < r.start
    · refine ⟨(z :: rest).reverse, kept_below asc ?_, fun after => by simp [removeWalk, past]⟩
      intro t ht
      rcases mem_cons.mp ht with same | ht
      · exact same ▸ past
      · have := under t ht; omega
    by_cases whole : r.start ≤ z.start ∧ z.stop ≤ r.stop
    · refine ⟨kept ++ [], kept_join asc hk ascending_nil separated_nil (by simp) ?_, ?_⟩
      · intro x; simp only [points_nil, Set.mem_empty_iff_false, Span.Contains, false_iff]; omega
      · intro after; rw [removeWalk, if_neg past, if_pos whole, runs]; simp
    by_cases head : r.start ≤ z.start ∧ z.start ≤ r.stop
    · have shorter : r.stop + 1 ≤ z.stop := by omega
      refine ⟨kept ++ [⟨r.stop + 1, z.stop⟩], kept_join asc hk (ascending_singleton shorter)
        (separated_singleton shorter) (by simp; omega) ?_, ?_⟩
      · intro x
        simp only [mem_points_cons, points_nil, Set.mem_empty_iff_false, or_false, Span.Contains]
        omega
      · intro after; rw [removeWalk, if_neg past, if_neg whole, if_pos head, succ shorter, runs]; simp
    by_cases tail : z.stop ≤ r.stop
    · have shorter : z.start ≤ r.start - 1 := by omega
      have positive : 0 < r.start := by omega
      refine ⟨rest.reverse ++ [⟨z.start, r.start - 1⟩], kept_join asc (kept_below front ?_)
        (ascending_singleton shorter) (separated_singleton shorter) (by simp; omega) ?_, ?_⟩
      · intro t ht; have := under t ht; omega
      · intro x
        simp only [mem_points_cons, points_nil, Set.mem_empty_iff_false, or_false, Span.Contains]
        omega
      · intro after
        rw [removeWalk, if_neg past, if_neg whole, if_neg head, if_pos tail, pred positive]; simp
    by_cases middle : z.start < r.start ∧ r.stop < z.stop
    · have sep : Separated [⟨z.start, r.start - 1⟩, ⟨r.stop + 1, z.stop⟩] :=
        separated_cons.mpr ⟨by simp only; omega, separated_singleton (by simp only; omega),
          by simp; omega⟩
      have positive : 0 < r.start := by omega
      refine ⟨rest.reverse ++ [⟨z.start, r.start - 1⟩, ⟨r.stop + 1, z.stop⟩],
        kept_join asc (kept_below front ?_) (separated_ascending sep) sep (by simp; omega) ?_, ?_⟩
      · intro t ht; have := under t ht; omega
      · intro x
        simp only [mem_points_cons, points_nil, Set.mem_empty_iff_false, or_false, Span.Contains]
        omega
      · intro after
        rw [removeWalk, if_neg past, if_neg whole, if_neg head, if_neg tail, if_pos middle,
          pred positive, succ middle.2]
        simp
    · refine ⟨kept ++ [z], kept_join asc hk (ascending_singleton vz) (separated_singleton vz)
        (by simp) ?_, ?_⟩
      · intro x
        simp only [mem_points_cons, points_nil, Set.mem_empty_iff_false, or_false, Span.Contains]
        omega
      · intro after
        rw [removeWalk, if_neg past, if_neg whole, if_neg head, if_neg tail, if_neg middle, runs]
        simp

theorem uintSetRemove_kept (hs : UintSetOk s) (hr : RangeOk r) :
    ∃ kept, Kept r s.reverse kept ∧ uintSetRemove s r = (true, kept) := by
  obtain ⟨kept, hk, runs⟩ := removeWalk_kept hr s.reverse
    (by simpa using hs.ascending) (fun t ht => hs.bounded t (mem_reverse.mp ht))
  exact ⟨kept, hk, by simp [uintSetRemove, hr.valid, runs]⟩

theorem kept_ok {kept : UintSet} (hs : UintSetOk s) (hk : Kept r s.reverse kept) :
    UintSetOk kept := by
  refine ⟨hk.ascending, ?_⟩
  intro t ht
  obtain ⟨u, hu, _, high⟩ := hk.inside t ht
  have := hs.bounded u (mem_reverse.mp hu)
  omega

theorem queryWalk_iff (asc : Ascending prevs.reverse) (v : Nat) :
    queryWalk v prevs = true ↔ v ∈ points prevs := by
  induction prevs with
  | nil => simp [queryWalk]
  | cons x rest ih =>
    obtain ⟨_, front, under⟩ := ascending_reverse_cons.mp asc
    rw [queryWalk, mem_points_cons]
    split_ifs with inside past
    · exact ⟨fun _ => .inl inside, fun _ => rfl⟩
    · simp only [false_iff, not_or]
      refine ⟨inside, ?_⟩
      rintro ⟨t, ht, _, high⟩
      have := under t ht; have := (ascending_reverse_cons.mp asc).1
      omega
    · rw [ih front]
      exact ⟨.inr, fun h => h.resolve_left inside⟩

theorem uintSetQuery_iff (asc : Ascending s) (v : Nat) :
    uintSetQuery s v = true ↔ v ∈ points s := by
  rw [uintSetQuery, queryWalk_iff (by simpa using asc), points_reverse]

variable {set : UintSet} {start stop : Nat}

/-- An insertion of numbers that the set does not have keeps it separated. -/
theorem insert_disjoint (mem : Bool) (ok : UintSetOk set) (sep : Separated set)
    (bound : start ≤ stop → stop < 2 ^ 64) (fresh : ∀ x, start ≤ x → x ≤ stop → x ∉ points set) :
    uintSetInsert mem set ⟨start, stop⟩ = (false, set) ∨
      ∃ set', uintSetInsert mem set ⟨start, stop⟩ = (true, set') ∧ start ≤ stop ∧
        Separated set' ∧ ∀ x, x ∈ points set' ↔ x ∈ points set ∨ (start ≤ x ∧ x ≤ stop) := by
  by_cases valid : start ≤ stop
  · have range : RangeOk ⟨start, stop⟩ := ⟨valid, bound valid⟩
    rcases uintSetInsert_outcome mem ok range with ⟨failed, _⟩ | ⟨done, outcome⟩
    · exact .inl failed
    · refine .inr ⟨(uintSetInsert mem set ⟨start, stop⟩).2, Prod.ext done rfl, valid, ?_,
        outcome_points outcome⟩
      refine (outcome_separated_iff sep range outcome).mpr ?_
      rintro ⟨⟨t, ht, low, high⟩, _⟩
      have vt := sep.nonempty t ht
      by_cases first : start ≤ t.start
      · exact fresh t.start first low (mem_points_of_mem ht ⟨le_refl _, vt⟩)
      · exact fresh start (le_refl _) valid (mem_points_of_mem ht ⟨by omega, high⟩)
  · exact .inl (by unfold uintSetInsert; rw [if_pos valid])

theorem remove_separated (ok : UintSetOk set) (sep : Separated set)
    (bound : start ≤ stop → stop < 2 ^ 64) : uintSetRemove set ⟨start, stop⟩ = (false, set) ∨
      ∃ set', uintSetRemove set ⟨start, stop⟩ = (true, set') ∧ Separated set' ∧
        ∀ x, x ∈ points set' ↔ x ∈ points set ∧ ¬ (start ≤ x ∧ x ≤ stop) := by
  by_cases valid : start ≤ stop
  · obtain ⟨kept, hk, run⟩ := uintSetRemove_kept (r := ⟨start, stop⟩) ok ⟨valid, bound valid⟩
    refine .inr ⟨kept, run, hk.separated (by simpa using sep), fun x => ?_⟩
    rw [hk.exact, points_reverse]
    rfl
  · exact .inl (by rw [uintSetRemove, if_pos valid])

end Ossl
