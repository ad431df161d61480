import OpenSSL.Lib.Spans
import OpenSSL.Word

/- The 64-bit integer set of ssl/quic/uint_set.c. The doubly linked list is the List of its items,
   head first. A walk from the tail holds the current item, those before it nearest first, and those
   already passed in order. Both bounds of a range are inclusive. -/
namespace Ossl
open List Spans

abbrev UintRange := Span Nat
abbrev UintSet := List UintRange

def uintRangeOverlaps (a b : UintRange) : Bool := decide (max a.start b.start ≤ min a.stop b.stop)

def uintSetMergeAdjacent (prevs : List UintRange) (x : UintRange)
    (after : List UintRange) : UintSet :=
  match prevs with
  | [] => x :: after
  | xprev :: rest =>
    if subU64 x.start 1 ≠ xprev.stop then (xprev :: rest).reverse ++ x :: after
    else rest.reverse ++ ⟨xprev.start, x.stop⟩ :: after

def earliestOverlap (r : UintRange) (z : UintRange) : List UintRange → UintRange × List UintRange
  | [] => (z, [])
  | zprev :: rest =>
    if uintRangeOverlaps zprev r then earliestOverlap r zprev rest else (z, zprev :: rest)

/- The loop of ossl_uint_set_insert: z is the head of the first list, after the
   items behind z. mem tells whether the allocation of a new item succeeds. -/
def insertWalk (mem : Bool) (r : UintRange) : List UintRange → List UintRange → Bool × UintSet
  | [], after => (true, after)
  | z :: prevs, after =>
    if z.start ≤ r.start ∧ r.stop ≤ z.stop then (true, (z :: prevs).reverse ++ after)
    else if uintRangeOverlaps z r then
      let earliest := earliestOverlap r z prevs
      (true, earliest.2.reverse ++ ⟨min r.start earliest.1.start, max r.stop z.stop⟩ :: after)
    else if r.stop < z.start ∧ (∀ zprev ∈ prevs.head?, zprev.stop < r.start) then
      if z.start = addU64 r.stop 1 then
        (true, uintSetMergeAdjacent prevs ⟨r.start, z.stop⟩ after)
      else match prevs with
        | [] => if mem then (true, r :: z :: after) else (false, z :: after)
        | zprev :: rest =>
          if addU64 zprev.stop 1 = r.start then
            (true, uintSetMergeAdjacent (⟨zprev.start, r.stop⟩ :: rest) z after)
          else if mem then (true, (zprev :: rest).reverse ++ r :: z :: after)
          else (false, (zprev :: rest).reverse ++ z :: after)
    else insertWalk mem r prevs (z :: after)

def uintSetInsert (mem : Bool) (s : UintSet) (r : UintRange) : Bool × UintSet :=
  if ¬ r.start ≤ r.stop then (false, s)
  else match s with
  | [] => if mem then (true, [r]) else (false, [])
  | f :: rest =>
    let z := (f :: rest).getLast (by simp)
    if z.stop < r.start then
      if addU64 z.stop 1 = r.start then (true, (f :: rest).dropLast ++ [⟨z.start, r.stop⟩])
      else if mem then (true, (f :: rest) ++ [r]) else (false, f :: rest)
    -- the new range covers all items, the first of which is reused
    else if r.start ≤ f.start ∧ z.stop ≤ r.stop then (true, [r])
    else if r.stop < f.start then insertWalk mem r [f] rest
    else insertWalk mem r (f :: rest).reverse []

/- The loop of ossl_uint_set_remove. The item that a split creates is used
   unchecked by the source, so its allocation is taken to succeed. -/
def removeWalk (r : UintRange) : List UintRange → List UintRange → UintSet
  | [], after => after
  | z :: prevs, after =>
    if z.stop < r.start then (z :: prevs).reverse ++ after
    else if r.start ≤ z.start ∧ z.stop ≤ r.stop then removeWalk r prevs after
    else if r.start ≤ z.start ∧ z.start ≤ r.stop then
      removeWalk r prevs (⟨addU64 r.stop 1, z.stop⟩ :: after)
    else if z.stop ≤ r.stop then
      prevs.reverse ++ ⟨z.start, subU64 r.start 1⟩ :: after
    else if z.start < r.start ∧ r.stop < z.stop then
      prevs.reverse ++ ⟨z.start, subU64 r.start 1⟩ :: ⟨addU64 r.stop 1, z.stop⟩ :: after
    else removeWalk r prevs (z :: after)

def uintSetRemove (s : UintSet) (r : UintRange) : Bool × UintSet :=
  if ¬ r.start ≤ r.stop then (false, s) else (true, removeWalk r s.reverse [])

def queryWalk (v : Nat) : List UintRange → Bool
  | [] => false
  | x :: prevs =>
    if x.start ≤ v ∧ v ≤ x.stop then true
    else if x.stop < v then false
    else queryWalk v prevs

def uintSetQuery (s : UintSet) (v : Nat) : Bool := queryWalk v s.reverse

/- What the comment of uint_set.c promises of the list, but for bordering. -/
structure UintSetOk (s : UintSet) : Prop where
  ascending : Ascending s
  bounded : ∀ t ∈ s, t.stop < 2 ^ 64

structure RangeOk (r : UintRange) : Prop where
  valid : r.start ≤ r.stop
  bounded : r.stop < 2 ^ 64

theorem overlaps_iff {a b : UintRange} (ha : a.start ≤ a.stop) (hb : b.start ≤ b.stop) :
    uintRangeOverlaps a b = true ↔ a.start ≤ b.stop ∧ b.start ≤ a.stop := by
  simp only [uintRangeOverlaps, decide_eq_true_eq]
  omega

def Misses (s : UintSet) (r : UintRange) : Prop := ∀ t ∈ s, t.stop < r.start ∨ r.stop < t.start

/- How an insertion that succeeds changes the list: the range is held already, it replaces the run
   of items it overlaps, or it fills a gap. In a separated list only the second can leave two
   bordering items. -/
inductive InsertOutcome (s : UintSet) (r : UintRange) : UintSet → Prop where
  | held {t : UintRange} (member : t ∈ s) (low : t.start ≤ r.start) (high : r.stop ≤ t.stop) :
      InsertOutcome s r s
  | overlap (pre mid post : UintSet) {m : UintSet} {lo hi : Nat} (splice : Splice s r m pre mid post lo hi)
      (some : mid ≠ []) (hit : ∀ t ∈ mid, t.start ≤ r.stop ∧ r.start ≤ t.stop) :
      InsertOutcome s r m
  | gap (pre mid post : UintSet) {m : UintSet} {lo hi : Nat} (splice : Splice s r m pre mid post lo hi)
      (miss : Misses s r)
      (far : Separated s → (∀ p ∈ pre, p.stop + 1 ≠ lo) ∧ (∀ q ∈ post, hi + 1 ≠ q.start)) :
      InsertOutcome s r m

variable {r z : UintRange} {s : UintSet}

theorem earliestOverlap_run {prevs : List UintRange} (hr : r.start ≤ r.stop)
    (asc : Ascending (z :: prevs).reverse) (hit : z.start ≤ r.stop ∧ r.start ≤ z.stop) :
    ∃ run, (z :: prevs).reverse = (earliestOverlap r z prevs).2.reverse ++ run ∧ run ≠ [] ∧
      (∀ t ∈ run, t.start ≤ r.stop ∧ r.start ≤ t.stop) ∧
      (∀ p ∈ (earliestOverlap r z prevs).2, p.stop < min r.start (earliestOverlap r z prevs).1.start) ∧
      ∀ x, (min r.start (earliestOverlap r z prevs).1.start ≤ x ∧ x ≤ max r.stop z.stop) ↔
        r.Contains x ∨ x ∈ points run := by
  have hz : z.start ≤ z.stop := asc.nonempty z (by simp)
  induction prevs generalizing z with
  | nil =>
    refine ⟨[z], rfl, by simp, by simpa using hit, by simp [earliestOverlap], ?_⟩
    intro x
    simp only [earliestOverlap, Span.Contains, mem_points_cons, points_nil,
      Set.mem_empty_iff_false, or_false]
    omega
  | cons p rest ih =>
    obtain ⟨_, front, under⟩ := ascending_reverse_cons.mp asc
    have hp : p.start ≤ p.stop := front.nonempty p (by simp)
    have below := under p (by simp)
    by_cases more : uintRangeOverlaps p r = true
    · have hitp := (overlaps_iff hp hr).mp more
      obtain ⟨run, split, some, hits, low, cover⟩ := ih front hitp hp
      have unfolded : earliestOverlap r z (p :: rest) = earliestOverlap r p rest := by
        simp [earliestOverlap, more]
      rw [unfolded]
      refine ⟨run ++ [z], ?_, by simp, ?_, low, ?_⟩
      · rw [reverse_cons, split, append_assoc]
      · intro t ht
        rcases mem_append.mp ht with ht | ht
        · exact hits t ht
        · simp only [mem_singleton] at ht; exact ht ▸ hit
      · intro x
        rw [mem_points_append, ← or_assoc, ← cover x]
        simp only [mem_points_cons, points_nil, Set.mem_empty_iff_false, or_false, Span.Contains]
        omega
    · have stays : earliestOverlap r z (p :: rest) = (z, p :: rest) := by
        simp [earliestOverlap, more]
      rw [overlaps_iff hp hr] at more
      rw [stays]
      refine ⟨[z], by simp, by simp, by simpa using hit, ?_, ?_⟩
      · intro q hq
        rcases mem_cons.mp hq with same | hq
        · subst same; simp only; omega
        · have qp := (ascending_reverse_cons.mp front).2.2 q hq
          simp only; omega
      · intro x
        simp only [Span.Contains, mem_points_cons, points_nil, Set.mem_empty_iff_false, or_false]
        omega

theorem mergeAdjacent_outcome {s after prevs mid : List UintRange} {x : UintRange}
    (asc : Ascending s) (before : s = prevs.reverse ++ (mid ++ after)) (miss : Misses s r)
    (valid : x.start ≤ x.stop) (bound : x.stop < 2 ^ 64) (below : ∀ p ∈ prevs, p.stop < x.start)
    (above : ∀ q ∈ after, x.stop < q.start)
    (cover : ∀ v, x.Contains v ↔ r.Contains v ∨ v ∈ points mid)
    (far : Separated s → ∀ q ∈ after, x.stop + 1 ≠ q.start) :
    InsertOutcome s r (uintSetMergeAdjacent prevs x after) := by
  cases prevs with
  | nil =>
    exact .gap [] mid after ⟨before, rfl, valid, by simp, above, cover⟩ miss
      (fun sep => ⟨by simp, far sep⟩)
  | cons p rest =>
    have vp := asc.nonempty p (by rw [before]; simp)
    have px := below p (by simp)
    have ordered : ∀ q ∈ rest, q.stop < p.start := by
      rw [before] at asc
      exact (ascending_reverse_cons.mp (ascending_append.mp asc).1).2.2
    have pred : subU64 x.start 1 = x.start - 1 := subU64_exact (by omega) (by omega)
    simp only [uintSetMergeAdjacent, pred]
    split
    · rename_i apart
      refine .gap _ mid after ⟨before, rfl, valid, ?_, above, cover⟩ miss (fun sep => ⟨?_, far sep⟩)
      · intro q hq; exact below q (mem_reverse.mp hq)
      · intro q hq
        rcases mem_cons.mp (mem_reverse.mp hq) with same | hq
        · subst same; omega
        · have := ordered q hq; omega
    · rename_i touch
      refine .gap _ (p :: mid) after ⟨?_, rfl, by omega, ?_, above, ?_⟩ miss
        (fun sep => ⟨?_, far sep⟩)
      · simp [before]
      · intro q hq; exact ordered q (mem_reverse.mp hq)
      · intro v
        have here := cover v
        simp only [mem_points_cons, Span.Contains] at here ⊢
        rw [or_left_comm, ← here]
        omega
      · intro q hq
        exact (separated_iff_no_border asc).mp sep q (by rw [before]; simp at hq ⊢; simp [hq]) p
          (by rw [before]; simp)

/- One round of the walk settles the insertion or moves on to the item before: the item at hand ends
   at or after the range starts, and the items already passed lie behind it. -/
theorem insertWalk_round (mem : Bool) {prevs after : UintSet} (hs : UintSetOk s) (hr : RangeOk r)
    (before : s = (z :: prevs).reverse ++ after) (reach : r.start ≤ z.stop)
    (behind : ∀ q ∈ after, r.stop < q.start) :
    (insertWalk mem r (z :: prevs) after = (false, s) ∧ mem = false ∧ Misses s r) ∨
      ((insertWalk mem r (z :: prevs) after).1 = true ∧
        InsertOutcome s r (insertWalk mem r (z :: prevs) after).2) ∨
      ∃ p rest, prevs = p :: rest ∧ r.start ≤ p.stop ∧ r.stop < z.start ∧
        insertWalk mem r (z :: prevs) after = insertWalk mem r prevs (z :: after) := by
  have asc := hs.ascending
  have split : s = prevs.reverse ++ ([z] ++ after) := by simp [before]
  have zs : z ∈ s := by simp [split]
  have vz := asc.nonempty z zs
  have bz := hs.bounded z zs
  have zafter : ∀ q ∈ after, z.stop < q.start := by
    rw [split] at asc
    intro q hq
    exact (ascending_append.mp (ascending_append.mp asc).2.1).2.2 z (by simp) q hq
  have front : Ascending (z :: prevs).reverse := by
    rw [before] at asc; exact (ascending_append.mp asc).1
  obtain ⟨_, front', prevz⟩ := ascending_reverse_cons.mp front
  have valid := hr.valid
  -- one copy of the walk's result, so that splitting it stays cheap
  generalize run : insertWalk mem r (z :: prevs) after = result
  unfold insertWalk at run
  split at run
  · rename_i inside
    subst run
    exact .inr (.inl ⟨rfl, before ▸ .held zs inside.1 inside.2⟩)
  rename_i notHeld
  split at run
  · rename_i touches
    subst run
    have hit := (overlaps_iff vz valid).mp touches
    obtain ⟨run, whole, some, hits, low, cover⟩ := earliestOverlap_run valid front hit
    refine .inr (.inl ⟨rfl, .overlap _ run after ⟨?_, rfl, by omega, ?_, ?_, cover⟩ some hits⟩)
    · rw [before, whole, append_assoc]
    · intro q hq; exact low q (by simpa using hq)
    · intro q hq
      have := zafter q hq; have := behind q hq
      simp only [gt_iff_lt]; omega
  rename_i apart
  rw [overlaps_iff vz valid] at apart
  have later : r.stop < z.start := by omega
  have full : addU64 r.stop 1 = r.stop + 1 := addU64_exact (by omega)
  split at run
  · rename_i fits
    have prevsMiss : ∀ p ∈ prevs, p.stop < r.start := by
      intro p hp
      cases prevs with
      | nil => simp at hp
      | cons q rest =>
        have hq := fits.2 q rfl
        have vq := front'.nonempty q (by simp)
        rcases mem_cons.mp hp with same | hp
        · exact same ▸ hq
        · have := (ascending_reverse_cons.mp front').2.2 p hp
          omega
    have miss : Misses s r := by
      rw [split]
      intro t ht
      simp only [mem_append, mem_reverse, mem_singleton] at ht
      rcases ht with ht | rfl | ht
      · exact .inl (prevsMiss t ht)
      · exact .inr later
      · exact .inr (behind t ht)
    split at run
    · rename_i touch
      subst run
      refine .inr (.inl ⟨rfl, mergeAdjacent_outcome asc split miss (by simp; omega) bz ?_
        zafter ?_ ?_⟩)
      · intro p hp; exact prevsMiss p hp
      · intro v
        simp only [Span.Contains, mem_points_cons, points_nil, Set.mem_empty_iff_false, or_false]
        omega
      · intro sep q hq
        exact (separated_iff_no_border asc).mp sep z zs q (by rw [split]; simp [hq])
    · rename_i loose
      rw [full] at loose
      have postFar : ∀ q ∈ z :: after, r.stop + 1 ≠ q.start := by
        intro q hq
        rcases mem_cons.mp hq with same | hq
        · subst same; omega
        · have := zafter q hq; omega
      have postAbove : ∀ q ∈ z :: after, r.stop < q.start := by
        intro q hq
        rcases mem_cons.mp hq with same | hq
        · exact same ▸ later
        · exact behind q hq
      split at run
      · subst run
        cases mem with
        | false => exact .inl ⟨by simp [before], rfl, miss⟩
        | true =>
          exact .inr (.inl ⟨rfl, .gap [] [] (z :: after) ⟨by simp [before], rfl, valid,
            by simp, postAbove, by simp [Span.Contains]⟩ miss (fun _ => ⟨by simp, postFar⟩)⟩)
      · rename_i p rest
        have pr := prevsMiss p (by simp)
        have vp := front'.nonempty p (by simp)
        have ordered := (ascending_reverse_cons.mp front').2.2
        rw [addU64_exact (by omega : p.stop + 1 < 2 ^ 64)] at run
        split at run
        · rename_i meets
          subst run
          have pred : subU64 z.start 1 ≠ r.stop := by
            rw [subU64_exact (by omega) (by omega)]; omega
          have merged : uintSetMergeAdjacent (⟨p.start, r.stop⟩ :: rest) z after =
              rest.reverse ++ ⟨p.start, r.stop⟩ :: z :: after := by
            simp [uintSetMergeAdjacent, pred]
          rw [merged]
          have splice : Splice s r (rest.reverse ++ ⟨p.start, r.stop⟩ :: z :: after)
              rest.reverse [p] (z :: after) p.start r.stop := by
            refine ⟨by simp [before], rfl, by omega, ?_, postAbove, ?_⟩
            · intro q hq; exact ordered q (mem_reverse.mp hq)
            · intro v
              simp only [Span.Contains, mem_points_cons, points_nil, Set.mem_empty_iff_false,
                or_false]
              omega
          refine .inr (.inl ⟨rfl, .gap _ _ _ splice miss (fun sep => ⟨?_, postFar⟩)⟩)
          intro q hq
          exact (separated_iff_no_border asc).mp sep q
            (by rw [split]; simp at hq ⊢; simp [hq]) p (by rw [split]; simp)
        · rename_i noMeet
          subst run
          cases mem with
          | false => exact .inl ⟨by simp [before], rfl, miss⟩
          | true =>
            refine .inr (.inl ⟨rfl, .gap (p :: rest).reverse [] (z :: after) ⟨by simp [before],
              by simp, valid, ?_, postAbove, by simp [Span.Contains]⟩ miss (fun _ => ⟨?_, postFar⟩)⟩)
            · intro q hq; exact prevsMiss q (mem_reverse.mp hq)
            · intro q hq
              rcases mem_cons.mp (mem_reverse.mp hq) with same | hq
              · exact same ▸ noMeet
              · have := ordered q hq; omega
  · rename_i unfit
    refine .inr (.inr ?_)
    cases prevs with
    | nil => exact absurd ⟨later, by simp⟩ unfit
    | cons p rest =>
      refine ⟨p, rest, rfl, ?_, later, run.symm⟩
      by_contra missed
      exact unfit ⟨later, by simp; omega⟩

theorem insertWalk_outcome (mem : Bool) {prevs after : UintSet} (hs : UintSetOk s)
    (hr : RangeOk r) (before : s = (z :: prevs).reverse ++ after) (reach : r.start ≤ z.stop)
    (behind : ∀ q ∈ after, r.stop < q.start) :
    (insertWalk mem r (z :: prevs) after = (false, s) ∧ mem = false ∧ Misses s r) ∨
      ((insertWalk mem r (z :: prevs) after).1 = true ∧
        InsertOutcome s r (insertWalk mem r (z :: prevs) after).2) := by
  induction prevs generalizing z after with
  | nil =>
    rcases insertWalk_round mem hs hr before reach behind with h | h | ⟨p, rest, none, _⟩
    · exact .inl h
    · exact .inr h
    · simp at none
  | cons q tail ih =>
    rcases insertWalk_round mem hs hr before reach behind with
      h | h | ⟨p, rest, more, reach', later, continues⟩
    · exact .inl h
    · exact .inr h
    · rw [continues]
      obtain ⟨rfl, rfl⟩ := cons.inj more
      refine ih (by simp [before]) reach' ?_
      intro t ht
      rcases mem_cons.mp ht with same | ht
      · exact same ▸ later
      · exact behind t ht

theorem uintSetInsert_outcome (mem : Bool) (hs : UintSetOk s) (hr : RangeOk r) :
    (uintSetInsert mem s r = (false, s) ∧ mem = false ∧ Misses s r) ∨
      ((uintSetInsert mem s r).1 = true ∧ InsertOutcome s r (uintSetInsert mem s r).2) := by
  have valid := hr.valid
  have bounded := hr.bounded
  have asc := hs.ascending
  cases s with
  | nil =>
    cases mem with
    | false => exact .inl ⟨by simp [uintSetInsert, valid], rfl, by simp [Misses]⟩
    | true =>
      refine .inr ⟨by simp [uintSetInsert, valid], ?_⟩
      simp only [uintSetInsert, valid, not_true, if_false, if_true]
      exact .gap [] [] [] ⟨rfl, rfl, valid, by simp, by simp,
        by simp [Span.Contains]⟩ (by simp [Misses]) (by simp)
  | cons f rest =>
    unfold uintSetInsert
    rw [if_neg (by omega)]
    simp only
    generalize last : (f :: rest).getLast (by simp) = z
    have split : f :: rest = (f :: rest).dropLast ++ [z] := by
      rw [← last, dropLast_concat_getLast]
    have zs : z ∈ f :: rest := by rw [split]; simp
    have vz := asc.nonempty z zs
    have under : ∀ t ∈ (f :: rest).dropLast, t.stop < z.start := by
      rw [split] at asc
      intro t ht
      exact (ascending_append.mp asc).2.2 t ht z (by simp)
    have low : ∀ t ∈ f :: rest, f.start ≤ t.start := by
      intro t ht
      exact first_le_points asc (mem_points_of_mem ht ⟨le_refl _, asc.nonempty t ht⟩)
    have high : ∀ t ∈ f :: rest, t.stop ≤ z.stop := by
      intro t ht
      rw [split] at ht
      rcases mem_append.mp ht with ht | ht
      · have := under t ht; omega
      · rw [mem_singleton] at ht; exact ht ▸ le_refl _
    split_ifs with beyond touch avail dwarf early
    · rw [addU64_exact (by omega)] at touch
      refine .inr ⟨rfl, .gap (f :: rest).dropLast [z] []
        ⟨by simpa using split, rfl, by omega, under, by simp, ?_⟩ ?_ (fun sep => ⟨?_, by simp⟩)⟩
      · intro x
        simp only [Span.Contains, mem_points_cons, points_nil, Set.mem_empty_iff_false, or_false]
        omega
      · intro t ht; have := high t ht; omega
      · intro p hp
        exact (separated_iff_no_border asc).mp sep p ((dropLast_sublist _).subset hp) z zs
    · rw [addU64_exact (by omega)] at touch
      refine .inr ⟨rfl, .gap (f :: rest) [] []
        ⟨by simp, rfl, valid, ?_, by simp, by simp [Span.Contains]⟩ ?_ (fun _ => ⟨?_, by simp⟩)⟩
      · intro t ht; have := high t ht; omega
      · intro t ht; have := high t ht; omega
      · intro t ht
        rw [split] at ht
        rcases mem_append.mp ht with ht | ht
        · have := under t ht; omega
        · rw [mem_singleton] at ht; exact ht ▸ touch
    · refine .inl ⟨rfl, by simpa using avail, ?_⟩
      intro t ht; have := high t ht; omega
    · refine .inr ⟨rfl, .overlap [] (f :: rest) []
        ⟨by simp, rfl, valid, by simp, by simp, ?_⟩ (by simp) ?_⟩
      · intro x
        constructor
        · exact .inl
        · rintro (here | ⟨t, ht, here⟩)
          · exact here
          · have := low t ht; have := high t ht; have := here.1; have := here.2
            omega
      · intro t ht
        have := low t ht; have := high t ht; have := asc.nonempty t ht
        omega
    · exact insertWalk_outcome mem hs hr rfl (by have := asc.nonempty f (by simp); omega)
        (fun q hq => by
          have := (ascending_cons.mp asc).2.2 q hq; have := asc.nonempty f (by simp); omega)
    · have reversed : (f :: rest).reverse = z :: (f :: rest).dropLast.reverse := by
        conv => lhs; rw [split]
        simp
      rw [reversed]
      exact insertWalk_outcome mem hs hr (by rw [← reversed]; simp) (by omega) (by simp)

end Ossl
