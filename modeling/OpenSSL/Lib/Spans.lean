import Mathlib.Data.Set.Lattice
import Mathlib.Order.Interval.Set.Basic
import Mathlib.Order.Lattice

/- Sets stored as ascending lists of inclusive spans. The ordering and splicing
   laws hold in any linear order; separation needs a successor and is stated
   for Nat. -/
namespace Spans
open List

structure Span (α : Type*) where
  start : α
  stop : α
  deriving DecidableEq

section LinearOrder
variable {α : Type*} [LinearOrder α]

def Span.Contains (s : Span α) (x : α) : Prop := s.start ≤ x ∧ x ≤ s.stop

instance (s : Span α) (x : α) : Decidable (s.Contains x) := inferInstanceAs (Decidable (_ ∧ _))

def points (l : List (Span α)) : Set α := {x | ∃ s ∈ l, s.Contains x}

@[simp] theorem points_nil : points ([] : List (Span α)) = ∅ := by
  ext x; simp [points]

@[simp] theorem mem_points_cons (s : Span α) (l : List (Span α)) (x : α) :
    x ∈ points (s :: l) ↔ s.Contains x ∨ x ∈ points l := by
  simp [points]

@[simp] theorem mem_points_append (l m : List (Span α)) (x : α) :
    x ∈ points (l ++ m) ↔ x ∈ points l ∨ x ∈ points m := by
  simp only [points, mem_append, Set.mem_ofPred_eq]
  constructor
  · rintro ⟨s, inside | inside, here⟩
    · exact .inl ⟨s, inside, here⟩
    · exact .inr ⟨s, inside, here⟩
  · rintro (⟨s, inside, here⟩ | ⟨s, inside, here⟩)
    · exact ⟨s, .inl inside, here⟩
    · exact ⟨s, .inr inside, here⟩

@[simp] theorem points_reverse (l : List (Span α)) : points l.reverse = points l := by
  ext x; simp [points]

variable {s : Span α} {l m : List (Span α)} {x : α}

theorem mem_points_of_mem (member : s ∈ l) (here : s.Contains x) : x ∈ points l := ⟨s, member, here⟩

/-- Non-empty spans, each ending before the next begins. -/
structure Ascending (l : List (Span α)) : Prop where
  nonempty : ∀ s ∈ l, s.start ≤ s.stop
  ordered : l.Pairwise (fun s t => s.stop < t.start)

theorem ascending_nil : Ascending ([] : List (Span α)) := ⟨by simp, .nil⟩

theorem ascending_singleton (valid : s.start ≤ s.stop) : Ascending [s] :=
  ⟨by simpa using valid, pairwise_singleton _ _⟩

theorem ascending_iff : Ascending l ↔
      (∀ s ∈ l, s.start ≤ s.stop) ∧ l.Pairwise (fun s t => s.stop < t.start) :=
  ⟨fun h => ⟨h.nonempty, h.ordered⟩, fun h => ⟨h.1, h.2⟩⟩

theorem ascending_append : Ascending (l ++ m) ↔
      Ascending l ∧ Ascending m ∧ ∀ s ∈ l, ∀ t ∈ m, s.stop < t.start := by
  rw [ascending_iff, ascending_iff, ascending_iff, forall_mem_append, pairwise_append]
  tauto

theorem ascending_cons : Ascending (s :: l) ↔
      s.start ≤ s.stop ∧ Ascending l ∧ ∀ t ∈ l, s.stop < t.start := by
  rw [ascending_iff, ascending_iff, forall_mem_cons, pairwise_cons]
  tauto

theorem ascending_reverse_cons : Ascending (s :: l).reverse ↔
      s.start ≤ s.stop ∧ Ascending l.reverse ∧ ∀ t ∈ l, t.stop < s.start := by
  simp only [reverse_cons, ascending_append, ascending_iff (l := [s]), forall_mem_singleton,
    pairwise_singleton, mem_reverse]
  tauto

theorem ascending_sublist (sub : l.Sublist m) (asc : Ascending m) : Ascending l :=
  ⟨fun s h => asc.nonempty s (sub.subset h), asc.ordered.sublist sub⟩

/-- Every stored point lies above the start of the first span. -/
theorem first_le_points (asc : Ascending (s :: l)) (inside : x ∈ points (s :: l)) :
    s.start ≤ x := by
  obtain ⟨valid, rest, first⟩ := ascending_cons.mp asc
  obtain ⟨t, member, here⟩ := inside
  rcases mem_cons.mp member with same | member
  · exact same ▸ here.1
  · exact (valid.trans (first t member).le).trans here.1

/-- Two stored spans that share a point are the same span. -/
theorem ascending_unique (asc : Ascending l) {t : Span α} (ms : s ∈ l) (mt : t ∈ l)
    (hs : s.Contains x) (ht : t.Contains x) : s = t := by
  induction l with
  | nil => simp at ms
  | cons u rest ih =>
    obtain ⟨_, tail, first⟩ := ascending_cons.mp asc
    rcases mem_cons.mp ms with es | rs <;> rcases mem_cons.mp mt with et | rt
    · exact es.trans et.symm
    · subst es
      exact absurd (hs.2.trans_lt (first t rt)) (not_lt.mpr ht.1)
    · subst et
      exact absurd (ht.2.trans_lt (first s rs)) (not_lt.mpr hs.1)
    · exact ih tail rs rt

/-- The result of replacing a run mid of stored spans by one span [lo, hi] that
    covers the run together with the range r, everything else left in place. -/
structure Splice (l : List (Span α)) (r : Span α) (m : List (Span α))
    (pre mid post : List (Span α)) (lo hi : α) : Prop where
  before : l = pre ++ (mid ++ post)
  after : m = pre ++ ⟨lo, hi⟩ :: post
  valid : lo ≤ hi
  below : ∀ s ∈ pre, s.stop < lo
  above : ∀ s ∈ post, hi < s.start
  cover : ∀ x, (lo ≤ x ∧ x ≤ hi) ↔ r.Contains x ∨ x ∈ points mid

variable {mid post pre : List (Span α)} {r : Span α}

theorem splice_ascending {lo hi : α} (splice : Splice l r m pre mid post lo hi)
    (asc : Ascending l) : Ascending m := by
  obtain ⟨before, after, valid, below, above, _⟩ := splice
  subst before; subst after
  obtain ⟨hpre, hrest, cross⟩ := ascending_append.mp asc
  obtain ⟨_, hpost, _⟩ := ascending_append.mp hrest
  refine ascending_append.mpr ⟨hpre, ascending_cons.mpr ⟨valid, hpost, above⟩, ?_⟩
  intro s hs t ht
  rcases mem_cons.mp ht with same | ht
  · subst same; exact below s hs
  · exact cross s hs t (mem_append_right mid ht)

theorem splice_points {lo hi : α} (splice : Splice l r m pre mid post lo hi) (x : α) :
    x ∈ points m ↔ x ∈ points l ∨ r.Contains x := by
  obtain ⟨before, after, _, _, _, cover⟩ := splice
  subst before; subst after
  have here := cover x
  simp only [mem_points_append, mem_points_cons, Span.Contains] at *
  rw [here]
  tauto

end LinearOrder

/-- Ascending with at least one missing number between consecutive spans. -/
structure Separated (l : List (Span Nat)) : Prop where
  nonempty : ∀ s ∈ l, s.start ≤ s.stop
  apart : l.Pairwise (fun s t => s.stop + 1 < t.start)

variable {l m : List (Span Nat)} {s : Span Nat}

theorem separated_ascending (sep : Separated l) : Ascending l :=
  ⟨sep.nonempty, sep.apart.imp (fun h => by omega)⟩

theorem separated_nil : Separated [] := ⟨by simp, .nil⟩

theorem separated_singleton (valid : s.start ≤ s.stop) : Separated [s] :=
  ⟨by simpa using valid, pairwise_singleton _ _⟩

theorem separated_iff : Separated l ↔
      (∀ s ∈ l, s.start ≤ s.stop) ∧ l.Pairwise (fun s t => s.stop + 1 < t.start) :=
  ⟨fun h => ⟨h.nonempty, h.apart⟩, fun h => ⟨h.1, h.2⟩⟩

theorem separated_append : Separated (l ++ m) ↔
      Separated l ∧ Separated m ∧ ∀ s ∈ l, ∀ t ∈ m, s.stop + 1 < t.start := by
  rw [separated_iff, separated_iff, separated_iff, forall_mem_append, pairwise_append]
  tauto

theorem separated_cons : Separated (s :: l) ↔
      s.start ≤ s.stop ∧ Separated l ∧ ∀ t ∈ l, s.stop + 1 < t.start := by
  rw [separated_iff, separated_iff, forall_mem_cons, pairwise_cons]
  tauto

theorem separated_reverse_cons : Separated (s :: l).reverse ↔
      s.start ≤ s.stop ∧ Separated l.reverse ∧ ∀ t ∈ l, t.stop + 1 < s.start := by
  simp only [reverse_cons, separated_append, separated_iff (l := [s]), forall_mem_singleton,
    pairwise_singleton, mem_reverse]
  tauto

/-- An ascending list is separated exactly when no two of its spans border. -/
theorem separated_iff_no_border (asc : Ascending l) :
    Separated l ↔ ∀ s ∈ l, ∀ t ∈ l, s.stop + 1 ≠ t.start := by
  induction l with
  | nil => simp [separated_nil]
  | cons u rest ih =>
    obtain ⟨valid, tail, first⟩ := ascending_cons.mp asc
    rw [separated_cons, ih tail]
    constructor
    · rintro ⟨_, inner, far⟩ s hs t ht
      rcases mem_cons.mp hs with es | rs <;> rcases mem_cons.mp ht with et | rt
      · subst es; subst et; omega
      · subst es; exact (far t rt).ne
      · subst et
        have := first s rs; have := tail.nonempty s rs
        omega
      · exact inner s rs t rt
    · intro apart
      refine ⟨valid, fun s hs t ht => apart s (by simp [hs]) t (by simp [ht]), ?_⟩
      intro t ht
      have := first t ht; have := apart u (by simp) t (by simp [ht])
      omega

/-- In a separated list the number after a span is missing. -/
theorem separated_gap_after (sep : Separated l) (member : s ∈ l) : s.stop + 1 ∉ points l := by
  rintro ⟨t, mt, low, high⟩
  have asc := separated_ascending sep
  have apart := (separated_iff_no_border asc).mp sep s member t mt
  have hs := sep.nonempty s member
  have same : s = t ∨ t.start ≠ s.stop + 1 := by right; omega
  rcases same with same | ne
  · subst same; omega
  · have touch : t.Contains s.stop := ⟨by omega, by omega⟩
    have eq := ascending_unique asc member mt ⟨hs, le_refl _⟩ touch
    subst eq; omega

/-- Separated lists are canonical: the stored points determine the list. -/
theorem separated_unique (sl : Separated l) (sm : Separated m) (same : points l = points m) :
    l = m := by
  induction l generalizing m with
  | nil =>
    cases m with
    | nil => rfl
    | cons t rest =>
      have inside : t.start ∈ points (t :: rest) :=
        mem_points_of_mem (by simp) ⟨le_refl _, sm.nonempty t (by simp)⟩
      rw [← same] at inside
      simp at inside
  | cons s tail ih =>
    cases m with
    | nil =>
      have inside : s.start ∈ points (s :: tail) :=
        mem_points_of_mem (by simp) ⟨le_refl _, sl.nonempty s (by simp)⟩
      rw [same] at inside
      simp at inside
    | cons t rest =>
      obtain ⟨vs, stail, fars⟩ := separated_cons.mp sl
      obtain ⟨vt, srest, fart⟩ := separated_cons.mp sm
      have hs : s.start ∈ points (t :: rest) :=
        same ▸ mem_points_of_mem (by simp) ⟨le_refl _, vs⟩
      have ht : t.start ∈ points (s :: tail) :=
        same ▸ mem_points_of_mem (by simp) ⟨le_refl _, vt⟩
      have starts : s.start = t.start :=
        le_antisymm (first_le_points (separated_ascending sl) ht)
          (first_le_points (separated_ascending sm) hs)
      have stops : s.stop = t.stop := by
        rcases lt_trichotomy s.stop t.stop with lt | eq | gt
        · have inside : s.stop + 1 ∈ points (t :: rest) :=
            mem_points_of_mem mem_cons_self ⟨by omega, by omega⟩
          exact absurd (same ▸ inside) (separated_gap_after sl (by simp))
        · exact eq
        · have inside : t.stop + 1 ∈ points (s :: tail) :=
            mem_points_of_mem mem_cons_self ⟨by omega, by omega⟩
          exact absurd (same ▸ inside) (separated_gap_after sm (by simp))
      have heads : s = t := by cases s; cases t; simp_all
      subst heads
      have tails : points tail = points rest := by
        ext x
        have at_x : x ∈ points (s :: tail) ↔ x ∈ points (s :: rest) := by rw [same]
        simp only [mem_points_cons] at at_x
        have out_tail : x ∈ points tail → ¬ s.Contains x := by
          rintro ⟨u, hu, low, _⟩ here
          have := fars u hu; have := here.2
          omega
        have out_rest : x ∈ points rest → ¬ s.Contains x := by
          rintro ⟨u, hu, low, _⟩ here
          have := fart u hu; have := here.2
          omega
        tauto
      rw [ih stail srest tails]

theorem separated_interval (sep : Separated l) {lo hi : Nat} (valid : lo ≤ hi)
    (interval : points l = Set.Icc lo hi) : l = [⟨lo, hi⟩] := by
  refine separated_unique sep (separated_singleton valid) ?_
  rw [interval]
  ext x
  simp [Span.Contains]

/-- A splice keeps a separated list separated exactly when the new span
    borders nothing that stays. -/
theorem splice_separated_iff {s pre mid post : List (Span Nat)} {r : Span Nat} {lo hi : Nat}
    (splice : Splice s r m pre mid post lo hi) (sep : Separated s) :
    Separated m ↔ (∀ p ∈ pre, p.stop + 1 ≠ lo) ∧ (∀ q ∈ post, hi + 1 ≠ q.start) := by
  obtain ⟨before, after, valid, below, above, _⟩ := splice
  subst before; subst after
  obtain ⟨hpre, hrest, cross⟩ := separated_append.mp sep
  obtain ⟨_, hpost, _⟩ := separated_append.mp hrest
  rw [separated_append, separated_cons]
  constructor
  · rintro ⟨_, ⟨_, _, up⟩, down⟩
    exact ⟨fun p hp => (down p hp ⟨lo, hi⟩ (by simp)).ne, fun q hq => (up q hq).ne⟩
  · rintro ⟨down, up⟩
    refine ⟨hpre, ⟨valid, hpost, ?_⟩, ?_⟩
    · intro q hq
      have := above q hq; have := up q hq
      simp only; omega
    · intro p hp t ht
      rcases mem_cons.mp ht with same | ht
      · have := below p hp; have := down p hp
        subst same; simp only; omega
      · exact cross p hp t (mem_append_right mid ht)

def cutBelow (bound : Nat) (l : List (Span Nat)) : List (Span Nat) :=
  l.filterMap (fun s => if s.stop < bound then none else some ⟨max bound s.start, s.stop⟩)

theorem cutBelow_cons (bound : Nat) (s : Span Nat) (l : List (Span Nat)) :
    cutBelow bound (s :: l) =
      if s.stop < bound then cutBelow bound l
      else ⟨max bound s.start, s.stop⟩ :: cutBelow bound l := by
  unfold cutBelow
  by_cases out : s.stop < bound
  · simp [out]
  · simp [out]

theorem mem_points_cutBelow (bound : Nat) (l : List (Span Nat)) (x : Nat) :
    x ∈ points (cutBelow bound l) ↔ x ∈ points l ∧ bound ≤ x := by
  induction l with
  | nil => simp [cutBelow]
  | cons s rest ih =>
    rw [cutBelow_cons]
    split
    · rw [ih, mem_points_cons, Span.Contains]
      refine and_congr_left (fun above => ?_)
      constructor
      · exact .inr
      · rintro (inside | inside)
        · omega
        · exact inside
    · rw [mem_points_cons, mem_points_cons, ih]
      simp only [Span.Contains]
      have : max bound s.start ≤ x ↔ s.start ≤ x ∧ bound ≤ x := by omega
      tauto

theorem cutBelow_inside {bound : Nat} {t : Span Nat} (member : t ∈ cutBelow bound l) :
    ∃ s ∈ l, s.start ≤ t.start ∧ t.stop = s.stop := by
  obtain ⟨s, hs, here⟩ := mem_filterMap.mp member
  split at here
  · cases here
  · obtain rfl := Option.some.inj here
    exact ⟨s, hs, le_max_right _ _, rfl⟩

theorem cutBelow_separated (bound : Nat) (sep : Separated l) : Separated (cutBelow bound l) := by
  induction l with
  | nil => exact separated_nil
  | cons s rest ih =>
    obtain ⟨valid, tail, far⟩ := separated_cons.mp sep
    rw [cutBelow_cons]
    split
    · exact ih tail
    · refine separated_cons.mpr ⟨by simp only; omega, ih tail, ?_⟩
      intro t ht
      obtain ⟨u, hu, low, _⟩ := cutBelow_inside ht
      have := far u hu
      simp only; omega

theorem cutBelow_length_le (bound : Nat) (l : List (Span Nat)) :
    (cutBelow bound l).length ≤ l.length := length_filterMap_le _ l

end Spans
