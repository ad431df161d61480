import Mathlib.Data.List.Nodup
import OpenSSL.Lib.Links
import OpenSSL.Quic.StreamMap

/- The circular lists of ssl/quic/quic_stream_map.c. A node is the head of its list or that of
   a stream in it. -/
namespace Ossl
open List Function Links

abbrev StreamNodes := Option Nat → Node (Option Nat)

def streamListInit : StreamNodes := update (fun _ => unlinked) none ⟨some none, some none⟩

def streamListInsertTail (n : Nat) (nodes : StreamNodes) : StreamNodes :=
  let prev := (nodes none).prev
  let nodes := setPrev nodes (some n) prev
  let nodes := relinkNext nodes prev (some (some n))
  let nodes := setPrev nodes none (some (some n))
  setNext nodes (some n) (some none)

def streamListRemove (n : Nat) (nodes : StreamNodes) : StreamNodes := unlink nodes (some n)

def streamListNext (n : Option Nat) (nodes : StreamNodes) : Option Nat :=
  match (nodes n).next with
  | some (some id) => some id
  | some none => (nodes none).next.join
  | none => none

def streamLinked (n : Nat) (nodes : StreamNodes) : Bool := (nodes (some n)).next.isSome

structure Circular (nodes : StreamNodes) (xs : List Nat) : Prop where
  head : nodes none = ⟨lastOr (some none) (xs.map some), firstOr (some none) (xs.map some)⟩
  linked : Linked nodes (some none) (xs.map some) (some none)
  nodup : xs.Nodup
  others : ∀ id ∉ xs, nodes (some id) = unlinked

theorem circular_init : Circular streamListInit [] where
  head := rfl
  linked := trivial
  nodup := nodup_nil
  others := fun _ _ => rfl

variable {xs : List Nat} {nodes : StreamNodes} {n : Nat}

theorem some_mem {id : Nat} : some id ∈ xs.map some ↔ id ∈ xs := by simp

theorem none_not_mem (xs : List Nat) : none ∉ xs.map some := by simp

theorem nodup_some (nodup : xs.Nodup) : (xs.map some).Nodup :=
  List.Nodup.map (Option.some_injective Nat) nodup

theorem lastOr_head : lastOr (some none) (xs.map some) = some none ↔ xs = [] := by
  constructor
  · intro is
    cases lastOr_mem is with
    | inl member => exact absurd member (none_not_mem xs)
    | inr empty => exact map_eq_nil_iff.mp empty.1
  · intro empty
    rw [empty]
    rfl

theorem firstOr_head : firstOr (some none) (xs.map some) = some none ↔ xs = [] := by
  cases xs with
  | nil => simp
  | cons x xs => simp

theorem circular_at {us vs : List Nat} {id : Nat} (list : Circular nodes (us ++ id :: vs)) :
    nodes (some id) = ⟨lastOr (some none) (us.map some), firstOr (some none) (vs.map some)⟩ := by
  have linked := list.linked
  rw [map_append, map_cons] at linked
  exact linked_at linked

theorem streamLinked_iff (list : Circular nodes xs) (id : Nat) :
    streamLinked id nodes = true ↔ id ∈ xs := by
  constructor
  · intro linked
    by_contra absent
    rw [streamLinked, list.others id absent] at linked
    exact nomatch linked
  · intro member
    obtain ⟨us, vs, rfl⟩ := append_of_mem member
    rw [streamLinked, circular_at list]
    cases vs with
    | nil => rfl
    | cons v vs => rfl

theorem streamListInsertTail_spec (list : Circular nodes xs) (absent : n ∉ xs) :
    Circular (streamListInsertTail n nodes) (xs ++ [n]) := by
  have prev : (nodes none).prev = lastOr (some none) (xs.map some) := by rw [list.head]
  have notNew : lastOr (some none) (xs.map some) ≠ some (some n) := by
    intro is
    cases lastOr_mem is with
    | inl member => exact absent (some_mem.mp member)
    | inr empty => exact nomatch empty.2
  have inner : ∀ r, r ≠ none → r ≠ some n → streamListInsertTail n nodes r =
      relinkNext (setPrev nodes (some n) (nodes none).prev) (nodes none).prev (some (some n)) r := by
    intro r notHead notN
    unfold streamListInsertTail
    rw [setNext_other notN, setPrev_other notHead]
  constructor
  · rw [map_append, lastOr_append, firstOr_append]
    unfold streamListInsertTail
    rw [setNext_other (by simp), setPrev, update_self, prev]
    by_cases empty : xs = []
    · subst empty
      show Node.mk _ (setNext _ none (some (some n)) none).next = _
      rw [setNext, update_self]
      rfl
    · have first : lastOr (some none) (xs.map some) ≠ some none := mt lastOr_head.mp empty
      rw [relinkNext_other first, setPrev_other (by simp), list.head]
      cases xs with
      | nil => exact absurd rfl empty
      | cons x xs => rfl
  · rw [map_append, map_singleton, linked_append]
    constructor
    · have kept : Linked (setPrev nodes (some n) (nodes none).prev) (some none) (xs.map some)
          (some none) := by
        apply linked_same _ list.linked
        intro r member
        apply setPrev_other
        intro is
        rw [is] at member
        exact absent (some_mem.mp member)
      have made := linked_relinkNext (nodup_some list.nodup) kept (some (some n))
      rw [← prev] at made
      apply linked_same _ made
      intro r member
      apply inner
      · intro is
        rw [is] at member
        exact none_not_mem xs member
      · intro is
        rw [is] at member
        exact absent (some_mem.mp member)
    · refine ⟨?_, trivial⟩
      unfold streamListInsertTail
      rw [setNext, update_self, setPrev_other (by simp), prev, relinkNext_other notNew,
        setPrev, update_self]
      rfl
  · rw [perm_append_singleton n xs |>.nodup_iff]
    exact nodup_cons.mpr ⟨absent, list.nodup⟩
  · intro id outside
    rw [mem_append, mem_singleton, not_or] at outside
    rw [inner _ (by simp) (by simpa using outside.2), relinkNext_other, setPrev_other]
    · exact list.others id outside.1
    · simpa using outside.2
    · rw [prev]
      intro is
      cases lastOr_mem is with
      | inl member => exact outside.1 (some_mem.mp member)
      | inr empty => exact nomatch empty.2

theorem streamListRemove_spec (list : Circular nodes xs) (member : n ∈ xs) :
    Circular (streamListRemove n nodes) (xs.erase n) := by
  obtain ⟨us, vs, rfl⟩ := append_of_mem member
  have absent := (nodup_cons.mp (perm_middle.nodup_iff.mp list.nodup)).1
  have erased : (us ++ n :: vs).erase n = us ++ vs := by
    rw [erase_append_right _ (fun inside => absent (mem_append_left vs inside)), erase_cons_head]
  have node := circular_at list
  have linked := list.linked
  rw [map_append, map_cons] at linked
  have nodup := nodup_some list.nodup
  rw [map_append, map_cons] at nodup
  have outside : ∀ y ∈ us.map some ++ some n :: vs.map some, some (none : Option Nat) ≠ some y := by
    intro y inside is
    rw [← Option.some.inj is, ← map_cons (f := some), ← map_append] at inside
    exact none_not_mem _ inside
  rw [erased]
  constructor
  · have head := list.head
    rw [map_append, map_cons, lastOr_append, firstOr_append, lastOr_cons, firstOr_cons] at head
    rw [streamListRemove, unlink, update_of_ne (by simp), node]
    rw [map_append, lastOr_append, firstOr_append]
    have first : relinkNext nodes (lastOr (some none) (us.map some))
        (firstOr (some none) (vs.map some)) none =
        ⟨(nodes none).prev, firstOr (firstOr (some none) (vs.map some)) (us.map some)⟩ := by
      cases us with
      | nil =>
        show setNext (R := Option Nat) nodes none _ none = _
        rw [setNext, update_self]
        rfl
      | cons u us =>
        rw [relinkNext_other (mt lastOr_head.mp (cons_ne_nil u us)), head]
        rfl
    generalize relinkNext nodes (lastOr (some none) (us.map some))
      (firstOr (some none) (vs.map some)) = mem at first
    cases vs with
    | nil =>
      show setPrev (R := Option Nat) mem none _ none = _
      rw [setPrev, update_self, first]
      rfl
    | cons v vs =>
      rw [relinkPrev_other (mt firstOr_head.mp (cons_ne_nil v vs)), first, head]
      rfl
  · rw [map_append]
    exact linked_unlink nodup outside outside linked
  · exact (nodup_cons.mp (perm_middle.nodup_iff.mp list.nodup)).2
  · intro id missing
    by_cases is : id = n
    · rw [is]
      exact update_self ..
    · have before : id ∉ us ++ n :: vs := by
        rw [mem_append, not_or] at missing
        rw [mem_append, mem_cons, not_or, not_or]
        exact ⟨missing.1, is, missing.2⟩
      rw [mem_append, not_or] at missing
      rw [streamListRemove, unlink_other (by simpa using is), list.others id before]
      · rw [node]
        intro last
        cases lastOr_mem last with
        | inl inside => exact missing.1 (some_mem.mp inside)
        | inr empty => cases empty.2
      · rw [node]
        intro next
        cases firstOr_mem next with
        | inl inside => exact missing.2 (some_mem.mp inside)
        | inr empty => cases empty.2

theorem streamListNext_spec (list : Circular nodes xs) (member : n ∈ xs) :
    streamListNext (some n) nodes = activeNext xs n := by
  obtain ⟨us, vs, rfl⟩ := append_of_mem member
  have absent := (nodup_cons.mp (perm_middle.nodup_iff.mp list.nodup)).1
  have skip : (us ++ n :: vs).dropWhile (fun x => x ≠ n) = n :: vs := by
    rw [dropWhile_append_of_pos]
    · simp
    · intro x inside
      simp only [ne_eq, decide_not, Bool.not_eq_true', decide_eq_false_iff_not]
      intro is
      rw [is] at inside
      exact absent (mem_append_left vs inside)
  have head := list.head
  unfold streamListNext activeNext
  rw [circular_at list, head, skip, tail_cons]
  cases vs with
  | nil =>
    cases us with
    | nil => rfl
    | cons u us => rfl
  | cons v vs => rfl

end Ossl
