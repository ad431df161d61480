import Mathlib.Data.List.Basic
import Mathlib.Logic.Function.Basic

/- Nodes in memory that point to the one before and to the one after them, and the sequences
   of nodes that they link. -/
namespace Links
open Option List Function
variable {R : Type*}

structure Node (R : Type*) where
  prev : Option R
  next : Option R
  deriving DecidableEq

def unlinked : Node R := ⟨none, none⟩

def firstOr (after : Option R) : List R → Option R
  | [] => after
  | x :: _ => some x

def lastOr : Option R → List R → Option R
  | before, [] => before
  | _, x :: xs => lastOr (some x) xs

def Linked (mem : R → Node R) : Option R → List R → Option R → Prop
  | _, [], _ => True
  | before, x :: xs, after =>
    mem x = ⟨before, firstOr after xs⟩ ∧ Linked mem (some x) xs after

@[simp] theorem firstOr_nil (after : Option R) : firstOr after [] = after := rfl

@[simp] theorem firstOr_cons (after : Option R) (x : R) (xs : List R) :
    firstOr after (x :: xs) = some x := rfl

@[simp] theorem lastOr_nil (before : Option R) : lastOr before [] = before := rfl

@[simp] theorem lastOr_cons (before : Option R) (x : R) (xs : List R) :
    lastOr before (x :: xs) = lastOr (some x) xs := rfl

theorem firstOr_append (after : Option R) (xs ys : List R) :
    firstOr after (xs ++ ys) = firstOr (firstOr after ys) xs := by
  cases xs with
  | nil => rfl
  | cons x xs => rfl

theorem lastOr_append (before : Option R) (xs ys : List R) :
    lastOr before (xs ++ ys) = lastOr (lastOr before xs) ys := by
  induction xs generalizing before with
  | nil => rfl
  | cons x xs ih => exact ih (some x)

variable {after : Option R} {us vs xs : List R} {mem : R → Node R}

variable {r y : R}

theorem firstOr_mem (is : firstOr after xs = some r) : r ∈ xs ∨ xs = [] ∧ after = some r := by
  cases xs with
  | nil => exact .inr ⟨rfl, is⟩
  | cons x xs => exact .inl (by simp [some.inj is])

variable {before : Option R}

theorem lastOr_mem (is : lastOr before xs = some r) :
    r ∈ xs ∨ xs = [] ∧ before = some r := by
  induction xs generalizing before with
  | nil => exact .inr ⟨rfl, is⟩
  | cons x xs ih =>
    cases ih is with
    | inl member => exact .inl (mem_cons_of_mem x member)
    | inr empty => exact .inl (by simp [some.inj empty.2])

theorem lastOr_some (x : R) (xs : List R) : lastOr (some x) xs ≠ none := by
  induction xs generalizing x with
  | nil => exact some_ne_none x
  | cons y ys ih => exact ih y

theorem lastOr_nonempty (before other : Option R) (some : xs ≠ []) :
    lastOr before xs = lastOr other xs := by
  cases xs with
  | nil => exact absurd rfl some
  | cons x xs => rfl

theorem linked_append (xs ys : List R) : Linked mem before (xs ++ ys) after ↔
      Linked mem before xs (firstOr after ys) ∧ Linked mem (lastOr before xs) ys after := by
  induction xs generalizing before with
  | nil => simp [Linked]
  | cons x xs ih =>
    rw [cons_append, Linked, Linked, ih, firstOr_append, lastOr_cons, and_assoc]

theorem linked_same {mem' : R → Node R} (same : ∀ x ∈ xs, mem' x = mem x)
    (linked : Linked mem before xs after) : Linked mem' before xs after := by
  induction xs generalizing before with
  | nil => trivial
  | cons x xs ih =>
    constructor
    · rw [same x (by simp)]
      exact linked.1
    · exact ih (fun y member => same y (mem_cons_of_mem x member)) linked.2

/-- A node of a sequence points to its neighbours. -/
theorem linked_at {x : R} (linked : Linked mem before (us ++ x :: vs) after) :
    mem x = ⟨lastOr before us, firstOr after vs⟩ := by
  induction us generalizing before with
  | nil => exact linked.1
  | cons u us ih => exact ih linked.2

theorem lastOr_disjoint (nodup : (us ++ vs).Nodup)
    (outside : ∀ y ∈ us ++ vs, before ≠ some y) (member : y ∈ vs) : lastOr before us ≠ some y := by
  intro is
  cases lastOr_mem is with
  | inl inside => exact (nodup_append.mp nodup).2.2 y inside y member rfl
  | inr empty => exact outside y (mem_append_right us member) empty.2

theorem firstOr_disjoint (nodup : (us ++ vs).Nodup) (outside : ∀ y ∈ us ++ vs, after ≠ some y)
    (member : y ∈ us) : firstOr after vs ≠ some y := by
  intro is
  cases firstOr_mem is with
  | inl inside => exact (nodup_append.mp nodup).2.2 y member y inside rfl
  | inr empty => exact outside y (mem_append_left vs member) empty.2

section Update
variable [DecidableEq R]

/- r->next = v and r->prev = v. -/
def setNext (mem : R → Node R) (r : R) (v : Option R) : R → Node R :=
  update mem r { mem r with next := v }

def setPrev (mem : R → Node R) (r : R) (v : Option R) : R → Node R :=
  update mem r { mem r with prev := v }

def relinkNext (mem : R → Node R) : Option R → Option R → R → Node R
  | none, _ => mem
  | some r, v => setNext mem r v

def relinkPrev (mem : R → Node R) : Option R → Option R → R → Node R
  | none, _ => mem
  | some r, v => setPrev mem r v

variable {mem : R → Node R} {n x : R} {after : Option R}

variable {r : R}

theorem setNext_other (other : x ≠ r) (v : Option R) :
    setNext mem r v x = mem x := update_of_ne other ..

theorem setPrev_other (other : x ≠ r) (v : Option R) :
    setPrev mem r v x = mem x := update_of_ne other ..

theorem relinkNext_other {r : Option R} (other : r ≠ some x) (v : Option R) :
    relinkNext mem r v x = mem x := by
  cases r with
  | none => rfl
  | some r => exact setNext_other (fun is => other (by rw [is])) v

theorem relinkPrev_other {r : Option R} (other : r ≠ some x) (v : Option R) :
    relinkPrev mem r v x = mem x := by
  cases r with
  | none => rfl
  | some r => exact setPrev_other (fun is => other (by rw [is])) v

variable {before : Option R}

/-- The last node of a sequence is made to point to another one after it. -/
theorem linked_relinkNext {xs : List R} (nodup : xs.Nodup)
    (linked : Linked mem before xs after) (v : Option R) :
    Linked (relinkNext mem (lastOr before xs) v) before xs v := by
  induction xs generalizing before with
  | nil => trivial
  | cons x xs ih =>
    obtain ⟨absent, rest⟩ := nodup_cons.mp nodup
    refine ⟨?_, ih rest linked.2⟩
    cases xs with
    | nil =>
      show setNext mem x v x = _
      rw [setNext, update_self, linked.1]
      rfl
    | cons y ys =>
      have other : lastOr before (x :: y :: ys) ≠ some x := by
        intro is
        have is : lastOr (some x) (y :: ys) = some x := is
        rcases lastOr_mem is with member | ⟨empty, _⟩
        · exact absent member
        · exact nomatch empty
      rw [relinkNext_other other]
      exact linked.1

/-- The first node of a sequence is made to point to another one before it. -/
theorem linked_relinkPrev {xs : List R} (nodup : xs.Nodup)
    (linked : Linked mem before xs after) (v : Option R) :
    Linked (relinkPrev mem (firstOr after xs) v) v xs after := by
  cases xs with
  | nil => trivial
  | cons x xs =>
    have absent := (nodup_cons.mp nodup).1
    constructor
    · show setPrev mem x v x = _
      rw [setPrev, update_self, linked.1]
    · apply linked_same _ linked.2
      intro y member
      have other : y ≠ x := fun is => absent (by rw [← is]; exact member)
      exact setPrev_other other v

/- n->prev->next = n->next and n->next->prev = n->prev, with n unlinked in the end. -/
def unlink (mem : R → Node R) (n : R) : R → Node R :=
  let prev := (mem n).prev
  let next := (mem n).next
  update (relinkPrev (relinkNext mem prev next) next prev) n unlinked

def link (mem : R → Node R) (n : R) (prev next : Option R) : R → Node R :=
  relinkNext (relinkPrev (update mem n ⟨prev, next⟩) next (some n)) prev (some n)

theorem unlink_other (other : x ≠ n) (prev : (mem n).prev ≠ some x) (next : (mem n).next ≠ some x) :
    unlink mem n x = mem x := by
  unfold unlink
  rw [update_of_ne other, relinkPrev_other next, relinkNext_other prev]

theorem link_other {prev next : Option R} (other : x ≠ n) (before : prev ≠ some x)
    (after : next ≠ some x) : link mem n prev next x = mem x := by
  rw [link, relinkNext_other before, relinkPrev_other after, update_of_ne other]

theorem linked_unlink {us vs : List R} (nodup : (us ++ x :: vs).Nodup)
    (first : ∀ y ∈ us ++ x :: vs, before ≠ some y) (last : ∀ y ∈ us ++ x :: vs, after ≠ some y)
    (linked : Linked mem before (us ++ x :: vs) after) :
    Linked (unlink mem x) before (us ++ vs) after := by
  have node := linked_at linked
  have middle := perm_middle.nodup_iff.mp nodup
  obtain ⟨absent, both⟩ := nodup_cons.mp middle
  have sub : ∀ y ∈ us ++ vs, y ∈ us ++ x :: vs := by
    intro y member
    simp only [mem_append, mem_cons] at member ⊢
    tauto
  have prev : ∀ y ∈ vs, lastOr before us ≠ some y := fun y member =>
    lastOr_disjoint both (fun z inside => first z (sub z inside)) member
  have next : ∀ y ∈ us, firstOr after vs ≠ some y := fun y member =>
    firstOr_disjoint both (fun z inside => last z (sub z inside)) member
  obtain ⟨left, right⟩ := (linked_append us (x :: vs)).mp linked
  have others : ∀ y ∈ us ++ vs, y ≠ x := by
    intro y member is
    rw [is] at member
    exact absent member
  rw [linked_append]
  unfold unlink
  rw [node]
  constructor
  · have made := linked_relinkNext (nodup_append.mp both).1 left (firstOr after vs)
    apply linked_same _ made
    intro y member
    rw [update_of_ne (others y (mem_append_left vs member)), relinkPrev_other (next y member)]
  · have kept : Linked (relinkNext mem (lastOr before us) (firstOr after vs)) (some x) vs after :=
      linked_same (fun y member => relinkNext_other (prev y member) _) right.2
    have made := linked_relinkPrev (nodup_append.mp both).2.1 kept (lastOr before us)
    apply linked_same _ made
    intro y member
    rw [update_of_ne (others y (mem_append_right us member))]

theorem linked_link {us vs : List R} (nodup : (us ++ n :: vs).Nodup)
    (first : ∀ y ∈ us ++ n :: vs, before ≠ some y) (last : ∀ y ∈ us ++ n :: vs, after ≠ some y)
    (linked : Linked mem before (us ++ vs) after) :
    Linked (link mem n (lastOr before us) (firstOr after vs)) before (us ++ n :: vs) after := by
  have middle := perm_middle.nodup_iff.mp nodup
  obtain ⟨absent, both⟩ := nodup_cons.mp middle
  have sub : ∀ y ∈ us ++ vs, y ∈ us ++ n :: vs := by
    intro y member
    simp only [mem_append, mem_cons] at member ⊢
    tauto
  have prev : ∀ y ∈ vs, lastOr before us ≠ some y := fun y member =>
    lastOr_disjoint both (fun z inside => first z (sub z inside)) member
  have next : ∀ y ∈ us, firstOr after vs ≠ some y := fun y member =>
    firstOr_disjoint both (fun z inside => last z (sub z inside)) member
  obtain ⟨left, right⟩ := (linked_append us vs).mp linked
  have others : ∀ y ∈ us ++ vs, y ≠ n := by
    intro y member is
    rw [is] at member
    exact absent member
  have prevNot : lastOr before us ≠ some n := by
    intro is
    cases lastOr_mem is with
    | inl inside => exact absent (mem_append_left vs inside)
    | inr empty => exact first n (by simp) empty.2
  have nextNot : firstOr after vs ≠ some n := by
    intro is
    cases firstOr_mem is with
    | inl inside => exact absent (mem_append_right us inside)
    | inr empty => exact last n (by simp) empty.2
  rw [linked_append]
  unfold link
  refine ⟨?_, ?_, ?_⟩
  · have kept : Linked (relinkPrev (update mem n ⟨lastOr before us, firstOr after vs⟩)
        (firstOr after vs) (some n)) before us (firstOr after vs) := by
      apply linked_same _ left
      intro y member
      rw [relinkPrev_other (next y member), update_of_ne (others y (mem_append_left vs member))]
    exact linked_relinkNext (nodup_append.mp both).1 kept (some n)
  · rw [relinkNext_other prevNot, relinkPrev_other nextNot, update_self]
  · have kept : Linked (update mem n ⟨lastOr before us, firstOr after vs⟩)
        (lastOr before us) vs after := by
      apply linked_same _ right
      intro y member
      rw [update_of_ne (others y (mem_append_right us member))]
    have made := linked_relinkPrev (nodup_append.mp both).2.1 kept (some n)
    apply linked_same _ made
    intro y member
    exact relinkNext_other (prev y member) _

end Update
end Links
