import Mathlib.Data.List.Basic
import Mathlib.Logic.Function.Basic

/- Lists through nodes in memory whose back pointer is the place that holds the pointer
   to them: the head of the list, or the forward pointer of the node before. -/
namespace Slots
open Option List Function
variable {H R : Type*}

inductive Slot (H R : Type*) where
  | head (h : H)
  | next (r : R)
  deriving DecidableEq

structure Node (H R : Type*) where
  next : Option R
  pNext : Option (Slot H R)
  deriving DecidableEq

structure Store (H R : Type*) where
  heads : H → Option R
  nodes : R → Node H R

namespace Store

def held (s : Store H R) : Slot H R → Option R
  | .head h => s.heads h
  | .next r => (s.nodes r).next

def back (s : Store H R) (r : R) : Option (Slot H R) := (s.nodes r).pNext

variable [DecidableEq R]

def setBack (s : Store H R) (r : R) (slot : Option (Slot H R)) : Store H R :=
  { s with nodes := update s.nodes r { s.nodes r with pNext := slot } }

def write (s : Store H R) (r : R) (node : Node H R) : Store H R :=
  { s with nodes := update s.nodes r node }

def bypass (s : Store H R) (r : R) : Store H R :=
  match (s.nodes r).next with
  | none => s
  | some after => s.setBack after (s.back r)

@[simp] theorem held_setBack (s : Store H R) (r : R) (back : Option (Slot H R))
    (slot : Slot H R) : (s.setBack r back).held slot = s.held slot := by
  cases slot with
  | head h => rfl
  | next x => by_cases same : x = r <;> simp [setBack, held, same]

@[simp] theorem back_setBack (s : Store H R) (r x : R) (slot : Option (Slot H R)) :
    (s.setBack r slot).back x = if x = r then slot else s.back x := by
  by_cases same : x = r <;> simp [setBack, back, same]

@[simp] theorem back_write (s : Store H R) (r x : R) (node : Node H R) :
    (s.write r node).back x = if x = r then node.pNext else s.back x := by
  by_cases same : x = r <;> simp [write, back, same]

theorem held_bypass (s : Store H R) (r : R) (slot : Slot H R) :
    (s.bypass r).held slot = s.held slot := by
  unfold bypass
  cases (s.nodes r).next with
  | none => rfl
  | some n => simp

theorem back_bypass (s : Store H R) (r x : R) :
    (s.bypass r).back x = if s.held (.next r) = some x then s.back r else s.back x := by
  unfold bypass held
  cases is : (s.nodes r).next with
  | none => simp [is]
  | some n => simp [is, eq_comm]

variable [DecidableEq H]

def put (s : Store H R) (slot : Slot H R) (v : Option R) : Store H R :=
  match slot with
  | .head h => { s with heads := update s.heads h v }
  | .next r => { s with nodes := update s.nodes r { s.nodes r with next := v } }

def insert (s : Store H R) (h : H) (r : R) : Store H R :=
  let written := s.write r ⟨s.heads h, some (.head h)⟩
  let relinked := match s.heads h with
    | none => written
    | some first => written.setBack first (some (.next r))
  relinked.put (.head h) (some r)

def remove (s : Store H R) (r : R) : Option (Store H R) :=
  ((s.bypass r).back r).map fun slot => (s.bypass r).put slot ((s.bypass r).nodes r).next

@[simp] theorem held_write (s : Store H R) (r : R) (node : Node H R) (slot : Slot H R) :
    (s.write r node).held slot = if slot = .next r then node.next else s.held slot := by
  cases slot with
  | head h => simp [write, held]
  | next x => by_cases same : x = r <;> simp [write, held, same]

@[simp] theorem held_put (s : Store H R) (slot other : Slot H R) (v : Option R) :
    (s.put slot v).held other = if other = slot then v else s.held other := by
  cases slot <;> cases other <;> simp [put, held, update_apply]
  split <;> rfl

@[simp] theorem back_put (s : Store H R) (slot : Slot H R) (v : Option R) (r : R) :
    (s.put slot v).back r = s.back r := by
  cases slot with
  | head h => rfl
  | next x => by_cases same : r = x <;> simp [put, back, same]

end Store

def Linked (s : Store H R) : Slot H R → List R → Prop
  | slot, [] => s.held slot = none
  | slot, x :: xs => s.held slot = some x ∧ s.back x = some slot ∧ Linked s (.next x) xs

variable {slot : Slot H R} {xs : List R} {r : R} {s : Store H R}

theorem linked_held (linked : Linked s slot xs) : s.held slot = xs.head? := by
  cases xs with
  | nil => exact linked
  | cons x xs => exact linked.1

theorem linked_congr {s s' : Store H R} (linked : Linked s slot xs)
    (first : s'.held slot = s.held slot) (nexts : ∀ x ∈ xs, s'.held (.next x) = s.held (.next x))
    (backs : ∀ x ∈ xs, s'.back x = s.back x) : Linked s' slot xs := by
  induction xs generalizing slot with
  | nil => exact first.trans linked
  | cons x xs ih =>
    obtain ⟨holds, leads, rest⟩ := linked
    refine ⟨first.trans holds, (backs x (by simp)).trans leads, ih rest (nexts x (by simp)) ?_ ?_⟩
    · exact fun y member => nexts y (by simp [member])
    · exact fun y member => backs y (by simp [member])

theorem linked_back (linked : Linked s slot xs) (member : r ∈ xs) :
    s.back r = some slot ∨ ∃ y ∈ xs, s.back r = some (.next y) := by
  induction xs generalizing slot with
  | nil => cases member
  | cons x xs ih =>
    obtain ⟨-, leads, rest⟩ := linked
    cases mem_cons.mp member with
    | inl same => exact .inl (same ▸ leads)
    | inr later =>
      refine .inr ?_
      obtain first | ⟨y, inside, before⟩ := ih rest later
      · exact ⟨x, by simp, first⟩
      · exact ⟨y, by simp [inside], before⟩

theorem linked_next (linked : Linked s slot xs) (nodup : xs.Nodup) {n : R}
    (member : r ∈ xs) (next : s.held (.next r) = some n) : n ∈ xs ∧ n ≠ r := by
  induction xs generalizing slot with
  | nil => cases member
  | cons x xs ih =>
    obtain ⟨-, -, rest⟩ := linked
    obtain ⟨notIn, nodupRest⟩ := nodup_cons.mp nodup
    cases mem_cons.mp member with
    | inl same =>
      subst same
      have first : n ∈ xs := mem_of_head? (by rw [← linked_held rest, next])
      exact ⟨by simp [first], fun same => notIn (same ▸ first)⟩
    | inr later =>
      obtain ⟨inside, other⟩ := ih rest nodupRest later
      exact ⟨by simp [inside], other⟩

/-- Every list is linked from its head, and no node is on two of them. -/
structure Hung (s : Store H R) (lists : H → List R) : Prop where
  linked : ∀ h, Linked s (.head h) (lists h)
  nodup : ∀ h, (lists h).Nodup
  apart : ∀ {h h' r}, r ∈ lists h → r ∈ lists h' → h = h'

theorem hung_head {lists : H → List R} (hung : Hung s lists) (h : H) :
    s.heads h = (lists h).head? :=
  linked_held (hung.linked h)

variable [DecidableEq H] [DecidableEq R]

theorem linked_remove {own : Slot H R} (linked : Linked s slot xs)
    (nodup : xs.Nodup) (outside : ∀ y ∈ xs, slot ≠ .next y) (member : r ∈ xs)
    (back : s.back r = some own) :
    Linked ((s.bypass r).put own (s.held (.next r))) slot (xs.erase r) := by
  induction xs generalizing slot with
  | nil => cases member
  | cons x xs ih =>
    obtain ⟨holds, leads, rest⟩ := linked
    obtain ⟨notIn, nodupRest⟩ := nodup_cons.mp nodup
    by_cases same : x = r
    · subst same
      rw [erase_cons_head]
      obtain rfl : slot = own := some.inj (leads.symm.trans back)
      have next := linked_held rest
      cases xs with
      | nil => simpa [Linked] using next
      | cons y ys =>
        have apart : slot ≠ .next y := outside y (by simp)
        refine ⟨by simpa using next, by simp [Store.back_bypass, next, back], ?_⟩
        refine linked_congr rest.2.2 (by simp [apart.symm, Store.held_bypass]) ?_ ?_
        · intro z inside
          simp [(outside z (by simp [inside])).symm, Store.held_bypass]
        · intro z inside
          have other : y ≠ z := fun same => (nodup_cons.mp nodupRest).1 (same ▸ inside)
          simp [Store.back_bypass, next, other]
    · have later : r ∈ xs := (mem_cons.mp member).resolve_left (Ne.symm same)
      rw [erase_cons_tail (by simpa using same)]
      have own_in : ∃ y ∈ x :: xs, own = .next y := by
        obtain first | ⟨y, inside, before⟩ := linked_back rest later
        · exact ⟨x, by simp, some.inj (back.symm.trans first)⟩
        · exact ⟨y, by simp [inside], some.inj (back.symm.trans before)⟩
      have apart : slot ≠ own := by
        obtain ⟨y, inside, rfl⟩ := own_in
        exact outside y inside
      have kept : s.held (.next r) ≠ some x :=
        fun next => notIn (linked_next rest nodupRest later next).1
      refine ⟨by simp [apart, Store.held_bypass, holds],
        by simp [Store.back_bypass, kept, leads], ?_⟩
      exact ih rest nodupRest (fun y inside same => notIn (Slot.next.inj same ▸ inside)) later

variable {s : Store H R} {lists : H → List R}

theorem hung_write (hung : Hung s lists) (off : ∀ h, r ∉ lists h) (node : Node H R) :
    Hung (s.write r node) lists := by
  refine ⟨fun h => ?_, hung.nodup, hung.apart⟩
  have other : ∀ x ∈ lists h, x ≠ r := fun x member same => off h (same ▸ member)
  refine linked_congr (hung.linked h) (by simp) ?_ ?_
  · exact fun x member => by simp [other x member]
  · exact fun x member => by simp [other x member]

theorem hung_insert (hung : Hung s lists) (off : ∀ h, r ∉ lists h) (h : H) :
    Hung (s.insert h r) (update lists h (r :: lists h)) := by
  have head := hung_head hung h
  have held : ∀ slot, slot ≠ .head h → slot ≠ .next r → (s.insert h r).held slot = s.held slot := by
    intro slot notHead notNext
    unfold Store.insert
    cases s.heads h <;> simp [notHead, notNext]
  have back : ∀ x, x ≠ r → s.heads h ≠ some x → (s.insert h r).back x = s.back x := by
    intro x other notFirst
    unfold Store.insert
    cases first : s.heads h with
    | none => simp [other]
    | some n =>
      have : x ≠ n := fun same => notFirst (by simp [first, same])
      simp [other, this]
  have front : (s.insert h r).held (.head h) = some r := by simp [Store.insert]
  have next : (s.insert h r).held (.next r) = s.heads h := by
    unfold Store.insert
    cases first : s.heads h <;> simp
  have own : (s.insert h r).back r = some (.head h) := by
    unfold Store.insert
    cases first : s.heads h with
    | none => simp
    | some n =>
      have : n ∈ lists h := mem_of_head? (by rw [← head, first])
      have other : r ≠ n := fun same => off h (same ▸ this)
      simp [other]
  refine ⟨fun h' => ?_, fun h' => ?_, ?_⟩
  · by_cases same : h' = h
    · subst same
      rw [update_self]
      refine ⟨front, own, ?_⟩
      have linked := hung.linked h'
      cases shape : lists h' with
      | nil => exact next.trans (by rw [head, shape]; rfl)
      | cons n ns =>
        rw [shape] at linked head
        have nodup := hung.nodup h'
        rw [shape] at nodup
        have inside : ∀ x ∈ n :: ns, x ≠ r :=
          fun x member same => off h' (by rw [shape]; exact same ▸ member)
        refine ⟨next.trans head, ?_, linked_congr linked.2.2 ?_ ?_ ?_⟩
        · unfold Store.insert
          simp [head]
        · exact held _ (by simp) (by simpa using inside n (by simp))
        · exact fun x member => held _ (by simp) (by simpa using inside x (by simp [member]))
        · intro x member
          refine back x (inside x (by simp [member])) ?_
          rw [head]
          exact fun same => (nodup_cons.mp nodup).1 (some.inj same ▸ member)
    · rw [update_of_ne same]
      have other : ∀ x ∈ lists h', x ≠ r := fun x member equal => off h' (equal ▸ member)
      refine linked_congr (hung.linked h') (held _ (by simpa using same) (by simp)) ?_ ?_
      · exact fun x member => held _ (by simp) (by simpa using other x member)
      · intro x member
        refine back x (other x member) fun first => same ?_
        exact hung.apart member (mem_of_head? (head ▸ first))
  · by_cases same : h' = h
    · subst same
      rw [update_self]
      exact nodup_cons.mpr ⟨off h', hung.nodup h'⟩
    · rw [update_of_ne same]
      exact hung.nodup h'
  · intro a b x inA inB
    have cases_of : ∀ {c}, x ∈ update lists h (r :: lists h) c →
        (x = r ∧ c = h) ∨ (x ≠ r ∧ x ∈ lists c) := by
      intro c inC
      by_cases same : c = h
      · subst same
        rw [update_self] at inC
        by_cases equal : x = r
        · exact .inl ⟨equal, rfl⟩
        · exact .inr ⟨equal, (mem_cons.mp inC).resolve_left equal⟩
      · rw [update_of_ne same] at inC
        exact .inr ⟨fun equal => off c (equal ▸ inC), inC⟩
    obtain ⟨isR, rfl⟩ | ⟨notR, inA⟩ := cases_of inA
    · obtain ⟨-, rfl⟩ | ⟨notR, -⟩ := cases_of inB
      · rfl
      · exact absurd isR notR
    · obtain ⟨isR, -⟩ | ⟨-, inB⟩ := cases_of inB
      · exact absurd isR notR
      · exact hung.apart inA inB

theorem hung_remove (hung : Hung s lists) {h : H} (member : r ∈ lists h) :
    ∃ s', s.remove r = some s' ∧ Hung s' (update lists h ((lists h).erase r)) ∧
      ∀ n, (s'.nodes r).next = some n → s'.back n = s.back r := by
  obtain ⟨own, back, place⟩ : ∃ own, s.back r = some own ∧
      (own = .head h ∨ ∃ y ∈ lists h, own = .next y) := by
    obtain first | ⟨y, inside, before⟩ := linked_back (hung.linked h) member
    · exact ⟨_, first, .inl rfl⟩
    · exact ⟨_, before, .inr ⟨y, inside, rfl⟩⟩
  have next : ∀ {n}, s.held (.next r) = some n → n ∈ lists h ∧ n ≠ r :=
    fun is => linked_next (hung.linked h) (hung.nodup h) member is
  have same_back : (s.bypass r).back r = some own := by
    rw [Store.back_bypass]
    split
    · exact back
    · exact back
  refine ⟨(s.bypass r).put own (s.held (.next r)), ?_, ⟨fun h' => ?_, fun h' => ?_, ?_⟩, ?_⟩
  · have same := Store.held_bypass s r (.next r)
    simp only [Store.held] at same
    simp [Store.remove, same_back, same, Store.held]
  · by_cases same : h' = h
    · subst same
      rw [update_self]
      exact linked_remove (hung.linked h') (hung.nodup h') (by simp) member back
    · rw [update_of_ne same]
      have apart : ∀ x ∈ lists h', x ∉ lists h := fun x inside also => same (hung.apart inside also)
      have notHead : Slot.head h' ≠ own := by
        obtain rfl | ⟨y, -, rfl⟩ := place <;> simp [same]
      have notNext : ∀ x ∈ lists h', Slot.next x ≠ own := by
        intro x inside equal
        obtain rfl | ⟨y, also, rfl⟩ := place
        · simp at equal
        · exact apart x inside (Slot.next.inj equal ▸ also)
      refine linked_congr (hung.linked h') (by simp [notHead, Store.held_bypass]) ?_ ?_
      · exact fun x inside => by simp [notNext x inside, Store.held_bypass]
      · intro x inside
        have other : s.held (.next r) ≠ some x := fun is => apart x inside (next is).1
        simp [Store.back_bypass, other]
  · by_cases same : h' = h
    · subst same
      rw [update_self]
      exact (hung.nodup h').erase r
    · rw [update_of_ne same]
      exact hung.nodup h'
  · have sub : ∀ {c x}, x ∈ update lists h ((lists h).erase r) c → x ∈ lists c := by
      intro c x inside
      by_cases same : c = h
      · subst same
        rw [update_self] at inside
        exact mem_of_mem_erase inside
      · rwa [update_of_ne same] at inside
    intro a b x inA inB
    exact hung.apart (sub inA) (sub inB)
  · intro n after
    have held : ((s.bypass r).put own (s.held (.next r))).held (.next r) = some n := after
    simp only [Store.held_put, Store.held_bypass, ite_self] at held
    simp [Store.back_bypass, held]

theorem erased_off (hung : Hung s lists) {h : H} (member : r ∈ lists h) (h' : H) :
    r ∉ update lists h ((lists h).erase r) h' := by
  by_cases same : h' = h
  · subst same
    rw [update_self]
    exact (hung.nodup h').not_mem_erase
  · rw [update_of_ne same]
    exact fun also => same (hung.apart also member)

end Slots
