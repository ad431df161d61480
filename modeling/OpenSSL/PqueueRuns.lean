import OpenSSL.Lib.Runs
import OpenSSL.PqueueLaws

/- Runs of a priority queue from a new one on, beside the items that were pushed and have
   not left, each with the handle it was given. -/
namespace Ossl
open List BinHeap Runs
variable {α : Type}

inductive PqueueOp (α : Type) where
  | push (mem : Bool) (data : α)
  | pop
  | peek
  | remove (elem : Nat)

structure PqueueWorld (α : Type) where
  pq : OsslPqueue α
  live : List (PqHeap α)

def startPqueue [Inhabited α] : PqueueWorld α := ⟨pqueueNew, []⟩

def leaves (elem : Nat) (live : List (PqHeap α)) : List (PqHeap α) :=
  live.filter (fun y => y.index ≠ elem)

def applyPqueue (compare : α → α → Int) (w : PqueueWorld α) : PqueueOp α → PqueueWorld α
  | .push mem data =>
    match pqueuePush compare mem data w.pq with
    | none => w
    | some (pq, elem) => ⟨pq, { data, index := elem } :: w.live⟩
  | .pop =>
    let popped := pqueuePop compare w.pq
    if w.pq.htop = 0 then { w with pq := popped.2 }
    else ⟨popped.2, leaves (w.pq.heap 0).index w.live⟩
  | .peek => w
  | .remove elem => ⟨(pqueueRemove compare elem w.pq).2, leaves elem w.live⟩

def PqueueOpOk (w : PqueueWorld α) : PqueueOp α → Prop
  | .remove elem => elem ∈ w.live.map PqHeap.index
  | _ => True

/-- An item that comes no later than any other. -/
def Least (compare : α → α → Int) (live : List (PqHeap α)) (x : PqHeap α) : Prop :=
  x ∈ live ∧ ∀ y ∈ live, compare x.data y.data ≤ 0

/-- The queue answers for the live items, under handles that stay good for them, and its
    free list is made of the other elements. -/
structure PqueueFaithful (compare : α → α → Int) (w : PqueueWorld α) : Prop where
  num : pqueueNum w.pq = w.live.length
  handles : (w.live.map PqHeap.index).Nodup
  placed : ∀ x ∈ w.live, x.index < w.pq.hmax ∧ w.pq.elements x.index < w.pq.htop ∧
    w.pq.heap (w.pq.elements x.index) = x
  free : (freeList w.pq.elements w.pq.freelist (w.pq.hmax - w.pq.htop)).Nodup ∧
    ∀ elem, elem ∈ freeList w.pq.elements w.pq.freelist (w.pq.hmax - w.pq.htop) ↔
      elem < w.pq.hmax ∧ elem ∉ w.live.map PqHeap.index
  peek : w.live = [] ∧ pqueuePeek w.pq = none ∨
    ∃ x, Least compare w.live x ∧ pqueuePeek w.pq = some x.data
  pop : w.live = [] ∧ (pqueuePop compare w.pq).1 = none ∧ (applyPqueue compare w .pop).live = [] ∨
    ∃ x, Least compare w.live x ∧ (pqueuePop compare w.pq).1 = some x.data ∧
      (applyPqueue compare w .pop).live = leaves x.index w.live
  remove : ∀ x ∈ w.live, (pqueueRemove compare x.index w.pq).1 = some x.data
  push : ∀ mem data pq elem, pqueuePush compare mem data w.pq = some (pq, elem) →
    elem ∉ w.live.map PqHeap.index

structure PqueueHolds (compare : α → α → Int) (w : PqueueWorld α) : Prop where
  ok : PqueueOk compare w.pq
  live : (pqueueMembers w.pq).Perm w.live

variable {w : PqueueWorld α}

theorem holds_handles {compare : α → α → Int} (holds : PqueueHolds compare w) :
    (pqueueUsed w.pq).Perm (w.live.map PqHeap.index) ∧ (w.live.map PqHeap.index).Nodup := by
  have same := holds.live.map PqHeap.index
  have apart := (nodup_append.mp (slots_nodup holds.ok.slots)).1
  exact ⟨same, same.nodup_iff.mp apart⟩

variable {x : PqHeap α}

/-- Of items with handles of their own, all but one are left. -/
theorem leaves_of_perm {live rest : List (PqHeap α)} (members : (x :: rest).Perm live)
    (apart : (live.map PqHeap.index).Nodup) : rest.Perm (leaves x.index live) := by
  have handles := (members.map PqHeap.index).nodup_iff.mpr apart
  rw [map_cons, nodup_cons] at handles
  have filtered := members.filter (fun y => y.index ≠ x.index)
  rw [filter_cons_of_neg (by simp)] at filtered
  have kept : rest.filter (fun y => y.index ≠ x.index) = rest := by
    apply filter_eq_self.mpr
    intro y member
    apply decide_eq_true
    intro same
    apply handles.1
    rw [← same]
    exact mem_map_of_mem member
  rw [kept] at filtered
  exact filtered

theorem pop_holds {compare : α → α → Int} (total : Comparator compare)
    (holds : PqueueHolds compare w) (nonempty : 0 < w.pq.htop) :
    let popped := pqueuePop compare w.pq
    popped.1 = some (w.pq.heap 0).data ∧
      PqueueHolds compare ⟨popped.2, leaves (w.pq.heap 0).index w.live⟩ := by
  have parted := parted_of_ordered (notAfter_trans total) holds.ok.ordered nonempty
  obtain ⟨data, ok, members⟩ := pop_done total holds.ok.slots parted nonempty
  constructor
  · exact data
  · constructor
    · exact ok
    · exact leaves_of_perm (members.symm.trans holds.live) (holds_handles holds).2

theorem remove_holds {compare : α → α → Int} (total : Comparator compare)
    (holds : PqueueHolds compare w) (member : x ∈ w.live) :
    let removed := pqueueRemove compare x.index w.pq
    removed.1 = some x.data ∧ PqueueHolds compare ⟨removed.2, leaves x.index w.live⟩ := by
  have inside := holds.live.mem_iff.mpr member
  obtain ⟨data, ok, members⟩ := remove_done total holds.ok inside
  constructor
  · exact data
  · constructor
    · exact ok
    · exact leaves_of_perm (members.symm.trans holds.live) (holds_handles holds).2

theorem applyPqueue_holds {compare : α → α → Int} (total : Comparator compare)
    (w : PqueueWorld α) (op : PqueueOp α) (holds : PqueueHolds compare w) (valid : PqueueOpOk w op) :
    PqueueHolds compare (applyPqueue compare w op) := by
  cases op with
  | push mem data =>
    cases pushed : pqueuePush compare mem data w.pq with
    | none =>
      simp only [applyPqueue, pushed]
      exact holds
    | some result =>
      simp only [applyPqueue, pushed]
      obtain ⟨ok, _, members⟩ := push_done total holds.ok pushed
      constructor
      · exact ok
      · exact members.trans (holds.live.cons _)
  | pop =>
    dsimp only [applyPqueue]
    by_cases none : w.pq.htop = 0
    · have idle : (pqueuePop compare w.pq).2 = w.pq := by rw [pqueuePop, if_pos none]
      rw [if_pos none, idle]
      exact holds
    · rw [if_neg none]
      exact (pop_holds total holds (Nat.pos_of_ne_zero none)).2
  | peek => exact holds
  | remove elem =>
    obtain ⟨x, member, rfl⟩ := mem_map.mp valid
    exact (remove_holds total holds member).2

theorem live_nil_iff {compare : α → α → Int} (holds : PqueueHolds compare w) :
    w.live = [] ↔ w.pq.htop = 0 := by
  have count := holds.live.length_eq
  rw [pqueueMembers, items_length] at count
  rw [count]
  exact length_eq_zero_iff.symm

theorem root_least {compare : α → α → Int} (total : Comparator compare)
    (holds : PqueueHolds compare w) (nonempty : 0 < w.pq.htop) :
    Least compare w.live (w.pq.heap 0) ∧ pqueuePeek w.pq = some (w.pq.heap 0).data := by
  have first : pqueuePeek w.pq = some (w.pq.heap 0).data := if_pos nonempty
  have least := (peek_least total holds.ok first).2.2
  constructor
  · constructor
    · exact holds.live.mem_iff.mp (mem_members.mpr ⟨0, nonempty, rfl⟩)
    · intro y member
      exact least y (holds.live.mem_iff.mpr member)
  · exact first

theorem holds_faithful {compare : α → α → Int} (total : Comparator compare)
    (holds : PqueueHolds compare w) : PqueueFaithful compare w := by
  have empty := live_nil_iff holds
  obtain ⟨same, apart⟩ := holds_handles holds
  have slots := holds.ok.slots
  have split := slots_nodup slots
  have shared := slots.shared
  rw [nil_append, length_nil, Nat.sub_zero] at split shared
  constructor
  · have count := holds.live.length_eq
    rw [pqueueMembers, items_length] at count
    exact count
  · exact apart
  · intro x member
    obtain ⟨i, inside, rfl⟩ := mem_members.mp (holds.live.mem_iff.mpr member)
    have place := slots.placed i inside
    rw [place]
    exact ⟨slots_bound slots (used_member inside), inside, rfl⟩
  · constructor
    · exact (nodup_append.mp split).2.1
    · intro elem
      have whole : elem ∈ _ ↔ elem < w.pq.hmax := shared.mem_iff.trans mem_range
      rw [mem_append, same.mem_iff] at whole
      constructor
      · intro free
        constructor
        · exact whole.mp (.inr free)
        · intro used
          exact (nodup_append.mp split).2.2 elem (same.mem_iff.mpr used) elem free rfl
      · intro unused
        exact (whole.mpr unused.1).resolve_left unused.2
  · by_cases none : w.pq.htop = 0
    · exact .inl ⟨empty.mpr none, if_neg (by omega)⟩
    · exact .inr ⟨_, root_least total holds (by omega)⟩
  · by_cases none : w.pq.htop = 0
    · left
      have live := empty.mpr none
      refine ⟨live, ?_, ?_⟩
      · rw [pqueuePop, if_pos none]
      · dsimp only [applyPqueue]
        rw [if_pos none]
        exact live
    · right
      have nonempty : 0 < w.pq.htop := by omega
      refine ⟨w.pq.heap 0, (root_least total holds nonempty).1,
        (pop_holds total holds nonempty).1, ?_⟩
      dsimp only [applyPqueue]
      rw [if_neg none]
  · intro x member
    exact (remove_holds total holds member).1
  · intro mem data pq elem pushed
    have fresh := (push_done total holds.ok pushed).2.1
    intro used
    exact fresh (same.mem_iff.mpr used)

theorem startPqueue_holds [Inhabited α] (compare : α → α → Int) :
    PqueueHolds compare (startPqueue : PqueueWorld α) := by
  obtain ⟨ok, members⟩ := pqueueNew_ok (α := α) compare
  constructor
  · exact ok
  · change (pqueueMembers pqueueNew).Perm []
    rw [members]

/-- In every state of a run the queue pops and peeks a least of the live items, and finds
    each of them under its handle. -/
theorem pqueue_run_faithful [Inhabited α] {compare : α → α → Int} (total : Comparator compare)
    {ops : List (PqueueOp α)}
    (valid : Admissible (applyPqueue compare) PqueueOpOk startPqueue ops) :
    ∀ w ∈ visited (applyPqueue compare) startPqueue ops, PqueueFaithful compare w := by
  intro w visits
  have holds := visited_invariant (applyPqueue_holds total) (startPqueue_holds compare) valid w visits
  exact holds_faithful total holds

/- Two of equal rank among ten, more than a new queue has room for. -/
def compareNat (a b : Nat) : Int := (a : Int) - b

def sampleQueueOps : List (PqueueOp Nat) :=
  [5, 3, 8, 3, 1, 9, 2, 7, 6, 4].map (.push true) ++ [.pop, .peek, .remove 6, .pop, .push true 0]

theorem compareNat_total : Comparator compareNat := by
  constructor
  · intro a b
    unfold compareNat
    omega
  · intro a b c
    unfold compareNat
    omega

theorem sampleQueueOps_admissible :
    Admissible (applyPqueue compareNat) PqueueOpOk startPqueue sampleQueueOps := by
  simp only [sampleQueueOps, map_cons, map_nil, cons_append, nil_append,
    Admissible, PqueueOpOk, true_and, and_true]
  decide

theorem pqueue_run_faithful_grown :
    PqueueFaithful compareNat (run (applyPqueue compareNat) startPqueue sampleQueueOps) :=
  pqueue_run_faithful compareNat_total sampleQueueOps_admissible _ (run_mem_visited _ _ _)

end Ossl
