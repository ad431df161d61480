import Mathlib.Algebra.Group.Nat.Defs
import Mathlib.Data.List.Sort
import OpenSSL.Lib.Links

/- The control frame queue (ssl/quic/quic_cfq.c). An item is named by a number, in the order
   in which the items were allocated; its prev and next pointers are its node. -/
namespace Ossl
open List Function Links

inductive CfqState where
  | free
  | new
  | tx
  deriving DecidableEq

def uint32Max : Nat := 2 ^ 32 - 1
def cfqItemFlagUnreliable : Nat := 1

/- What ossl_quic_cfq_add_frame is given; encoded, free_cb and its argument are pointers. -/
structure CfqFrame where
  priority : Nat
  pnSpace : Nat
  frameType : Nat
  flags : Nat
  encoded : Option Nat
  encodedLen : Nat
  freeCb : Option Nat
  freeCbArg : Nat
  deriving DecidableEq

structure CfqItem extends CfqFrame where
  state : CfqState
  deriving DecidableEq

structure CfqItemList where
  head : Option Nat
  tail : Option Nat
  deriving DecidableEq

structure CfqFreeCall where
  freeCb : Nat
  encoded : Option Nat
  encodedLen : Nat
  freeCbArg : Nat
  deriving DecidableEq

structure QuicCfq where
  items : Nat → CfqItem
  links : Nat → Node Nat
  allocated : Nat
  newList : CfqItemList
  txList : CfqItemList
  freeList : CfqItemList
  calls : List CfqFreeCall

def cfqCompare (a b : CfqItem) : Int :=
  if a.pnSpace < b.pnSpace then -1
  else if a.pnSpace > b.pnSpace then 1
  else if a.priority > b.priority then -1
  else if a.priority < b.priority then 1
  else 0

def cfqItemIsUnreliable (item : CfqItem) : Bool := decide (item.flags &&& cfqItemFlagUnreliable ≠ 0)

def cfqListRemove (l : CfqItemList) (n : Nat) (links : Nat → Node Nat) :
    CfqItemList × (Nat → Node Nat) :=
  ({ head := if l.head = some n then (links n).next else l.head
     tail := if l.tail = some n then (links n).prev else l.tail },
    unlink links n)

def cfqListInsertHead (l : CfqItemList) (n : Nat) (links : Nat → Node Nat) :
    CfqItemList × (Nat → Node Nat) :=
  let links := update links n ⟨none, l.head⟩
  (⟨some n, if l.tail = none then some n else l.tail⟩, relinkPrev links l.head (some n))

def cfqListInsertTail (l : CfqItemList) (n : Nat) (links : Nat → Node Nat) :
    CfqItemList × (Nat → Node Nat) :=
  let links := update links n ⟨l.tail, none⟩
  (⟨if l.head = none then some n else l.head, some n⟩, relinkNext links l.tail (some n))

def cfqListInsertAfter (l : CfqItemList) (ref n : Nat) (links : Nat → Node Nat) :
    CfqItemList × (Nat → Node Nat) :=
  let next := (links ref).next
  let links := relinkPrev (update links n ⟨some ref, next⟩) next (some n)
  ({ l with tail := if l.tail = some ref then some n else l.tail }, setNext links ref (some n))

def cfqSortedRounds (items : Nat → CfqItem) (links : Nat → Node Nat) (n : Nat) :
    Nat → Option Nat → Option Nat → Option Nat × Option Nat
  | fuel + 1, some p, pprev =>
    if cfqCompare (items p) (items n) < 0 then
      cfqSortedRounds items links n fuel (links p).next (some p)
    else (some p, pprev)
  | _, p, pprev => (p, pprev)

def cfqListInsertSorted (items : Nat → CfqItem) (fuel : Nat) (l : CfqItemList) (n : Nat)
    (links : Nat → Node Nat) : CfqItemList × (Nat → Node Nat) :=
  match l.head with
  | none => (⟨some n, some n⟩, update links n unlinked)
  | some head =>
    match cfqSortedRounds items links n fuel (some head) none with
    | (none, _) => cfqListInsertTail l n links
    | (some _, none) => cfqListInsertHead l n links
    | (some _, some pprev) => cfqListInsertAfter l pprev n links

def quicCfqNew : QuicCfq where
  items := fun _ => ⟨⟨0, 0, 0, 0, none, 0, none, 0⟩, .free⟩
  links := fun _ => unlinked
  allocated := 0
  newList := ⟨none, none⟩
  txList := ⟨none, none⟩
  freeList := ⟨none, none⟩
  calls := []

def cfqPutItem (id : Nat) (item : CfqItem) (cfq : QuicCfq) : QuicCfq :=
  { cfq with items := update cfq.items id item }

def cfqClearItem (id : Nat) (cfq : QuicCfq) : QuicCfq :=
  let item := cfq.items id
  match item.freeCb with
  | none => cfqPutItem id { item with state := .free } cfq
  | some freeCb =>
    let call := ⟨freeCb, item.encoded, item.encodedLen, item.freeCbArg⟩
    cfqPutItem id { item with freeCb := none, encoded := none, encodedLen := 0, state := .free }
      { cfq with calls := cfq.calls ++ [call] }

def cfqGetFree (mem : Bool) (cfq : QuicCfq) : Option (Nat × QuicCfq) :=
  match cfq.freeList.head with
  | some item => some (item, cfq)
  | none =>
    if mem then
      let item := cfq.allocated
      let inserted := cfqListInsertTail cfq.freeList item cfq.links
      some (item, { cfq with
        items := update cfq.items item ⟨⟨0, 0, 0, 0, none, 0, none, 0⟩, .free⟩
        allocated := cfq.allocated + 1
        freeList := inserted.1
        links := inserted.2 })
    else none

def quicCfqAddFrame (mem : Bool) (frame : CfqFrame) (cfq : QuicCfq) : Option (Nat × QuicCfq) :=
  match cfqGetFree mem cfq with
  | none => none
  | some (id, cfq) =>
    let cfq := cfqPutItem id ⟨frame, .new⟩ cfq
    let removed := cfqListRemove cfq.freeList id cfq.links
    let inserted := cfqListInsertSorted cfq.items cfq.allocated cfq.newList id removed.2
    some (id, { cfq with freeList := removed.1, newList := inserted.1, links := inserted.2 })

def quicCfqMarkTx (id : Nat) (cfq : QuicCfq) : QuicCfq :=
  match (cfq.items id).state with
  | .new =>
    let removed := cfqListRemove cfq.newList id cfq.links
    let inserted := cfqListInsertTail cfq.txList id removed.2
    cfqPutItem id { cfq.items id with state := .tx }
      { cfq with newList := removed.1, txList := inserted.1, links := inserted.2 }
  | .tx => cfq
  | .free => cfq

def quicCfqRelease (id : Nat) (cfq : QuicCfq) : QuicCfq :=
  match (cfq.items id).state with
  | .new =>
    let removed := cfqListRemove cfq.newList id cfq.links
    let inserted := cfqListInsertTail cfq.freeList id removed.2
    cfqClearItem id { cfq with newList := removed.1, freeList := inserted.1, links := inserted.2 }
  | .tx =>
    let removed := cfqListRemove cfq.txList id cfq.links
    let inserted := cfqListInsertTail cfq.freeList id removed.2
    cfqClearItem id { cfq with txList := removed.1, freeList := inserted.1, links := inserted.2 }
  | .free => cfq

def cfqMarkLostNew (id priority : Nat) (cfq : QuicCfq) : QuicCfq :=
  let removed := cfqListRemove cfq.newList id cfq.links
  let cfq := cfqPutItem id { cfq.items id with priority } cfq
  let inserted := cfqListInsertSorted cfq.items cfq.allocated removed.1 id removed.2
  { cfq with newList := inserted.1, links := inserted.2 }

def cfqMarkLostTx (id priority : Nat) (cfq : QuicCfq) : QuicCfq :=
  let cfq := if priority ≠ uint32Max then cfqPutItem id { cfq.items id with priority } cfq else cfq
  let removed := cfqListRemove cfq.txList id cfq.links
  let inserted := cfqListInsertSorted cfq.items cfq.allocated cfq.newList id removed.2
  cfqPutItem id { cfq.items id with state := .new }
    { cfq with txList := removed.1, newList := inserted.1, links := inserted.2 }

def quicCfqMarkLost (id priority : Nat) (cfq : QuicCfq) : QuicCfq :=
  let item := cfq.items id
  if cfqItemIsUnreliable item then quicCfqRelease id cfq
  else
    match item.state with
    | .new =>
      if priority ≠ uint32Max ∧ priority ≠ item.priority then cfqMarkLostNew id priority cfq
      else cfq
    | .tx => cfqMarkLostTx id priority cfq
    | .free => cfq

def cfqSpaceRounds (cfq : QuicCfq) (pnSpace : Nat) : Nat → Option Nat → Option Nat
  | fuel + 1, some item =>
    if (cfq.items item).pnSpace ≠ pnSpace then
      cfqSpaceRounds cfq pnSpace fuel (cfq.links item).next
    else some item
  | _, _ => none

def quicCfqGetPriorityHead (cfq : QuicCfq) (pnSpace : Nat) : Option Nat :=
  cfqSpaceRounds cfq pnSpace cfq.allocated cfq.newList.head

def quicCfqItemGetPriorityNext (cfq : QuicCfq) (item : Option Nat) (pnSpace : Nat) : Option Nat :=
  match item with
  | none => none
  | some item => cfqSpaceRounds cfq pnSpace cfq.allocated (cfq.links item).next

def cfqVisits (cfq : QuicCfq) (pnSpace : Nat) : Nat → Option Nat → List Nat
  | fuel + 1, some item =>
    item :: cfqVisits cfq pnSpace fuel (quicCfqItemGetPriorityNext cfq (some item) pnSpace)
  | _, _ => []

structure Represents (links : Nat → Node Nat) (l : CfqItemList) (xs : List Nat) : Prop where
  linked : Linked links none xs none
  head : l.head = firstOr none xs
  tail : l.tail = lastOr none xs

variable {links : Nat → Node Nat} {l : CfqItemList} {vs xs : List Nat} {n : Nat}

theorem represents_same {links' : Nat → Node Nat} (same : ∀ x ∈ xs, links' x = links x)
    (lists : Represents links l xs) : Represents links' l xs :=
  ⟨linked_same same lists.linked, lists.head, lists.tail⟩

variable {us : List Nat} {fuel : Nat}

theorem cfqListRemove_spec (lists : Represents links l (us ++ n :: vs))
    (nodup : (us ++ n :: vs).Nodup) :
    Represents (cfqListRemove l n links).2 (cfqListRemove l n links).1 (us ++ vs) ∧
      ∀ x ∉ us ++ n :: vs, (cfqListRemove l n links).2 x = links x := by
  have node := linked_at lists.linked
  have absent := (nodup_cons.mp (perm_middle.nodup_iff.mp nodup)).1
  refine ⟨⟨?_, ?_, ?_⟩, ?_⟩
  · exact linked_unlink nodup (fun _ _ => by simp) (fun _ _ => by simp) lists.linked
  · show (if l.head = some n then (links n).next else l.head) = _
    rw [lists.head, node]
    cases us with
    | nil => rw [nil_append, firstOr_cons, if_pos rfl]; rfl
    | cons u us =>
      have other : u ≠ n := by
        intro is
        apply absent
        rw [← is]
        simp
      rw [cons_append, firstOr_cons, if_neg (by simpa using other)]
      rfl
  · show (if l.tail = some n then (links n).prev else l.tail) = _
    rw [lists.tail, node, lastOr_append, lastOr_cons, lastOr_append]
    cases vs with
    | nil => rw [lastOr_nil, if_pos rfl]; rfl
    | cons v vs =>
      have other : lastOr (some n) (v :: vs) ≠ some n := by
        intro is
        cases lastOr_mem is with
        | inl member => exact absent (mem_append_right us member)
        | inr empty => exact nomatch empty.1
      rw [if_neg other]
      rfl
  · intro x outside
    have prev : (links n).prev ≠ some x := by
      rw [node]
      intro is
      cases lastOr_mem is with
      | inl member => exact outside (mem_append_left _ member)
      | inr empty => exact nomatch empty.2
    have next : (links n).next ≠ some x := by
      rw [node]
      intro is
      cases firstOr_mem is with
      | inl member => exact outside (mem_append_right us (mem_cons_of_mem n member))
      | inr empty => exact nomatch empty.2
    exact unlink_other (fun is => outside (by simp [is])) prev next

theorem link_spec (us : List Nat) (lists : Represents links l (us ++ vs))
    (nodup : (us ++ n :: vs).Nodup) :
    Linked (link links n (lastOr none us) (firstOr none vs)) none (us ++ n :: vs) none ∧
      ∀ x ∉ us ++ n :: vs, link links n (lastOr none us) (firstOr none vs) x = links x := by
  refine ⟨linked_link nodup (fun _ _ => by simp) (fun _ _ => by simp) lists.linked, ?_⟩
  intro x outside
  apply link_other
  · intro is
    exact outside (by simp [is])
  · intro is
    cases lastOr_mem is with
    | inl member => exact outside (mem_append_left _ member)
    | inr empty => exact nomatch empty.2
  · intro is
    cases firstOr_mem is with
    | inl member => exact outside (mem_append_right us (mem_cons_of_mem n member))
    | inr empty => exact nomatch empty.2

theorem cfqListInsertTail_spec (lists : Represents links l xs) (nodup : (xs ++ [n]).Nodup) :
    Represents (cfqListInsertTail l n links).2 (cfqListInsertTail l n links).1 (xs ++ [n]) ∧
      ∀ x ∉ xs ++ [n], (cfqListInsertTail l n links).2 x = links x := by
  have same : (cfqListInsertTail l n links).2 = link links n (lastOr none xs) (firstOr none []) := by
    rw [← lists.tail]
    rfl
  have whole := lists
  rw [← append_nil xs] at whole
  obtain ⟨linked, others⟩ := link_spec _ whole nodup
  rw [same]
  refine ⟨⟨linked, ?_, ?_⟩, others⟩
  · show (if l.head = none then some n else l.head) = _
    rw [lists.head]
    cases xs with
    | nil => rfl
    | cons x xs => rfl
  · rw [lastOr_append]
    rfl

theorem cfqListInsertHead_spec (lists : Represents links l xs) (nodup : (n :: xs).Nodup) :
    Represents (cfqListInsertHead l n links).2 (cfqListInsertHead l n links).1 (n :: xs) ∧
      ∀ x ∉ n :: xs, (cfqListInsertHead l n links).2 x = links x := by
  have same : (cfqListInsertHead l n links).2 = link links n (lastOr none []) (firstOr none xs) := by
    rw [← lists.head]
    rfl
  obtain ⟨linked, others⟩ := link_spec [] lists nodup
  rw [same]
  refine ⟨⟨linked, rfl, ?_⟩, others⟩
  show (if l.tail = none then some n else l.tail) = _
  rw [lists.tail, lastOr_cons]
  cases xs with
  | nil => rfl
  | cons x xs =>
    rw [lastOr_nonempty none (some n) (cons_ne_nil x xs)]
    apply if_neg
    intro is
    rw [lastOr_cons] at is
    exact absurd is (lastOr_some x xs)

theorem cfqListInsertAfter_spec {ref : Nat} (lists : Represents links l (us ++ ref :: vs))
    (nodup : (us ++ ref :: n :: vs).Nodup) :
    Represents (cfqListInsertAfter l ref n links).2 (cfqListInsertAfter l ref n links).1
        (us ++ ref :: n :: vs) ∧
      ∀ x ∉ us ++ ref :: n :: vs, (cfqListInsertAfter l ref n links).2 x = links x := by
  have node := linked_at lists.linked
  have split : ∀ ys : List Nat, us ++ ref :: ys = (us ++ [ref]) ++ ys := by simp
  have same : (cfqListInsertAfter l ref n links).2 =
      link links n (lastOr none (us ++ [ref])) (firstOr none vs) := by
    rw [lastOr_append]
    unfold cfqListInsertAfter
    rw [node]
    rfl
  have whole := lists
  rw [split (n :: vs)] at nodup
  rw [split vs] at whole
  obtain ⟨linked, others⟩ := link_spec _ whole nodup
  rw [same, split (n :: vs)]
  refine ⟨⟨linked, ?_, ?_⟩, others⟩
  · show l.head = _
    rw [lists.head, firstOr_append, append_assoc, firstOr_append]
    rfl
  · show (if l.tail = some ref then some n else l.tail) = _
    have absent : ref ∉ vs := by
      have := (nodup_append.mp nodup).2.2 ref (by simp)
      intro member
      exact this ref (mem_cons_of_mem n member) rfl
    rw [lists.tail, lastOr_append, lastOr_append, lastOr_append, lastOr_cons, lastOr_cons]
    cases vs with
    | nil => rw [lastOr_nil, if_pos rfl]; rfl
    | cons v vs =>
      have other : lastOr (some ref) (v :: vs) ≠ some ref := by
        intro is
        cases lastOr_mem is with
        | inl member => exact absent member
        | inr empty => exact nomatch empty.1
      rw [if_neg other]
      rfl

def comesBefore (items : Nat → CfqItem) (p n : Nat) : Bool :=
  decide (cfqCompare (items p) (items n) < 0)

/-- The loop of a sorted insertion ends at the first item that does not come before. -/
theorem cfqSortedRounds_spec (items : Nat → CfqItem) (n : Nat) (us : List Nat)
    (linked : Linked links none (us ++ vs) none) (enough : vs.length ≤ fuel) :
    cfqSortedRounds items links n fuel (firstOr none vs) (lastOr none us) =
      (firstOr none (vs.dropWhile (comesBefore items · n)),
        lastOr none (us ++ vs.takeWhile (comesBefore items · n))) := by
  induction vs generalizing us fuel with
  | nil =>
    rw [dropWhile_nil, takeWhile_nil, append_nil]
    cases fuel <;> rfl
  | cons v vs ih =>
    cases fuel with
    | zero => simp at enough
    | succ fuel =>
      have node := linked_at linked
      have shift : us ++ v :: vs = (us ++ [v]) ++ vs := by simp
      rw [firstOr_cons, cfqSortedRounds, dropWhile_cons, takeWhile_cons]
      by_cases before : cfqCompare (items v) (items n) < 0
      · have is : comesBefore items v n = true := decide_eq_true before
        rw [if_pos before, if_pos is, if_pos is, node]
        rw [shift] at linked
        have next := ih _ linked (by simpa using enough)
        rw [lastOr_append] at next
        rw [append_cons us v (vs.takeWhile _)]
        exact next
      · have is : ¬ comesBefore items v n = true := by
          rw [comesBefore, decide_eq_true_iff]
          exact before
        rw [if_neg before, if_neg is, if_neg is, firstOr_cons, append_nil]

def cfqSortedInsert (items : Nat → CfqItem) (n : Nat) (xs : List Nat) : List Nat :=
  xs.takeWhile (comesBefore items · n) ++ n :: xs.dropWhile (comesBefore items · n)

theorem cfqSortedInsert_perm (items : Nat → CfqItem) (n : Nat) (xs : List Nat) :
    (cfqSortedInsert items n xs).Perm (n :: xs) := by
  have perm : (cfqSortedInsert items n xs).Perm
      (n :: (xs.takeWhile (comesBefore items · n) ++ xs.dropWhile (comesBefore items · n))) :=
    perm_middle
  rw [takeWhile_append_dropWhile] at perm
  exact perm

theorem cfqListInsertSorted_spec (items : Nat → CfqItem) (lists : Represents links l xs)
    (nodup : (n :: xs).Nodup) (enough : xs.length ≤ fuel) :
    Represents (cfqListInsertSorted items fuel l n links).2
        (cfqListInsertSorted items fuel l n links).1 (cfqSortedInsert items n xs) ∧
      ∀ x ∉ n :: xs, (cfqListInsertSorted items fuel l n links).2 x = links x := by
  have perm := cfqSortedInsert_perm items n xs
  have nodup' := perm.nodup_iff.mpr nodup
  have outside : ∀ x, x ∉ n :: xs → x ∉ cfqSortedInsert items n xs := fun x absent =>
    mt perm.mem_iff.mp absent
  have parts : xs.takeWhile (comesBefore items · n) ++ xs.dropWhile (comesBefore items · n) = xs :=
    takeWhile_append_dropWhile
  have ends := cfqSortedRounds_spec items n [] lists.linked enough
  unfold cfqSortedInsert at nodup' outside ⊢
  rw [nil_append, lastOr_nil] at ends
  generalize xs.takeWhile (comesBefore items · n) = us at parts ends nodup' outside ⊢
  generalize xs.dropWhile (comesBefore items · n) = vs at parts ends nodup' outside ⊢
  subst parts
  unfold cfqListInsertSorted
  rw [← lists.head] at ends
  cases head : l.head with
  | none =>
    have empty : us ++ vs = [] := by
      have is := lists.head
      rw [head] at is
      cases all : us ++ vs with
      | nil => rfl
      | cons x xs =>
        rw [all] at is
        exact nomatch is
    obtain ⟨rfl, rfl⟩ := append_eq_nil_iff.mp empty
    refine ⟨⟨⟨update_self .., trivial⟩, rfl, rfl⟩, ?_⟩
    intro x absent
    exact update_of_ne (fun is => absent (by simp [is])) ..
  | some first =>
    rw [head] at ends
    dsimp only
    rw [ends]
    cases vs with
    | nil =>
      rw [append_nil] at lists
      rw [firstOr_nil]
      obtain ⟨made, others⟩ := cfqListInsertTail_spec lists nodup'
      exact ⟨made, fun x absent => others x (outside x absent)⟩
    | cons v vs =>
      rw [firstOr_cons]
      rcases eq_nil_or_concat us with rfl | ⟨before, pprev, rfl⟩
      · obtain ⟨made, others⟩ := cfqListInsertHead_spec lists nodup'
        exact ⟨made, fun x absent => others x (outside x absent)⟩
      · rw [concat_eq_append] at *
        rw [lastOr_append]
        simp only [append_assoc, singleton_append] at lists nodup' outside ⊢
        obtain ⟨made, others⟩ := cfqListInsertAfter_spec lists nodup'
        exact ⟨made, fun x absent => others x (outside x absent)⟩

end Ossl
