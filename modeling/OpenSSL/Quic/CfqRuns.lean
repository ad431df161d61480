import OpenSSL.Lib.Runs
import OpenSSL.Quic.Cfq

/- The control frame queue over whole runs, against a ledger of the items that are live. -/
namespace Ossl
open Option List Function Links Runs

def CfqOrdered (a b : CfqItem) : Prop :=
  a.pnSpace < b.pnSpace ∨ a.pnSpace = b.pnSpace ∧ b.priority ≤ a.priority

theorem cfqCompare_nonpos (a b : CfqItem) : cfqCompare a b ≤ 0 ↔ CfqOrdered a b := by
  unfold cfqCompare CfqOrdered
  split
  · omega
  · split
    · omega
    · split
      · omega
      · split <;> omega

variable {a b : CfqItem} {fuel n : Nat} {frees news txs us vs xs ys : List Nat}
    {links : Nat → Node Nat} {cfq cfq' : QuicCfq}

theorem cfqOrdered_of_before (before : cfqCompare a b < 0) : CfqOrdered a b :=
  (cfqCompare_nonpos a b).mp (le_of_lt before)

theorem cfqOrdered_of_not (not : ¬ cfqCompare a b < 0) : CfqOrdered b a := by
  unfold cfqCompare at not
  unfold CfqOrdered
  split at not
  · omega
  · split at not
    · omega
    · split at not
      · omega
      · omega

theorem cfqOrdered_trans {c : CfqItem} (left : CfqOrdered a b) (right : CfqOrdered b c) :
    CfqOrdered a c := by
  unfold CfqOrdered at *
  omega

variable {items : Nat → CfqItem}

theorem cfqSortedInsert_ordered (ordered : xs.Pairwise fun a b => CfqOrdered (items a) (items b)) :
    (cfqSortedInsert items n xs).Pairwise fun a b => CfqOrdered (items a) (items b) := by
  have parts : xs.takeWhile (comesBefore items · n) ++ xs.dropWhile (comesBefore items · n) = xs :=
    takeWhile_append_dropWhile
  have before : ∀ p ∈ xs.takeWhile (comesBefore items · n), CfqOrdered (items p) (items n) := by
    intro p member
    exact cfqOrdered_of_before (of_decide_eq_true (all_eq_true.mp all_takeWhile p member))
  have after : ∀ q ∈ xs.dropWhile (comesBefore items · n), CfqOrdered (items n) (items q) := by
    have tail := ordered.sublist (dropWhile_sublist (comesBefore items · n))
    cases rest : xs.dropWhile (comesBefore items · n) with
    | nil => simp
    | cons v vs =>
      have first : CfqOrdered (items n) (items v) := by
        have not := head?_dropWhile_not (comesBefore items · n) xs
        rw [rest] at not
        have clear : comesBefore items v n = false := by simpa using not
        exact cfqOrdered_of_not (of_decide_eq_false clear)
      rw [rest] at tail
      intro q member
      cases mem_cons.mp member with
      | inl is =>
        rw [is]
        exact first
      | inr later => exact cfqOrdered_trans first ((pairwise_cons.mp tail).1 q later)
  unfold cfqSortedInsert
  rw [← parts] at ordered
  obtain ⟨left, right, across⟩ := pairwise_append.mp ordered
  rw [pairwise_append]
  refine ⟨left, pairwise_cons.mpr ⟨after, right⟩, ?_⟩
  intro p inside q member
  cases mem_cons.mp member with
  | inl is =>
    rw [is]
    exact before p inside
  | inr later => exact across p inside q later

/- The items that are live, as the caller knows them, and the calls that are due for those
   that no longer are. -/
structure CfqLedger where
  live : Nat → Option CfqItem
  due : List CfqFreeCall

def cfqFreeCall (item : CfqItem) : List CfqFreeCall :=
  match item.freeCb with
  | none => []
  | some freeCb => [⟨freeCb, item.encoded, item.encodedLen, item.freeCbArg⟩]

def ledgerPut (id : Nat) (item : CfqItem) (ledger : CfqLedger) : CfqLedger :=
  { ledger with live := update ledger.live id (some item) }

def ledgerAdd (id : Nat) (frame : CfqFrame) (ledger : CfqLedger) : CfqLedger :=
  match ledger.live id with
  | none => ledgerPut id ⟨frame, .new⟩ ledger
  | some _ => ledger

def ledgerMarkTx (id : Nat) (ledger : CfqLedger) : CfqLedger :=
  match ledger.live id with
  | none => ledger
  | some item => ledgerPut id { item with state := .tx } ledger

def ledgerRelease (id : Nat) (ledger : CfqLedger) : CfqLedger :=
  match ledger.live id with
  | none => ledger
  | some item =>
    { live := update ledger.live id none, due := ledger.due ++ cfqFreeCall item }

def ledgerMarkLost (id priority : Nat) (ledger : CfqLedger) : CfqLedger :=
  match ledger.live id with
  | none => ledger
  | some item =>
    if cfqItemIsUnreliable item then ledgerRelease id ledger
    else
      ledgerPut id
        { item with
          state := .new
          priority := if priority = uint32Max then item.priority else priority } ledger

structure CfqWorld where
  cfq : QuicCfq
  ledger : CfqLedger

def startCfq : CfqWorld := ⟨quicCfqNew, ⟨fun _ => none, []⟩⟩

inductive CfqOp where
  | addFrame (mem : Bool) (frame : CfqFrame)
  | markTx (id : Nat)
  | markLost (id priority : Nat)
  | release (id : Nat)

def applyCfq (w : CfqWorld) : CfqOp → CfqWorld
  | .addFrame mem frame =>
    match quicCfqAddFrame mem frame w.cfq with
    | none => w
    | some (id, cfq) => ⟨cfq, ledgerAdd id frame w.ledger⟩
  | .markTx id => ⟨quicCfqMarkTx id w.cfq, ledgerMarkTx id w.ledger⟩
  | .markLost id priority =>
    ⟨quicCfqMarkLost id priority w.cfq, ledgerMarkLost id priority w.ledger⟩
  | .release id => ⟨quicCfqRelease id w.cfq, ledgerRelease id w.ledger⟩

def CfqOpOk (w : CfqWorld) : CfqOp → Prop
  | .addFrame _ _ => True
  | .markTx id => (w.ledger.live id).isSome
  | .markLost id _ => (w.ledger.live id).isSome
  | .release id => (w.ledger.live id).isSome

structure CfqHolds (cfq : QuicCfq) (news txs frees : List Nat) : Prop where
  new : Represents cfq.links cfq.newList news
  tx : Represents cfq.links cfq.txList txs
  free : Represents cfq.links cfq.freeList frees
  all : (news ++ (txs ++ frees)).Perm (List.range cfq.allocated)
  isNew : ∀ id ∈ news, (cfq.items id).state = .new
  isTx : ∀ id ∈ txs, (cfq.items id).state = .tx
  isFree : ∀ id, id ∉ news → id ∉ txs → (cfq.items id).state = .free
  ordered : news.Pairwise fun a b => CfqOrdered (cfq.items a) (cfq.items b)

structure CfqMatches (cfq : QuicCfq) (ledger : CfqLedger) : Prop where
  live : ∀ id, ledger.live id = if (cfq.items id).state = .free then none else some (cfq.items id)
  calls : cfq.calls = ledger.due

theorem cfqMove {a b c : CfqItemList} (us : List Nat) {ys' zs : List Nat}
    {inserted : CfqItemList × (Nat → Node Nat)} (from_ : Represents links a (us ++ n :: vs))
    (into : Represents links b ys) (other : Represents links c zs)
    (nodup : ((us ++ n :: vs) ++ (ys ++ zs)).Nodup)
    (spec : Represents (cfqListRemove a n links).2 b ys → Represents inserted.2 inserted.1 ys' ∧
        ∀ x ∉ n :: ys, inserted.2 x = (cfqListRemove a n links).2 x) :
    Represents inserted.2 (cfqListRemove a n links).1 (us ++ vs) ∧
      Represents inserted.2 inserted.1 ys' ∧ Represents inserted.2 c zs := by
  obtain ⟨own, rest, apart⟩ := nodup_append.mp nodup
  obtain ⟨_, _, between⟩ := nodup_append.mp rest
  have absent := (nodup_cons.mp (perm_middle.nodup_iff.mp own)).1
  obtain ⟨removed, unchanged⟩ := cfqListRemove_spec from_ own
  have outside : ∀ x ∈ ys ++ zs, x ∉ us ++ n :: vs := fun x member inside =>
    apart x inside x member rfl
  obtain ⟨made, others⟩ := spec (represents_same
    (fun x member => unchanged x (outside x (mem_append_left zs member))) into)
  refine ⟨represents_same ?_ removed, made, represents_same ?_ other⟩
  · intro x member
    apply others
    rw [mem_cons, not_or]
    constructor
    · intro is
      rw [is] at member
      exact absent member
    · intro inside
      have whole : x ∈ us ++ n :: vs := by
        simp only [mem_append, mem_cons] at member ⊢
        tauto
      exact outside x (mem_append_left zs inside) whole
  · intro x member
    rw [others, unchanged x (outside x (mem_append_right ys member))]
    rw [mem_cons, not_or]
    constructor
    · intro is
      exact outside x (mem_append_right ys member) (by simp [is])
    · intro inside
      exact between x inside x member rfl

/-- A change of one item, and of its place, keeps the rest. -/
theorem cfqHolds_moved {news' txs' frees' : List Nat} (holds : CfqHolds cfq news txs frees)
    {id : Nat} (item : CfqItem) (items : cfq'.items = update cfq.items id item)
    (allocated : cfq'.allocated = cfq.allocated) (new : Represents cfq'.links cfq'.newList news')
    (tx : Represents cfq'.links cfq'.txList txs')
    (free : Represents cfq'.links cfq'.freeList frees')
    (perm : (news' ++ (txs' ++ frees')).Perm (news ++ (txs ++ frees)))
    (sameNew : ∀ x, x ≠ id → (x ∈ news' ↔ x ∈ news)) (sameTx : ∀ x, x ≠ id → (x ∈ txs' ↔ x ∈ txs))
    (hereNew : id ∈ news' → item.state = .new) (hereTx : id ∈ txs' → item.state = .tx)
    (hereFree : id ∉ news' → id ∉ txs' → item.state = .free)
    (ordered : news'.Pairwise fun a b => CfqOrdered (cfq'.items a) (cfq'.items b)) :
    CfqHolds cfq' news' txs' frees' := by
  refine ⟨new, tx, free, ?_, ?_, ?_, ?_, ordered⟩
  · rw [allocated]
    exact perm.trans holds.all
  · intro x member
    rw [items]
    by_cases here : x = id
    · rw [here, update_self]
      exact hereNew (here ▸ member)
    · rw [update_of_ne here]
      exact holds.isNew x ((sameNew x here).mp member)
  · intro x member
    rw [items]
    by_cases here : x = id
    · rw [here, update_self]
      exact hereTx (here ▸ member)
    · rw [update_of_ne here]
      exact holds.isTx x ((sameTx x here).mp member)
  · intro x notNew notTx
    rw [items]
    by_cases here : x = id
    · rw [here] at notNew notTx
      rw [here, update_self]
      exact hereFree notNew notTx
    · rw [update_of_ne here]
      exact holds.isFree x (mt (sameNew x here).mpr notNew) (mt (sameTx x here).mpr notTx)

variable {ledger : CfqLedger}

theorem cfqMatches_put {ledger' : CfqLedger} (matches_ : CfqMatches cfq ledger) (id : Nat)
    (item : CfqItem) (items : cfq'.items = update cfq.items id item)
    (live : ledger'.live = update ledger.live id (if item.state = .free then none else some item))
    (calls : cfq'.calls = ledger'.due) : CfqMatches cfq' ledger' := by
  refine ⟨?_, calls⟩
  intro x
  rw [live, items]
  by_cases here : x = id
  · rw [here, update_self, update_self]
  · rw [update_of_ne here, update_of_ne here]
    exact matches_.live x

theorem ordered_update {id : Nat} (absent : id ∉ xs) (item : CfqItem)
    (ordered : xs.Pairwise fun a b => CfqOrdered (items a) (items b)) : xs.Pairwise fun a b =>
      CfqOrdered (update items id item a) (update items id item b) := by
  apply ordered.imp_of_mem
  intro a b left right order
  rw [update_of_ne (ne_of_mem_of_not_mem left absent),
    update_of_ne (ne_of_mem_of_not_mem right absent)]
  exact order

theorem holds_nodup (holds : CfqHolds cfq news txs frees) : (news ++ (txs ++ frees)).Nodup :=
  holds.all.nodup_iff.mpr nodup_range

theorem holds_length (holds : CfqHolds cfq news txs frees) : news.length ≤ cfq.allocated := by
  have size := holds.all.length_eq
  simp only [length_append, length_range] at size
  omega

/-- The item that ossl_quic_cfq_add_frame takes is the first of the free ones. -/
theorem cfqGetFree_holds {mem : Bool} {id : Nat} (holds : CfqHolds cfq news txs frees)
    (matches_ : CfqMatches cfq ledger) (got : cfqGetFree mem cfq = some (id, cfq')) :
    (∃ rest, CfqHolds cfq' news txs (id :: rest)) ∧ CfqMatches cfq' ledger := by
  have head := holds.free.head
  unfold cfqGetFree at got
  cases frees with
  | cons first rest =>
    rw [head, firstOr_cons] at got
    obtain ⟨rfl, rfl⟩ := Prod.mk.inj (some.inj got)
    exact ⟨⟨rest, holds⟩, matches_⟩
  | nil =>
    rw [head, firstOr_nil] at got
    cases mem with
    | false => exact nomatch got
    | true =>
      rw [if_pos rfl] at got
      obtain ⟨rfl, rfl⟩ := Prod.mk.inj (some.inj got)
      have fresh : cfq.allocated ∉ news ++ txs := by
        intro member
        have inside : cfq.allocated ∈ news ++ (txs ++ []) := by simpa using member
        exact absurd (mem_range.mp (holds.all.mem_iff.mp inside)) (lt_irrefl _)
      rw [mem_append, not_or] at fresh
      have was := holds.isFree cfq.allocated fresh.1 fresh.2
      obtain ⟨made, others⟩ :=
        cfqListInsertTail_spec (n := cfq.allocated) holds.free (nodup_singleton _)
      have kept : ∀ xs : List Nat, cfq.allocated ∉ xs → ∀ x ∈ xs, x ∉ [] ++ [cfq.allocated] := by
        intro xs absent x member is
        rw [nil_append, mem_singleton] at is
        rw [is] at member
        exact absent member
      refine ⟨⟨[], ?_⟩, ?_⟩
      · refine ⟨represents_same (fun x member => others x (kept _ fresh.1 x member)) holds.new,
          represents_same (fun x member => others x (kept _ fresh.2 x member)) holds.tx, made, ?_,
          ?_, ?_, ?_, ?_⟩
        · rw [range_succ, ← append_assoc]
          apply List.Perm.append_right
          have all := holds.all
          rw [append_nil] at all
          exact all
        · intro x member
          dsimp only
          rw [update_of_ne (ne_of_mem_of_not_mem member fresh.1)]
          exact holds.isNew x member
        · intro x member
          dsimp only
          rw [update_of_ne (ne_of_mem_of_not_mem member fresh.2)]
          exact holds.isTx x member
        · intro x notNew notTx
          dsimp only
          by_cases here : x = cfq.allocated
          · rw [here, update_self]
          · rw [update_of_ne here]
            exact holds.isFree x notNew notTx
        · exact ordered_update fresh.1 _ holds.ordered
      · refine cfqMatches_put matches_ _ _ rfl ?_ matches_.calls
        rw [if_pos rfl]
        funext x
        by_cases here : x = cfq.allocated
        · rw [here, update_self, matches_.live, if_pos was]
        · rw [update_of_ne here]

theorem quicCfqAddFrame_holds {mem : Bool} {frame : CfqFrame} {id : Nat}
    (holds : CfqHolds cfq news txs frees) (matches_ : CfqMatches cfq ledger)
    (added : quicCfqAddFrame mem frame cfq = some (id, cfq')) :
    (∃ news' frees', CfqHolds cfq' news' txs frees') ∧
      CfqMatches cfq' (ledgerAdd id frame ledger) := by
  unfold quicCfqAddFrame at added
  cases got : cfqGetFree mem cfq with
  | none =>
    rw [got] at added
    exact nomatch added
  | some found =>
    obtain ⟨which, cfq1⟩ := found
    rw [got] at added
    obtain ⟨rfl, rfl⟩ := Prod.mk.inj (some.inj added)
    obtain ⟨⟨rest, ready⟩, matches1⟩ := cfqGetFree_holds holds matches_ got
    have nodup := holds_nodup ready
    have turned : ((([] : List Nat) ++ which :: rest) ++ (news ++ txs)).Nodup := by
      apply (List.Perm.nodup_iff _).mpr nodup
      rw [nil_append, ← append_assoc news txs]
      exact perm_append_comm
    obtain ⟨notNew, notTx⟩ : which ∉ news ∧ which ∉ txs := by
      rw [nil_append, cons_append, nodup_cons] at turned
      simp only [mem_append, not_or] at turned
      exact turned.1.2
    have free := ready.isFree which notNew notTx
    have ends := cfqMove [] ready.free ready.new ready.tx turned
      (fun lists => cfqListInsertSorted_spec ((cfqPutItem which ⟨frame, .new⟩ cfq1).items)
        lists (nodup_cons.mpr ⟨notNew, (nodup_append.mp nodup).1⟩) (holds_length ready))
    rw [nil_append] at ends
    have perm := cfqSortedInsert_perm (cfqPutItem which ⟨frame, .new⟩ cfq1).items which news
    refine ⟨⟨_, rest, cfqHolds_moved ready ⟨frame, .new⟩ rfl rfl ends.2.1 ends.2.2 ends.1
      ?_ ?_ ?_ ?_ ?_ ?_ ?_⟩, ?_⟩
    · apply (List.Perm.append_right _ perm).trans
      rw [cons_append]
      apply List.Perm.trans _ (List.Perm.append_left news perm_middle.symm)
      exact perm_middle.symm
    · intro x other
      rw [perm.mem_iff, mem_cons]
      exact or_iff_right other
    · exact fun _ _ => Iff.rfl
    · exact fun _ => rfl
    · exact fun member => absurd member notTx
    · intro absent
      exact absurd (perm.mem_iff.mpr mem_cons_self) absent
    · exact cfqSortedInsert_ordered (ordered_update notNew _ ready.ordered)
    · have none : ledger.live which = none := by rw [matches1.live, if_pos free]
      refine cfqMatches_put matches1 _ ⟨frame, .new⟩ rfl ?_ ?_
      · rw [ledgerAdd, none]
        rfl
      · rw [ledgerAdd, none]
        exact matches1.calls

theorem mem_news (holds : CfqHolds cfq news txs frees) {id : Nat}
    (is : (cfq.items id).state = .new) : id ∈ news := by
  by_contra absent
  by_cases tx : id ∈ txs
  · rw [holds.isTx id tx] at is
    exact nomatch is
  · rw [holds.isFree id absent tx] at is
    exact nomatch is

theorem mem_txs (holds : CfqHolds cfq news txs frees) {id : Nat} (is : (cfq.items id).state = .tx) :
    id ∈ txs := by
  by_contra absent
  by_cases new : id ∈ news
  · rw [holds.isNew id new] at is
    exact nomatch is
  · rw [holds.isFree id new absent] at is
    exact nomatch is

theorem live_eq (matches_ : CfqMatches cfq ledger) (id : Nat) (not : (cfq.items id).state ≠ .free) :
    ledger.live id = some (cfq.items id) := by
  rw [matches_.live, if_neg not]

theorem mem_without {id : Nat} (x : Nat) (other : x ≠ id) : x ∈ us ++ vs ↔ x ∈ us ++ id :: vs := by
  simp only [mem_append, mem_cons]
  constructor
  · exact Or.imp_right .inr
  · exact Or.imp_right fun member => member.resolve_left other

theorem mem_within {id : Nat} (x : Nat) (other : x ≠ id) : x ∈ xs ++ [id] ↔ x ∈ xs := by
  rw [mem_append, mem_singleton]
  exact or_iff_left other

theorem insertTail_into {l : CfqItemList} (lists : Represents links l ys)
    (nodup : (n :: ys).Nodup) :
    Represents (cfqListInsertTail l n links).2 (cfqListInsertTail l n links).1 (ys ++ [n]) ∧
      ∀ x ∉ n :: ys, (cfqListInsertTail l n links).2 x = links x := by
  have perm := perm_append_singleton n ys
  obtain ⟨made, others⟩ := cfqListInsertTail_spec lists (perm.nodup_iff.mpr nodup)
  exact ⟨made, fun x outside => others x (mt perm.mem_iff.mp outside)⟩

theorem pairwise_without {r : Nat → Nat → Prop} {id : Nat} (ordered : (us ++ id :: vs).Pairwise r) :
    (us ++ vs).Pairwise r :=
  ordered.sublist (List.Sublist.append_left (sublist_cons_self id vs) us)

theorem quicCfqMarkTx_holds {id : Nat} (holds : CfqHolds cfq news txs frees)
    (matches_ : CfqMatches cfq ledger) (live : (ledger.live id).isSome) :
    (∃ news' txs', CfqHolds (quicCfqMarkTx id cfq) news' txs' frees) ∧
      CfqMatches (quicCfqMarkTx id cfq) (ledgerMarkTx id ledger) := by
  have nodup := holds_nodup holds
  unfold quicCfqMarkTx
  cases state : (cfq.items id).state with
  | free =>
    rw [matches_.live, if_pos state] at live
    exact nomatch live
  | tx =>
    have known := live_eq matches_ id (by rw [state]; exact fun is => nomatch is)
    refine ⟨⟨news, txs, holds⟩, cfqMatches_put matches_ id (cfq.items id) ?_ ?_ ?_⟩
    · exact (update_eq_self id cfq.items).symm
    · rw [ledgerMarkTx, known, if_neg (by rw [state]; exact fun is => nomatch is), ← state]
      rfl
    · rw [ledgerMarkTx, known]
      exact matches_.calls
  | new =>
    obtain ⟨us, vs, rfl⟩ := append_of_mem (mem_news holds state)
    have known := live_eq matches_ id (by rw [state]; exact fun is => nomatch is)
    obtain ⟨own, rest, apart⟩ := nodup_append.mp nodup
    have notTx : id ∉ txs := fun member =>
      apart id (by simp) id (mem_append_left frees member) rfl
    have absent := (nodup_cons.mp (perm_middle.nodup_iff.mp own)).1
    have ends := cfqMove _ holds.new holds.tx holds.free nodup (fun lists =>
      insertTail_into lists (nodup_cons.mpr ⟨notTx, (nodup_append.mp rest).1⟩))
    refine ⟨⟨us ++ vs, txs ++ [id], cfqHolds_moved holds { cfq.items id with state := .tx }
      rfl rfl ends.1 ends.2.1 ends.2.2 ?_ mem_without (fun x other => mem_within x other) ?_ ?_ ?_
      ?_⟩, ?_⟩
    · rw [perm_iff_count]
      intro x
      simp only [count_append, count_cons, count_nil]
      omega
    · exact fun member => absurd member absent
    · exact fun _ => rfl
    · intro _ missing
      exact absurd (mem_append_right txs (mem_singleton_self id)) missing
    · exact ordered_update absent _ (pairwise_without holds.ordered)
    · refine cfqMatches_put matches_ _ { cfq.items id with state := .tx } rfl ?_ ?_
      · rw [ledgerMarkTx, known]
        rfl
      · rw [ledgerMarkTx, known]
        exact matches_.calls

theorem cfqClearItem_eq (id : Nat) (cfq : QuicCfq) :
    ∃ item : CfqItem, item.state = .free ∧ cfqClearItem id cfq =
      { cfq with
        items := update cfq.items id item
        calls := cfq.calls ++ cfqFreeCall (cfq.items id) } := by
  unfold cfqClearItem cfqFreeCall
  dsimp only
  cases (cfq.items id).freeCb with
  | none =>
    refine ⟨{ cfq.items id with state := .free }, rfl, ?_⟩
    rw [append_nil]
    rfl
  | some freeCb => exact ⟨_, rfl, rfl⟩

theorem quicCfqRelease_holds {id : Nat} (holds : CfqHolds cfq news txs frees)
    (matches_ : CfqMatches cfq ledger) (live : (ledger.live id).isSome) :
    (∃ news' txs' frees', CfqHolds (quicCfqRelease id cfq) news' txs' frees') ∧
      CfqMatches (quicCfqRelease id cfq) (ledgerRelease id ledger) := by
  have nodup := holds_nodup holds
  unfold quicCfqRelease
  cases state : (cfq.items id).state with
  | free =>
    rw [matches_.live, if_pos state] at live
    exact nomatch live
  | tx =>
    obtain ⟨us, vs, rfl⟩ := append_of_mem (mem_txs holds state)
    have known := live_eq matches_ id (by rw [state]; exact fun is => nomatch is)
    have turned : ((us ++ id :: vs) ++ (frees ++ news)).Nodup := by
      apply (List.Perm.nodup_iff _).mpr nodup
      rw [← append_assoc]
      exact perm_append_comm
    obtain ⟨own, rest, apart⟩ := nodup_append.mp turned
    have notFree : id ∉ frees := fun member =>
      apart id (by simp) id (mem_append_left news member) rfl
    have notNew : id ∉ news := fun member =>
      apart id (by simp) id (mem_append_right frees member) rfl
    have absent := (nodup_cons.mp (perm_middle.nodup_iff.mp own)).1
    have ends := cfqMove _ holds.tx holds.free holds.new turned (fun lists =>
      insertTail_into lists (nodup_cons.mpr ⟨notFree, (nodup_append.mp rest).1⟩))
    obtain ⟨item, cleared, eq⟩ := cfqClearItem_eq id
      { cfq with
        txList := (cfqListRemove cfq.txList id cfq.links).1
        freeList := (cfqListInsertTail cfq.freeList id (cfqListRemove cfq.txList id cfq.links).2).1
        links := (cfqListInsertTail cfq.freeList id (cfqListRemove cfq.txList id cfq.links).2).2 }
    rw [eq]
    refine ⟨⟨news, us ++ vs, frees ++ [id], cfqHolds_moved holds item rfl rfl ends.2.2
      ends.1 ends.2.1 ?_ (fun _ _ => Iff.rfl) mem_without ?_ ?_ ?_ ?_⟩, ?_⟩
    · rw [perm_iff_count]
      intro x
      simp only [count_append, count_cons, count_nil]
      omega
    · exact fun member => absurd member notNew
    · exact fun member => absurd member absent
    · exact fun _ _ => cleared
    · exact ordered_update notNew _ holds.ordered
    · refine cfqMatches_put matches_ _ item rfl ?_ ?_
      · rw [ledgerRelease, known, if_pos cleared]
      · rw [ledgerRelease, known]
        exact congrArg (· ++ _) matches_.calls
  | new =>
    obtain ⟨us, vs, rfl⟩ := append_of_mem (mem_news holds state)
    have known := live_eq matches_ id (by rw [state]; exact fun is => nomatch is)
    have turned : ((us ++ id :: vs) ++ (frees ++ txs)).Nodup :=
      (List.Perm.append_left _ perm_append_comm).nodup_iff.mpr nodup
    obtain ⟨own, rest, apart⟩ := nodup_append.mp turned
    have notFree : id ∉ frees := fun member =>
      apart id (by simp) id (mem_append_left txs member) rfl
    have notTx : id ∉ txs := fun member =>
      apart id (by simp) id (mem_append_right frees member) rfl
    have absent := (nodup_cons.mp (perm_middle.nodup_iff.mp own)).1
    have ends := cfqMove _ holds.new holds.free holds.tx turned (fun lists =>
      insertTail_into lists (nodup_cons.mpr ⟨notFree, (nodup_append.mp rest).1⟩))
    obtain ⟨item, cleared, eq⟩ := cfqClearItem_eq id
      { cfq with
        newList := (cfqListRemove cfq.newList id cfq.links).1
        freeList := (cfqListInsertTail cfq.freeList id (cfqListRemove cfq.newList id cfq.links).2).1
        links := (cfqListInsertTail cfq.freeList id (cfqListRemove cfq.newList id cfq.links).2).2 }
    rw [eq]
    refine ⟨⟨us ++ vs, txs, frees ++ [id], cfqHolds_moved holds item rfl rfl ends.1
      ends.2.2 ends.2.1 ?_ mem_without (fun _ _ => Iff.rfl) ?_ ?_ ?_ ?_⟩, ?_⟩
    · rw [perm_iff_count]
      intro x
      simp only [count_append, count_cons, count_nil]
      omega
    · exact fun member => absurd member absent
    · exact fun member => absurd member notTx
    · exact fun _ _ => cleared
    · exact ordered_update absent _ (pairwise_without holds.ordered)
    · refine cfqMatches_put matches_ _ item rfl ?_ ?_
      · rw [ledgerRelease, known, if_pos cleared]
      · rw [ledgerRelease, known]
        exact congrArg (· ++ _) matches_.calls

/-- An item that moves within new_list, with another priority. -/
theorem cfqReinsert {a b c : CfqItemList} {zs : List Nat} (items : Nat → CfqItem)
    (from_ : Represents links a (us ++ n :: vs)) (second : Represents links b ys)
    (third : Represents links c zs) (nodup : ((us ++ n :: vs) ++ (ys ++ zs)).Nodup)
    (enough : (us ++ n :: vs).length ≤ fuel) : let removed := cfqListRemove a n links
    let inserted := cfqListInsertSorted items fuel removed.1 n removed.2
    Represents inserted.2 inserted.1 (cfqSortedInsert items n (us ++ vs)) ∧
      Represents inserted.2 b ys ∧ Represents inserted.2 c zs := by
  obtain ⟨own, _, apart⟩ := nodup_append.mp nodup
  obtain ⟨removed, unchanged⟩ := cfqListRemove_spec from_ own
  have shorter : (us ++ vs).length ≤ fuel := by
    rw [length_append, length_cons] at enough
    rw [length_append]
    omega
  have perm : (us ++ n :: vs).Perm (n :: (us ++ vs)) := perm_middle
  obtain ⟨made, others⟩ := cfqListInsertSorted_spec items removed (perm.nodup_iff.mp own) shorter
  have kept : ∀ x ∈ ys ++ zs, (cfqListInsertSorted items fuel (cfqListRemove a n links).1 n
      (cfqListRemove a n links).2).2 x = links x := by
    intro x member
    have outside : x ∉ us ++ n :: vs := fun inside => apart x inside x member rfl
    rw [others x (mt perm.mem_iff.mpr outside), unchanged x outside]
  exact ⟨made,
    represents_same (fun x member => kept x (mem_append_left zs member)) second,
    represents_same (fun x member => kept x (mem_append_right ys member)) third⟩

def cfqWithPriority (priority : Nat) (item : CfqItem) : CfqItem :=
  if priority ≠ uint32Max then { item with priority } else item

theorem cfqMarkLostNew_eq {id priority : Nat} (other : priority ≠ uint32Max) :
    cfqMarkLostNew id priority cfq =
      let items := update cfq.items id (cfqWithPriority priority (cfq.items id))
      let removed := cfqListRemove cfq.newList id cfq.links
      let inserted := cfqListInsertSorted items cfq.allocated removed.1 id removed.2
      { cfq with items, newList := inserted.1, links := inserted.2 } := by
  rw [cfqWithPriority, if_pos other]
  rfl

theorem cfqMarkLostTx_eq {id priority : Nat} : cfqMarkLostTx id priority cfq =
      let item := cfqWithPriority priority (cfq.items id)
      let items := update cfq.items id item
      let removed := cfqListRemove cfq.txList id cfq.links
      let inserted := cfqListInsertSorted items cfq.allocated cfq.newList id removed.2
      { cfq with
        items := update items id { item with state := .new }
        txList := removed.1, newList := inserted.1, links := inserted.2 } := by
  unfold cfqMarkLostTx cfqWithPriority
  by_cases max : priority ≠ uint32Max
  · simp only [if_pos max, cfqPutItem, update_self]
  · simp only [if_neg max, cfqPutItem, update_eq_self]

theorem ordered_state {id : Nat} {item : CfqItem} (state : CfqState)
    (ordered : xs.Pairwise fun a b =>
      CfqOrdered (update items id item a) (update items id item b)) :
    xs.Pairwise fun a b =>
      CfqOrdered (update items id { item with state } a)
        (update items id { item with state } b) := by
  apply ordered.imp
  intro a b order
  simp only [CfqOrdered, update_apply] at order ⊢
  split at order <;> split at order <;> simp_all

theorem quicCfqMarkLost_holds {id : Nat} (holds : CfqHolds cfq news txs frees)
    (matches_ : CfqMatches cfq ledger) (live : (ledger.live id).isSome) (priority : Nat) :
    (∃ news' txs' frees', CfqHolds (quicCfqMarkLost id priority cfq) news' txs' frees') ∧
      CfqMatches (quicCfqMarkLost id priority cfq) (ledgerMarkLost id priority ledger) := by
  have nodup := holds_nodup holds
  have notFree : (cfq.items id).state ≠ .free := by
    intro free
    rw [matches_.live, if_pos free] at live
    exact nomatch live
  have known := live_eq matches_ _ notFree
  unfold quicCfqMarkLost ledgerMarkLost
  rw [known]
  dsimp only
  by_cases unreliable : cfqItemIsUnreliable (cfq.items id) = true
  · rw [if_pos unreliable, if_pos unreliable]
    exact quicCfqRelease_holds holds matches_ live
  · rw [if_neg unreliable, if_neg unreliable]
    have item' : { cfqWithPriority priority (cfq.items id) with state := .new } =
        ({ cfq.items id with
          state := .new
          priority := if priority = uint32Max then (cfq.items id).priority else priority } :
            CfqItem) := by
      unfold cfqWithPriority
      by_cases max : priority = uint32Max
      · rw [if_pos max, if_neg (not_not_intro max)]
      · rw [if_neg max, if_pos max]
    have isState : (cfq.items id).state = .new ∨ (cfq.items id).state = .tx := by
      cases is : (cfq.items id).state with
      | free => exact absurd is notFree
      | new => exact .inl rfl
      | tx => exact .inr rfl
    rw [← item']
    rcases isState with state | state <;> rw [state] <;> dsimp only
    · have same : (cfqWithPriority priority (cfq.items id)).state = .new := by
        unfold cfqWithPriority
        split
        · exact state
        · exact state
      have whole : { cfqWithPriority priority (cfq.items id) with state := .new } =
          cfqWithPriority priority (cfq.items id) := by
        rw [← same]
      rw [whole]
      by_cases other : priority ≠ uint32Max ∧ priority ≠ (cfq.items id).priority
      · rw [if_pos other, cfqMarkLostNew_eq other.1]
        generalize cfqWithPriority priority (cfq.items id) = item at same ⊢
        obtain ⟨us, vs, rfl⟩ := append_of_mem (mem_news holds state)
        obtain ⟨own, rest, apart⟩ := nodup_append.mp nodup
        have notTx : id ∉ txs := fun member =>
          apart id (by simp) id (mem_append_left frees member) rfl
        have absent := (nodup_cons.mp (perm_middle.nodup_iff.mp own)).1
        have ends := cfqReinsert (update cfq.items id item)
          holds.new holds.tx holds.free nodup (holds_length holds)
        have perm := cfqSortedInsert_perm (update cfq.items id item) id (us ++ vs)
        refine ⟨⟨_, txs, frees, cfqHolds_moved holds item rfl rfl ends.1 ends.2.1
          ends.2.2 ?_ ?_ (fun _ _ => Iff.rfl) ?_ ?_ ?_ ?_⟩, ?_⟩
        · exact List.Perm.append_right _ (perm.trans perm_middle.symm)
        · intro x there
          rw [perm.mem_iff, ← perm_middle.mem_iff]
        · exact fun _ => same
        · exact fun member => absurd member notTx
        · intro missing
          exact absurd (perm.mem_iff.mpr mem_cons_self) missing
        · exact cfqSortedInsert_ordered
            (ordered_update absent item (pairwise_without holds.ordered))
        · refine cfqMatches_put matches_ _ item rfl ?_ matches_.calls
          rw [same]
          rfl
      · have unchanged : cfqWithPriority priority (cfq.items id) = cfq.items id := by
          unfold cfqWithPriority
          split
          · rename_i max
            have equal : priority = (cfq.items id).priority := by
              by_contra differs
              exact other ⟨max, differs⟩
            rw [equal]
          · rfl
        rw [if_neg other, unchanged]
        refine ⟨⟨news, txs, frees, holds⟩, cfqMatches_put matches_ id (cfq.items id)
            (update_eq_self id cfq.items).symm ?_ matches_.calls⟩
        rw [if_neg notFree]
        rfl
    · rw [cfqMarkLostTx_eq]
      generalize cfqWithPriority priority (cfq.items id) = item
      obtain ⟨us, vs, rfl⟩ := append_of_mem (mem_txs holds state)
      have turned : ((us ++ id :: vs) ++ (news ++ frees)).Nodup := by
        rw [perm_iff_count.mpr _ |>.nodup_iff]
        · exact nodup
        · intro x
          simp only [count_append]
          omega
      obtain ⟨own, rest, apart⟩ := nodup_append.mp turned
      have notNew : id ∉ news := fun member =>
        apart id (by simp) id (mem_append_left frees member) rfl
      have absent := (nodup_cons.mp (perm_middle.nodup_iff.mp own)).1
      have ends := cfqMove _ holds.tx holds.new holds.free turned (fun lists =>
        cfqListInsertSorted_spec (update cfq.items id item)
          lists (nodup_cons.mpr ⟨notNew, (nodup_append.mp rest).1⟩) (holds_length holds))
      have perm := cfqSortedInsert_perm (update cfq.items id item) id news
      refine ⟨⟨_, us ++ vs, frees, cfqHolds_moved holds { item with state := .new }
        (update_idem ..) rfl ends.2.1 ends.1 ends.2.2 ?_ ?_ mem_without ?_ ?_ ?_ ?_⟩, ?_⟩
      · apply (List.Perm.append_right _ perm).trans
        rw [perm_iff_count]
        intro x
        simp only [count_append, count_cons]
        omega
      · intro x there
        rw [perm.mem_iff, mem_cons]
        exact or_iff_right there
      · exact fun _ => rfl
      · exact fun member => absurd member absent
      · intro missing
        exact absurd (perm.mem_iff.mpr mem_cons_self) missing
      · dsimp only
        rw [update_idem]
        exact ordered_state _ (cfqSortedInsert_ordered (ordered_update notNew item holds.ordered))
      · exact cfqMatches_put matches_ _ { item with state := .new }
          (update_idem ..) rfl matches_.calls

/-- The loop to the next item of a space ends at the first one there. -/
theorem cfqSpaceRounds_spec {pnSpace : Nat} (us : List Nat)
    (linked : Linked cfq.links none (us ++ vs) none) (enough : vs.length ≤ fuel) :
    cfqSpaceRounds cfq pnSpace fuel (firstOr none vs) =
      firstOr none (vs.dropWhile fun id => decide ((cfq.items id).pnSpace ≠ pnSpace)) := by
  induction vs generalizing us fuel with
  | nil => cases fuel <;> rfl
  | cons v vs ih =>
    cases fuel with
    | zero => simp at enough
    | succ fuel =>
      have node := linked_at linked
      rw [firstOr_cons, cfqSpaceRounds, dropWhile_cons]
      by_cases other : (cfq.items v).pnSpace ≠ pnSpace
      · rw [if_pos other, if_pos (decide_eq_true other), node]
        rw [show us ++ v :: vs = (us ++ [v]) ++ vs by simp] at linked
        exact ih _ linked (by simpa using enough)
      · rw [if_neg other, if_neg (by simpa using other)]
        rfl

/-- A loop over the items of a space visits those of them that are in the list. -/
theorem cfqVisits_spec (pnSpace : Nat) (us : List Nat)
    (linked : Linked cfq.links none (us ++ vs) none) (fits : vs.length ≤ cfq.allocated)
    (enough : vs.length ≤ fuel) : cfqVisits cfq pnSpace fuel
        (firstOr none (vs.dropWhile fun id => decide ((cfq.items id).pnSpace ≠ pnSpace))) =
      vs.filter fun id => decide ((cfq.items id).pnSpace = pnSpace) := by
  induction vs generalizing us fuel with
  | nil => cases fuel <;> rfl
  | cons v vs ih =>
    have node := linked_at linked
    have later := linked
    rw [show us ++ v :: vs = (us ++ [v]) ++ vs by simp] at later
    rw [length_cons] at fits enough
    by_cases here : (cfq.items v).pnSpace = pnSpace
    · rw [dropWhile_cons_of_neg (by simpa using here),
        filter_cons, if_pos (decide_eq_true here), firstOr_cons]
      cases fuel with
      | zero => omega
      | succ fuel =>
        rw [cfqVisits, quicCfqItemGetPriorityNext, node]
        rw [cfqSpaceRounds_spec _ later (by omega), ih _ later (by omega) (by omega)]
    · rw [dropWhile_cons_of_pos (by simpa using here),
        filter_cons, if_neg (by simpa using here), ih _ later (by omega) (by omega)]

def CfqInv (w : CfqWorld) : Prop :=
  (∃ news txs frees, CfqHolds w.cfq news txs frees) ∧ CfqMatches w.cfq w.ledger

theorem startCfq_inv : CfqInv startCfq :=
  ⟨⟨[], [], [], ⟨trivial, rfl, rfl⟩, ⟨trivial, rfl, rfl⟩, ⟨trivial, rfl, rfl⟩, List.Perm.refl _,
    by simp, by simp, fun _ _ _ => rfl, List.Pairwise.nil⟩, fun _ => rfl, rfl⟩

theorem applyCfq_inv (w : CfqWorld) (op : CfqOp) (inv : CfqInv w) (ok : CfqOpOk w op) :
    CfqInv (applyCfq w op) := by
  obtain ⟨⟨news, txs, frees, holds⟩, matches_⟩ := inv
  cases op with
  | addFrame mem frame =>
    rw [applyCfq]
    cases added : quicCfqAddFrame mem frame w.cfq with
    | none => exact ⟨⟨news, txs, frees, holds⟩, matches_⟩
    | some made =>
      obtain ⟨⟨news', frees', after⟩, same⟩ := quicCfqAddFrame_holds holds matches_ added
      exact ⟨⟨news', txs, frees', after⟩, same⟩
  | markTx id =>
    obtain ⟨⟨news', txs', after⟩, same⟩ := quicCfqMarkTx_holds holds matches_ ok
    exact ⟨⟨news', txs', frees, after⟩, same⟩
  | markLost id priority => exact quicCfqMarkLost_holds holds matches_ ok priority
  | release id => exact quicCfqRelease_holds holds matches_ ok

/- What the ledger says of an item is where the item is: the live items are in the list of their
   state, the other allocated ones in free_list, none twice; new_list is in order; a loop over a
   space visits its waiting items; the calls made are those due. -/
structure CfqFaithful (w : CfqWorld) (news txs frees : List Nat) : Prop where
  new : Represents w.cfq.links w.cfq.newList news
  tx : Represents w.cfq.links w.cfq.txList txs
  free : Represents w.cfq.links w.cfq.freeList frees
  once : (news ++ (txs ++ frees)).Nodup
  isNew : ∀ id, id ∈ news ↔ ∃ item, w.ledger.live id = some item ∧ item.state = .new
  isTx : ∀ id, id ∈ txs ↔ ∃ item, w.ledger.live id = some item ∧ item.state = .tx
  isFree : ∀ id, id ∈ frees ↔ id < w.cfq.allocated ∧ w.ledger.live id = none
  item : ∀ id item, w.ledger.live id = some item → w.cfq.items id = item
  sorted : news.Pairwise fun a b => cfqCompare (w.cfq.items a) (w.cfq.items b) ≤ 0
  visits : ∀ pnSpace fuel, w.cfq.allocated ≤ fuel →
    let visited := cfqVisits w.cfq pnSpace fuel (quicCfqGetPriorityHead w.cfq pnSpace)
    visited.Nodup ∧
      (∀ id, id ∈ visited ↔
        ∃ item, w.ledger.live id = some item ∧ item.state = .new ∧ item.pnSpace = pnSpace) ∧
      visited.Pairwise fun a b => (w.cfq.items b).priority ≤ (w.cfq.items a).priority
  calls : w.cfq.calls = w.ledger.due

theorem cfqInv_faithful {w : CfqWorld} (inv : CfqInv w) :
    ∃ news txs frees, CfqFaithful w news txs frees := by
  obtain ⟨⟨news, txs, frees, holds⟩, matches_⟩ := inv
  have nodup := holds_nodup holds
  have states : ∀ id, id ∈ news ↔ (w.cfq.items id).state = .new := fun id =>
    ⟨holds.isNew id, mem_news holds⟩
  have sent : ∀ id, id ∈ txs ↔ (w.cfq.items id).state = .tx := fun id =>
    ⟨holds.isTx id, mem_txs holds⟩
  have known : ∀ id item, w.ledger.live id = some item →
      w.cfq.items id = item ∧ item.state ≠ .free := by
    intro id item live
    rw [matches_.live] at live
    split at live
    · exact nomatch live
    · rename_i not
      rw [← some.inj live]
      exact ⟨rfl, not⟩
  have of_state : ∀ id state, state ≠ CfqState.free →
      ((w.cfq.items id).state = state ↔ ∃ item, w.ledger.live id = some item ∧
        item.state = state) := by
    intro id state not
    constructor
    · intro is
      exact ⟨_, live_eq matches_ _ (by rw [is]; exact not), is⟩
    · rintro ⟨item, live, is⟩
      rw [(known id item live).1]
      exact is
  have ordered : news.Pairwise fun a b => cfqCompare (w.cfq.items a) (w.cfq.items b) ≤ 0 :=
    holds.ordered.imp fun order => (cfqCompare_nonpos _ _).mpr order
  refine ⟨news, txs, frees, holds.new, holds.tx, holds.free, nodup, ?_, ?_, ?_, ?_, ordered, ?_,
    matches_.calls⟩
  · intro id
    rw [states, of_state id .new (fun is => nomatch is)]
  · intro id
    rw [sent, of_state id .tx (fun is => nomatch is)]
  · intro id
    rw [matches_.live]
    have all := holds.all.mem_iff (a := id)
    rw [mem_append, mem_append, mem_range] at all
    constructor
    · intro member
      obtain ⟨_, rest, apart⟩ := nodup_append.mp nodup
      have notNew : id ∉ news := fun new => apart id new id (mem_append_right txs member) rfl
      have notTx : id ∉ txs := fun tx => (nodup_append.mp rest).2.2 id tx id member rfl
      exact ⟨all.mp (.inr (.inr member)), if_pos (holds.isFree id notNew notTx)⟩
    · rintro ⟨below, none⟩
      have free : (w.cfq.items id).state = .free := by
        by_contra not
        rw [if_neg not] at none
        exact nomatch none
      rcases all.mpr below with member | member | member
      · rw [(states id).mp member] at free
        exact nomatch free
      · rw [(sent id).mp member] at free
        exact nomatch free
      · exact member
  · exact fun id item live => (known id item live).1
  · intro pnSpace fuel enough
    have linked := holds.new.linked
    have size := holds_length holds
    have head : quicCfqGetPriorityHead w.cfq pnSpace = firstOr none
        (news.dropWhile fun id => decide ((w.cfq.items id).pnSpace ≠ pnSpace)) := by
      rw [quicCfqGetPriorityHead, holds.new.head]
      exact cfqSpaceRounds_spec [] linked size
    have all := cfqVisits_spec pnSpace [] linked size (size.trans enough)
    rw [← head] at all
    rw [all]
    refine ⟨(nodup_append.mp nodup).1.filter _, ?_, ?_⟩
    · intro id
      rw [mem_filter, decide_eq_true_iff, states, of_state id .new (fun is => nomatch is)]
      constructor
      · rintro ⟨⟨item, live, new⟩, space⟩
        rw [(known id item live).1] at space
        exact ⟨item, live, new, space⟩
      · rintro ⟨item, live, new, space⟩
        rw [← (known id item live).1] at space
        exact ⟨⟨item, live, new⟩, space⟩
    · apply (holds.ordered.filter _).imp_of_mem
      intro a b left right order
      have first := of_decide_eq_true (mem_filter.mp left).2
      have second := of_decide_eq_true (mem_filter.mp right).2
      unfold CfqOrdered at order
      omega

/-- In every run the queue loses and duplicates nothing. -/
theorem cfq_run_faithful {ops : List CfqOp} (valid : Admissible applyCfq CfqOpOk startCfq ops) :
    ∀ w ∈ visited applyCfq startCfq ops, ∃ news txs frees, CfqFaithful w news txs frees := by
  intro w visits
  exact cfqInv_faithful (visited_invariant applyCfq_inv startCfq_inv valid w visits)

def sampleCfqOps : List CfqOp :=
  [.addFrame true ⟨1, 2, 6, 0, some 1, 4, some 7, 1⟩,
    .addFrame true ⟨5, 2, 7, cfqItemFlagUnreliable, some 2, 4, some 7, 2⟩,
    .addFrame true ⟨3, 0, 8, 0, some 3, 4, none, 3⟩,
    .markTx 1, .markTx 0, .markLost 0 9, .markLost 1 uint32Max, .release 2,
    .addFrame true ⟨4, 2, 6, 0, some 4, 4, some 7, 4⟩]

theorem sampleCfqOps_admissible : Admissible applyCfq CfqOpOk startCfq sampleCfqOps := by
  simp only [sampleCfqOps, Admissible, CfqOpOk, true_and, and_true]
  decide

theorem cfq_run_faithful_sample : ∃ news txs frees,
    CfqFaithful (run applyCfq startCfq sampleCfqOps) news txs frees :=
  cfq_run_faithful sampleCfqOps_admissible _ (run_mem_visited _ _ _)

end Ossl
