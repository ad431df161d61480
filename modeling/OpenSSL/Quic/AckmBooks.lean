import OpenSSL.Lib.Ledger
import OpenSSL.Quic.Ackm

/- The books of the ACK manager: the packets on record in each space, the counters of bytes in
   flight and the callbacks called. A packet enters the books when sent and departs under one
   callback; every call moves the books by these two events. -/
namespace Ossl
open Function Ledger

structure Books where
  history : PnSpace → TxHistory
  eliciting : PnSpace → Nat
  inFlight : Nat
  calls : List (TxCallback × TxPkt)

def Books.onRecord (b : Books) (space : PnSpace) : List TxPkt := (b.history space).packets

def inflightBytes (p : TxPkt) : Nat := if p.isInflight then p.numBytes else 0

def elicitingBytes (space : PnSpace) (p : TxPkt) : Nat :=
  if p.pktSpace = space ∧ p.isInflight = true ∧ p.isAckEliciting = true then p.numBytes else 0

/-- The books are in order, with some packets owed: they are off the record, and
    neither counted out nor called back yet. -/
structure BooksOk (b : Books) (entered owed : Multiset TxPkt) : Prop where
  history : ∀ space, TxHistoryOk space (b.history space)
  ledger : Balanced entered (held b.onRecord + owed) b.calls
  inFlight : b.inFlight = weigh inflightBytes (held b.onRecord + owed) % 2 ^ 64
  eliciting : ∀ space,
    b.eliciting space = weigh (elicitingBytes space) (held b.onRecord + owed) % 2 ^ 64

def Books.setHistory (b : Books) (space : PnSpace) (h : TxHistory) : Books :=
  { b with history := update b.history space h }

def Books.enter (b : Books) (p : TxPkt) (h : TxHistory) : Books where
  history := update b.history p.pktSpace h
  eliciting := fun space =>
    if p.pktSpace = space ∧ p.isInflight = true ∧ p.isAckEliciting = true then
      addU64 (b.eliciting space) p.numBytes
    else b.eliciting space
  inFlight := if p.isInflight then addU64 b.inFlight p.numBytes else b.inFlight
  calls := b.calls

def Books.depart (b : Books) (callback : TxCallback) (p : TxPkt) : Books where
  history := b.history
  eliciting := fun space =>
    if p.pktSpace = space ∧ p.isInflight = true ∧ p.isAckEliciting = true then
      subU64 (b.eliciting space) p.numBytes
    else b.eliciting space
  inFlight := if p.isInflight then subU64 b.inFlight p.numBytes else b.inFlight
  calls := b.calls ++ [(callback, p)]

variable {other : PnSpace} {counter sum : Nat} {p : TxPkt} {space : PnSpace}

theorem onRecord_setHistory_other (b : Books) (h : TxHistory)
    (differs : other ≠ space) : (b.setHistory space h).onRecord other = b.onRecord other := by
  simp only [Books.onRecord, Books.setHistory, update_of_ne differs]

theorem onRecord_setHistory (b : Books) (space : PnSpace) (h : TxHistory) :
    (b.setHistory space h).onRecord space = h.packets := by
  simp only [Books.onRecord, Books.setHistory, update_self]

variable {b : Books} {h : TxHistory} {entered owed : Multiset TxPkt}

theorem update_history_ok (ok : ∀ space, TxHistoryOk space (b.history space))
    (here : TxHistoryOk space h) (s : PnSpace) :
    TxHistoryOk s (update b.history space h s) := by
  by_cases same : s = space
  · subst same
    rw [update_self]
    exact here
  · rw [update_of_ne same]
    exact ok s

theorem setHistory_ok (ok : BooksOk b entered owed) {gone : List TxPkt}
    (leaves : (b.onRecord space).Perm (gone ++ h.packets)) (here : TxHistoryOk space h) :
    BooksOk (b.setHistory space h) entered (gone + owed) := by
  have moved : held b.onRecord + owed =
      held (b.setHistory space h).onRecord + ((gone : Multiset TxPkt) + owed) := by
    rw [← onRecord_setHistory b space h] at leaves
    rw [held_of_leave leaves (fun q other => onRecord_setHistory_other b h other),
      add_comm (gone : Multiset TxPkt), add_assoc]
  refine ⟨update_history_ok ok.history here, ?_, ?_, ?_⟩
  · exact moved ▸ ok.ledger
  · exact moved ▸ ok.inFlight
  · intro s
    exact moved ▸ ok.eliciting s

theorem counter_departs {bytes : Nat} (counted : counter = (sum + bytes) % 2 ^ 64) :
    subU64 counter bytes = sum % 2 ^ 64 := by
  rw [counted, subU64_mod]

variable (callback : TxCallback) (gone : List TxPkt)

theorem depart_ok (ok : BooksOk b entered ({p} + owed)) :
    BooksOk (b.depart callback p) entered owed := by
  have apart : held b.onRecord + ({p} + owed) = ({p} : Multiset TxPkt) + (held b.onRecord + owed) :=
    add_left_comm _ _ _
  have weight : ∀ w : TxPkt → Nat,
      weigh w (held b.onRecord + ({p} + owed)) = weigh w (held b.onRecord + owed) + w p := by
    intro w
    rw [apart, weigh_add, add_comm]
    simp [weigh]
  refine ⟨ok.history, ?_, ?_, ?_⟩
  · exact balanced_leave ok.ledger apart
  · have counted := ok.inFlight
    rw [weight, inflightBytes] at counted
    change (if p.isInflight then subU64 b.inFlight p.numBytes else b.inFlight) = _
    split at counted
    · rename_i flies
      rw [if_pos flies]
      exact counter_departs counted
    · rename_i stays
      rw [if_neg stays]
      exact counted
  · intro space
    have counted := ok.eliciting space
    rw [weight, elicitingBytes] at counted
    change (if p.pktSpace = space ∧ p.isInflight = true ∧ p.isAckEliciting = true then
      subU64 (b.eliciting space) p.numBytes else b.eliciting space) = _
    split at counted
    · rename_i flies
      rw [if_pos flies]
      exact counter_departs counted
    · rename_i stays
      rw [if_neg stays]
      exact counted

theorem departAll_ok (ok : BooksOk b entered (gone + owed)) :
    BooksOk (gone.foldl (fun b p => b.depart callback p) b) entered owed := by
  induction gone generalizing b with
  | nil => exact (zero_add owed) ▸ ok
  | cons p rest ih =>
    have first : ((p :: rest : List TxPkt) : Multiset TxPkt) + owed =
        {p} + ((rest : Multiset TxPkt) + owed) := by
      rw [← Multiset.cons_coe, ← Multiset.singleton_add, add_assoc]
    exact ih (depart_ok callback (first ▸ ok))

theorem counter_enters {bytes : Nat} (counted : counter = sum % 2 ^ 64) :
    addU64 counter bytes = (sum + bytes) % 2 ^ 64 := by
  rw [counted, addU64_mod]

/-- A packet that its space's history takes enters the books. -/
theorem enter_ok (ok : BooksOk b entered 0) (longer : h.packets = b.onRecord p.pktSpace ++ [p])
    (here : TxHistoryOk p.pktSpace h) : BooksOk (b.enter p h) (entered + {p}) 0 := by
  have grown : held (b.enter p h).onRecord = held b.onRecord + {p} :=
    held_of_enter ((onRecord_setHistory b p.pktSpace h).trans longer)
      (fun q other => onRecord_setHistory_other b h other)
  have weight : ∀ w : TxPkt → Nat,
      weigh w (held (b.enter p h).onRecord + 0) = weigh w (held b.onRecord + 0) + w p := by
    intro w
    rw [grown, add_zero, add_zero, weigh_add]
    simp [weigh]
  refine ⟨update_history_ok ok.history here, ?_, ?_, ?_⟩
  · rw [grown, add_right_comm]
    exact balanced_enter ok.ledger p
  · rw [weight, inflightBytes]
    change (if p.isInflight then addU64 b.inFlight p.numBytes else b.inFlight) = _
    split
    · exact counter_enters ok.inFlight
    · exact ok.inFlight
  · intro space
    rw [weight, elicitingBytes]
    change (if p.pktSpace = space ∧ p.isInflight = true ∧ p.isAckEliciting = true then
      addU64 (b.eliciting space) p.numBytes else b.eliciting space) = _
    split
    · exact counter_enters (ok.eliciting space)
    · exact ok.eliciting space

theorem departAll_history (b : Books) :
    (gone.foldl (fun b p => b.depart callback p) b).history = b.history := by
  induction gone generalizing b with
  | nil => rfl
  | cons p rest ih => exact ih (b.depart callback p)

theorem departAll_calls (b : Books) : (gone.foldl (fun b p => b.depart callback p) b).calls =
      b.calls ++ gone.map (fun p => (callback, p)) := by
  induction gone generalizing b with
  | nil => exact (List.append_nil _).symm
  | cons p rest ih =>
    rw [List.foldl_cons, ih, List.map_cons]
    exact List.append_assoc _ _ _

def lessInFlight (n : Nat) (p : TxPkt) : Nat := if p.isInflight then subU64 n p.numBytes else n

theorem departAll_inFlight (b : Books) :
    (gone.foldl (fun b p => b.depart callback p) b).inFlight = gone.foldl lessInFlight b.inFlight := by
  induction gone generalizing b with
  | nil => rfl
  | cons p rest ih => exact ih (b.depart callback p)

theorem departAll_eliciting_other {gone : List TxPkt}
    (inSpace : ∀ p ∈ gone, p.pktSpace = space) (differs : other ≠ space) (b : Books) :
    (gone.foldl (fun b p => b.depart callback p) b).eliciting other = b.eliciting other := by
  induction gone generalizing b with
  | nil => rfl
  | cons p rest ih =>
    rw [List.foldl_cons, ih (fun q hq => inSpace q (by simp [hq]))]
    have away : p.pktSpace ≠ other := fun same => differs (same.symm.trans (inSpace p (by simp)))
    exact if_neg (fun counted => away counted.1)

/-- A space that is closed gives up all its packets under one callback, and its
    own counter is reset. -/
def Books.close (b : Books) (space : PnSpace) : Books where
  history := update b.history space (txPktHistoryDestroy (b.history space))
  eliciting := update b.eliciting space 0
  inFlight := (b.onRecord space).foldl lessInFlight b.inFlight
  calls := b.calls ++ (b.onRecord space).map (fun p => (TxCallback.discarded, p))

theorem weigh_eliciting_elsewhere (ok : ∀ space, TxHistoryOk space (b.history space))
    (empty : b.onRecord space = []) :
    weigh (elicitingBytes space) (held b.onRecord) = 0 := by
  refine Multiset.sum_eq_zero (fun n member => ?_)
  obtain ⟨p, inside, rfl⟩ := Multiset.mem_map.mp member
  obtain ⟨other, here⟩ := mem_held.mp inside
  refine if_neg (fun counted => ?_)
  have same : other = space := ((ok other).inSpace p here).symm.trans counted.1
  rw [same, empty] at here
  cases here

theorem close_ok (ok : BooksOk b entered 0) (space : PnSpace) :
    BooksOk (b.close space) entered 0 := by
  have leaves : (b.onRecord space).Perm
      (b.onRecord space ++ (txPktHistoryDestroy (b.history space)).packets) := by
    simp [txPktHistoryDestroy]
  have cleared := setHistory_ok ok leaves (txPktHistoryDestroy_ok space _)
  have departed := departAll_ok TxCallback.discarded (b.onRecord space) cleared
  have inSpace : ∀ p ∈ b.onRecord space, p.pktSpace = space := (ok.history space).inSpace
  -- closing is a departure of all packets, but for how the space's counter is reset
  have same : b.close space = (b.onRecord space).foldl (fun b p => b.depart .discarded p)
      (b.setHistory space (txPktHistoryDestroy (b.history space))) := by
    generalize result : (b.onRecord space).foldl (fun b p => b.depart .discarded p)
      (b.setHistory space (txPktHistoryDestroy (b.history space))) = after at departed
    have history : after.history =
        update b.history space (txPktHistoryDestroy (b.history space)) := by
      rw [← result, departAll_history]
      rfl
    have calls := departAll_calls .discarded (b.onRecord space)
      (b.setHistory space (txPktHistoryDestroy (b.history space)))
    have inFlight := departAll_inFlight .discarded (b.onRecord space)
      (b.setHistory space (txPktHistoryDestroy (b.history space)))
    rw [result] at calls inFlight
    have eliciting : after.eliciting = update b.eliciting space 0 := by
      funext s
      by_cases here : s = space
      · subst here
        have empty : after.onRecord s = [] := by
          simp only [Books.onRecord, history, update_self]
          rfl
        rw [departed.eliciting, add_zero, weigh_eliciting_elsewhere departed.history empty,
          update_self, Nat.zero_mod]
      · rw [update_of_ne here, ← result, departAll_eliciting_other _ inSpace here]
        rfl
    cases after
    subst history; subst calls; subst inFlight; subst eliciting
    rfl
  rw [same]
  exact departed

end Ossl
