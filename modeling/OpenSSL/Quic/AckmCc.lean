import OpenSSL.Quic.AckmTx

/- The ACK manager bound to a NewReno controller: both count the bytes in flight, and the controller
   is told of what is sent, acknowledged, lost and invalidated, but of no pseudo-loss. -/
namespace Ossl
open List Ledger Runs

variable {δ : Type*} {entered owed : Multiset TxPkt} {a a' : Ackm NewReno} {p : TxPkt}

variable (cc : CcMethod δ) (now : OsslTime) (clock : AckmClock)

theorem ackmOnPktsLost_calls (a : Ackm δ) (lpkt : List TxPkt) (pseudo : Bool) :
    a.calls <+: (ackmOnPktsLost cc now a lpkt pseudo).calls := by
  have calls := congrArg Books.calls (ackmOnPktsLost_books cc now a lpkt pseudo)
  rw [departAll_calls] at calls
  exact ⟨_, calls.symm⟩

theorem ackmOnPktsAcked_calls (a : Ackm δ) (apkt : List TxPkt) :
    a.calls <+: (ackmOnPktsAcked cc a apkt).calls := by
  have calls := congrArg Books.calls (ackmOnPktsAcked_books cc a apkt)
  rw [departAll_calls] at calls
  exact ⟨_, calls.symm⟩

theorem unnoticed_calls {a a' : Ackm δ} (same : Unnoticed a a') : a'.calls = a.calls :=
  congrArg Books.calls same.books

theorem lostStage_calls (cc : CcMethod δ) (cong lost : OsslTime) (a : Ackm δ) (space : PnSpace) :
    let r := ackmDetectAndRemoveLostPkts lost a space
    a.calls <+: (if r.1 ≠ [] then ackmOnPktsLost cc cong r.2 r.1 false else r.2).calls := by
  intro r
  split
  · exact ackmOnPktsLost_calls cc cong r.2 r.1 false
  · exact prefix_refl _

theorem ackmOnRxAckFrame_calls (a : Ackm δ) (ack : FrameAck) (space : PnSpace) :
    a.calls <+: (ackmOnRxAckFrame cc clock a ack space).2.calls := by
  have noted := unnoticed_calls (ackmNoteAckFrame_unnoticed a ack space)
  have taken : (ackmDetectAndRemoveNewlyAckedPkts (ackmNoteAckFrame a ack space).2 ack
      space).2.calls = a.calls := noted
  rcases ackmOnRxAckFrame_stages cc clock a ack space with
    ⟨_, same, _⟩ | ⟨b, sampled, _, done, _⟩
  · rw [unnoticed_calls same, taken]
  · rw [unnoticed_calls done, ← taken, ← unnoticed_calls sampled]
    exact (lostStage_calls cc clock.cong clock.lost b space).trans (ackmOnPktsAcked_calls cc _ _)

theorem ackmOnTimeout_calls (a : Ackm δ) : a.calls <+: (ackmOnTimeout cc clock a).2.calls := by
  unfold ackmOnTimeout
  dsimp only
  split
  · exact lostStage_calls cc clock.cong clock.lost a _
  · split
    · exact ⟨[], (append_nil _).trans
        (unnoticed_calls (ackmQueueProbeAntiDeadlock_unnoticed a)).symm⟩
    · exact prefix_refl _

theorem ackmMarkPacketPseudoLost_calls (a : Ackm δ) (space : PnSpace) (pn : Nat) :
    a.calls <+: (ackmMarkPacketPseudoLost cc now a space pn).2.calls := by
  unfold ackmMarkPacketPseudoLost
  split
  · exact prefix_refl _
  · exact ackmOnPktsLost_calls cc now (a.modify space _) _ true

theorem ackmOnPktSpaceDiscarded_calls (a : Ackm δ) (space : PnSpace) :
    a.calls <+: (ackmOnPktSpaceDiscarded cc now a space).2.calls := by
  by_cases live : (a.spaces space).discarded = false
  · have calls := congrArg Books.calls (ackmOnPktSpaceDiscarded_books cc now live)
    exact ⟨_, calls.symm⟩
  · simp only [ackmOnPktSpaceDiscarded, Bool.not_eq_false _ ▸ live, if_true]
    exact prefix_refl _

variable {owed' : Multiset TxPkt} {pkt : TxPkt}

theorem weight_of_calls {b b' : Books} (ok : BooksOk b entered owed)
    (ok' : BooksOk b' entered owed') (calls : b.calls <+: b'.calls) :
    weigh inflightBytes (held b'.onRecord + owed') ≤ weigh inflightBytes (held b.onRecord + owed) := by
  obtain ⟨more, split⟩ := calls
  have ledger := ok'.ledger
  rw [← split] at ledger
  rw [balanced_stock ok.ledger ledger, weigh_add inflightBytes (more.map Prod.snd : List TxPkt)]
  exact Nat.le_add_left _ _

/-- The books are in order, the bytes in flight fit in the counter, and both
    components count the same. -/
structure FlightOk (a : Ackm NewReno) (entered owed : Multiset TxPkt) : Prop where
  books : BooksOk a.books entered owed
  fits : weigh inflightBytes (held a.books.onRecord + owed) < 2 ^ 64
  agrees : a.ccData.bytesInFlight = a.bytesInFlight

theorem flight_of_unnoticed (ok : FlightOk a entered owed) (same : Unnoticed a a')
    (told : a'.ccData.bytesInFlight = a.ccData.bytesInFlight) : FlightOk a' entered owed := by
  refine ⟨same.books.symm ▸ ok.books, same.books.symm ▸ ok.fits, ?_⟩
  have counted : a'.bytesInFlight = a.bytesInFlight := congrArg Books.inFlight same.books
  rw [told, counted, ok.agrees]

theorem flight_of_detection (ok : FlightOk a entered owed)
    (books : BooksOk a'.books entered owed') (calls : a'.calls = a.calls)
    (counted : a'.bytesInFlight = a.bytesInFlight) (told : a'.ccData = a.ccData) :
    FlightOk a' entered owed' := by
  have same : a.books.calls <+: a'.books.calls := ⟨[], (append_nil _).trans calls.symm⟩
  refine ⟨books, lt_of_le_of_lt (weight_of_calls ok.books books same) ok.fits, ?_⟩
  rw [told, counted, ok.agrees]

theorem ackmLeaveFlight_ccData (a : Ackm δ) (p : TxPkt) :
    (ackmLeaveFlight a p).ccData = a.ccData := by
  unfold ackmLeaveFlight
  split
  · split
    · rfl
    · rfl
  · rfl

theorem owed_le_counter (ok : FlightOk a entered ({p} + owed)) (flies : p.isInflight = true) :
    p.numBytes ≤ a.bytesInFlight ∧ a.bytesInFlight < 2 ^ 64 := by
  have counted : a.bytesInFlight = _ := ok.books.inFlight
  rw [Nat.mod_eq_of_lt ok.fits] at counted
  refine ⟨?_, counted ▸ ok.fits⟩
  have weight : weigh inflightBytes ({p} : Multiset TxPkt) = p.numBytes := by
    simp [weigh, inflightBytes, flies]
  have total : weigh inflightBytes (held a.books.onRecord + ({p} + owed)) =
      weigh inflightBytes (held a.books.onRecord) + (p.numBytes + weigh inflightBytes owed) := by
    rw [weigh_add, weigh_add, weight]
  omega

theorem flight_of_departure (callback : TxCallback) (ok : FlightOk a entered ({p} + owed))
    (books : a'.books = a.books.depart callback p)
    (told : p.isInflight = true → a'.ccData.bytesInFlight = a.ccData.bytesInFlight - p.numBytes)
    (untold : p.isInflight = false → a'.ccData = a.ccData) : FlightOk a' entered owed := by
  have departed : BooksOk a'.books entered owed := books ▸ depart_ok callback ok.books
  have grown : a.books.calls <+: a'.books.calls := by
    rw [books]
    exact prefix_append _ _
  refine ⟨departed, lt_of_le_of_lt (weight_of_calls ok.books departed grown) ok.fits, ?_⟩
  have counted : a'.bytesInFlight = (a.books.depart callback p).inFlight :=
    congrArg Books.inFlight books
  unfold Books.depart at counted
  cases flies : p.isInflight with
  | true =>
    obtain ⟨enough, bound⟩ := owed_le_counter ok flies
    rw [flies, if_pos rfl] at counted
    rw [told flies, counted, ok.agrees]
    exact (subU64_exact bound enough).symm
  | false =>
    rw [flies, if_neg Bool.false_ne_true] at counted
    rw [untold flies, counted]
    exact ok.agrees

/-- Of a packet that is lost, the controller's count falls with the ACK manager's. -/
theorem ackmOnPktLost_flight (ok : FlightOk a entered ({p} + owed)) :
    FlightOk (ackmOnPktLost newrenoMethod false a p) entered owed := by
  refine flight_of_departure .lost ok (ackmOnPktLost_books newrenoMethod false a p) ?_ ?_
  · intro flies
    obtain ⟨enough, _⟩ := owed_le_counter ok flies
    unfold ackmOnPktLost
    dsimp only
    rw [flies, Bool.not_false, Bool.and_true, if_pos rfl]
    change (newrenoOnDataLost (ackmLeaveFlight a p).ccData ⟨p.time, p.numBytes⟩).2.bytesInFlight = _
    rw [newrenoOnDataLost_bytesInFlight, ackmLeaveFlight_ccData, ok.agrees]
    exact if_neg (not_lt.mpr enough)
  · intro stays
    unfold ackmOnPktLost
    dsimp only
    rw [stays, Bool.false_and, if_neg Bool.false_ne_true]
    exact ackmLeaveFlight_ccData a p

theorem ackmBumped_ccData (a : Ackm δ) (p : TxPkt) : (ackmBumped a p).ccData = a.ccData := by
  unfold ackmBumped
  split
  · rfl
  · rfl

theorem ackmOnPktAcked_flight (ok : FlightOk a entered ({p} + owed)) :
    FlightOk (ackmOnPktAcked newrenoMethod a p) entered owed := by
  have books : (ackmOnPktAcked newrenoMethod a p).books = a.books.depart .acked p := by
    rw [(ackmOnPktAcked_views newrenoMethod a p).1, books_of_call (ackmBumped_books _ p),
      ackmLeaveFlight_books]
  have before : (ackmCall (ackmBumped (ackmLeaveFlight a p) p) .acked p).ccData = a.ccData :=
    (ackmBumped_ccData _ p).trans (ackmLeaveFlight_ccData a p)
  have run : ackmOnPktAcked newrenoMethod a p =
      let b := ackmCall (ackmBumped (ackmLeaveFlight a p) p) .acked p
      if p.isInflight then { b with ccData := (newrenoOnDataAcked b.ccData ⟨p.time, p.numBytes⟩).2 }
      else b := rfl
  refine flight_of_departure .acked ok books ?_ ?_
  · intro flies
    obtain ⟨enough, bound⟩ := owed_le_counter ok flies
    rw [run, flies, if_pos rfl]
    rw [newrenoOnDataAcked_bytesInFlight, before]
    rw [ok.agrees]
    exact subU64_exact bound enough
  · intro stays
    rw [run, stays, if_neg Bool.false_ne_true]
    exact before

theorem flight_of_fold {round : Ackm NewReno → TxPkt → Ackm NewReno}
    (leaves : ∀ {a p owed}, FlightOk a entered ({p} + owed) → FlightOk (round a p) entered owed)
    (gone : List TxPkt) (ok : FlightOk a entered (gone + owed)) :
    FlightOk (gone.foldl round a) entered owed := by
  induction gone generalizing a with
  | nil => exact (zero_add owed) ▸ ok
  | cons p rest ih =>
    have first : ((p :: rest : List TxPkt) : Multiset TxPkt) + owed =
        {p} + ((rest : Multiset TxPkt) + owed) := by
      rw [← Multiset.cons_coe, ← Multiset.singleton_add, add_assoc]
    exact ih (leaves (first ▸ ok))

theorem ackmOnPktsLost_flight (lpkt : List TxPkt) (ok : FlightOk a entered (lpkt + owed)) :
    FlightOk (ackmOnPktsLost newrenoMethod now a lpkt false) entered owed := by
  have left := flight_of_fold ackmOnPktLost_flight lpkt ok
  refine flight_of_unnoticed left ⟨rfl, rfl⟩ ?_
  exact newrenoOnDataLostFinished_bytesInFlight now _ _

theorem lostStage_flight (cong lost : OsslTime) (ok : FlightOk a entered owed) (space : PnSpace) :
    let r := ackmDetectAndRemoveLostPkts lost a space
    FlightOk (if r.1 ≠ [] then ackmOnPktsLost newrenoMethod cong r.2 r.1 false else r.2)
      entered owed := by
  intro r
  have taken : FlightOk r.2 entered (r.1 + owed) :=
    flight_of_detection ok (lost_books ok.books lost space) rfl rfl rfl
  split
  · exact ackmOnPktsLost_flight cong r.1 taken
  · rename_i nothing
    have empty : r.1 = [] := not_not.mp nothing
    rw [empty] at taken
    exact (zero_add owed) ▸ taken

theorem ackmOnRxAckFrame_flight (ok : FlightOk a entered 0) (ack : FrameAck) (space : PnSpace) :
    FlightOk (ackmOnRxAckFrame newrenoMethod clock a ack space).2 entered 0 := by
  have ccNoted : (ackmNoteAckFrame a ack space).2.ccData = a.ccData := by
    unfold ackmNoteAckFrame
    dsimp only
    split
    · rfl
    · rfl
  have noted : FlightOk (ackmNoteAckFrame a ack space).2 entered 0 :=
    flight_of_unnoticed ok (ackmNoteAckFrame_unnoticed a ack space) (by rw [ccNoted])
  have taken := flight_of_detection noted (newlyAcked_books noted.books ack space) rfl rfl rfl
  rcases ackmOnRxAckFrame_stages newrenoMethod clock a ack space with
    ⟨empty, same, told⟩ | ⟨b, sampled, ecn, done, told⟩
  · rw [empty] at taken
    exact flight_of_unnoticed taken same (congrArg NewReno.bytesInFlight told)
  · have counted : b.ccData.bytesInFlight =
        (ackmDetectAndRemoveNewlyAckedPkts (ackmNoteAckFrame a ack space).2 ack
          space).2.ccData.bytesInFlight := by
      rcases ecn with same | ⟨now, info, event⟩
      · rw [same]
      · rw [event]
        exact newrenoOnEcn_bytesInFlight now _ info
    have left := lostStage_flight clock.cong clock.lost
      (flight_of_unnoticed taken sampled counted) space
    refine flight_of_unnoticed ?_ done (congrArg NewReno.bytesInFlight told)
    exact flight_of_fold ackmOnPktAcked_flight _ left

theorem ackmOnTimeout_flight (ok : FlightOk a entered 0) :
    FlightOk (ackmOnTimeout newrenoMethod clock a).2 entered 0 := by
  unfold ackmOnTimeout
  dsimp only
  split
  · exact flight_of_unnoticed (lostStage_flight clock.cong clock.lost ok _)
      (ackmSetLossDetectionTimer_unnoticed clock.pto _) rfl
  · split
    · unfold ackmQueueProbeAntiDeadlock
      split
      · exact flight_of_unnoticed ok ⟨rfl, rfl⟩ rfl
      · exact flight_of_unnoticed ok ⟨rfl, rfl⟩ rfl
    · refine flight_of_unnoticed ok ?_ rfl
      exact unnoticed_trans (ackmQueueProbe_unnoticed a _) ⟨rfl, rfl⟩

/-- The controller is told of all bytes that a discarded space gives up. -/
theorem ackmOnPktSpaceDiscarded_flight (ok : FlightOk a entered 0) (space : PnSpace) :
    FlightOk (ackmOnPktSpaceDiscarded newrenoMethod now a space).2 entered 0 := by
  by_cases live : (a.spaces space).discarded = false
  · have closed := ackmOnPktSpaceDiscarded_books newrenoMethod now live
    have books := closed.symm ▸ close_ok ok.books space
    have fits := lt_of_le_of_lt
      (weight_of_calls ok.books books (ackmOnPktSpaceDiscarded_calls newrenoMethod now a space)) ok.fits
    refine ⟨books, fits, ?_⟩
    -- what was in flight is what was given up with what is left
    have stock := balanced_stock ok.books.ledger (close_ok ok.books space).ledger
    have total := congrArg (weigh inflightBytes) stock
    rw [weigh_add inflightBytes _ (held (a.books.close space).onRecord + 0), ← closed, map_map]
      at total
    have gone : (a.books.onRecord space).map (Prod.snd ∘ fun p => (TxCallback.discarded, p)) =
        a.books.onRecord space := map_id _
    rw [gone] at total
    have before : a.bytesInFlight = _ := ok.books.inFlight
    have after : (ackmOnPktSpaceDiscarded newrenoMethod now a space).2.bytesInFlight = _ :=
      books.inFlight
    rw [Nat.mod_eq_of_lt ok.fits] at before
    rw [Nat.mod_eq_of_lt fits] at after
    rw [after]
    have bound := ok.fits
    have agrees := ok.agrees
    generalize weigh inflightBytes (held
      (ackmOnPktSpaceDiscarded newrenoMethod now a space).2.books.onRecord + 0) = left at total
    generalize weigh inflightBytes (held a.books.onRecord + 0) = whole at total before bound
    unfold ackmOnPktSpaceDiscarded
    rw [if_neg (by simp [live])]
    dsimp only
    generalize start : (if space = .handshake then
      { a with peerCompletedAddrValidation := true } else a) = b
    have same : b.spaces = a.spaces ∧ b.ccData = a.ccData := by
      rw [← start]
      split
      · exact ⟨rfl, rfl⟩
      · exact ⟨rfl, rfl⟩
    obtain ⟨_, ccData, _, _, sum⟩ :=
      ackmOnPktsDiscarded_counts (b.spaces space).txHistory.packets b 0
    rw [same.1] at ccData sum ⊢
    change _ = (0 + weigh inflightBytes (a.books.onRecord space : List TxPkt)) % 2 ^ 64 at sum
    generalize weigh inflightBytes (a.books.onRecord space : List TxPkt) = given at total sum
    generalize (a.spaces space).txHistory.packets.foldl ackmOnPktDiscarded (b, 0) = r at ccData sum ⊢
    change (if 0 < r.2 then (newrenoOnDataInvalidated r.1.ccData r.2).2
      else r.1.ccData).bytesInFlight = left
    rw [ccData, same.2]
    split
    · change subU64 a.ccData.bytesInFlight r.2 = left
      rw [agrees, before, subU64]
      omega
    · rw [agrees, before]
      omega
  · simp only [ackmOnPktSpaceDiscarded, Bool.not_eq_false _ ▸ live, if_true]
    exact ok

theorem ackmOnTxPacket_agrees (agrees : a.ccData.bytesInFlight = a.bytesInFlight) (pkt : TxPkt) :
    (ackmOnTxPacket newrenoMethod now a pkt).2.ccData.bytesInFlight =
      (ackmOnTxPacket newrenoMethod now a pkt).2.bytesInFlight := by
  have counted : ∀ b : Ackm NewReno, (ackmCountSent b pkt).ccData = b.ccData ∧
      (ackmCountSent b pkt).bytesInFlight = addU64 b.bytesInFlight pkt.numBytes := by
    intro b
    unfold ackmCountSent
    split
    · exact ⟨rfl, rfl⟩
    · exact ⟨rfl, rfl⟩
  unfold ackmOnTxPacket
  split
  · exact agrees
  · dsimp only
    generalize recorded : a.modify pkt.pktSpace (fun s => { s with
      txHistory := (txPktHistoryAdd (a.spaces pkt.pktSpace).txHistory pkt).2 }) = b
    have same : b.ccData = a.ccData ∧ b.bytesInFlight = a.bytesInFlight := by
      rw [← recorded]
      exact ⟨rfl, rfl⟩
    split
    · rw [same.1, same.2]
      exact agrees
    · split
      · obtain ⟨told, bytes⟩ := counted b
        change addU64 (ackmCountSent b pkt).ccData.bytesInFlight pkt.numBytes =
          (ackmCountSent b pkt).bytesInFlight
        rw [told, bytes, same.1, same.2, agrees]
      · rw [same.1, same.2]
        exact agrees

/-- A pseudo-loss lowers the ACK manager's count only. -/
theorem ackmMarkPacketPseudoLost_counts {space : PnSpace} {pn : Nat}
    (found : txPktHistoryByPktNum (a.spaces space).txHistory pn = some pkt) :
    (ackmMarkPacketPseudoLost newrenoMethod now a space pn).2.ccData.bytesInFlight =
        a.ccData.bytesInFlight ∧
      (ackmMarkPacketPseudoLost newrenoMethod now a space pn).2.bytesInFlight =
        lessInFlight a.bytesInFlight pkt := by
  unfold ackmMarkPacketPseudoLost
  rw [found]
  dsimp only
  generalize taken : a.modify space (fun s =>
    { s with txHistory := (txPktHistoryRemove s.txHistory pkt.pktNum).2 }) = b
  have same : b.ccData = a.ccData ∧ b.bytesInFlight = a.bytesInFlight := by
    rw [← taken]
    exact ⟨rfl, rfl⟩
  have untold : (ackmOnPktLost newrenoMethod true b pkt).ccData = b.ccData := by
    unfold ackmOnPktLost
    dsimp only
    rw [Bool.not_true, Bool.and_false, if_neg Bool.false_ne_true]
    exact ackmLeaveFlight_ccData b pkt
  constructor
  · refine (newrenoOnDataLostFinished_bytesInFlight now _ _).trans ?_
    change (ackmOnPktLost newrenoMethod true b pkt).ccData.bytesInFlight = _
    rw [untold, same.1]
  · have books := congrArg Books.inFlight (ackmOnPktsLost_books newrenoMethod now b [pkt] true)
    rw [departAll_inFlight] at books
    refine books.trans ?_
    exact congrArg (fun n => lessInFlight n pkt) same.2

def TracedAckm.flight {δ : Type*} (s : TracedAckm δ) : Nat :=
  weigh inflightBytes (held s.ackm.books.onRecord)

def SendFits {δ : Type*} (s : TracedAckm δ) : AckmCall → Prop
  | .txPacket _ pkt => pkt.isInflight = true → s.flight + pkt.numBytes < 2 ^ 64
  | _ => True

def NoPseudoLoss {δ : Type*} (s : TracedAckm δ) : AckmCall → Prop
  | .pseudoLost _ space pn =>
    ∀ pkt, txPktHistoryByPktNum (s.ackm.spaces space).txHistory pn = some pkt → pkt.isInflight = false
  | _ => True

def CountsAgree (s : TracedAckm NewReno) : Prop :=
  s.ackm.ccData.bytesInFlight = s.ackm.bytesInFlight

/-- Holds whether or not the counts agree. -/
structure FlightInv {δ : Type*} (s : TracedAckm δ) : Prop where
  sent : SentOk s
  fits : s.flight < 2 ^ 64
  sized : ∀ p ∈ s.accepted, 0 < p.numBytes ∧ p.numBytes < 2 ^ 64

variable {s : TracedAckm δ}

theorem flight_fits_of_calls {t : TracedAckm δ} (inv : FlightInv s) (sent : SentOk t)
    (accepted : t.accepted = s.accepted) (calls : s.ackm.calls <+: t.ackm.calls) : FlightInv t := by
  have books : BooksOk t.ackm.books s.accepted 0 := accepted ▸ sent.books
  have lighter := weight_of_calls inv.sent.books books calls
  rw [add_zero, add_zero] at lighter
  exact ⟨sent, lt_of_le_of_lt lighter inv.fits, accepted.symm ▸ inv.sized⟩

theorem txPacket_flight (inv : FlightInv s) (now : OsslTime) (bound : pkt.numBytes < 2 ^ 64)
    (fits : SendFits s (.txPacket now pkt)) :
    FlightInv (applyAckmCall cc s (.txPacket now pkt)) := by
  have sent := txPacket_sent cc inv.sent now pkt
  rcases ackmOnTxPacket_books cc now inv.sent.books (s.number pkt) with
    ⟨refused, same⟩ | ⟨accepted, h, books, longer, here⟩
  · refine flight_fits_of_calls inv sent ?_ ⟨[], ?_⟩
    · simp only [applyAckmCall, refused, Bool.false_eq_true, if_false]
    · exact (append_nil _).trans (congrArg Books.calls same).symm
  · have list : (applyAckmCall cc s (.txPacket now pkt)).accepted = s.accepted ++ [s.number pkt] := by
      simp only [applyAckmCall, accepted, if_true]
    have grown : held (s.ackm.books.enter (s.number pkt) h).onRecord =
        held s.ackm.books.onRecord + {s.number pkt} :=
      held_of_enter ((onRecord_setHistory s.ackm.books (s.number pkt).pktSpace h).trans longer)
        (fun q other => onRecord_setHistory_other s.ackm.books h other)
    have heavier : (applyAckmCall cc s (.txPacket now pkt)).flight =
        s.flight + inflightBytes (s.number pkt) := by
      have after : (applyAckmCall cc s (.txPacket now pkt)).ackm.books = _ := books
      unfold TracedAckm.flight
      rw [after, grown, weigh_add]
      simp [weigh]
    refine ⟨sent, ?_, ?_⟩
    · rw [heavier]
      unfold inflightBytes
      split
      · rename_i flies
        exact fits flies
      · exact inv.fits
    · intro p member
      rw [list, mem_append, mem_singleton] at member
      rcases member with old | rfl
      · exact inv.sized p old
      · refine ⟨pos_of_ne_zero (fun empty => ?_), bound⟩
        -- a packet of no bytes is refused
        have disallowed : txPktAllowed s.ackm (s.number pkt) = false := by
          unfold txPktAllowed
          simp [empty]
        have refused : (ackmOnTxPacket cc now s.ackm (s.number pkt)).1 = false := by
          unfold ackmOnTxPacket
          rw [if_pos disallowed]
        exact absurd (refused.symm.trans accepted) Bool.false_ne_true

theorem applyAckmCall_flight (s : TracedAckm δ) (call : AckmCall) (inv : FlightInv s)
    (valid : AckmCallOk s call ∧ SendFits s call) : FlightInv (applyAckmCall cc s call) := by
  have sent := applyAckmCall_sent cc s call inv.sent valid.1
  cases call with
  | txPacket now pkt => exact txPacket_flight cc inv now valid.1.2.2 valid.2
  | rxAckFrame clock ack space =>
    exact flight_fits_of_calls inv sent rfl (ackmOnRxAckFrame_calls cc clock s.ackm ack space)
  | timeout clock => exact flight_fits_of_calls inv sent rfl (ackmOnTimeout_calls cc clock s.ackm)
  | pseudoLost now space pn =>
    exact flight_fits_of_calls inv sent rfl (ackmMarkPacketPseudoLost_calls cc now s.ackm space pn)
  | spaceDiscarded now space =>
    exact flight_fits_of_calls inv sent rfl (ackmOnPktSpaceDiscarded_calls cc now s.ackm space)
  | handshakeConfirmed now => exact flight_fits_of_calls inv sent rfl (prefix_refl _)
  | rxPacket mem pkt =>
    have same := congrArg Books.calls (ackmOnRxPacket_books mem s.ackm pkt)
    exact flight_fits_of_calls inv sent rfl ⟨[], (append_nil _).trans same.symm⟩
  | getAckFrame now space =>
    have same := unnoticed_calls (ackmGetAckFrame_unnoticed now s.ackm space)
    exact flight_fits_of_calls inv sent rfl ⟨[], (append_nil _).trans same.symm⟩
  | setRxMaxAckDelay delay => exact flight_fits_of_calls inv sent rfl (prefix_refl _)
  | setTxMaxAckDelay delay => exact flight_fits_of_calls inv sent rfl (prefix_refl _)

theorem flightOk_of_inv {s : TracedAckm NewReno} (inv : FlightInv s) (agree : CountsAgree s) :
    FlightOk s.ackm s.accepted 0 :=
  ⟨inv.sent.books, by rw [add_zero]; exact inv.fits, agree⟩

/-- A pseudo-loss keeps the counts equal only if it takes nothing from flight. -/
theorem pseudoLost_agree_iff {s : TracedAckm NewReno} (inv : FlightInv s) (agree : CountsAgree s)
    (now : OsslTime) (space : PnSpace) (pn : Nat) :
    CountsAgree (applyAckmCall newrenoMethod s (.pseudoLost now space pn)) ↔
      NoPseudoLoss s (.pseudoLost now space pn) := by
  cases found : txPktHistoryByPktNum (s.ackm.spaces space).txHistory pn with
  | none =>
    have same : applyAckmCall newrenoMethod s (.pseudoLost now space pn) = s := by
      simp only [applyAckmCall, ackmMarkPacketPseudoLost, found]
    rw [same]
    refine ⟨fun _ pkt other => ?_, fun _ => agree⟩
    rw [found] at other
    cases other
  | some pkt =>
    obtain ⟨told, counted⟩ := ackmMarkPacketPseudoLost_counts now (a := s.ackm) found
    have member := ((inv.sent.books.history space).mapped pn pkt).mp found
    have accepted : pkt ∈ s.accepted := by
      have ledger := inv.sent.books.ledger
      have kept : pkt ∈ held s.ackm.books.onRecord := mem_held.mpr ⟨space, member.1⟩
      rw [add_zero] at ledger
      exact Multiset.mem_coe.mp (ledger ▸ Multiset.mem_add.mpr (.inl kept))
    obtain ⟨pos, bound⟩ := inv.sized pkt accepted
    have split : CountsAgree (applyAckmCall newrenoMethod s (.pseudoLost now space pn)) ↔
        s.ackm.bytesInFlight = lessInFlight s.ackm.bytesInFlight pkt := by
      unfold CountsAgree
      simp only [applyAckmCall]
      rw [told, counted, agree]
    rw [split]
    constructor
    · intro same other here
      obtain rfl := Option.some.inj (found.symm.trans here)
      cases flies : pkt.isInflight with
      | false => rfl
      | true =>
        rw [lessInFlight, flies, if_pos rfl, subU64] at same
        omega
    · intro harmless
      rw [lessInFlight, harmless pkt found, if_neg Bool.false_ne_true]

theorem applyAckmCall_agree_iff (s : TracedAckm NewReno) (call : AckmCall) (inv : FlightInv s)
    (agree : CountsAgree s) (_valid : AckmCallOk s call ∧ SendFits s call) :
    CountsAgree (applyAckmCall newrenoMethod s call) ↔ NoPseudoLoss s call := by
  have ok := flightOk_of_inv inv agree
  cases call with
  | txPacket now pkt =>
    exact iff_of_true (ackmOnTxPacket_agrees now agree (s.number pkt)) trivial
  | rxAckFrame clock ack space =>
    exact iff_of_true (ackmOnRxAckFrame_flight clock ok ack space).agrees trivial
  | timeout clock => exact iff_of_true (ackmOnTimeout_flight clock ok).agrees trivial
  | pseudoLost now space pn => exact pseudoLost_agree_iff inv agree now space pn
  | spaceDiscarded now space =>
    exact iff_of_true (ackmOnPktSpaceDiscarded_flight now ok space).agrees trivial
  | handshakeConfirmed now => exact iff_of_true agree trivial
  | rxPacket mem pkt =>
    refine iff_of_true (?_ : CountsAgree _) trivial
    simp only [applyAckmCall, ackmOnRxPacket]
    split
    · exact agree
    · exact agree
  | getAckFrame now space => exact iff_of_true agree trivial
  | setRxMaxAckDelay delay => exact iff_of_true agree trivial
  | setTxMaxAckDelay delay => exact iff_of_true agree trivial

/-- In a run whose bytes in flight stay below 2^64, the two counts agree in every
    state exactly when no packet in flight is ever marked as pseudo-lost. -/
theorem controller_agrees_iff (statm : Statm) (isServer : Bool) (calls : List AckmCall)
    (valid : Admissible (applyAckmCall newrenoMethod)
      (fun s call => AckmCallOk s call ∧ SendFits s call) (freshAckm statm newrenoNew isServer)
      calls) :
    (∀ s ∈ visited (applyAckmCall newrenoMethod) (freshAckm statm newrenoNew isServer) calls,
        s.ackm.ccData.bytesInFlight = s.ackm.bytesInFlight) ↔
      Admissible (applyAckmCall newrenoMethod) NoPseudoLoss (freshAckm statm newrenoNew isServer)
        calls := by
  have empty : held (freshAckm statm newrenoNew isServer).ackm.books.onRecord = 0 :=
    Finset.sum_eq_zero (fun _ _ => rfl)
  have inv : FlightInv (freshAckm statm newrenoNew isServer) := by
    refine ⟨freshAckm_sent statm newrenoNew isServer, ?_, nofun⟩
    unfold TracedAckm.flight
    rw [empty]
    decide
  change (∀ s ∈ visited (applyAckmCall newrenoMethod) (freshAckm statm newrenoNew isServer) calls,
    CountsAgree s) ↔ _
  exact visited_good_iff (applyAckmCall_flight newrenoMethod) applyAckmCall_agree_iff inv rfl valid

def pseudoLostCalls : List AckmCall := [sentCall 0 50, .pseudoLost 3000 .initial 0]

theorem pseudoLostCalls_valid :
    Admissible (applyAckmCall newrenoMethod) (fun s call => AckmCallOk s call ∧ SendFits s call)
      sampleAckm pseudoLostCalls := by
  refine ⟨⟨⟨rfl, by decide, by decide⟩, fun _ => ?_⟩, ⟨rfl, trivial⟩, trivial⟩
  decide

/-- After the pseudo-loss of a packet of 50 bytes the controller still counts them. -/
theorem controller_disagrees :
    ¬ ∀ calls : List AckmCall,
      Admissible (applyAckmCall newrenoMethod) (fun s call => AckmCallOk s call ∧ SendFits s call)
        sampleAckm calls →
      (run (applyAckmCall newrenoMethod) sampleAckm calls).ackm.ccData.bytesInFlight =
        (run (applyAckmCall newrenoMethod) sampleAckm calls).ackm.bytesInFlight := by
  intro always
  exact absurd (always pseudoLostCalls pseudoLostCalls_valid) (by decide)

theorem controller_agrees_iff_pseudoLost :
    ¬ ∀ s ∈ visited (applyAckmCall newrenoMethod) sampleAckm pseudoLostCalls,
      s.ackm.ccData.bytesInFlight = s.ackm.bytesInFlight := by
  intro agree
  have harmless := (controller_agrees_iff statmInit false pseudoLostCalls
    pseudoLostCalls_valid).mp agree
  exact absurd (harmless.2.1 _ rfl) (by decide)

end Ossl
