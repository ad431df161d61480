import OpenSSL.Quic.AckmBooks

/- What each function of the ACK manager does to the books and to the receive
   histories. Whatever else it changes stays out of sight. -/
namespace Ossl
open List Function Spans Ledger

section
variable {δ : Type*}

def Ackm.books (a : Ackm δ) : Books where
  history := fun space => (a.spaces space).txHistory
  eliciting := fun space => (a.spaces space).ackElicitingBytesInFlight
  inFlight := a.bytesInFlight
  calls := a.calls

def AckmSpace.receive (s : AckmSpace) : RxHistory × Bool := (s.rxHistory, s.discarded)

def Ackm.receive (a : Ackm δ) (space : PnSpace) : RxHistory × Bool := (a.spaces space).receive

variable {β : Type*} {r' : PnSpace → RxHistory × Bool}

theorem update_proj (proj : AckmSpace → β) (spaces : PnSpace → AckmSpace) (space : PnSpace)
    (s : AckmSpace) : (fun q => proj (update spaces space s q)) =
      update (fun q => proj (spaces q)) space (proj s) :=
  comp_update proj spaces space s

variable {s : AckmSpace} {a a' : Ackm δ} {entered owed : Multiset TxPkt}
    {r : PnSpace → RxHistory × Bool}

theorem update_proj_same (proj : AckmSpace → β) {spaces : PnSpace → AckmSpace} {space : PnSpace}
    (keeps : proj s = proj (spaces space)) :
    (fun q => proj (update spaces space s q)) = fun q => proj (spaces q) := by
  rw [update_proj, keeps]
  exact update_eq_self space _

theorem books_of_update (space : PnSpace) (spaces : a'.spaces = update a.spaces space s)
    (inFlight : a'.bytesInFlight = a.bytesInFlight) (calls : a'.calls = a.calls)
    (eliciting : s.ackElicitingBytesInFlight = (a.spaces space).ackElicitingBytesInFlight) :
    a'.books = a.books.setHistory space s.txHistory := by
  unfold Ackm.books
  rw [spaces, inFlight, calls, update_proj AckmSpace.txHistory,
    update_proj_same AckmSpace.ackElicitingBytesInFlight eliciting]
  rfl

theorem books_of_count (space : PnSpace) (spaces : a'.spaces = update a.spaces space s)
    (history : s.txHistory = (a.spaces space).txHistory) : a'.books =
      { history := a.books.history
        eliciting := fun q =>
          if space = q then s.ackElicitingBytesInFlight else a.books.eliciting q
        inFlight := a'.bytesInFlight, calls := a'.calls } := by
  unfold Ackm.books
  rw [spaces, update_proj_same AckmSpace.txHistory history,
    update_proj AckmSpace.ackElicitingBytesInFlight]
  congr 1
  funext q
  by_cases here : space = q
  · subst here
    rw [update_self, if_pos rfl]
  · rw [update_of_ne (fun same => here same.symm), if_neg here]

theorem receive_of_update (space : PnSpace)
    (spaces : a'.spaces = update a.spaces space s)
    (keeps : s.receive = (a.spaces space).receive) : a'.receive = a.receive := by
  unfold Ackm.receive
  rw [spaces]
  exact update_proj_same AckmSpace.receive keeps

/-- Neither the books nor the receive histories notice. -/
structure Unnoticed (a a' : Ackm δ) : Prop where
  books : a'.books = a.books
  receive : a'.receive = a.receive

theorem unnoticed_refl (a : Ackm δ) : Unnoticed a a := ⟨rfl, rfl⟩

theorem unnoticed_trans {b c : Ackm δ} (first : Unnoticed a b) (second : Unnoticed b c) :
    Unnoticed a c :=
  ⟨second.books.trans first.books, second.receive.trans first.receive⟩

variable (cc : CcMethod δ) (mem : Bool) (now : OsslTime) (clock : AckmClock)

theorem ackmSetLossDetectionTimer_unnoticed (a : Ackm δ) :
    Unnoticed a (ackmSetLossDetectionTimer now a) := ⟨rfl, rfl⟩

theorem unnoticed_books (space : PnSpace) (spaces : a'.spaces = update a.spaces space s)
    (inFlight : a'.bytesInFlight = a.bytesInFlight) (calls : a'.calls = a.calls)
    (history : s.txHistory = (a.spaces space).txHistory)
    (eliciting : s.ackElicitingBytesInFlight = (a.spaces space).ackElicitingBytesInFlight) :
    a'.books = a.books := by
  rw [books_of_update space spaces inFlight calls eliciting, history]
  exact congrArg (fun history => { a.books with history }) (update_eq_self space _)

theorem unnoticed_of_update (space : PnSpace)
    (spaces : a'.spaces = update a.spaces space s)
    (inFlight : a'.bytesInFlight = a.bytesInFlight) (calls : a'.calls = a.calls)
    (history : s.txHistory = (a.spaces space).txHistory)
    (eliciting : s.ackElicitingBytesInFlight = (a.spaces space).ackElicitingBytesInFlight)
    (receive : s.receive = (a.spaces space).receive) : Unnoticed a a' :=
  ⟨unnoticed_books space spaces inFlight calls history eliciting,
    receive_of_update space spaces receive⟩

theorem ackmNoteAckFrame_unnoticed (a : Ackm δ) (ack : FrameAck) (space : PnSpace) :
    Unnoticed a (ackmNoteAckFrame a ack space).2 := by
  unfold ackmNoteAckFrame
  dsimp only
  split
  · exact unnoticed_of_update space rfl rfl rfl rfl rfl rfl
  · exact unnoticed_of_update space rfl rfl rfl rfl rfl rfl

theorem ackmUpdateRtt_unnoticed (a : Ackm δ) (ack : FrameAck) (first : TxPkt) :
    Unnoticed a (ackmUpdateRtt now a ack first) := ⟨rfl, rfl⟩

theorem ackmProcessEcn_unnoticed (a : Ackm δ) (ack : FrameAck) (space : PnSpace) :
    Unnoticed a (ackmProcessEcn cc now a ack space) := by
  unfold ackmProcessEcn
  split
  · dsimp only
    split
    · exact unnoticed_of_update space rfl rfl rfl rfl rfl rfl
    · exact unnoticed_of_update space rfl rfl rfl rfl rfl rfl
  · exact unnoticed_refl a

theorem ackmQueueProbeAntiDeadlock_unnoticed (a : Ackm δ) :
    Unnoticed a (ackmQueueProbeAntiDeadlock a) := by
  unfold ackmQueueProbeAntiDeadlock
  split
  · exact ⟨rfl, rfl⟩
  · exact ⟨rfl, rfl⟩

theorem ackmQueueProbe_unnoticed (a : Ackm δ) (space : PnSpace) :
    Unnoticed a (ackmQueueProbe a space) :=
  unnoticed_of_update space rfl rfl rfl rfl rfl rfl

theorem ackmGetAckFrame_unnoticed (a : Ackm δ) (space : PnSpace) :
    Unnoticed a (ackmGetAckFrame now a space).2 :=
  unnoticed_of_update space rfl rfl rfl rfl rfl rfl

theorem newlyAcked_books (ok : BooksOk a.books entered owed) (ack : FrameAck) (space : PnSpace) :
    BooksOk (ackmDetectAndRemoveNewlyAckedPkts a ack space).2.books entered
      ((ackmDetectAndRemoveNewlyAckedPkts a ack space).1 + owed) := by
  obtain ⟨leaves, here⟩ := newlyAcked_leaves (ok.history space) ack.ackRanges
  have books := books_of_update (a := a) space
    (rfl : (ackmDetectAndRemoveNewlyAckedPkts a ack space).2.spaces = _) rfl rfl rfl
  rw [books]
  exact setHistory_ok ok leaves here

theorem newlyAcked_receive (a : Ackm δ) (ack : FrameAck) (space : PnSpace) :
    (ackmDetectAndRemoveNewlyAckedPkts a ack space).2.receive = a.receive :=
  receive_of_update space rfl rfl

theorem lost_books (ok : BooksOk a.books entered owed) (now : OsslTime) (space : PnSpace) :
    BooksOk (ackmDetectAndRemoveLostPkts now a space).2.books entered
      ((ackmDetectAndRemoveLostPkts now a space).1 + owed) := by
  have books := books_of_update (a := a) space
    (rfl : (ackmDetectAndRemoveLostPkts now a space).2.spaces = _) rfl rfl rfl
  rw [books]
  obtain ⟨leaves, here⟩ := lost_leaves (ok.history space) (a.spaces space).largestAckedPkt
    (osslTimeSubtract now (ackmLossDelay (statmGetRttInfo a.statm)))
    (ackmLossDelay (statmGetRttInfo a.statm)) osslTimeZero
  exact setHistory_ok ok leaves here

theorem lost_receive (a : Ackm δ) (space : PnSpace) :
    (ackmDetectAndRemoveLostPkts now a space).2.receive = a.receive :=
  receive_of_update space rfl rfl

theorem ackmLeaveFlight_books (a : Ackm δ) (callback : TxCallback) (p : TxPkt) :
    (ackmCall (ackmLeaveFlight a p) callback p).books = a.books.depart callback p := by
  unfold ackmLeaveFlight Books.depart
  by_cases flies : p.isInflight = true
  · by_cases elicits : p.isAckEliciting = true
    · simp only [flies, elicits, if_true, and_true]
      refine (books_of_count (a := a) p.pktSpace (s := { a.spaces p.pktSpace with
        ackElicitingBytesInFlight :=
          subU64 (a.spaces p.pktSpace).ackElicitingBytesInFlight p.numBytes }) rfl rfl).trans ?_
      refine congrArg (fun eliciting => Books.mk _ eliciting _ _) (funext fun q => ?_)
      split
      · rename_i here
        rw [← here]
        rfl
      · rfl
    · simp only [flies, elicits, if_true, Bool.false_eq_true, if_false, and_false]
      rfl
  · simp only [flies, Bool.false_eq_true, if_false, false_and, and_false]
    rfl

theorem ackmLeaveFlight_receive (a : Ackm δ) (p : TxPkt) :
    (ackmLeaveFlight a p).receive = a.receive := by
  unfold ackmLeaveFlight
  split
  · split
    · exact receive_of_update p.pktSpace rfl rfl
    · rfl
  · rfl

theorem ackmOnPktLost_books (pseudo : Bool) (a : Ackm δ) (p : TxPkt) :
    (ackmOnPktLost cc pseudo a p).books = a.books.depart .lost p := by
  rw [← ackmLeaveFlight_books]
  unfold ackmOnPktLost
  split
  · rfl
  · rfl

theorem ackmOnPktLost_receive (pseudo : Bool) (a : Ackm δ) (p : TxPkt) :
    (ackmOnPktLost cc pseudo a p).receive = a.receive := by
  rw [← ackmLeaveFlight_receive a p]
  unfold ackmOnPktLost
  split
  · rfl
  · rfl

theorem ackmOnPktsLost_books (a : Ackm δ) (lpkt : List TxPkt) (pseudo : Bool) :
    (ackmOnPktsLost cc now a lpkt pseudo).books =
      lpkt.foldl (fun b p => b.depart .lost p) a.books := by
  change (lpkt.foldl (ackmOnPktLost cc pseudo) a).books = _
  induction lpkt generalizing a with
  | nil => rfl
  | cons p rest ih => rw [foldl_cons, ih, ackmOnPktLost_books, foldl_cons]

theorem ackmOnPktsLost_receive (a : Ackm δ) (lpkt : List TxPkt) (pseudo : Bool) :
    (ackmOnPktsLost cc now a lpkt pseudo).receive = a.receive := by
  change (lpkt.foldl (ackmOnPktLost cc pseudo) a).receive = _
  induction lpkt generalizing a with
  | nil => rfl
  | cons p rest ih => rw [foldl_cons, ih, ackmOnPktLost_receive]

theorem books_of_call (same : a'.books = a.books) (callback : TxCallback) (p : TxPkt) :
    (ackmCall a' callback p).books = (ackmCall a callback p).books :=
  congrArg (fun b : Books => { b with calls := b.calls ++ [(callback, p)] }) same

/-- No history takes in a number, but any may be aged. -/
structure ReceiveAged (r r' : PnSpace → RxHistory × Bool) : Prop where
  discarded : ∀ space, (r' space).2 = (r space).2
  takes : ∀ space, RxTakes (r space).1 ∅ (r' space).1

def ReceiveOk (r : PnSpace → RxHistory × Bool) : Prop := ∀ space, RxHistoryOk (r space).1

theorem receiveAged_refl (ok : ReceiveOk r) : ReceiveAged r r :=
  ⟨fun _ => rfl, fun space => rxTakes_refl (ok space)⟩

theorem receiveAged_trans {r'' : PnSpace → RxHistory × Bool} (first : ReceiveAged r r')
    (second : ReceiveAged r' r'') : ReceiveAged r r'' :=
  ⟨fun space => (second.discarded space).trans (first.discarded space),
    fun space => rxTakes_trans (first.takes space) (second.takes space)⟩

theorem receiveAged_ok (aged : ReceiveAged r r') :
    ReceiveOk r' := fun space => (aged.takes space).ok

def ackmBumped (a : Ackm δ) (p : TxPkt) : Ackm δ :=
  if p.isInflight && decide (p.largestAcked ≠ quicPnInvalid) then
    a.modify p.pktSpace (fun s =>
      { s with
        rxHistory := (rxPktHistoryBumpWatermark s.rxHistory (addU64 p.largestAcked 1)).2 })
  else a

theorem ackmBumped_books (a : Ackm δ) (p : TxPkt) : (ackmBumped a p).books = a.books := by
  unfold ackmBumped
  split
  · exact (unnoticed_books p.pktSpace (s := { a.spaces p.pktSpace with
      rxHistory := (rxPktHistoryBumpWatermark (a.spaces p.pktSpace).rxHistory
        (addU64 p.largestAcked 1)).2 }) rfl rfl rfl rfl rfl)
  · rfl

theorem ackmBumped_receive (ok : ReceiveOk a.receive) (p : TxPkt) :
    ReceiveAged a.receive (ackmBumped a p).receive := by
  unfold ackmBumped
  split
  · have bumped := rxPktHistoryBumpWatermark_takes (ok p.pktSpace) (addU64_lt p.largestAcked 1).le
    refine ⟨fun q => ?_, fun q => ?_⟩
    · by_cases here : q = p.pktSpace
      · subst here
        simp only [Ackm.receive, Ackm.modify, update_self]
        rfl
      · simp only [Ackm.receive, Ackm.modify, update_of_ne here]
    · by_cases here : q = p.pktSpace
      · subst here
        simp only [Ackm.receive, Ackm.modify, update_self]
        exact bumped
      · simp only [Ackm.receive, Ackm.modify, update_of_ne here]
        exact rxTakes_refl (ok q)
  · exact receiveAged_refl ok

theorem ackmOnPktAcked_views (a : Ackm δ) (p : TxPkt) :
    (ackmOnPktAcked cc a p).books = (ackmCall (ackmBumped (ackmLeaveFlight a p) p) .acked p).books ∧
      (ackmOnPktAcked cc a p).receive = (ackmBumped (ackmLeaveFlight a p) p).receive := by
  unfold ackmOnPktAcked
  dsimp only
  split
  · exact ⟨rfl, rfl⟩
  · exact ⟨rfl, rfl⟩

theorem ackmOnPktsAcked_books (a : Ackm δ) (apkt : List TxPkt) :
    (ackmOnPktsAcked cc a apkt).books = apkt.foldl (fun b p => b.depart .acked p) a.books := by
  unfold ackmOnPktsAcked
  induction apkt generalizing a with
  | nil => rfl
  | cons p rest ih =>
    rw [foldl_cons, ih, foldl_cons, (ackmOnPktAcked_views cc a p).1,
      books_of_call (ackmBumped_books _ p), ackmLeaveFlight_books]

theorem ackmOnPktsAcked_receive (ok : ReceiveOk a.receive) (apkt : List TxPkt) :
    ReceiveAged a.receive (ackmOnPktsAcked cc a apkt).receive := by
  induction apkt generalizing a with
  | nil => exact receiveAged_refl ok
  | cons p rest ih =>
    have left := ackmLeaveFlight_receive a p
    have aged := ackmBumped_receive (left ▸ ok) p
    rw [left, ← (ackmOnPktAcked_views cc a p).2] at aged
    exact receiveAged_trans aged (ih (receiveAged_ok aged))

theorem ackmCountSent_books (a : Ackm δ) {pkt : TxPkt} (flies : pkt.isInflight = true) :
    (ackmCountSent a pkt).books = a.books.enter pkt (a.books.history pkt.pktSpace) := by
  unfold ackmCountSent Books.enter
  rw [update_eq_self]
  by_cases elicits : pkt.isAckEliciting = true
  · simp only [flies, elicits, if_true, and_true]
    refine (books_of_count (a := a) pkt.pktSpace (s := { a.spaces pkt.pktSpace with
      timeOfLastAckElicitingPkt := pkt.time
      ackElicitingBytesInFlight :=
        addU64 (a.spaces pkt.pktSpace).ackElicitingBytesInFlight pkt.numBytes }) rfl rfl).trans ?_
    refine congrArg (fun eliciting => Books.mk _ eliciting _ _) (funext fun q => ?_)
    split
    · rename_i here
      rw [← here]
      rfl
    · rfl
  · simp only [flies, elicits, if_true, Bool.false_eq_true, if_false, and_false]
    rfl

/-- A packet that is refused leaves no trace, one that is accepted enters the books. -/
theorem ackmOnTxPacket_books (ok : BooksOk a.books entered 0) (pkt : TxPkt) :
    ((ackmOnTxPacket cc now a pkt).1 = false ∧ (ackmOnTxPacket cc now a pkt).2.books = a.books) ∨
      ((ackmOnTxPacket cc now a pkt).1 = true ∧
        ∃ h, (ackmOnTxPacket cc now a pkt).2.books = a.books.enter pkt h ∧
          h.packets = a.books.onRecord pkt.pktSpace ++ [pkt] ∧ TxHistoryOk pkt.pktSpace h) := by
  unfold ackmOnTxPacket
  split
  · exact .inl ⟨rfl, rfl⟩
  · rcases txPktHistoryAdd_cases (ok.history pkt.pktSpace) (Eq.refl pkt.pktSpace) with
      refused | ⟨h, added, longer, here⟩
    · have same : txPktHistoryAdd (a.spaces pkt.pktSpace).txHistory pkt =
        (false, (a.spaces pkt.pktSpace).txHistory) := refused
      rw [same]
      exact .inl ⟨rfl, unnoticed_books pkt.pktSpace (s := a.spaces pkt.pktSpace) rfl rfl rfl rfl rfl⟩
    · have run : txPktHistoryAdd (a.spaces pkt.pktSpace).txHistory pkt = (true, h) := added
      rw [run]
      dsimp only
      rw [if_neg (by decide)]
      have recorded : (a.modify pkt.pktSpace (fun s => { s with txHistory := h })).books =
          a.books.setHistory pkt.pktSpace h :=
        books_of_update (a := a) pkt.pktSpace (s := { a.spaces pkt.pktSpace with txHistory := h })
          rfl rfl rfl rfl
      generalize a.modify pkt.pktSpace (fun s => { s with txHistory := h }) = b at recorded
      by_cases flies : pkt.isInflight = true
      · rw [if_pos flies]
        refine .inr ⟨rfl, h, ?_, longer, here⟩
        change (ackmCountSent b pkt).books = _
        rw [ackmCountSent_books b flies, recorded]
        simp only [Books.setHistory, Books.enter, update_eq_self]
      · rw [if_neg flies]
        refine .inr ⟨rfl, h, ?_, longer, here⟩
        rw [recorded]
        unfold Books.setHistory Books.enter
        simp only [flies, Bool.false_eq_true, if_false, false_and, and_false]

theorem ackmCountSent_receive (a : Ackm δ) (pkt : TxPkt) :
    (ackmCountSent a pkt).receive = a.receive := by
  unfold ackmCountSent
  split
  · exact receive_of_update pkt.pktSpace rfl rfl
  · rfl

theorem ackmOnTxPacket_receive (a : Ackm δ) (pkt : TxPkt) :
    (ackmOnTxPacket cc now a pkt).2.receive = a.receive := by
  unfold ackmOnTxPacket
  split
  · rfl
  · dsimp only
    have recorded : (a.modify pkt.pktSpace (fun s => { s with
        txHistory := (txPktHistoryAdd (a.spaces pkt.pktSpace).txHistory pkt).2 })).receive =
        a.receive := receive_of_update pkt.pktSpace rfl rfl
    split
    · exact recorded
    · split
      · exact (ackmCountSent_receive _ pkt).trans recorded
      · exact recorded

theorem ackmOnPktsDiscarded_counts (gone : List TxPkt) (a : Ackm δ) (n : Nat) :
    let r := gone.foldl ackmOnPktDiscarded (a, n)
    r.1.spaces = a.spaces ∧ r.1.ccData = a.ccData ∧
      r.1.bytesInFlight = gone.foldl lessInFlight a.bytesInFlight ∧
      r.1.calls = a.calls ++ gone.map (fun p => (TxCallback.discarded, p)) ∧
      r.2 % 2 ^ 64 = (n + weigh inflightBytes (gone : Multiset TxPkt)) % 2 ^ 64 := by
  induction gone generalizing a n with
  | nil => exact ⟨rfl, rfl, rfl, (append_nil _).symm, rfl⟩
  | cons p rest ih =>
    intro r
    have step : ∃ b m, ackmOnPktDiscarded (a, n) p = (b, m) ∧ b.spaces = a.spaces ∧
        b.ccData = a.ccData ∧ b.bytesInFlight = lessInFlight a.bytesInFlight p ∧
        b.calls = a.calls ++ [(TxCallback.discarded, p)] ∧
        m % 2 ^ 64 = (n + inflightBytes p) % 2 ^ 64 := by
      unfold ackmOnPktDiscarded lessInFlight inflightBytes
      split
      · exact ⟨_, _, rfl, rfl, rfl, rfl, rfl, by simp only [addU64]; omega⟩
      · exact ⟨_, _, rfl, rfl, rfl, rfl, rfl, rfl⟩
    obtain ⟨b, m, run, spaces, ccData, bytes, calls, sum⟩ := step
    obtain ⟨spaces', ccData', bytes', calls', sum'⟩ := ih b m
    have next : r = rest.foldl ackmOnPktDiscarded (b, m) := by
      rw [← run]
      rfl
    rw [next]
    refine ⟨spaces'.trans spaces, ccData'.trans ccData, ?_, ?_, ?_⟩
    · rw [bytes', bytes]
      rfl
    · rw [calls', calls, append_assoc]
      rfl
    · rw [sum', weigh_coe_cons]
      omega

theorem ackmOnPktSpaceDiscarded_books {space : PnSpace}
    (live : (a.spaces space).discarded = false) :
    (ackmOnPktSpaceDiscarded cc now a space).2.books = a.books.close space := by
  unfold ackmOnPktSpaceDiscarded
  rw [if_neg (by simp [live])]
  dsimp only
  generalize start : (if space = .handshake then
    { a with peerCompletedAddrValidation := true } else a) = b
  have same : b.books = a.books ∧ b.spaces = a.spaces := by
    rw [← start]
    split
    · exact ⟨rfl, rfl⟩
    · exact ⟨rfl, rfl⟩
  obtain ⟨spaces, _, bytes, calls, _⟩ :=
    ackmOnPktsDiscarded_counts (b.spaces space).txHistory.packets b 0
  generalize (b.spaces space).txHistory.packets.foldl ackmOnPktDiscarded (b, 0) = r
    at spaces bytes calls
  have history := update_proj AckmSpace.txHistory b.spaces space (ackmClearSpace (b.spaces space))
  have eliciting := update_proj AckmSpace.ackElicitingBytesInFlight b.spaces space
    (ackmClearSpace (b.spaces space))
  rw [← same.1]
  unfold Ackm.books Ackm.modify ackmSetLossDetectionTimer
  rw [spaces, history, eliciting, bytes, calls]
  rfl

theorem ackmOnPktSpaceDiscarded_receive {space : PnSpace}
    (live : (a.spaces space).discarded = false) :
    (ackmOnPktSpaceDiscarded cc now a space).2.receive =
      update a.receive space (rxPktHistoryDestroy (a.receive space).1, true) := by
  unfold ackmOnPktSpaceDiscarded
  rw [if_neg (by simp [live])]
  dsimp only
  generalize start : (if space = .handshake then
    { a with peerCompletedAddrValidation := true } else a) = b
  have same : b.spaces = a.spaces := by
    rw [← start]
    split
    · rfl
    · rfl
  obtain ⟨spaces, _, _, _, _⟩ := ackmOnPktsDiscarded_counts (b.spaces space).txHistory.packets b 0
  generalize (b.spaces space).txHistory.packets.foldl ackmOnPktDiscarded (b, 0) = r at spaces
  have receive := update_proj AckmSpace.receive b.spaces space (ackmClearSpace (b.spaces space))
  unfold Ackm.receive Ackm.modify ackmSetLossDetectionTimer
  rw [spaces, receive, same]
  rfl

theorem ackmMarkPacketPseudoLost_books (ok : BooksOk a.books entered 0) (space : PnSpace)
    (pn : Nat) : BooksOk (ackmMarkPacketPseudoLost cc now a space pn).2.books entered 0 := by
  unfold ackmMarkPacketPseudoLost txPktHistoryByPktNum
  split
  · exact ok
  · rename_i pkt found
    have here := ok.history space
    obtain ⟨member, number⟩ := (here.mapped pn pkt).mp found
    obtain ⟨left, after⟩ := txPktHistoryRemove_member here member
    have leaves : (a.books.onRecord space).Perm ([pkt] ++
        (txPktHistoryRemove (a.books.history space) pkt.pktNum).2.packets) := by
      rw [left]
      exact perm_cons_erase member
    have taken := setHistory_ok ok leaves after
    have books : (a.modify space (fun s =>
        { s with txHistory := (txPktHistoryRemove s.txHistory pkt.pktNum).2 })).books =
        a.books.setHistory space (txPktHistoryRemove (a.books.history space) pkt.pktNum).2 :=
      books_of_update (a := a) space (s := { a.spaces space with
        txHistory := (txPktHistoryRemove (a.spaces space).txHistory pkt.pktNum).2 }) rfl rfl rfl rfl
    rw [ackmOnPktsLost_books, books]
    exact departAll_ok .lost [pkt] taken

theorem ackmMarkPacketPseudoLost_receive (a : Ackm δ) (space : PnSpace) (pn : Nat) :
    (ackmMarkPacketPseudoLost cc now a space pn).2.receive = a.receive := by
  unfold ackmMarkPacketPseudoLost
  split
  · rfl
  · rw [ackmOnPktsLost_receive]
    exact receive_of_update space rfl rfl

theorem lostStage_books (cc : CcMethod δ) (cong lost : OsslTime)
    (ok : BooksOk a.books entered owed) (space : PnSpace) :
    let r := ackmDetectAndRemoveLostPkts lost a space
    BooksOk (if r.1 ≠ [] then ackmOnPktsLost cc cong r.2 r.1 false else r.2).books entered owed := by
  intro r
  have taken : BooksOk r.2.books entered (r.1 + owed) := lost_books ok lost space
  split
  · rw [ackmOnPktsLost_books]
    exact departAll_ok .lost r.1 taken
  · rename_i none
    have empty : r.1 = [] := not_not.mp none
    rw [empty] at taken
    exact (zero_add owed) ▸ taken

theorem lostStage_receive (cc : CcMethod δ) (cong lost : OsslTime) (a : Ackm δ) (space : PnSpace) :
    let r := ackmDetectAndRemoveLostPkts lost a space
    (if r.1 ≠ [] then ackmOnPktsLost cc cong r.2 r.1 false else r.2).receive = a.receive := by
  intro r
  split
  · rw [ackmOnPktsLost_receive]
    exact lost_receive lost a space
  · exact lost_receive lost a space

theorem ackmOnTimeout_books (ok : BooksOk a.books entered 0) :
    BooksOk (ackmOnTimeout cc clock a).2.books entered 0 := by
  unfold ackmOnTimeout
  dsimp only
  split
  · exact lostStage_books cc clock.cong clock.lost ok _
  · split
    · exact (ackmQueueProbeAntiDeadlock_unnoticed a).books.symm ▸ ok
    · exact (ackmQueueProbe_unnoticed a _).books.symm ▸ ok

theorem ackmOnTimeout_receive (a : Ackm δ) : (ackmOnTimeout cc clock a).2.receive = a.receive := by
  unfold ackmOnTimeout
  dsimp only
  split
  · exact lostStage_receive cc clock.cong clock.lost a _
  · split
    · exact (ackmQueueProbeAntiDeadlock_unnoticed a).receive
    · exact (ackmQueueProbe_unnoticed a _).receive

/- The part of ossl_ackm_on_rx_ack_frame up to loss detection that the books and
   the receive histories do not notice. -/
def ackmSample (cc : CcMethod δ) (clock : AckmClock) (a : Ackm δ) (ack : FrameAck) (space : PnSpace)
    (naPkts : List TxPkt) (first : TxPkt) : Ackm δ :=
  let a :=
    if first.pktNum = ackRangesLargest ack.ackRanges ∧ ackIncludesAckEliciting naPkts = true then
      ackmUpdateRtt clock.rtt a ack first
    else a
  if ack.ecnPresent then ackmProcessEcn cc clock.ecn a ack space else a

theorem ackmSample_unnoticed (a : Ackm δ) (ack : FrameAck) (space : PnSpace) (naPkts : List TxPkt)
    (first : TxPkt) : Unnoticed a (ackmSample cc clock a ack space naPkts first) := by
  unfold ackmSample
  generalize start : (if first.pktNum = ackRangesLargest ack.ackRanges ∧
    ackIncludesAckEliciting naPkts = true then ackmUpdateRtt clock.rtt a ack first else a) = b
  have sampled : Unnoticed a b := by
    rw [← start]
    split
    · exact ackmUpdateRtt_unnoticed clock.rtt a ack first
    · exact unnoticed_refl a
  split
  · exact unnoticed_trans sampled (ackmProcessEcn_unnoticed cc clock.ecn b ack space)
  · exact sampled

theorem ptoReset_unnoticed (a : Ackm δ) :
    Unnoticed a (if a.peerCompletedAddrValidation then { a with ptoCount := 0 } else a) := by
  split
  · exact ⟨rfl, rfl⟩
  · exact ⟨rfl, rfl⟩

theorem ptoReset_ccData (a : Ackm δ) :
    (if a.peerCompletedAddrValidation then { a with ptoCount := 0 } else a).ccData = a.ccData := by
  split
  · rfl
  · rfl

def EcnOnly (cc : CcMethod δ) (before after : δ) : Prop :=
  after = before ∨ ∃ now info, after = (cc.onEcn now before info).2

theorem ackmSample_ecnOnly (a : Ackm δ) (ack : FrameAck) (space : PnSpace) (naPkts : List TxPkt)
    (first : TxPkt) :
    EcnOnly cc a.ccData (ackmSample cc clock a ack space naPkts first).ccData := by
  unfold ackmSample
  dsimp only
  generalize start : (if first.pktNum = ackRangesLargest ack.ackRanges ∧
    ackIncludesAckEliciting naPkts = true then ackmUpdateRtt clock.rtt a ack first else a) = b
  have same : b.ccData = a.ccData := by
    rw [← start]
    split
    · rfl
    · rfl
  rw [← same]
  split
  · unfold ackmProcessEcn
    split
    · dsimp only
      split
      · exact .inl rfl
      · exact .inr ⟨_, _, rfl⟩
    · exact .inl rfl
  · exact .inl rfl

/-- An ACK frame that acknowledges something new takes these stages; the rest is
    unnoticed, also by the congestion controller. -/
theorem ackmOnRxAckFrame_stages (cc : CcMethod δ) (clock : AckmClock) (a : Ackm δ) (ack : FrameAck)
    (space : PnSpace) :
    let r := (ackmOnRxAckFrame cc clock a ack space).2
    let na := ackmDetectAndRemoveNewlyAckedPkts (ackmNoteAckFrame a ack space).2 ack space
    (na.1 = [] ∧ Unnoticed na.2 r ∧ r.ccData = na.2.ccData) ∨
      ∃ b, Unnoticed na.2 b ∧ EcnOnly cc na.2.ccData b.ccData ∧
        let lost := ackmDetectAndRemoveLostPkts clock.lost b space
        let c := ackmOnPktsAcked cc
          (if lost.1 ≠ [] then ackmOnPktsLost cc clock.cong lost.2 lost.1 false else lost.2) na.1
        Unnoticed c r ∧ r.ccData = c.ccData := by
  intro r na
  have run : r = (ackmOnRxAckFrame cc clock a ack space).2 := rfl
  clear_value r
  unfold ackmOnRxAckFrame at run
  dsimp only at run
  split at run
  · rename_i empty
    refine .inl ⟨empty, ?_⟩
    subst run
    split
    · exact ⟨ackmSetLossDetectionTimer_unnoticed clock.pto _, rfl⟩
    · exact ⟨unnoticed_refl _, rfl⟩
  · rename_i first rest _
    refine .inr ⟨ackmSample cc clock na.2 ack space na.1 first,
      ackmSample_unnoticed cc clock na.2 ack space na.1 first,
      ackmSample_ecnOnly cc clock na.2 ack space na.1 first, ?_⟩
    subst run
    exact ⟨unnoticed_trans (ptoReset_unnoticed _) (ackmSetLossDetectionTimer_unnoticed clock.pto _),
      ptoReset_ccData _⟩

theorem ackmOnRxAckFrame_books (ok : BooksOk a.books entered 0) (ack : FrameAck) (space : PnSpace) :
    BooksOk (ackmOnRxAckFrame cc clock a ack space).2.books entered 0 := by
  have noted : BooksOk (ackmNoteAckFrame a ack space).2.books entered 0 :=
    (ackmNoteAckFrame_unnoticed a ack space).books.symm ▸ ok
  have taken := newlyAcked_books noted ack space
  rw [add_zero] at taken
  rcases ackmOnRxAckFrame_stages cc clock a ack space with
    ⟨empty, same, _⟩ | ⟨b, sampled, _, done, _⟩
  · rw [empty] at taken
    exact same.books.symm ▸ taken
  · rw [← sampled.books] at taken
    have left := lostStage_books cc clock.cong clock.lost taken space
    rw [done.books, ackmOnPktsAcked_books]
    rw [← add_zero (((ackmDetectAndRemoveNewlyAckedPkts (ackmNoteAckFrame a ack space).2 ack
      space).1 : List TxPkt) : Multiset TxPkt)] at left
    exact departAll_ok .acked _ left

theorem ackmOnRxAckFrame_receive (ok : ReceiveOk a.receive) (ack : FrameAck) (space : PnSpace) :
    ReceiveAged a.receive (ackmOnRxAckFrame cc clock a ack space).2.receive := by
  have taken := (newlyAcked_receive (ackmNoteAckFrame a ack space).2 ack space).trans
    (ackmNoteAckFrame_unnoticed a ack space).receive
  rcases ackmOnRxAckFrame_stages cc clock a ack space with
    ⟨_, same, _⟩ | ⟨b, sampled, _, done, _⟩
  · rw [same.receive, taken]
    exact receiveAged_refl ok
  · have left := (lostStage_receive cc clock.cong clock.lost b space).trans
      (sampled.receive.trans taken)
    rw [done.receive]
    rw [← left] at ok ⊢
    exact ackmOnPktsAcked_receive cc ok _

def AckmSpace.shown (s : AckmSpace) : TxHistory × Nat × RxHistory × Bool :=
  (s.txHistory, s.ackElicitingBytesInFlight, s.rxHistory, s.discarded)

theorem ackmOnRxAckEliciting_shown (txMaxAckDelay rxTime : OsslTime) (space : PnSpace)
    (wasMissing : Bool) (s : AckmSpace) :
    (ackmOnRxAckEliciting txMaxAckDelay rxTime space wasMissing s).shown = s.shown := by
  unfold ackmOnRxAckEliciting
  split
  · rfl
  · dsimp only
    split
    · rfl
    · rfl

theorem ackmCountEcn_shown (s : AckmSpace) (ecn : AckmEcn) : (ackmCountEcn s ecn).shown = s.shown := by
  cases ecn <;> rfl

/-- Of the fields shown, a received packet writes the receive history only. -/
theorem ackmSpaceOnRxPacket_shown (txMaxAckDelay : OsslTime) (s : AckmSpace) (pkt : RxPkt) :
    (ackmSpaceOnRxPacket mem txMaxAckDelay s pkt).1 =
        (rxPktHistoryAddPn mem s.rxHistory pkt.pktNum).1 ∧
      (ackmSpaceOnRxPacket mem txMaxAckDelay s pkt).2.shown =
        (s.txHistory, s.ackElicitingBytesInFlight,
          (rxPktHistoryAddPn mem s.rxHistory pkt.pktNum).2, s.discarded) := by
  unfold ackmSpaceOnRxPacket
  dsimp only
  generalize start : (if s.rxLargestPn < pkt.pktNum then
    { s with rxLargestPn := pkt.pktNum, rxLargestTime := pkt.time } else s) = t
  have same : t.shown = s.shown := by
    rw [← start]
    split
    · rfl
    · rfl
  obtain ⟨tx, count, rx, gone⟩ : t.txHistory = s.txHistory ∧
      t.ackElicitingBytesInFlight = s.ackElicitingBytesInFlight ∧ t.rxHistory = s.rxHistory ∧
        t.discarded = s.discarded := by
    simpa only [AckmSpace.shown, Prod.mk.injEq] using same
  rw [rx]
  generalize rxPktHistoryAddPn mem s.rxHistory pkt.pktNum = r
  split
  · rename_i failed
    refine ⟨failed.symm, ?_⟩
    simp only [AckmSpace.shown, tx, count, gone]
  · rename_i done
    refine ⟨(Bool.not_eq_false _ ▸ done : r.1 = true).symm, ?_⟩
    rw [ackmCountEcn_shown]
    split
    · rw [ackmOnRxAckEliciting_shown]
      simp only [AckmSpace.shown, tx, count, gone]
    · simp only [AckmSpace.shown, tx, count, gone]

theorem ackmOnRxPacket_books (a : Ackm δ) (pkt : RxPkt) :
    (ackmOnRxPacket mem a pkt).2.books = a.books := by
  unfold ackmOnRxPacket
  split
  · rfl
  · have shown := (ackmSpaceOnRxPacket_shown mem a.txMaxAckDelay (a.spaces pkt.pktSpace) pkt).2
    simp only [AckmSpace.shown, Prod.mk.injEq] at shown
    exact unnoticed_books pkt.pktSpace rfl rfl rfl shown.1 shown.2.1

theorem ackmIsRxPnProcessable_iff (ok : ReceiveOk a.receive) (pn : Nat) (space : PnSpace) :
    ackmIsRxPnProcessable a pn space = true ↔
      (a.receive space).1.watermark ≤ pn ∧ pn ∉ points (a.receive space).1.set := by
  have asc := separated_ascending (ok space).separated
  unfold ackmIsRxPnProcessable
  rw [Bool.and_eq_true, decide_eq_true_eq, Bool.not_eq_true', ← Bool.not_eq_true]
  exact and_congr_right (fun _ => not_congr (uintSetQuery_iff asc pn))

/-- A received number that is processable is taken in, or the call fails and the
    histories stay as they were. -/
theorem ackmOnRxPacket_receive (ok : ReceiveOk a.receive) {pkt : RxPkt}
    (bound : pkt.pktNum < 2 ^ 64) : ((ackmOnRxPacket mem a pkt).2.receive = a.receive ∧
        ((ackmOnRxPacket mem a pkt).1 = true →
          ackmIsRxPnProcessable a pkt.pktNum pkt.pktSpace = false)) ∨
      ((ackmOnRxPacket mem a pkt).1 = true ∧ ∃ h, (ackmOnRxPacket mem a pkt).2.receive =
          update a.receive pkt.pktSpace (h, (a.receive pkt.pktSpace).2) ∧
        RxTakes (a.receive pkt.pktSpace).1 {pkt.pktNum} h) := by
  unfold ackmOnRxPacket
  split
  · rename_i known
    exact .inl ⟨rfl, fun _ => known⟩
  · rename_i processable
    rw [Bool.not_eq_false, ackmIsRxPnProcessable_iff ok] at processable
    obtain ⟨result, shown⟩ :=
      ackmSpaceOnRxPacket_shown mem a.txMaxAckDelay (a.spaces pkt.pktSpace) pkt
    simp only [AckmSpace.shown, Prod.mk.injEq] at shown
    obtain ⟨_, _, rx, gone⟩ := shown
    rcases rxPktHistoryAddPn_takes mem (ok pkt.pktSpace) bound processable.2 with
      failed | ⟨done, takes⟩
    · change rxPktHistoryAddPn mem (a.spaces pkt.pktSpace).rxHistory pkt.pktNum = _ at failed
      rw [failed] at result rx
      refine .inl ⟨receive_of_update pkt.pktSpace rfl (Prod.ext rx gone), fun succeeded => ?_⟩
      exact absurd (result.symm.trans succeeded) Bool.false_ne_true
    · refine .inr ⟨result.trans done, _, ?_, takes⟩
      have receive := update_proj AckmSpace.receive a.spaces pkt.pktSpace
        (ackmSpaceOnRxPacket mem a.txMaxAckDelay (a.spaces pkt.pktSpace) pkt).2
      refine receive.trans ?_
      rw [AckmSpace.receive, rx, gone]
      rfl

end

end Ossl
