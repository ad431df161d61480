import OpenSSL.Quic.AckmLaws

/- Runs of the ACK manager. Carried along are the packets that were accepted for
   sending, numbered in the order they came, and the packet numbers that were
   received with success. -/
namespace Ossl
open List Function Spans Ledger Runs

inductive AckmCall where
  | txPacket (now : OsslTime) (pkt : TxPkt)
  | rxAckFrame (clock : AckmClock) (ack : FrameAck) (space : PnSpace)
  | timeout (clock : AckmClock)
  | pseudoLost (now : OsslTime) (space : PnSpace) (pn : Nat)
  | spaceDiscarded (now : OsslTime) (space : PnSpace)
  | handshakeConfirmed (now : OsslTime)
  | rxPacket (mem : Bool) (pkt : RxPkt)
  | getAckFrame (now : OsslTime) (space : PnSpace)
  | setRxMaxAckDelay (delay : OsslTime)
  | setTxMaxAckDelay (delay : OsslTime)

structure TracedAckm (δ : Type*) where
  ackm : Ackm δ
  accepted : List TxPkt
  received : List (PnSpace × Nat)

section
variable {δ : Type*}

def freshAckm (statm : Statm) (ccData : δ) (isServer : Bool) : TracedAckm δ :=
  ⟨ackmNew statm ccData isServer, [], []⟩

def TracedAckm.number (s : TracedAckm δ) (pkt : TxPkt) : TxPkt :=
  { pkt with ref := s.accepted.length }

def applyAckmCall (cc : CcMethod δ) (s : TracedAckm δ) : AckmCall → TracedAckm δ
  | .txPacket now pkt =>
    let result := ackmOnTxPacket cc now s.ackm (s.number pkt)
    { s with
      ackm := result.2
      accepted := if result.1 then s.accepted ++ [s.number pkt] else s.accepted }
  | .rxAckFrame clock ack space => { s with ackm := (ackmOnRxAckFrame cc clock s.ackm ack space).2 }
  | .timeout clock => { s with ackm := (ackmOnTimeout cc clock s.ackm).2 }
  | .pseudoLost now space pn => { s with ackm := (ackmMarkPacketPseudoLost cc now s.ackm space pn).2 }
  | .spaceDiscarded now space => { s with ackm := (ackmOnPktSpaceDiscarded cc now s.ackm space).2 }
  | .handshakeConfirmed now => { s with ackm := (ackmOnHandshakeConfirmed now s.ackm).2 }
  | .rxPacket mem pkt =>
    let result := ackmOnRxPacket mem s.ackm pkt
    { s with
      ackm := result.2
      received := if result.1 then s.received ++ [(pkt.pktSpace, pkt.pktNum)] else s.received }
  | .getAckFrame now space => { s with ackm := (ackmGetAckFrame now s.ackm space).2 }
  | .setRxMaxAckDelay delay => { s with ackm := { s.ackm with rxMaxAckDelay := delay } }
  | .setTxMaxAckDelay delay => { s with ackm := { s.ackm with txMaxAckDelay := delay } }

def TracedAckm.Live (s : TracedAckm δ) (space : PnSpace) : Prop :=
  (s.ackm.spaces space).discarded = false

/- The source asserts that a space it is asked about was not discarded and that an
   ACK frame has a range; the bounds are those of the fields' types. -/
def AckmCallOk (s : TracedAckm δ) : AckmCall → Prop
  | .txPacket _ pkt => s.Live pkt.pktSpace ∧ pkt.pktNum < 2 ^ 64 ∧ pkt.numBytes < 2 ^ 64
  | .rxAckFrame _ ack space => s.Live space ∧ ack.ackRanges ≠ []
  | .pseudoLost _ space _ => s.Live space
  | .rxPacket _ pkt => s.Live pkt.pktSpace ∧ pkt.pktNum < 2 ^ 64
  | .getAckFrame _ space => s.Live space
  | .timeout _ => True
  | .spaceDiscarded _ _ => True
  | .handshakeConfirmed _ => True
  | .setRxMaxAckDelay _ => True
  | .setTxMaxAckDelay _ => True

def TracedAckm.rx (s : TracedAckm δ) (space : PnSpace) : RxHistory := (s.ackm.receive space).1

/-- What one call may do to the receive histories: the spaces still live take in
    the numbers received with success. -/
structure ReceiveStep (s t : TracedAckm δ) (new : PnSpace → Set Nat) : Prop where
  ok : ReceiveOk t.ackm.receive
  received : ∀ space pn, (space, pn) ∈ t.received ↔ (space, pn) ∈ s.received ∨ pn ∈ new space
  live : ∀ space, t.Live space → s.Live space ∧ RxTakes (s.rx space) (new space) (t.rx space)

variable {s t : TracedAckm δ} {h : RxHistory} {pn : Nat}

theorem receiveStep_of_aged (received : t.received = s.received)
    (aged : ReceiveAged s.ackm.receive t.ackm.receive) : ReceiveStep s t (fun _ => ∅) := by
  refine ⟨receiveAged_ok aged, fun space pn => ?_, fun space live => ⟨?_, aged.takes space⟩⟩
  · rw [received]
    simp
  · exact (aged.discarded space).symm.trans live

theorem receiveStep_of_same (ok : ReceiveOk s.ackm.receive) (received : t.received = s.received)
    (same : t.ackm.receive = s.ackm.receive) : ReceiveStep s t (fun _ => ∅) :=
  receiveStep_of_aged received (same.symm ▸ receiveAged_refl ok)

theorem rxTakes_known (ok : RxHistoryOk h) (known : pn < h.watermark ∨ pn ∈ points h.set) :
    RxTakes h {pn} h := by
  refine ⟨ok, le_refl _, fun x => ?_⟩
  constructor
  · intro here
    exact ⟨.inl here, ok.above x here⟩
  · rintro ⟨here | same, high⟩
    · exact here
    · obtain rfl := Set.mem_singleton_iff.mp same
      exact known.resolve_left (by omega)

theorem receiveStep_of_number (ok : ReceiveOk s.ackm.receive) {here : PnSpace}
    (received : t.received = s.received ++ [(here, pn)])
    (receive : t.ackm.receive = update s.ackm.receive here (h, (s.ackm.receive here).2))
    (takes : RxTakes (s.rx here) {pn} h) :
    ReceiveStep s t (fun space => {n | space = here ∧ n = pn}) := by
  have atHere : t.ackm.receive here = (h, (s.ackm.receive here).2) := by
    rw [receive, update_self]
  have away : ∀ space, space ≠ here → t.ackm.receive space = s.ackm.receive space := by
    intro space other
    rw [receive, update_of_ne other]
  refine ⟨fun space => ?_, fun space n => ?_, fun space live => ?_⟩
  · by_cases same : space = here
    · rw [same, atHere]
      exact takes.ok
    · rw [away space same]
      exact ok space
  · rw [received]
    simp only [mem_append, mem_singleton, Prod.mk.injEq]
    rfl
  · unfold TracedAckm.rx
    by_cases same : space = here
    · subst same
      have kept : (t.ackm.receive space).2 = (s.ackm.receive space).2 := by rw [atHere]
      refine ⟨kept.symm.trans live, ?_⟩
      rw [atHere]
      simp only [true_and]
      exact takes
    · refine ⟨(congrArg Prod.snd (away space same)).symm.trans live, ?_⟩
      rw [away space same]
      simp only [same, false_and]
      exact rxTakes_refl (ok space)

variable (cc : CcMethod δ)

theorem rxPacket_step (ok : ReceiveOk s.ackm.receive) (mem : Bool) {pkt : RxPkt}
    (bound : pkt.pktNum < 2 ^ 64) :
    ∃ new, ReceiveStep s (applyAckmCall cc s (.rxPacket mem pkt)) new := by
  rcases ackmOnRxPacket_receive mem ok bound with ⟨same, known⟩ | ⟨done, h, receive, takes⟩
  · cases result : (ackmOnRxPacket mem s.ackm pkt).1 with
    | false =>
      refine ⟨_, receiveStep_of_same ok ?_ same⟩
      simp only [applyAckmCall, result, Bool.false_eq_true, if_false]
    | true =>
      have unprocessable := known result
      rw [← Bool.not_eq_true, ackmIsRxPnProcessable_iff ok] at unprocessable
      have takes : RxTakes (s.rx pkt.pktSpace) {pkt.pktNum} (s.rx pkt.pktSpace) := by
        apply rxTakes_known (ok pkt.pktSpace)
        by_cases low : pkt.pktNum < (s.rx pkt.pktSpace).watermark
        · exact .inl low
        · exact .inr (by_contra fun out => unprocessable ⟨not_lt.mp low, out⟩)
      refine ⟨_, receiveStep_of_number ok ?_ ?_ takes⟩
      · simp only [applyAckmCall, result, if_true]
      · exact same.trans (update_eq_self pkt.pktSpace s.ackm.receive).symm
  · refine ⟨_, receiveStep_of_number ok ?_ receive takes⟩
    simp only [applyAckmCall, done, if_true]

theorem spaceDiscarded_step (ok : ReceiveOk s.ackm.receive) (now : OsslTime) (space : PnSpace) :
    ReceiveStep s (applyAckmCall cc s (.spaceDiscarded now space)) (fun _ => ∅) := by
  by_cases live : (s.ackm.spaces space).discarded = false
  · have receive : (applyAckmCall cc s (.spaceDiscarded now space)).ackm.receive = _ :=
      ackmOnPktSpaceDiscarded_receive cc now live
    have away : ∀ q, q ≠ space →
        (applyAckmCall cc s (.spaceDiscarded now space)).ackm.receive q = s.ackm.receive q := by
      intro q other
      rw [receive, update_of_ne other]
    refine ⟨fun q => ?_, fun q n => by simp [applyAckmCall], fun q alive => ?_⟩
    · by_cases here : q = space
      · rw [receive, here, update_self]
        exact rxPktHistoryDestroy_ok _
      · rw [away q here]
        exact ok q
    · by_cases here : q = space
      · have gone : ((applyAckmCall cc s (.spaceDiscarded now space)).ackm.receive q).2 = true := by
          rw [receive, here, update_self]
        exact absurd (gone.symm.trans alive) (by decide)
      · refine ⟨(congrArg Prod.snd (away q here)).symm.trans alive, ?_⟩
        unfold TracedAckm.rx
        rw [away q here]
        exact rxTakes_refl (ok q)
  · refine receiveStep_of_same ok rfl ?_
    simp only [applyAckmCall, ackmOnPktSpaceDiscarded, Bool.not_eq_false _ ▸ live, if_true]

theorem applyAckmCall_receive (s : TracedAckm δ) (call : AckmCall) (ok : ReceiveOk s.ackm.receive)
    (valid : AckmCallOk s call) : ∃ new, ReceiveStep s (applyAckmCall cc s call) new := by
  cases call with
  | txPacket now pkt =>
    exact ⟨_, receiveStep_of_same ok rfl (ackmOnTxPacket_receive cc now s.ackm (s.number pkt))⟩
  | rxAckFrame clock ack space =>
    exact ⟨_, receiveStep_of_aged rfl (ackmOnRxAckFrame_receive cc clock ok ack space)⟩
  | timeout clock => exact ⟨_, receiveStep_of_same ok rfl (ackmOnTimeout_receive cc clock s.ackm)⟩
  | pseudoLost now space pn =>
    exact ⟨_, receiveStep_of_same ok rfl (ackmMarkPacketPseudoLost_receive cc now s.ackm space pn)⟩
  | spaceDiscarded now space => exact ⟨_, spaceDiscarded_step cc ok now space⟩
  | handshakeConfirmed now => exact ⟨_, receiveStep_of_same ok rfl rfl⟩
  | rxPacket mem pkt => exact rxPacket_step cc ok mem valid.2
  | getAckFrame now space =>
    exact ⟨_, receiveStep_of_same ok rfl (ackmGetAckFrame_unnoticed now s.ackm space).receive⟩
  | setRxMaxAckDelay delay => exact ⟨_, receiveStep_of_same ok rfl rfl⟩
  | setTxMaxAckDelay delay => exact ⟨_, receiveStep_of_same ok rfl rfl⟩

/-- In a space that is still live, the numbers on record are those received with
    success from the watermark on. -/
structure ReceivedOk (s : TracedAckm δ) : Prop where
  histories : ReceiveOk s.ackm.receive
  exact : ∀ space, s.Live space →
    ∀ pn, pn ∈ points (s.rx space).set ↔ (space, pn) ∈ s.received ∧ (s.rx space).watermark ≤ pn

theorem freshAckm_received (statm : Statm) (ccData : δ) (isServer : Bool) :
    ReceivedOk (freshAckm statm ccData isServer) := by
  refine ⟨fun _ => rxPktHistoryInit_ok, fun space _ pn => ?_⟩
  constructor
  · rintro ⟨t, member, _⟩
    cases member
  · rintro ⟨member, _⟩
    cases member

theorem applyAckmCall_received (s : TracedAckm δ) (call : AckmCall) (ok : ReceivedOk s)
    (valid : AckmCallOk s call) : ReceivedOk (applyAckmCall cc s call) := by
  obtain ⟨new, step⟩ := applyAckmCall_receive cc s call ok.histories valid
  refine ⟨step.ok, fun space live pn => ?_⟩
  obtain ⟨alive, takes⟩ := step.live space live
  have up := takes.raised
  rw [takes.exact, step.received, ok.exact space alive]
  constructor
  · rintro ⟨⟨here, _⟩ | here, high⟩
    · exact ⟨.inl here, high⟩
    · exact ⟨.inr here, high⟩
  · rintro ⟨here | here, high⟩
    · exact ⟨.inl ⟨here, by omega⟩, high⟩
    · exact ⟨.inr here, high⟩

theorem run_received (statm : Statm) (ccData : δ) (isServer : Bool) {calls : List AckmCall}
    (valid : Admissible (applyAckmCall cc) AckmCallOk (freshAckm statm ccData isServer) calls) :
    ReceivedOk (run (applyAckmCall cc) (freshAckm statm ccData isServer) calls) :=
  run_invariant (applyAckmCall_received cc) (freshAckm_received statm ccData isServer) valid

/- What a later state of a space that is still live keeps of an earlier one. -/
structure ReceivedLater (s t : TracedAckm δ) (space : PnSpace) : Prop where
  live : s.Live space
  raised : (s.rx space).watermark ≤ (t.rx space).watermark
  received : ∀ pn, (space, pn) ∈ s.received → (space, pn) ∈ t.received

/-- The watermark of a live space never falls, and no received number is unreceived. -/
theorem run_received_later {calls : List AckmCall} (ok : ReceivedOk s)
    (valid : Admissible (applyAckmCall cc) AckmCallOk s calls) (space : PnSpace)
    (live : (run (applyAckmCall cc) s calls).Live space) :
    ReceivedLater s (run (applyAckmCall cc) s calls) space := by
  refine run_climbs (R := fun s t => t.Live space → ReceivedLater s t space) ?_ ?_
    (applyAckmCall_received cc) ?_ ok valid live
  · intro s live
    exact ⟨live, le_refl _, fun _ here => here⟩
  · intro s t u first second live
    have upper := second live
    have lower := first upper.live
    exact ⟨lower.live, lower.raised.trans upper.raised,
      fun pn here => upper.received pn (lower.received pn here)⟩
  · intro s call ok valid live
    obtain ⟨new, step⟩ := applyAckmCall_receive cc s call ok.histories valid
    obtain ⟨alive, takes⟩ := step.live space live
    exact ⟨alive, takes.raised, fun pn here => (step.received space pn).mpr (.inl here)⟩

/- The states (A), (B) and (C) of a packet number. -/
inductive PnState where
  | unreceived
  | received
  | writtenOff
  deriving DecidableEq

def pnState (h : RxHistory) (pn : Nat) : PnState :=
  if pn < h.watermark then .writtenOff
  else if uintSetQuery h.set pn then .received
  else .unreceived

/- A number moves from (A) to (B) or (C), from (B) to (C), and never back. -/
def PnState.Onward : PnState → PnState → Prop
  | .unreceived, _ => True
  | .received, next => next ≠ .unreceived
  | .writtenOff, next => next = .writtenOff

theorem pnState_unreceived_iff (ok : RxHistoryOk h) :
    pnState h pn = .unreceived ↔ h.watermark ≤ pn ∧ pn ∉ points h.set := by
  have query := uintSetQuery_iff (separated_ascending ok.separated) pn
  unfold pnState
  split
  · rename_i low
    exact ⟨nofun, fun out => absurd out.1 (by omega)⟩
  · rename_i high
    split
    · rename_i inside
      exact ⟨nofun, fun out => absurd (query.mp inside) out.2⟩
    · rename_i outside
      exact ⟨fun _ => ⟨by omega, fun here => outside (query.mpr here)⟩, fun _ => rfl⟩

theorem pnState_writtenOff_iff : pnState h pn = .writtenOff ↔ pn < h.watermark := by
  unfold pnState
  split
  · rename_i low
    exact ⟨fun _ => low, fun _ => rfl⟩
  · rename_i high
    split
    · exact ⟨nofun, fun low => absurd low high⟩
    · exact ⟨nofun, fun low => absurd low high⟩

theorem pnState_onward {space : PnSpace} (ok : ReceivedOk s) (ok' : ReceivedOk t)
    (live : t.Live space) (later : ReceivedLater s t space) (pn : Nat) :
    (pnState (s.rx space) pn).Onward (pnState (t.rx space) pn) := by
  have raised := later.raised
  cases before : pnState (s.rx space) pn with
  | unreceived => trivial
  | received =>
    intro back
    obtain ⟨high, out⟩ := (pnState_unreceived_iff (h := t.rx space) (ok'.histories space)).mp back
    refine out ((ok'.exact space live pn).mpr ⟨later.received pn ?_, high⟩)
    by_contra never
    have fresh : pnState (s.rx space) pn = .unreceived := by
      refine (pnState_unreceived_iff (h := s.rx space) (ok.histories space)).mpr
        ⟨by omega, fun here => never ?_⟩
      exact ((ok.exact space later.live pn).mp here).1
    rw [fresh] at before
    cases before
  | writtenOff =>
    have low := pnState_writtenOff_iff.mp before
    exact pnState_writtenOff_iff.mpr (by omega)

/-- No packet number is accepted twice: a number received with success in one state of a run is not
    processable in a later one as long as the space is live, and no number moves back. -/
theorem no_packet_number_twice (cc : CcMethod δ) (statm : Statm) (ccData : δ) (isServer : Bool)
    (before after : List AckmCall) (space : PnSpace)
    (valid : Admissible (applyAckmCall cc) AckmCallOk (freshAckm statm ccData isServer)
      (before ++ after))
    (live : (run (applyAckmCall cc) (freshAckm statm ccData isServer) (before ++ after)).Live space) :
    let s := run (applyAckmCall cc) (freshAckm statm ccData isServer) before
    let t := run (applyAckmCall cc) s after
    (∀ pn, (space, pn) ∈ s.received → ackmIsRxPnProcessable t.ackm pn space = false) ∧
      (s.rx space).watermark ≤ (t.rx space).watermark ∧
      (∀ pn, pn < (t.rx space).watermark → uintSetQuery (t.rx space).set pn = false) ∧
      ∀ pn, (pnState (s.rx space) pn).Onward (pnState (t.rx space) pn) := by
  intro s t
  obtain ⟨first, second⟩ := admissible_append.mp valid
  rw [run_append] at live
  have ok : ReceivedOk s := run_received cc statm ccData isServer first
  have ok' : ReceivedOk t := run_invariant (applyAckmCall_received cc) ok second
  have later : ReceivedLater s t space := run_received_later cc ok second space live
  refine ⟨fun pn here => ?_, later.raised, fun pn low => ?_, pnState_onward ok ok' live later⟩
  · rw [← Bool.not_eq_true, ackmIsRxPnProcessable_iff ok'.histories]
    rintro ⟨high, out⟩
    exact out ((ok'.exact space live pn).mpr ⟨later.received pn here, high⟩)
  · have asc : Ascending (t.rx space).set := separated_ascending (ok'.histories space).separated
    rw [← Bool.not_eq_true, uintSetQuery_iff asc]
    intro here
    have := ((ok'.exact space live pn).mp here).2
    omega

/-- A frame reports exactly the numbers in state (B), in descending ranges that do
    not border one another, and the set is within its limit. -/
structure FrameExact (s : TracedAckm δ) (space : PnSpace) (ack : FrameAck) : Prop where
  nonempty : ∀ r ∈ ack.ackRanges, r.start ≤ r.stop
  descending : ack.ackRanges.Pairwise (fun r q => q.stop + 1 < r.start)
  exact : ∀ pn, ackContains ack pn = true ↔ (space, pn) ∈ s.received ∧ (s.rx space).watermark ≤ pn
  limited : (s.rx space).set.length ≤ maxRxAckRanges

theorem ackContains_iff (ack : FrameAck) (pn : Nat) :
    ackContains ack pn = true ↔ pn ∈ points ack.ackRanges := by
  simp only [ackContains, rangeContains, any_eq_true, decide_eq_true_eq]
  rfl

theorem ackmGetAckFrame_ranges (now : OsslTime) (s : TracedAckm δ) (space : PnSpace) :
    (ackmGetAckFrame now s.ackm space).1.ackRanges = (s.rx space).set.reverse.take ackRangesNelem := by
  simp only [ackmGetAckFrame, Ackm.modify, update_self]
  rfl

/-- A frame that leaves a range out leaves out the lowest numbers on record. -/
theorem lowest_left_out {set : UintSet} (sep : Separated set) {n : Nat} (many : n < set.length) :
    ∃ pn, pn ∈ points set ∧ pn ∉ points (set.reverse.take n) := by
  cases set with
  | nil => exact absurd many (Nat.not_lt_zero n)
  | cons low rest =>
    obtain ⟨valid, _, far⟩ := separated_cons.mp sep
    refine ⟨low.start, mem_points_of_mem (by simp) ⟨le_refl _, valid⟩, ?_⟩
    rintro ⟨r, member, below, _⟩
    have short : n ≤ rest.reverse.length := by
      rw [length_reverse]
      exact Nat.lt_succ_iff.mp many
    rw [reverse_cons, take_append_of_le_length short] at member
    have := far r (mem_reverse.mp (mem_of_mem_take member))
    omega

/-- In every reachable state the frame for a live space is exact if and only if
    the set has no more ranges than the array has rows. -/
theorem ack_frame_exact_iff (cc : CcMethod δ) (statm : Statm) (ccData : δ) (isServer : Bool)
    (calls : List AckmCall) (space : PnSpace) (now : OsslTime)
    (valid : Admissible (applyAckmCall cc) AckmCallOk (freshAckm statm ccData isServer) calls)
    (live : (run (applyAckmCall cc) (freshAckm statm ccData isServer) calls).Live space) :
    let s := run (applyAckmCall cc) (freshAckm statm ccData isServer) calls
    FrameExact s space (ackmGetAckFrame now s.ackm space).1 ↔
      (s.rx space).set.length ≤ ackRangesNelem := by
  intro s
  have ok : ReceivedOk s := run_received cc statm ccData isServer valid
  have here : RxHistoryOk (s.rx space) := ok.histories space
  have ranges := ackmGetAckFrame_ranges now s space
  constructor
  · intro exact
    by_contra many
    obtain ⟨pn, member, out⟩ := lowest_left_out here.separated (not_le.mp many)
    rw [← ranges, ← ackContains_iff, exact.exact, ← ok.exact space live pn] at out
    exact out member
  · intro few
    rw [take_of_length_le (by rw [length_reverse]; exact few)] at ranges
    refine ⟨?_, ?_, fun pn => ?_, here.few⟩
    · intro r member
      rw [ranges] at member
      exact here.separated.nonempty r (mem_reverse.mp member)
    · rw [ranges]
      exact pairwise_reverse.mpr here.separated.apart
    · rw [ackContains_iff, ranges, points_reverse, ok.exact space live pn]

end

def receivedCall (pn : Nat) : AckmCall := .rxPacket true ⟨pn, 1000, .app, true, .none⟩

def sampleClock : AckmClock := ⟨3000, 3000, 3000, 3000, 3000⟩

def ackedLaterCalls : List AckmCall :=
  [.getAckFrame 2000 .app, .txPacket 2000 ⟨0, 0, 50, 2000, 7, .app, true, true⟩,
    .rxAckFrame sampleClock ⟨[⟨0, 0⟩], 0, 0, 0, 0, false⟩ .app]

def sampleAckm : TracedAckm NewReno := freshAckm statmInit newrenoNew false

theorem ackedLaterCalls_valid :
    Admissible (applyAckmCall newrenoMethod) AckmCallOk sampleAckm
      ([receivedCall 7] ++ ackedLaterCalls) := by
  refine ⟨⟨rfl, by decide⟩, rfl, ⟨rfl, by decide, by decide⟩, ⟨rfl, by simp⟩, trivial⟩

theorem no_packet_number_twice_acked :
    ackmIsRxPnProcessable (run (applyAckmCall newrenoMethod)
      (run (applyAckmCall newrenoMethod) sampleAckm [receivedCall 7]) ackedLaterCalls).ackm
      7 .app = false :=
  (no_packet_number_twice newrenoMethod statmInit newrenoNew false [receivedCall 7]
    ackedLaterCalls .app ackedLaterCalls_valid rfl).1 7 (by decide)

/- Every other number is missing, which makes four ranges. -/
def gappedCalls : List AckmCall := [0, 2, 4, 6].map receivedCall

theorem gappedCalls_valid :
    Admissible (applyAckmCall newrenoMethod) AckmCallOk sampleAckm gappedCalls :=
  ⟨⟨rfl, by decide⟩, ⟨rfl, by decide⟩, ⟨rfl, by decide⟩, ⟨rfl, by decide⟩, trivial⟩

theorem ack_frame_not_exact :
    ¬ ∀ calls : List AckmCall,
      Admissible (applyAckmCall newrenoMethod) AckmCallOk sampleAckm calls →
      (run (applyAckmCall newrenoMethod) sampleAckm calls).Live .app →
      FrameExact (run (applyAckmCall newrenoMethod) sampleAckm calls) .app
        (ackmGetAckFrame 2000 (run (applyAckmCall newrenoMethod) sampleAckm calls).ackm .app).1 := by
  intro always
  have exact := (always gappedCalls gappedCalls_valid rfl).exact 0
  exact absurd (exact.mpr (by decide)) (by decide)

theorem ack_frame_exact_iff_gapped :
    ¬ FrameExact (run (applyAckmCall newrenoMethod) sampleAckm gappedCalls) .app
      (ackmGetAckFrame 2000
        (run (applyAckmCall newrenoMethod) sampleAckm gappedCalls).ackm .app).1 := by
  intro exact
  have few := (ack_frame_exact_iff newrenoMethod statmInit newrenoNew false gappedCalls .app 2000
    gappedCalls_valid rfl).mp exact
  exact absurd few (by decide)

end Ossl
