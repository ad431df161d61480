import OpenSSL.Quic.Fifd

/- Runs of the dispatcher: packets are committed, the ACK manager reports each of them
   once, and anything else may happen to the packetiser and its streams in between. -/
namespace Ossl
open List Runs

structure FifdReport where
  lost : Bool
  pkt : QuicTxpimPkt
  before : QuicTxPacketiser
  calls : List FifdCall

structure FifdWorld where
  txp : QuicTxPacketiser
  inFlight : List QuicTxpimPkt
  reports : List FifdReport

inductive FifdOp where
  | commit (tracked : Bool) (pkt : QuicTxpimPkt)
  | lost (mem : Nat → Bool) (i : Nat)
  | acked (mem : Nat → Bool) (i : Nat)
  | discarded (i : Nat)
  | between (change : QuicTxPacketiser → QuicTxPacketiser)

def startFifd (txp : QuicTxPacketiser) : FifdWorld := ⟨txp, [], []⟩

def reportTo (w : FifdWorld) (i : Nat) (lost : Bool) (pkt : QuicTxpimPkt) (r : FifdRun) :
    FifdWorld where
  txp := r.1
  inFlight := w.inFlight.eraseIdx i
  reports := w.reports ++ [⟨lost, pkt, w.txp, r.2⟩]

def applyFifd (w : FifdWorld) : FifdOp → FifdWorld
  | .commit tracked pkt =>
    let r := quicFifdPktCommit tracked pkt w.txp
    { w with txp := r.2.1, inFlight := if r.1 then w.inFlight ++ [pkt] else w.inFlight }
  | .lost mem i =>
    match w.inFlight[i]? with
    | none => w
    | some pkt => reportTo w i true pkt (onLost mem pkt w.txp)
  | .acked mem i =>
    match w.inFlight[i]? with
    | none => w
    | some pkt => reportTo w i false pkt (onAcked mem pkt w.txp)
  | .discarded i =>
    match w.inFlight[i]? with
    | none => w
    | some pkt =>
      { w with txp := (onDiscarded pkt w.txp).1, inFlight := w.inFlight.eraseIdx i }
  | .between change => { w with txp := change w.txp }

/- The frames that abort a stream, and the call due for one. -/

inductive AbortFrame where
  | stopSending
  | resetStream
  deriving DecidableEq

def AbortFrame.carried : AbortFrame → QuicTxpimChunk → Bool
  | .stopSending, chunk => chunk.hasStopSending
  | .resetStream, chunk => chunk.hasResetStream

def AbortFrame.frameType : AbortFrame → FrameType
  | .stopSending => .stopSending
  | .resetStream => .resetStream

def abortCall (lost : Bool) (frame : AbortFrame) (streamId : Nat) : FifdCall :=
  if lost then .regenFrame frame.frameType streamId else .confirmFrame frame.frameType streamId

/-- Every STOP_SENDING and RESET_STREAM of the packet, for a stream in the map, is
    regenerated or confirmed. -/
def ReportOk (r : FifdReport) : Prop :=
  ∀ chunk ∈ r.pkt.chunks, ∀ frame : AbortFrame, frame.carried chunk = true →
    chunk.streamId ≠ noStreamId → r.before.qsm.map chunk.streamId ≠ none →
      abortCall r.lost frame chunk.streamId ∈ r.calls

/- What a report marks in the buffer of a chunk's stream. -/
def markChunk (lost mem : Bool) (chunk : QuicTxpimChunk) (sstream : QuicSstream) : QuicSstream :=
  let mark := if lost then quicSstreamMarkLost else quicSstreamMarkAcked
  let markFin := if lost then quicSstreamMarkLostFin else quicSstreamMarkAckedFin
  let sstream :=
    if chunk.start ≤ chunk.stop then (mark mem sstream chunk.start chunk.stop).2 else sstream
  if chunk.hasFin then (markFin sstream).2 else sstream

/-- The chunks of a stream up to the one whose marks complete the acknowledgement of a stream that
    has sent all its data. -/
def waitingChunks (lost : Bool) (mem : Nat → Bool) (id : Nat) (dataSent : Bool) :
    Nat → List QuicTxpimChunk → QuicSstream → List QuicTxpimChunk
  | _, [], _ => []
  | i, chunk :: chunks, sstream =>
    if chunk.streamId = id then
      let sstream := markChunk lost (mem i) chunk sstream
      chunk :: if dataSent && quicSstreamIsTotallyAcked sstream then []
        else waitingChunks lost mem id dataSent (i + 1) chunks sstream
    else waitingChunks lost mem id dataSent (i + 1) chunks sstream

def handleChunk (lost : Bool) (mem : Nat → Bool) (pnSpace i : Nat) (chunk : QuicTxpimChunk)
    (r : FifdRun) : FifdRun :=
  if lost then onLostChunk (mem i) pnSpace chunk r else onAckedChunk (mem i) pnSpace chunk r

/-- Before the report each stream with an abort frame in the packet has its send buffer, and no
    earlier chunk of the packet completes the acknowledgement of what it has sent. -/
def BuffersThere (lost : Bool) (mem : Nat → Bool) (pkt : QuicTxpimPkt) (txp : QuicTxPacketiser) :
    Prop :=
  ∀ chunk ∈ pkt.chunks, ∀ frame : AbortFrame, frame.carried chunk = true →
    chunk.streamId ≠ noStreamId → ∀ s, txp.qsm.map chunk.streamId = some s →
      ∃ sstream, s.sstream = some sstream ∧ ∃ other ∈ waitingChunks lost mem chunk.streamId
        (decide (s.sendState = .dataSent)) 0 pkt.chunks sstream, frame.carried other = true

/- Each stream is in the map under its own id. -/
def Named (txp : QuicTxPacketiser) : Prop := ∀ id s, txp.qsm.map id = some s → s.id = id

def FifdOp.KeepsNames : FifdOp → Prop
  | .between change => ∀ txp, Named txp → Named (change txp)
  | _ => True

/- What the handlers leave of a stream's send part: the buffer, and whether all data was sent. -/

def QuicStream.sendPart (s : QuicStream) : Option QuicSstream × Bool :=
  (s.sstream, decide (s.sendState = .dataSent))

def sendPart (txp : QuicTxPacketiser) (id : Nat) : Option (Option QuicSstream × Bool) :=
  (txp.qsm.map id).map QuicStream.sendPart

def settled (part : Option QuicSstream × Bool) : Option QuicSstream × Bool :=
  if part.2 && part.1.any quicSstreamIsTotallyAcked then (none, false) else part

theorem settled_settled (part : Option QuicSstream × Bool) :
    settled (settled part) = settled part := by
  unfold settled
  by_cases done : (part.2 && part.1.any quicSstreamIsTotallyAcked) = true
  · rw [if_pos done]
    rfl
  · rw [if_neg done, if_neg done]

theorem mark_map (s : QuicStream) (qsm : QuicStreamMap) (should : Bool) :
    ∃ after, (if should then streamMapMarkActive s (putStream s qsm)
        else streamMapMarkInactive s (putStream s qsm)).map =
      Function.update qsm.map s.id (some after) ∧ after.id = s.id ∧
        after.sendPart = s.sendPart := by
  unfold streamMapMarkActive streamMapMarkInactive
  split <;> split
  · exact ⟨s, rfl, rfl, rfl⟩
  · exact ⟨{ s with active := true }, Function.update_idem .., rfl, rfl⟩
  · exact ⟨s, rfl, rfl, rfl⟩
  · exact ⟨{ s with active := false }, Function.update_idem .., rfl, rfl⟩

theorem getSstream_part {txp : QuicTxPacketiser} {id : Nat} (isStream : id ≠ noStreamId)
    (pnSpace : Nat) : getSstreamById id pnSpace txp = (sendPart txp id).bind Prod.fst := by
  rw [getSstreamById, if_neg isStream, sendPart]
  cases txp.qsm.map id <;> rfl

theorem flushed_same (s : QuicStream) (qsm : QuicStreamMap) :
    (shutdownFlushDone s qsm).1.id = s.id ∧ (shutdownFlushDone s qsm).2.map = qsm.map ∧
      (shutdownFlushDone s qsm).1.sendPart = s.sendPart := by
  unfold shutdownFlushDone
  split <;> exact ⟨rfl, rfl, rfl⟩

/-- ossl_quic_stream_map_update_state frees a buffer that is acknowledged. -/
theorem updateState_map (s : QuicStream) (qsm : QuicStreamMap) :
    ∃ after, (streamMapUpdateState s qsm).map = Function.update qsm.map s.id (some after) ∧
      after.id = s.id ∧ after.sendPart = settled s.sendPart := by
  unfold streamMapUpdateState
  dsimp only
  generalize notified : (if s.sendState = .dataSent ∧ sstreamTotallyAcked s then
      (streamMapNotifyTotallyAcked s qsm).2
    else if s.shutdownFlush ∧ s.sendState = .send ∧ sstreamTotallyAcked s then
      shutdownFlushDone s qsm
    else (s, qsm)) = out
  obtain ⟨id, map, part⟩ : out.1.id = s.id ∧ out.2.map = qsm.map ∧
      out.1.sendPart = settled s.sendPart := by
    rw [← notified]
    by_cases done : s.sendState = .dataSent ∧ sstreamTotallyAcked s
    · have freed : settled s.sendPart = (none, false) := by
        rw [settled, if_pos]
        exact Bool.and_eq_true_iff.mpr ⟨decide_eq_true done.1, done.2⟩
      rw [if_pos done, streamMapNotifyTotallyAcked, done.1, freed]
      exact flushed_same { s with sendState := .dataRecvd, sstream := none } qsm
    · have stays : settled s.sendPart = s.sendPart := by
        rw [settled, if_neg]
        exact fun both => done ((Bool.and_eq_true_iff.mp both).imp of_decide_eq_true id)
      rw [if_neg done, stays]
      split
      · exact flushed_same s qsm
      · exact ⟨rfl, rfl, rfl⟩
  rw [← id, ← map, ← part]
  split
  · exact mark_map { out.1 with readyForGc := true } { out.2 with
      readyForGcList := out.2.readyForGcList ++ [out.1.id] } _
  · exact mark_map out.1 out.2 _

/-- A callback for a stream leaves the others alone, and the stream's send part as it is or
    settled. -/
structure Touches (id : Nat) (txp txp' : QuicTxPacketiser) : Prop where
  named : Named txp'
  others : ∀ other, other ≠ id → txp'.qsm.map other = txp.qsm.map other
  part : sendPart txp' id = sendPart txp id ∨ sendPart txp' id = (sendPart txp id).map settled

variable {txp txp' : QuicTxPacketiser} {id : Nat} {s : QuicStream}

theorem touches_refl (named : Named txp) : Touches id txp txp :=
  ⟨named, fun _ _ => rfl, .inl rfl⟩

theorem touches_trans {txp'' : QuicTxPacketiser} (first : Touches id txp txp')
    (second : Touches id txp' txp'') : Touches id txp txp'' := by
  refine ⟨second.named, ?_, ?_⟩
  · intro other away
    exact (second.others other away).trans (first.others other away)
  · have twice : ((sendPart txp id).map settled).map settled = (sendPart txp id).map settled := by
      rw [Option.map_map]
      exact congrArg (Option.map · _) (funext settled_settled)
    rcases first.part with same | done
    · rw [← same]
      exact second.part
    · right
      rcases second.part with same' | done'
      · exact same'.trans done
      · rw [done', done, twice]

theorem named_update {after : QuicStream} {qsm : QuicStreamMap} (named : Named txp)
    (name : after.id = id) (map : qsm.map = Function.update txp.qsm.map id (some after)) :
    Named { txp with qsm := qsm } := by
  intro other t is
  dsimp only at is
  rw [map] at is
  by_cases same : other = id
  · rw [same, Function.update_self] at is
    rw [← Option.some.inj is, name, same]
  · rw [Function.update_of_ne same] at is
    exact named other t is

/-- A stream of the map is changed, but not its send part, and then its state is updated. -/
theorem update_touches (named : Named txp) (present : txp.qsm.map id = some s) {t : QuicStream}
    (same : t.id = s.id) (part : t.sendPart = s.sendPart) :
    Touches id txp { txp with qsm := streamMapUpdateState t txp.qsm } ∧
      sendPart { txp with qsm := streamMapUpdateState t txp.qsm } id =
        (sendPart txp id).map settled := by
  obtain ⟨after, map, name, settles⟩ := updateState_map t txp.qsm
  rw [same, named id s present] at map name
  have done : sendPart { txp with qsm := streamMapUpdateState t txp.qsm } id =
      (sendPart txp id).map settled := by
    rw [sendPart, sendPart, present]
    dsimp only
    rw [map, Function.update_self, Option.map_some, settles, part]
    rfl
  refine ⟨⟨named_update named name map, fun other is => ?_, .inr done⟩, done⟩
  dsimp only
  rw [map, Function.update_of_ne is]

theorem updated_touches (named : Named txp) : Touches id txp (onSstreamUpdated id txp) ∧
    sendPart (onSstreamUpdated id txp) id = (sendPart txp id).map settled := by
  unfold onSstreamUpdated
  cases present : txp.qsm.map id with
  | none =>
    refine ⟨touches_refl named, ?_⟩
    rw [sendPart, present]
    rfl
  | some s => exact update_touches named present (by rfl) (by rfl)

theorem regen_touches (named : Named txp) (frameType : FrameType) (pnSpace : Nat) :
    Touches id txp (onRegenNotify frameType id pnSpace txp) := by
  have flag : ∀ txp' : QuicTxPacketiser, txp'.qsm = txp.qsm → Touches id txp txp' := by
    intro txp' same
    refine ⟨fun other t is => named other t (same ▸ is), fun _ _ => by rw [same], .inl ?_⟩
    rw [sendPart, same]
    rfl
  cases frameType with
  | maxStreamData | resetStream =>
    unfold onRegenNotify
    dsimp only
    cases present : txp.qsm.map id with
    | none => exact touches_refl named
    | some s => exact (update_touches named present (by rfl) (by rfl)).1
  | stopSending =>
    unfold onRegenNotify streamMapScheduleStopSending
    dsimp only
    cases present : txp.qsm.map id with
    | none => exact touches_refl named
    | some s =>
      dsimp only
      split
      · exact touches_refl named
      · split
        · exact touches_refl named
        · split
          · exact (update_touches named present (by rfl) (by rfl)).1
          · exact (update_touches named present (by rfl) (by rfl)).1
          · exact touches_refl named
  | _ => exact flag _ rfl

theorem regen_settles (named : Named txp) (pnSpace : Nat) :
    sendPart (onRegenNotify .maxStreamData id pnSpace txp) id = (sendPart txp id).map settled := by
  unfold onRegenNotify
  dsimp only
  cases present : txp.qsm.map id with
  | none =>
    dsimp only
    rw [sendPart, present]
    rfl
  | some s => exact (update_touches named present (by rfl) (by rfl)).2

theorem confirm_touches (named : Named txp) (frameType : FrameType) :
    Touches id txp (onConfirmNotify frameType id txp) := by
  unfold onConfirmNotify
  cases frameType with
  | stopSending =>
    dsimp only
    cases present : txp.qsm.map id with
    | none => exact touches_refl named
    | some s => exact (update_touches named present (by rfl) (by rfl)).1
  | resetStream =>
    dsimp only
    cases present : txp.qsm.map id with
    | none => exact touches_refl named
    | some s =>
      refine (update_touches named present ?_ ?_).1
      · unfold streamMapNotifyResetStreamAcked
        split <;> rfl
      · unfold streamMapNotifyResetStreamAcked QuicStream.sendPart
        split <;> simp [*]
  | _ => exact touches_refl named

variable {r : FifdRun}

theorem callIf_touches (call : FifdRun → FifdRun) (named : Named r.1)
    (condition : Bool) (touches : Touches id r.1 (call r).1) :
    Touches id r.1 (callIf condition call r).1 := by
  cases condition with
  | true => exact touches
  | false => exact touches_refl named

theorem touches_settle (touches : Touches id txp txp') :
    (sendPart txp' id).map settled = (sendPart txp id).map settled := by
  rcases touches.part with same | done
  · rw [same]
  · rw [done, Option.map_map]
    exact congrArg (Option.map · _) (funext settled_settled)

theorem lost_settles (named : Named r.1) (pnSpace : Nat)
    (stops resets updated : Bool) :
    let after := callIf updated (sstreamUpdated id) (regenFrame .maxStreamData id pnSpace
      (callIf resets (regenFrame .resetStream id pnSpace)
        (callIf stops (regenFrame .stopSending id pnSpace) r)))
    Touches id r.1 after.1 ∧ sendPart after.1 id = (sendPart r.1 id).map settled := by
  have first := callIf_touches (regenFrame .stopSending id pnSpace) named stops
    (regen_touches named .stopSending pnSpace)
  have second := callIf_touches (regenFrame .resetStream id pnSpace) first.named resets
    (regen_touches first.named .resetStream pnSpace)
  have third : Touches id _ _ := regen_touches second.named .maxStreamData pnSpace
  have settles : sendPart _ id = _ := regen_settles second.named pnSpace
  have before := touches_trans first second
  rw [touches_settle before] at settles
  have fourth := callIf_touches (r := regenFrame .maxStreamData id pnSpace
      (callIf resets (regenFrame .resetStream id pnSpace)
        (callIf stops (regenFrame .stopSending id pnSpace) r)))
    (sstreamUpdated id) third.named updated (updated_touches third.named).1
  refine ⟨touches_trans before (touches_trans third fourth), ?_⟩
  rcases fourth.part with same | done
  · exact same.trans settles
  · exact done.trans ((touches_settle third).trans (touches_settle before))

theorem acked_settles (named : Named r.1) (sstream : QuicSstream)
    (stops resets : Bool) :
    let after := callIf (quicSstreamIsTotallyAcked sstream) (sstreamUpdated id)
      (callIf resets (confirmFrame .resetStream id) (callIf stops (confirmFrame .stopSending id) r))
    Touches id r.1 after.1 ∧
      ∀ dataSent, sendPart r.1 id = some (some sstream, dataSent) →
        sendPart after.1 id = some (settled (some sstream, dataSent)) := by
  have first := callIf_touches (confirmFrame .stopSending id) named stops
    (confirm_touches named .stopSending)
  have second := callIf_touches (confirmFrame .resetStream id) first.named resets
    (confirm_touches first.named .resetStream)
  have before := touches_trans first second
  have third : Touches id _ _ ∧ _ := updated_touches second.named
  have fourth := callIf_touches (r := callIf resets (confirmFrame .resetStream id)
      (callIf stops (confirmFrame .stopSending id) r))
    (sstreamUpdated id) second.named (quicSstreamIsTotallyAcked sstream) third.1
  refine ⟨touches_trans before fourth, fun dataSent start => ?_⟩
  cases total : quicSstreamIsTotallyAcked sstream with
  | true =>
    refine third.2.trans ?_
    rw [touches_settle before, start]
    rfl
  | false =>
    have stays : settled (some sstream, dataSent) = (some sstream, dataSent) := by
      rw [settled, if_neg (by simp [total])]
    rw [stays]
    rcases before.part with same | done
    · exact same.trans start
    · refine done.trans ?_
      rw [start, Option.map_some, stays]

/-- Marking a buffer is no more than putting it in its place. -/
theorem put_named {pnSpace : Nat} {old sstream : QuicSstream} (named : Named txp)
    (there : getSstreamById id pnSpace txp = some old) :
    let txp' := putSstreamById id pnSpace sstream txp
    Named txp' ∧ (∀ other, other ≠ id → txp'.qsm.map other = txp.qsm.map other) ∧
      ∀ buffer dataSent, id ≠ noStreamId → sendPart txp id = some (buffer, dataSent) →
        sendPart txp' id = some (some sstream, dataSent) := by
  unfold putSstreamById
  by_cases isStream : id = noStreamId
  · rw [if_pos isStream]
    exact ⟨named, fun _ _ => rfl, fun _ _ no => absurd isStream no⟩
  · rw [getSstreamById, if_neg isStream] at there
    rw [if_neg isStream]
    cases present : txp.qsm.map id with
    | none =>
      rw [present] at there
      contradiction
    | some s =>
      have name := named id s present
      have map : (putStream { s with sstream := some sstream } txp.qsm).map =
          Function.update txp.qsm.map id (some { s with sstream := some sstream }) := by
        rw [← name]
        rfl
      refine ⟨named_update named (by exact name) map, fun other away => ?_, ?_⟩
      · dsimp only
        rw [map, Function.update_of_ne away]
      · intro buffer dataSent _ part
        rw [sendPart, present] at part
        rw [sendPart]
        dsimp only
        rw [map, Function.update_self]
        cases Option.some.inj part
        rfl

/- Which calls a handler makes. -/

variable {x : FifdCall}

variable (condition lost : Bool) (mem : Nat → Bool) (pkt : QuicTxpimPkt) (pnSpace : Nat)
    (txp : QuicTxPacketiser) (i streamId : Nat)

theorem mem_callIf_regenFrame (frameType : FrameType) (streamId pnSpace : Nat) (r : FifdRun) :
    x ∈ (callIf condition (regenFrame frameType streamId pnSpace) r).2 ↔
      x ∈ r.2 ∨ (condition = true ∧ x = .regenFrame frameType streamId) := by
  cases condition with
  | true => simp [callIf, regenFrame]
  | false => simp [callIf]

theorem mem_callIf_confirmFrame (frameType : FrameType) (streamId : Nat) (r : FifdRun) :
    x ∈ (callIf condition (confirmFrame frameType streamId) r).2 ↔
      x ∈ r.2 ∨ (condition = true ∧ x = .confirmFrame frameType streamId) := by
  cases condition with
  | true => simp [callIf, confirmFrame]
  | false => simp [callIf]

theorem mem_callIf_sstreamUpdated (r : FifdRun) :
    x ∈ (callIf condition (sstreamUpdated streamId) r).2 ↔
      x ∈ r.2 ∨ (condition = true ∧ x = .sstreamUpdated streamId) := by
  cases condition with
  | true => simp [callIf, sstreamUpdated]
  | false => simp [callIf]

theorem mem_regenFrame (frameType : FrameType) (streamId pnSpace : Nat) (r : FifdRun) :
    x ∈ (regenFrame frameType streamId pnSpace r).2 ↔
      x ∈ r.2 ∨ x = .regenFrame frameType streamId := by
  simp [regenFrame]

/-- What a chunk brings about for an abort frame. -/
def ChunkCalls (lost : Bool) (pnSpace : Nat) (chunk : QuicTxpimChunk) (txp : QuicTxPacketiser)
    (frame : AbortFrame) (streamId : Nat) (before after : List FifdCall) : Prop :=
  abortCall lost frame streamId ∈ after ↔
    abortCall lost frame streamId ∈ before ∨
      (getSstreamById chunk.streamId pnSpace txp ≠ none ∧ chunk.streamId = streamId ∧
        chunk.streamId ≠ noStreamId ∧ frame.carried chunk = true)

theorem chunkCalls_skipped {lost : Bool} {pnSpace : Nat} {chunk : QuicTxpimChunk}
    {txp : QuicTxPacketiser} {frame : AbortFrame} {streamId : Nat} {calls : List FifdCall}
    (absent : getSstreamById chunk.streamId pnSpace txp = none) :
    ChunkCalls lost pnSpace chunk txp frame streamId calls calls := by
  constructor
  · intro old
    exact .inl old
  · intro either
    cases either with
    | inl old => exact old
    | inr here => exact absurd absent here.1

theorem onLostChunk_calls (mem : Bool) (pnSpace : Nat) (chunk : QuicTxpimChunk) (r : FifdRun)
    (frame : AbortFrame) (streamId : Nat) :
    ChunkCalls true pnSpace chunk r.1 frame streamId r.2 (onLostChunk mem pnSpace chunk r).2 := by
  unfold onLostChunk
  cases there : getSstreamById chunk.streamId pnSpace r.1 with
  | none => exact chunkCalls_skipped there
  | some sstream =>
    unfold ChunkCalls
    rw [there, mem_callIf_sstreamUpdated, mem_regenFrame, mem_callIf_regenFrame,
      mem_callIf_regenFrame]
    cases frame with
    | stopSending =>
      simp [abortCall, AbortFrame.frameType, AbortFrame.carried]
      tauto
    | resetStream =>
      simp [abortCall, AbortFrame.frameType, AbortFrame.carried]
      tauto

theorem onAckedChunk_calls (mem : Bool) (pnSpace : Nat) (chunk : QuicTxpimChunk) (r : FifdRun)
    (frame : AbortFrame) (streamId : Nat) :
    ChunkCalls false pnSpace chunk r.1 frame streamId r.2 (onAckedChunk mem pnSpace chunk r).2 := by
  unfold onAckedChunk
  cases there : getSstreamById chunk.streamId pnSpace r.1 with
  | none => exact chunkCalls_skipped there
  | some sstream =>
    unfold ChunkCalls
    rw [there, mem_callIf_sstreamUpdated, mem_callIf_confirmFrame, mem_callIf_confirmFrame]
    cases frame with
    | stopSending =>
      simp [abortCall, AbortFrame.frameType, AbortFrame.carried]
      tauto
    | resetStream =>
      simp [abortCall, AbortFrame.frameType, AbortFrame.carried]
      tauto

theorem handleChunk_skipped {chunk : QuicTxpimChunk}
    (absent : getSstreamById chunk.streamId pnSpace r.1 = none) :
    handleChunk lost mem pnSpace i chunk r = r := by
  cases lost <;> simp [handleChunk, onLostChunk, onAckedChunk, absent]

/-- What a handler leaves of the streams: a chunk marks its own stream's buffer, which is freed once
    all is sent and acknowledged. -/
theorem handleChunk_streams (named : Named r.1) (chunk : QuicTxpimChunk) :
    let after := (handleChunk lost mem pnSpace i chunk r).1
    Named after ∧
      (∀ other, other ≠ chunk.streamId → after.qsm.map other = r.1.qsm.map other) ∧
      ∀ sstream dataSent, chunk.streamId ≠ noStreamId →
        sendPart r.1 chunk.streamId = some (some sstream, dataSent) →
        sendPart after chunk.streamId =
          some (settled (some (markChunk lost (mem i) chunk sstream), dataSent)) := by
  cases there : getSstreamById chunk.streamId pnSpace r.1 with
  | none =>
    rw [handleChunk_skipped lost mem pnSpace i there]
    refine ⟨named, fun _ _ => rfl, fun sstream dataSent isStream part => ?_⟩
    rw [getSstream_part isStream, part] at there
    contradiction
  | some old =>
    have same (isStream : chunk.streamId ≠ noStreamId) {sstream : QuicSstream} {dataSent : Bool}
        (part : sendPart r.1 chunk.streamId = some (some sstream, dataSent)) : old = sstream := by
      rw [getSstream_part isStream, part] at there
      exact (Option.some.inj there).symm
    cases lost with
    | true =>
      simp only [handleChunk, onLostChunk, there, if_true]
      generalize marked : (if (chunk.hasFin && decide (chunk.streamId ≠ noStreamId)) = true then _
        else _) = new
      have marks (isStream : chunk.streamId ≠ noStreamId) :
          markChunk true (mem i) chunk old = new := by
        rw [← marked]
        simp [markChunk, isStream]
      obtain ⟨named0, others, part⟩ := put_named named there
      obtain ⟨touches, settles⟩ := lost_settles
        (r := (putSstreamById chunk.streamId pnSpace new r.1, r.2)) named0 pnSpace
        (chunk.hasStopSending && decide (chunk.streamId ≠ noStreamId))
        (chunk.hasResetStream && decide (chunk.streamId ≠ noStreamId)) _
      refine ⟨touches.named, ?_, ?_⟩
      · intro other away
        exact (touches.others other away).trans (others other away)
      intro buffer dataSent isStream before
      rw [settles, part _ _ isStream before, ← same isStream before, marks isStream]
      rfl
    | false =>
      simp only [handleChunk, onAckedChunk, there, if_false, Bool.false_eq_true]
      generalize marked : (if (chunk.hasFin && decide (chunk.streamId ≠ noStreamId)) = true then _
        else _) = new
      have marks (isStream : chunk.streamId ≠ noStreamId) :
          markChunk false (mem i) chunk old = new := by
        rw [← marked]
        simp [markChunk, isStream]
      obtain ⟨named0, others, part⟩ := put_named named there
      obtain ⟨touches, settles⟩ := acked_settles
        (r := (putSstreamById chunk.streamId pnSpace new r.1, r.2)) named0 new
        (chunk.hasStopSending && decide (chunk.streamId ≠ noStreamId))
        (chunk.hasResetStream && decide (chunk.streamId ≠ noStreamId))
      refine ⟨touches.named, ?_, ?_⟩
      · intro other away
        exact (touches.others other away).trans (others other away)
      intro buffer dataSent isStream before
      rw [← same isStream before, marks isStream]
      exact settles dataSent (part _ _ isStream before)

theorem handleChunk_calls (chunk : QuicTxpimChunk) (r : FifdRun) (frame : AbortFrame)
    (streamId : Nat) : ChunkCalls lost pnSpace chunk r.1 frame streamId r.2
      (handleChunk lost mem pnSpace i chunk r).2 := by
  cases lost with
  | true => exact onLostChunk_calls (mem i) pnSpace chunk r frame streamId
  | false => exact onAckedChunk_calls (mem i) pnSpace chunk r frame streamId

def handleChunks (lost : Bool) (mem : Nat → Bool) (pnSpace i : Nat) (chunks : List QuicTxpimChunk)
    (r : FifdRun) : FifdRun :=
  if lost then onLostChunks mem pnSpace i chunks r else onAckedChunks mem pnSpace i chunks r

theorem handleChunks_cons (chunk : QuicTxpimChunk) (chunks : List QuicTxpimChunk) (r : FifdRun) :
    handleChunks lost mem pnSpace i (chunk :: chunks) r =
      handleChunks lost mem pnSpace (i + 1) chunks (handleChunk lost mem pnSpace i chunk r) := by
  cases lost <;> rfl

theorem there_iff {P : QuicSstream → Bool → Prop} (sstream : QuicSstream) (dataSent : Bool) :
    (∃ sstream' dataSent', some (some sstream, dataSent) = some (some sstream', dataSent') ∧
      P sstream' dataSent') ↔ P sstream dataSent := by
  constructor
  · rintro ⟨_, _, ⟨⟩, here⟩
    exact here
  · intro here
    exact ⟨_, _, rfl, here⟩

/-- The calls for abort frames are those of the chunks that find a buffer. -/
theorem handleChunks_calls (chunks : List QuicTxpimChunk) (r : FifdRun) (frame : AbortFrame)
    (isStream : id ≠ noStreamId) (named : Named r.1) :
    abortCall lost frame id ∈ (handleChunks lost mem pnSpace i chunks r).2 ↔
      abortCall lost frame id ∈ r.2 ∨ ∃ sstream dataSent,
        sendPart r.1 id = some (some sstream, dataSent) ∧
          ∃ other ∈ waitingChunks lost mem id dataSent i chunks sstream,
            frame.carried other = true := by
  induction chunks generalizing i r with
  | nil =>
    have unchanged : handleChunks lost mem pnSpace i [] r = r := by cases lost <;> rfl
    rw [unchanged]
    simp [waitingChunks]
  | cons chunk chunks ih =>
    have here : ChunkCalls lost pnSpace chunk r.1 frame id r.2
      (handleChunk lost mem pnSpace i chunk r).2 := handleChunk_calls ..
    obtain ⟨named', others, marks⟩ := handleChunk_streams lost mem pnSpace i named chunk
    unfold ChunkCalls at here
    rw [handleChunks_cons, ih _ _ named', here]
    by_cases other : chunk.streamId = id
    · subst other
      have there : getSstreamById chunk.streamId pnSpace r.1 = _ := getSstream_part isStream pnSpace
      match part : sendPart r.1 chunk.streamId with
      | some (some buffer, dataSent) =>
        rw [part] at there
        rw [there, marks buffer dataSent isStream part, there_iff, waitingChunks, if_pos rfl,
          settled]
        dsimp only [Option.any_some, Option.bind_some]
        by_cases done : (dataSent && quicSstreamIsTotallyAcked
            (markChunk lost (mem i) chunk buffer)) = true
        · rw [if_pos done, if_pos done]
          simp [isStream]
        · rw [if_neg done, if_neg done, there_iff]
          simp [isStream, or_assoc]
      | some (none, dataSent) | none =>
        rw [part] at there
        rw [handleChunk_skipped lost mem pnSpace i there, there, part]
        simp
    · have same : sendPart (handleChunk lost mem pnSpace i chunk r).1 id = sendPart r.1 id := by
        rw [sendPart, others id (Ne.symm other)]
        rfl
      simp only [waitingChunks, if_false, same, other, false_and, and_false, or_false]

/- The rest of the handlers adds no abort frame. -/

theorem onLost_calls (frame : AbortFrame) (streamId : Nat) :
    abortCall true frame streamId ∈ (onLost mem pkt txp).2 ↔
      abortCall true frame streamId ∈
        (handleChunks true mem pkt.pktSpace 0 pkt.chunks (txp, [])).2 := by
  unfold onLost handleChunks
  rw [if_pos rfl, mem_callIf_regenFrame, mem_callIf_regenFrame, mem_callIf_regenFrame,
    mem_callIf_regenFrame, mem_callIf_regenFrame]
  cases frame with
  | stopSending => simp [abortCall, AbortFrame.frameType]
  | resetStream => simp [abortCall, AbortFrame.frameType]

theorem onAcked_calls (frame : AbortFrame) (streamId : Nat) :
    abortCall false frame streamId ∈ (onAcked mem pkt txp).2 ↔
      abortCall false frame streamId ∈
        (handleChunks false mem pkt.pktSpace 0 pkt.chunks (txp, [])).2 := by
  unfold onAcked handleChunks
  rw [if_neg Bool.false_ne_true]
  simp [abortCall]

theorem report_iff (named : Named txp) {calls : List FifdCall}
    (made : ∀ (frame : AbortFrame) streamId, abortCall lost frame streamId ∈ calls ↔
      abortCall lost frame streamId ∈
        (handleChunks lost mem pkt.pktSpace 0 pkt.chunks (txp, [])).2) :
    ReportOk ⟨lost, pkt, txp, calls⟩ ↔ BuffersThere lost mem pkt txp := by
  have exactly (frame : AbortFrame) {id : Nat} {s : QuicStream} (isStream : id ≠ noStreamId)
      (present : txp.qsm.map id = some s) : abortCall lost frame id ∈ calls ↔
        ∃ sstream, s.sstream = some sstream ∧ ∃ other ∈ waitingChunks lost mem id
          (decide (s.sendState = .dataSent)) 0 pkt.chunks sstream, frame.carried other = true := by
    have part : sendPart txp id = some s.sendPart := by
      rw [sendPart, present]
      rfl
    rw [made, handleChunks_calls lost mem pkt.pktSpace 0 pkt.chunks (txp, []) frame isStream named,
      part]
    constructor
    · rintro (old | ⟨sstream, dataSent, same, here⟩)
      · cases old
      · have parts := Prod.ext_iff.mp (Option.some.inj same)
        refine ⟨sstream, parts.1, ?_⟩
        rw [show decide (s.sendState = .dataSent) = dataSent from parts.2]
        exact here
    · rintro ⟨sstream, buffer, here⟩
      exact .inr ⟨sstream, _, congrArg some (Prod.ext buffer rfl), here⟩
  constructor
  · intro ok chunk member frame carried isStream s present
    have held : txp.qsm.map chunk.streamId ≠ none := by simp [present]
    exact (exactly frame isStream present).mp (ok chunk member frame carried isStream held)
  · intro there chunk member frame carried isStream held
    obtain ⟨s, present⟩ := Option.ne_none_iff_exists'.mp held
    exact (exactly frame isStream present).mpr
      (there chunk member frame carried isStream s present)

/- Every step leaves the streams under their own ids. -/

theorem handleChunks_named (chunks : List QuicTxpimChunk) (named : Named r.1) :
    Named (handleChunks lost mem pnSpace i chunks r).1 := by
  induction chunks generalizing i r with
  | nil => cases lost <;> exact named
  | cons chunk chunks ih =>
    rw [handleChunks_cons]
    exact ih _ (handleChunk_streams lost mem pnSpace i named chunk).1

theorem onLost_named (named : Named txp) : Named (onLost mem pkt txp).1 := by
  have chunks := handleChunks_named true mem pkt.pktSpace 0 pkt.chunks (r := (txp, [])) named
  have call {r : FifdRun} (condition : Bool) (frameType : FrameType) (before : Named r.1) :
      Named (callIf condition (regenFrame frameType noStreamId pkt.pktSpace) r).1 :=
    (callIf_touches _ before condition (regen_touches before frameType pkt.pktSpace)).named
  exact call _ _ (call _ _ (call _ _ (call _ _ (call _ _ chunks))))

theorem commitChunks_named (chunks : List QuicTxpimChunk) (named : Named txp) :
    Named (commitChunks pnSpace chunks txp).2 := by
  induction chunks generalizing txp with
  | nil => exact named
  | cons chunk chunks ih =>
    unfold commitChunks
    cases there : getSstreamById chunk.streamId pnSpace txp with
    | none => exact ih txp named
    | some sstream =>
      dsimp only
      generalize (if chunk.start ≤ chunk.stop then _ else _) = sent
      generalize (if chunk.hasFin = true then _ else _) = fin
      split
      · exact (put_named named there).1
      · split
        · exact (put_named named there).1
        · exact ih _ (put_named named there).1

theorem applyFifd_named (w : FifdWorld) (op : FifdOp) (named : Named w.txp)
    (keeps : op.KeepsNames) : Named (applyFifd w op).txp := by
  cases op with
  | commit tracked pkt => exact commitChunks_named pkt.pktSpace w.txp pkt.chunks named
  | lost mem i =>
    rw [applyFifd]
    cases w.inFlight[i]? with
    | none => exact named
    | some pkt => exact onLost_named mem pkt w.txp named
  | acked mem i =>
    rw [applyFifd]
    cases w.inFlight[i]? with
    | none => exact named
    | some pkt =>
      exact handleChunks_named false mem pkt.pktSpace 0 pkt.chunks (r := (w.txp, [])) named
  | discarded i =>
    rw [applyFifd]
    cases w.inFlight[i]? <;> exact named
  | between change => exact keeps w.txp named

def AbortFramesKept (w : FifdWorld) : Prop := ∀ r ∈ w.reports, ReportOk r

def BuffersThereAt (w : FifdWorld) : FifdOp → Prop
  | .lost mem i => ∀ pkt, w.inFlight[i]? = some pkt → BuffersThere true mem pkt w.txp
  | .acked mem i => ∀ pkt, w.inFlight[i]? = some pkt → BuffersThere false mem pkt w.txp
  | _ => True

theorem reportTo_kept {w : FifdWorld} (kept : AbortFramesKept w) (i : Nat) (lost : Bool)
    (pkt : QuicTxpimPkt) (r : FifdRun) :
    AbortFramesKept (reportTo w i lost pkt r) ↔ ReportOk ⟨lost, pkt, w.txp, r.2⟩ := by
  constructor
  · intro all
    apply all
    exact mem_append_right _ (mem_singleton.mpr rfl)
  · intro last report member
    cases mem_append.mp member with
    | inl old => exact kept report old
    | inr isLast =>
      rw [mem_singleton.mp isLast]
      exact last

theorem applyFifd_kept (w : FifdWorld) (op : FifdOp) (named : Named w.txp)
    (kept : AbortFramesKept w) :
    AbortFramesKept (applyFifd w op) ↔ BuffersThereAt w op := by
  cases op with
  | commit tracked pkt => exact ⟨fun _ => trivial, fun _ => kept⟩
  | lost mem i =>
    rw [applyFifd, BuffersThereAt]
    cases w.inFlight[i]? with
    | none => exact ⟨fun _ pkt is => (nomatch is), fun _ => kept⟩
    | some pkt =>
      rw [reportTo_kept kept, report_iff true mem pkt w.txp named (onLost_calls mem pkt w.txp)]
      constructor
      · intro there other same
        obtain rfl := Option.some.inj same
        exact there
      · intro all
        exact all pkt rfl
  | acked mem i =>
    rw [applyFifd, BuffersThereAt]
    cases w.inFlight[i]? with
    | none => exact ⟨fun _ pkt is => (nomatch is), fun _ => kept⟩
    | some pkt =>
      rw [reportTo_kept kept, report_iff false mem pkt w.txp named (onAcked_calls mem pkt w.txp)]
      constructor
      · intro there other same
        obtain rfl := Option.some.inj same
        exact there
      · intro all
        exact all pkt rfl
  | discarded i =>
    rw [applyFifd]
    cases w.inFlight[i]? with
    | none => exact ⟨fun _ => trivial, fun _ => kept⟩
    | some pkt => exact ⟨fun _ => trivial, fun _ => kept⟩
  | between change => exact ⟨fun _ => trivial, fun _ => kept⟩

/-- STOP_SENDING and RESET_STREAM frames are regenerated when lost and confirmed when acknowledged,
    all along a run, exactly if at each report their streams have a send buffer and no earlier
    chunk of the packet is what frees it. -/
theorem abort_frames_kept_iff (txp : QuicTxPacketiser) (ops : List FifdOp) (named : Named txp)
    (keeps : ∀ op ∈ ops, op.KeepsNames) :
    (∀ w ∈ visited applyFifd (startFifd txp) ops, ∀ r ∈ w.reports, ReportOk r) ↔
      Admissible applyFifd BuffersThereAt (startFifd txp) ops := by
  have stays (w : FifdWorld) (op : FifdOp) (inv : Named w.txp) (ok : op.KeepsNames) :
      Named (applyFifd w op).txp := applyFifd_named w op inv ok
  apply visited_good_iff stays _ named _ (admissible_of_forall keeps)
  · intro w op inv kept _
    exact applyFifd_kept w op inv kept
  · intro r member
    cases member

/- Stream 0 is a bidirectional stream of the client, stream 3 one the server sends on. -/
def sampleSstream : QuicSstream := ⟨ringBufInit, [], [], false, false, false, false⟩

def sampleStream (id : Nat) (serverInit bidi : Bool) : QuicStream where
  id := id
  stopSendingAec := 0
  resetStreamAec := 0
  sendFinalSize := maxU64
  sstream := if bidi then some sampleSstream else none
  txfc := txfcInit
  rxfc := rxfcInit 0 0
  serverInit := serverInit
  bidi := bidi
  sendState := if bidi then .send else .absent
  recvState := .recv
  active := false
  stopSending := !bidi
  peerStopSending := false
  wantMaxStreamData := false
  wantStopSending := false
  wantResetStream := false
  ackedStopSending := false
  deleted := false
  readyForGc := false
  shutdownFlush := false

def sampleTxp : QuicTxPacketiser where
  qsm :=
    { map := fun id =>
        if id = 0 then some (sampleStream 0 false true)
        else if id = 3 then some (sampleStream 3 true false)
        else none
      isServer := false
      activeList := []
      readyForGcList := []
      rrCur := none
      numShutdownFlush := 0
      getStreamLimit := none
      connTxfc := txfcInit }
  crypto := fun _ => none
  wantHandshakeDone := false
  wantMaxData := false
  wantMaxStreamsBidi := false
  wantMaxStreamsUni := false
  wantAck := 0

def abortPkt (streamId : Nat) (stopSending resetStream : Bool) : QuicTxpimPkt where
  pktSpace := 2
  chunks := (abortChunk streamId stopSending resetStream).toList
  retx := []
  hadHandshakeDoneFrame := false
  hadMaxDataFrame := false
  hadMaxStreamsBidiFrame := false
  hadMaxStreamsUniFrame := false
  hadAckFrame := false

def resetStream0 (txp : QuicTxPacketiser) : QuicTxPacketiser :=
  match txp.qsm.map 0 with
  | none => txp
  | some s => { txp with qsm := (streamMapResetStreamSendPart s 7 txp.qsm).2 }

def lostResetOps : List FifdOp :=
  [.between resetStream0, .commit true (abortPkt 0 false true), .lost (fun _ => true) 0]

def ackedStopOps : List FifdOp := [.commit true (abortPkt 3 true false), .acked (fun _ => true) 0]

/-- A lost RESET_STREAM is not sent again, as resetting freed the send buffer, and the
    acknowledgement of a STOP_SENDING is not noticed on a stream that only receives. -/
theorem abort_frames_forgotten :
    ¬ (∀ w ∈ visited applyFifd (startFifd sampleTxp) lostResetOps, ∀ r ∈ w.reports, ReportOk r) ∧
    ¬ (∀ w ∈ visited applyFifd (startFifd sampleTxp) ackedStopOps,
      ∀ r ∈ w.reports, ReportOk r) := by
  constructor
  · intro all
    have last := all _ (run_mem_visited applyFifd (startFifd sampleTxp) lostResetOps)
    have reports : (run applyFifd (startFifd sampleTxp) lostResetOps).reports =
        [⟨true, abortPkt 0 false true, resetStream0 sampleTxp, []⟩] := rfl
    rw [reports] at last
    have made := last _ (mem_singleton.mpr rfl) _ (mem_singleton.mpr rfl) .resetStream
      rfl (by decide) (fun is => nomatch is)
    cases made
  · intro all
    have last := all _ (run_mem_visited applyFifd (startFifd sampleTxp) ackedStopOps)
    have reports : (run applyFifd (startFifd sampleTxp) ackedStopOps).reports =
        [⟨false, abortPkt 3 true false, sampleTxp, []⟩] := rfl
    rw [reports] at last
    have made := last _ (mem_singleton.mpr rfl) _ (mem_singleton.mpr rfl) .stopSending
      rfl (by decide) (fun is => nomatch is)
    cases made

theorem sampleTxp_named : Named sampleTxp := by
  intro id s is
  by_cases zero : id = 0
  · subst zero
    cases Option.some.inj is
    rfl
  · by_cases three : id = 3
    · subst three
      cases Option.some.inj is
      rfl
    · simp [sampleTxp, zero, three] at is

def keptStopOps : List FifdOp :=
  [.commit true (abortPkt 0 true false), .lost (fun _ => true) 0,
    .commit true (abortPkt 0 true false), .acked (fun _ => true) 0]

theorem keptStopOps_there :
    Admissible applyFifd BuffersThereAt (startFifd sampleTxp) keptStopOps := by
  have there (lost : Bool) (txp : QuicTxPacketiser)
      (buffer : (txp.qsm.map 0).bind QuicStream.sstream = some sampleSstream) :
      BuffersThere lost (fun _ => true) (abortPkt 0 true false) txp := by
    intro chunk member frame carried isStream s present
    obtain rfl := mem_singleton.mp member
    have held : s.sstream = some sampleSstream := by
      rw [show txp.qsm.map 0 = some s from present] at buffer
      exact buffer
    refine ⟨sampleSstream, held, _, ?_, carried⟩
    exact mem_cons_self
  refine ⟨trivial, fun pkt is => ?_, trivial, fun pkt is => ?_, trivial⟩
  · cases Option.some.inj is
    exact there true _ rfl
  · cases Option.some.inj is
    exact there false _ rfl

theorem abort_frames_kept_stop :
    Admissible applyFifd BuffersThereAt (startFifd sampleTxp) keptStopOps ∧
      ∀ w ∈ visited applyFifd (startFifd sampleTxp) keptStopOps, ∀ r ∈ w.reports, ReportOk r := by
  refine ⟨keptStopOps_there, ?_⟩
  apply (abort_frames_kept_iff sampleTxp keptStopOps sampleTxp_named _).mpr keptStopOps_there
  simp only [keptStopOps, forall_mem_cons]
  exact ⟨trivial, trivial, trivial, trivial, forall_mem_nil _⟩

end Ossl
