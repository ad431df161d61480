import OpenSSL.Quic.AckmHistory
import OpenSSL.Quic.Cc
import OpenSSL.Quic.Statm

/- The ACK manager of ssl/quic/quic_ackm.c, over any congestion controller. The callbacks of packets
   are recorded in the order they are called, and readings of a clock are arguments. The deadline
   callbacks are left out. -/
namespace Ossl
open Spans

inductive TxCallback where
  | acked
  | lost
  | discarded
  deriving DecidableEq

structure AckmSpace where
  txHistory : TxHistory
  rxHistory : RxHistory
  largestAckedPkt : Nat
  timeOfLastAckElicitingPkt : OsslTime
  lossTime : OsslTime
  ackElicitingBytesInFlight : Nat
  peerEcnce : Nat
  discarded : Bool
  rxAckDesired : Bool
  rxAckGenerated : Bool
  pendingPto : Nat
  ack : FrameAck
  rxLargestPn : Nat
  rxLargestTime : OsslTime
  rxEct0 : Nat
  rxEct1 : Nat
  rxEcnce : Nat
  rxAckElicitingPktsSinceLastAck : Nat
  rxAckFlushDeadline : OsslTime

structure Ackm (δ : Type*) where
  spaces : PnSpace → AckmSpace
  statm : Statm
  ccData : δ
  ptoCount : Nat
  lossDetectionDeadline : OsslTime
  firstRttSample : OsslTime
  bytesInFlight : Nat
  handshakeConfirmed : Bool
  isServer : Bool
  peerCompletedAddrValidation : Bool
  antiDeadlockInitial : Nat
  antiDeadlockHandshake : Nat
  rxMaxAckDelay : OsslTime
  txMaxAckDelay : OsslTime
  calls : List (TxCallback × TxPkt)

/- The readings a call may take: three of the ACK manager's own clock, and those
   of the congestion controller. -/
structure AckmClock where
  rtt : OsslTime
  lost : OsslTime
  pto : OsslTime
  ecn : OsslTime
  cong : OsslTime

def kGranularity : OsslTime := timeMs
def kTimeThresholdNum : Nat := 9
def kTimeThresholdDen : Nat := 8
def maxPtoCount : Nat := 16
def quicDefaultMaxAckDelay : Nat := 25
def pktsBeforeAck : Nat := 2

section
variable {δ : Type*} (cc : CcMethod δ)

def Ackm.modify (a : Ackm δ) (space : PnSpace) (f : AckmSpace → AckmSpace) : Ackm δ :=
  { a with spaces := Function.update a.spaces space (f (a.spaces space)) }

def ackmSpaceNew : AckmSpace where
  txHistory := txPktHistoryInit
  rxHistory := rxPktHistoryInit
  largestAckedPkt := quicPnInvalid
  timeOfLastAckElicitingPkt := 0
  lossTime := 0
  ackElicitingBytesInFlight := 0
  peerEcnce := 0
  discarded := false
  rxAckDesired := false
  rxAckGenerated := false
  pendingPto := 0
  ack := ⟨[], 0, 0, 0, 0, false⟩
  rxLargestPn := 0
  rxLargestTime := 0
  rxEct0 := 0
  rxEct1 := 0
  rxEcnce := 0
  rxAckElicitingPktsSinceLastAck := 0
  rxAckFlushDeadline := osslTimeInfinite

def ackmNew (statm : Statm) (ccData : δ) (isServer : Bool) : Ackm δ where
  spaces := fun _ => ackmSpaceNew
  statm := statm
  ccData := ccData
  ptoCount := 0
  lossDetectionDeadline := 0
  firstRttSample := 0
  bytesInFlight := 0
  handshakeConfirmed := false
  isServer := isServer
  peerCompletedAddrValidation := false
  antiDeadlockInitial := 0
  antiDeadlockHandshake := 0
  rxMaxAckDelay := osslMs2time quicDefaultMaxAckDelay
  txMaxAckDelay := osslMs2time quicDefaultMaxAckDelay
  calls := []

def ackIncludesAckEliciting (pkts : List TxPkt) : Bool := pkts.any TxPkt.isAckEliciting

def ackmAckElicitingBytesInFlight (a : Ackm δ) : Nat :=
  addU64 (addU64 (a.spaces .initial).ackElicitingBytesInFlight
    (a.spaces .handshake).ackElicitingBytesInFlight) (a.spaces .app).ackElicitingBytesInFlight

def ackmDetectAndRemoveNewlyAckedPkts (a : Ackm δ) (ack : FrameAck) (space : PnSpace) :
    List TxPkt × Ackm δ :=
  let r := detectAndRemoveNewlyAckedPkts (a.spaces space).txHistory ack.ackRanges
  (r.1, a.modify space (fun s => { s with txHistory := r.2 }))

/- How long after it was sent a packet may be deemed lost. -/
def ackmLossDelay (rtt : RttInfo) : OsslTime :=
  let lossDelay := osslTimeMultiply (osslTimeMax rtt.latestRtt rtt.smoothedRtt) kTimeThresholdNum
  osslTimeMax (osslTimeDivide lossDelay kTimeThresholdDen) kGranularity

def ackmDetectAndRemoveLostPkts (now : OsslTime) (a : Ackm δ) (space : PnSpace) :
    List TxPkt × Ackm δ :=
  let lossDelay := ackmLossDelay (statmGetRttInfo a.statm)
  let h := (a.spaces space).txHistory
  let r := lostWalk (a.spaces space).largestAckedPkt (osslTimeSubtract now lossDelay) lossDelay
    h.packets (osslTimeZero, h)
  (r.1, a.modify space (fun s => { s with lossTime := r.2.1, txHistory := r.2.2 }))

def ackmGetLossTimeAndSpace (a : Ackm δ) : OsslTime × PnSpace :=
  [PnSpace.handshake, PnSpace.app].foldl (fun best i =>
    if osslTimeIsZero best.1 ∨ (a.spaces i).lossTime < best.1 then ((a.spaces i).lossTime, i)
    else best) ((a.spaces .initial).lossTime, .initial)

/- The body of the loop over the spaces, up to where it compares the timeout. The
   break in the last round is a skip, for no round follows. -/
def ackmPtoRound (a : Ackm δ) (duration : OsslTime) (best : OsslTime × PnSpace) (i : PnSpace) :
    OsslTime × PnSpace :=
  if (a.spaces i).ackElicitingBytesInFlight = 0 ∧
      (a.handshakeConfirmed = true ∨ a.isServer = true) then best
  else if i = .app ∧ a.handshakeConfirmed = false then best
  else
    let duration :=
      if i = .app ∧ osslTimeIsInfinite a.rxMaxAckDelay = false then
        osslTimeAdd duration (osslTimeMultiply a.rxMaxAckDelay (1 <<< min a.ptoCount maxPtoCount))
      else duration
    if osslTimeIsZero (a.spaces i).timeOfLastAckElicitingPkt then best
    else
      let t := osslTimeAdd (a.spaces i).timeOfLastAckElicitingPkt duration
      if t < best.1 then (t, i) else best

def ackmGetPtoTimeAndSpace (now : OsslTime) (a : Ackm δ) : OsslTime × PnSpace :=
  let rtt := statmGetRttInfo a.statm
  let duration := osslTimeAdd rtt.smoothedRtt
    (osslTimeMax (osslTimeMultiply rtt.rttVariance 4) kGranularity)
  let duration := osslTimeMultiply duration (1 <<< min a.ptoCount maxPtoCount)
  if ackmAckElicitingBytesInFlight a = 0 then
    (osslTimeAdd now duration, if (a.spaces .initial).discarded then .handshake else .initial)
  else
    [PnSpace.initial, PnSpace.handshake, PnSpace.app].foldl (ackmPtoRound a duration)
      (osslTimeInfinite, .initial)

def ackmSetLossDetectionTimer (now : OsslTime) (a : Ackm δ) : Ackm δ :=
  let earliestLossTime := (ackmGetLossTimeAndSpace a).1
  { a with lossDetectionDeadline :=
      if osslTimeIsZero earliestLossTime = false then earliestLossTime
      else if ackmAckElicitingBytesInFlight a = 0 ∧ a.peerCompletedAddrValidation = true then
        osslTimeZero
      else (ackmGetPtoTimeAndSpace now a).1 }

def ackmLeaveFlight (a : Ackm δ) (p : TxPkt) : Ackm δ :=
  if p.isInflight then
    let a := { a with bytesInFlight := subU64 a.bytesInFlight p.numBytes }
    if p.isAckEliciting then
      a.modify p.pktSpace (fun s =>
        { s with ackElicitingBytesInFlight := subU64 s.ackElicitingBytesInFlight p.numBytes })
    else a
  else a

def ackmCall (a : Ackm δ) (callback : TxCallback) (p : TxPkt) : Ackm δ :=
  { a with calls := a.calls ++ [(callback, p)] }

def ackmInPersistentCongestion (_a : Ackm δ) (_lpkt : List TxPkt) : Bool := false

def ackmOnPktLost (pseudo : Bool) (a : Ackm δ) (p : TxPkt) : Ackm δ :=
  let a := ackmLeaveFlight a p
  let a :=
    if p.isInflight && !pseudo then
      { a with ccData := (cc.onDataLost a.ccData ⟨p.time, p.numBytes⟩).2 }
    else a
  ackmCall a .lost p

def ackmOnPktsLost (now : OsslTime) (a : Ackm δ) (lpkt : List TxPkt) (pseudo : Bool) : Ackm δ :=
  let a := lpkt.foldl (ackmOnPktLost cc pseudo) a
  let flags :=
    if osslTimeIsZero a.firstRttSample = false ∧ ackmInPersistentCongestion a lpkt = true then
      ccLostFlagPersistentCongestion
    else 0
  { a with ccData := (cc.onDataLostFinished now a.ccData flags).2 }

def ackmOnPktAcked (a : Ackm δ) (p : TxPkt) : Ackm δ :=
  let a := ackmLeaveFlight a p
  let a :=
    if p.isInflight && decide (p.largestAcked ≠ quicPnInvalid) then
      a.modify p.pktSpace (fun s =>
        { s with
          rxHistory := (rxPktHistoryBumpWatermark s.rxHistory (addU64 p.largestAcked 1)).2 })
    else a
  let a := ackmCall a .acked p
  if p.isInflight then { a with ccData := (cc.onDataAcked a.ccData ⟨p.time, p.numBytes⟩).2 } else a

def ackmOnPktsAcked (a : Ackm δ) (apkt : List TxPkt) : Ackm δ := apkt.foldl (ackmOnPktAcked cc) a

def txPktAllowed (a : Ackm δ) (pkt : TxPkt) : Bool :=
  !(osslTimeIsZero pkt.time ||
      decide (pkt.time < (a.spaces pkt.pktSpace).timeOfLastAckElicitingPkt)) &&
    !decide (pkt.numBytes = 0) && !(!pkt.isInflight && pkt.isAckEliciting)

def ackmCountSent (a : Ackm δ) (pkt : TxPkt) : Ackm δ :=
  let a :=
    if pkt.isAckEliciting then
      a.modify pkt.pktSpace (fun s =>
        { s with
          timeOfLastAckElicitingPkt := pkt.time
          ackElicitingBytesInFlight := addU64 s.ackElicitingBytesInFlight pkt.numBytes })
    else a
  { a with bytesInFlight := addU64 a.bytesInFlight pkt.numBytes }

def ackmOnTxPacket (now : OsslTime) (a : Ackm δ) (pkt : TxPkt) : Bool × Ackm δ :=
  if txPktAllowed a pkt = false then (false, a)
  else
    let r := txPktHistoryAdd (a.spaces pkt.pktSpace).txHistory pkt
    let a := a.modify pkt.pktSpace (fun s => { s with txHistory := r.2 })
    if r.1 = false then (false, a)
    else if pkt.isInflight then
      let a := ackmSetLossDetectionTimer now (ackmCountSent a pkt)
      (true, { a with ccData := (cc.onDataSent a.ccData pkt.numBytes).2 })
    else (true, a)

def ackmProcessEcn (now : OsslTime) (a : Ackm δ) (ack : FrameAck) (space : PnSpace) : Ackm δ :=
  if (a.spaces space).peerEcnce < ack.ecnce then
    let a := a.modify space (fun s => { s with peerEcnce := ack.ecnce })
    match txPktHistoryByPktNum (a.spaces space).txHistory (ackRangesLargest ack.ackRanges) with
    | none => a
    | some pkt => { a with ccData := (cc.onEcn now a.ccData ⟨pkt.time⟩).2 }
  else a

def ackmUpdateRtt (now : OsslTime) (a : Ackm δ) (ack : FrameAck) (first : TxPkt) : Ackm δ :=
  let ackDelay :=
    if a.handshakeConfirmed then osslTimeMin ack.delayTime a.rxMaxAckDelay else ack.delayTime
  { a with
    firstRttSample := if osslTimeIsZero a.firstRttSample then now else a.firstRttSample
    statm := statmUpdateRtt a.statm ackDelay (osslTimeSubtract now first.time) }

/- What ossl_ackm_on_rx_ack_frame notes before it looks for acknowledged packets,
   and whether the timer must be set even if there are none. -/
def ackmNoteAckFrame (a : Ackm δ) (ack : FrameAck) (space : PnSpace) : Bool × Ackm δ :=
  let largest := ackRangesLargest ack.ackRanges
  let a := a.modify space (fun s =>
    { s with
      largestAckedPkt :=
        if s.largestAckedPkt = quicPnInvalid then largest else max s.largestAckedPkt largest })
  if a.peerCompletedAddrValidation = false ∧ space = .handshake then
    (true, { a with peerCompletedAddrValidation := true })
  else (false, a)

def ackmOnRxAckFrame (clock : AckmClock) (a : Ackm δ) (ack : FrameAck) (space : PnSpace) :
    Bool × Ackm δ :=
  let noted := ackmNoteAckFrame a ack space
  let na := ackmDetectAndRemoveNewlyAckedPkts noted.2 ack space
  match na.1 with
  | [] => (true, if noted.1 then ackmSetLossDetectionTimer clock.pto na.2 else na.2)
  | first :: _ =>
    let a :=
      if first.pktNum = ackRangesLargest ack.ackRanges ∧ ackIncludesAckEliciting na.1 = true then
        ackmUpdateRtt clock.rtt na.2 ack first
      else na.2
    let a := if ack.ecnPresent then ackmProcessEcn cc clock.ecn a ack space else a
    let lost := ackmDetectAndRemoveLostPkts clock.lost a space
    let a := if lost.1 ≠ [] then ackmOnPktsLost cc clock.cong lost.2 lost.1 false else lost.2
    let a := ackmOnPktsAcked cc a na.1
    let a := if a.peerCompletedAddrValidation then { a with ptoCount := 0 } else a
    (true, ackmSetLossDetectionTimer clock.pto a)

def ackmOnPktDiscarded (r : Ackm δ × Nat) (p : TxPkt) : Ackm δ × Nat :=
  let r :=
    if p.isInflight then
      ({ r.1 with bytesInFlight := subU64 r.1.bytesInFlight p.numBytes }, addU64 r.2 p.numBytes)
    else r
  (ackmCall r.1 .discarded p, r.2)

def ackmClearSpace (s : AckmSpace) : AckmSpace :=
  { s with
    txHistory := txPktHistoryDestroy s.txHistory, rxHistory := rxPktHistoryDestroy s.rxHistory
    timeOfLastAckElicitingPkt := osslTimeZero, lossTime := osslTimeZero, discarded := true
    ackElicitingBytesInFlight := 0 }

def ackmOnPktSpaceDiscarded (now : OsslTime) (a : Ackm δ) (space : PnSpace) : Bool × Ackm δ :=
  if (a.spaces space).discarded then (false, a)
  else
    let a := if space = .handshake then { a with peerCompletedAddrValidation := true } else a
    let r := (a.spaces space).txHistory.packets.foldl ackmOnPktDiscarded (a, 0)
    let ccData := if 0 < r.2 then (cc.onDataInvalidated r.1.ccData r.2).2 else r.1.ccData
    let a := { r.1.modify space ackmClearSpace with ccData, ptoCount := 0 }
    (true, ackmSetLossDetectionTimer now a)

def ackmOnHandshakeConfirmed (now : OsslTime) (a : Ackm δ) : Bool × Ackm δ :=
  (true, ackmSetLossDetectionTimer now
    { a with handshakeConfirmed := true, peerCompletedAddrValidation := true })

def incU32 (n : Nat) : Nat := (n + 1) % 2 ^ 32

def ackmQueueProbeAntiDeadlock (a : Ackm δ) : Ackm δ :=
  if (a.spaces .initial).discarded then
    { a with antiDeadlockHandshake := incU32 a.antiDeadlockHandshake }
  else { a with antiDeadlockInitial := incU32 a.antiDeadlockInitial }

def ackmQueueProbe (a : Ackm δ) (space : PnSpace) : Ackm δ :=
  a.modify space (fun s => { s with pendingPto := incU32 s.pendingPto })

def ackmOnTimeout (clock : AckmClock) (a : Ackm δ) : Bool × Ackm δ :=
  let earliest := ackmGetLossTimeAndSpace a
  if osslTimeIsZero earliest.1 = false then
    let lost := ackmDetectAndRemoveLostPkts clock.lost a earliest.2
    let a := if lost.1 ≠ [] then ackmOnPktsLost cc clock.cong lost.2 lost.1 false else lost.2
    (true, ackmSetLossDetectionTimer clock.pto a)
  else
    let a :=
      if ackmAckElicitingBytesInFlight a = 0 then ackmQueueProbeAntiDeadlock a
      else ackmQueueProbe a (ackmGetPtoTimeAndSpace clock.pto a).2
    (true, ackmSetLossDetectionTimer clock.pto { a with ptoCount := incU32 a.ptoCount })

def ackmMarkPacketPseudoLost (now : OsslTime) (a : Ackm δ) (space : PnSpace) (pn : Nat) :
    Bool × Ackm δ :=
  match txPktHistoryByPktNum (a.spaces space).txHistory pn with
  | none => (false, a)
  | some pkt =>
    let a := a.modify space (fun s =>
      { s with txHistory := (txPktHistoryRemove s.txHistory pkt.pktNum).2 })
    (true, ackmOnPktsLost cc now a [pkt] true)

end

/- The receiving side. -/

inductive AckmEcn where
  | none
  | ect1
  | ect0
  | ecnce
  deriving DecidableEq

structure RxPkt where
  pktNum : Nat
  time : OsslTime
  pktSpace : PnSpace
  isAckEliciting : Bool
  ecn : AckmEcn
  deriving DecidableEq

def ackContains (ack : FrameAck) (pktNum : Nat) : Bool :=
  ack.ackRanges.any (fun range => rangeContains range pktNum)

def ackmIsMissing (s : AckmSpace) (pktNum : Nat) : Bool :=
  decide (s.ack.ackRanges ≠ [] ∧ pktNum ≤ ackRangesLargest s.ack.ackRanges) &&
    !ackContains s.ack pktNum

def ackmHasNewlyMissing (s : AckmSpace) : Bool :=
  match s.rxHistory.set.getLast? with
  | none => false
  | some last =>
    decide (s.ack.ackRanges ≠ [] ∧ last.start = last.stop ∧
      addU64 (ackRangesLargest s.ack.ackRanges) 1 < last.start)

def ackmQueueAck (s : AckmSpace) : AckmSpace :=
  { s with rxAckDesired := true, rxAckFlushDeadline := osslTimeInfinite }

def ackmOnRxAckEliciting (txMaxAckDelay rxTime : OsslTime) (space : PnSpace) (wasMissing : Bool)
    (s : AckmSpace) : AckmSpace :=
  if s.rxAckDesired then s
  else
    let s := { s with
      rxAckElicitingPktsSinceLastAck := incU32 s.rxAckElicitingPktsSinceLastAck }
    if s.rxAckGenerated = false ∨ wasMissing = true ∨
        pktsBeforeAck ≤ s.rxAckElicitingPktsSinceLastAck ∨ ackmHasNewlyMissing s = true then
      ackmQueueAck s
    else
      let deadline :=
        osslTimeAdd rxTime
          (if space = .initial ∨ space = .handshake then osslTimeZero else txMaxAckDelay)
      { s with
        rxAckFlushDeadline :=
          if osslTimeIsInfinite s.rxAckFlushDeadline then deadline
          else osslTimeMin s.rxAckFlushDeadline deadline }

def ackmCountEcn (s : AckmSpace) : AckmEcn → AckmSpace
  | .ect0 => { s with rxEct0 := addU64 s.rxEct0 1 }
  | .ect1 => { s with rxEct1 := addU64 s.rxEct1 1 }
  | .ecnce => { s with rxEcnce := addU64 s.rxEcnce 1 }
  | .none => s

section
variable {δ : Type*}

def ackmIsRxPnProcessable (a : Ackm δ) (pn : Nat) (space : PnSpace) : Bool :=
  let h := (a.spaces space).rxHistory
  decide (h.watermark ≤ pn) && !uintSetQuery h.set pn

/- What ossl_ackm_on_rx_packet does to the packet's own space. mem tells whether
   the number set gets the memory it may need. -/
def ackmSpaceOnRxPacket (mem : Bool) (txMaxAckDelay : OsslTime) (s : AckmSpace) (pkt : RxPkt) :
    Bool × AckmSpace :=
  let s :=
    if s.rxLargestPn < pkt.pktNum then
      { s with rxLargestPn := pkt.pktNum, rxLargestTime := pkt.time }
    else s
  let wasMissing := ackmIsMissing s pkt.pktNum
  let r := rxPktHistoryAddPn mem s.rxHistory pkt.pktNum
  let s := { s with rxHistory := r.2 }
  if r.1 = false then (false, s)
  else
    let s :=
      if pkt.isAckEliciting then
        ackmOnRxAckEliciting txMaxAckDelay pkt.time pkt.pktSpace wasMissing s
      else s
    (true, ackmCountEcn s pkt.ecn)

def ackmOnRxPacket (mem : Bool) (a : Ackm δ) (pkt : RxPkt) : Bool × Ackm δ :=
  if ackmIsRxPnProcessable a pkt.pktNum pkt.pktSpace = false then (true, a)
  else
    let r := ackmSpaceOnRxPacket mem a.txMaxAckDelay (a.spaces pkt.pktSpace) pkt
    (r.1, a.modify pkt.pktSpace (fun _ => r.2))

def quicPnSpaceNum : Nat := 3

def ackRangesNelem : Nat := quicPnSpaceNum

def ackmFillRxAckRanges (h : RxHistory) : List AckRange := h.set.reverse.take ackRangesNelem

def ackmSpaceGetAckFrame (now : OsslTime) (space : PnSpace) (s : AckmSpace) : AckmSpace :=
  let ack : FrameAck := {
    ackRanges := ackmFillRxAckRanges s.rxHistory
    delayTime :=
      if osslTimeIsZero s.rxLargestTime = false ∧ s.rxLargestTime < now ∧ space = .app then
        osslTimeSubtract now s.rxLargestTime
      else osslTimeZero
    ect0 := s.rxEct0, ect1 := s.rxEct1, ecnce := s.rxEcnce, ecnPresent := true }
  { s with
    ack, rxAckElicitingPktsSinceLastAck := 0, rxAckGenerated := true, rxAckDesired := false
    rxAckFlushDeadline := osslTimeInfinite }

def ackmGetAckFrame (now : OsslTime) (a : Ackm δ) (space : PnSpace) : FrameAck × Ackm δ :=
  let a := a.modify space (ackmSpaceGetAckFrame now space)
  ((a.spaces space).ack, a)

end

end Ossl
