import OpenSSL.Quic.Fc
import OpenSSL.Quic.SStream
import OpenSSL.Quic.Txfc

/- Streams and the stream map of ssl/quic/quic_stream_map.c: the states of the two parts of
   a stream and the lists of active and collectable streams. A stream is named by its
   id. Its receive buffer is left to the receive side. -/
namespace Ossl

inductive SstreamState where
  | absent
  | ready
  | send
  | dataSent
  | dataRecvd
  | resetSent
  | resetRecvd
  deriving DecidableEq

inductive RstreamState where
  | absent
  | recv
  | sizeKnown
  | dataRecvd
  | dataRead
  | resetRecvd
  | resetRead
  deriving DecidableEq

structure QuicStream where
  id : Nat
  stopSendingAec : Nat
  resetStreamAec : Nat
  sendFinalSize : Nat
  sstream : Option QuicSstream
  txfc : QuicTxfc
  rxfc : QuicRxfc
  serverInit : Bool
  bidi : Bool
  sendState : SstreamState
  recvState : RstreamState
  active : Bool
  stopSending : Bool
  peerStopSending : Bool
  wantMaxStreamData : Bool
  wantStopSending : Bool
  wantResetStream : Bool
  ackedStopSending : Bool
  deleted : Bool
  readyForGc : Bool
  shutdownFlush : Bool

structure QuicStreamMap where
  map : Nat → Option QuicStream
  isServer : Bool
  activeList : List Nat
  readyForGcList : List Nat
  rrCur : Option Nat
  numShutdownFlush : Nat
  getStreamLimit : Option (Bool → Nat)
  connTxfc : QuicTxfc

def putStream (s : QuicStream) (qsm : QuicStreamMap) : QuicStreamMap :=
  { qsm with map := Function.update qsm.map s.id (some s) }

def streamHasSend (s : QuicStream) : Bool := s.sendState ≠ .absent

def streamHasRecv (s : QuicStream) : Bool := s.recvState ≠ .absent

def streamHasSendBuffer (s : QuicStream) : Bool :=
  match s.sendState with
  | .ready | .send | .dataSent => true
  | _ => false

def streamRecvIsReset (s : QuicStream) : Bool :=
  match s.recvState with
  | .resetRecvd | .resetRead => true
  | _ => false

def activeNext (list : List Nat) (id : Nat) : Option Nat :=
  match (list.dropWhile (fun x => x ≠ id)).tail with
  | next :: _ => some next
  | [] => list.head?

def streamMapMarkActive (s : QuicStream) (qsm : QuicStreamMap) : QuicStreamMap :=
  if s.active then qsm
  else
    putStream { s with active := true }
      { qsm with
        activeList := qsm.activeList ++ [s.id]
        rrCur := if qsm.rrCur = none then some s.id else qsm.rrCur }

def streamMapMarkInactive (s : QuicStream) (qsm : QuicStreamMap) : QuicStreamMap :=
  if ¬ s.active then qsm
  else
    let rrCur := if qsm.rrCur = some s.id then activeNext qsm.activeList s.id else qsm.rrCur
    let rrCur := if rrCur = some s.id then none else rrCur
    putStream { s with active := false } { qsm with rrCur, activeList := qsm.activeList.erase s.id }

def streamHasDataToSend (connTxfc : QuicTxfc) (s : QuicStream) : Bool :=
  match streamHasSendBuffer s, s.sstream with
  | true, some sstream =>
    match quicSstreamGetStreamFrame sstream 0 2 with
    | none => false
    | some shdr =>
      let fcLimit := addU64 s.txfc.swm (txfcGetCredit s.txfc (some connTxfc) 0)
      (shdr.isFin && decide (shdr.len = 0)) || decide (shdr.offset < fcLimit)
  | _, _ => false

def qsmReadyForGc (s : QuicStream) : Bool :=
  s.deleted && (!streamHasRecv s || s.ackedStopSending) &&
    (!streamHasSend s || decide (s.sendState = .dataRecvd) || decide (s.sendState = .resetRecvd))

def streamMapIsLocalAllowedByStreamLimit (qsm : QuicStreamMap) (streamOrdinal : Nat)
    (isUni : Bool) : Bool :=
  match qsm.getStreamLimit with
  | none => true
  | some limit => decide (streamOrdinal < limit isUni)

def streamMapAlloc (mem : Bool) (streamId : Nat) (serverInit bidi : Bool) (qsm : QuicStreamMap) :
    Option (QuicStream × QuicStreamMap) :=
  match qsm.map streamId with
  | some _ => none
  | none =>
    if mem = false then none else
    let localInit := decide (serverInit = qsm.isServer)
    let s : QuicStream :=
      { id := streamId, stopSendingAec := 0, resetStreamAec := 0, sendFinalSize := maxU64
        sstream := none, txfc := txfcInit, rxfc := rxfcInit 0 0, serverInit, bidi
        sendState := if localInit || bidi then .ready else .absent
        recvState := if !localInit || bidi then .recv else .absent
        active := false, stopSending := false, peerStopSending := false
        wantMaxStreamData := false, wantStopSending := false, wantResetStream := false
        ackedStopSending := false, deleted := false, readyForGc := false, shutdownFlush := false }
    some (s, putStream s qsm)

def shutdownFlushDone (s : QuicStream) (qsm : QuicStreamMap) : QuicStream × QuicStreamMap :=
  if ¬ s.shutdownFlush then (s, qsm)
  else
    ({ s with shutdownFlush := false }, { qsm with numShutdownFlush := qsm.numShutdownFlush - 1 })

def streamMapNotifyTotallyAcked (s : QuicStream) (qsm : QuicStreamMap) :
    Bool × QuicStream × QuicStreamMap :=
  match s.sendState with
  | .dataSent =>
    (true, shutdownFlushDone { s with sendState := .dataRecvd, sstream := none } qsm)
  | _ => (false, s, qsm)

def sstreamTotallyAcked (s : QuicStream) : Bool := s.sstream.any quicSstreamIsTotallyAcked

def streamShouldBeActive (qsm : QuicStreamMap) (s : QuicStream) : Bool :=
  let allowed := if s.serverInit = qsm.isServer then
    streamMapIsLocalAllowedByStreamLimit qsm (s.id >>> 2) (!s.bidi) else true
  allowed && !s.readyForGc &&
    (streamHasRecv s && !streamRecvIsReset s &&
        (decide (s.recvState = .recv) && (s.wantMaxStreamData || s.rxfc.hasCwmChanged)) ||
      s.wantStopSending || s.wantResetStream ||
      (!s.peerStopSending && streamHasDataToSend qsm.connTxfc s))

def streamMapUpdateState (s : QuicStream) (qsm : QuicStreamMap) : QuicStreamMap :=
  let notified :=
    if s.sendState = .dataSent ∧ sstreamTotallyAcked s then (streamMapNotifyTotallyAcked s qsm).2
    else if s.shutdownFlush ∧ s.sendState = .send ∧ sstreamTotallyAcked s then
      shutdownFlushDone s qsm
    else (s, qsm)
  let s := notified.1
  let qsm := notified.2
  let collected :=
    if ¬ s.readyForGc ∧ qsmReadyForGc s then
      ({ s with readyForGc := true }, { qsm with readyForGcList := qsm.readyForGcList ++ [s.id] })
    else (s, qsm)
  let s := collected.1
  let qsm := putStream s collected.2
  if streamShouldBeActive qsm s then streamMapMarkActive s qsm else streamMapMarkInactive s qsm

def streamMapResetStreamSendPart (s : QuicStream) (aec : Nat) (qsm : QuicStreamMap) :
    Bool × QuicStreamMap :=
  let reset (s : QuicStream) :=
    let flushed := shutdownFlushDone
      { s with
        resetStreamAec := aec, wantResetStream := true, sendState := .resetSent, sstream := none }
      qsm
    (true, streamMapUpdateState flushed.1 flushed.2)
  match s.sendState with
  | .absent | .dataRecvd => (false, qsm)
  | .ready | .send => reset { s with sendState := .send, sendFinalSize := s.txfc.swm }
  | .dataSent => reset s
  | .resetSent | .resetRecvd => (true, qsm)

def streamMapNotifyResetStreamAcked (s : QuicStream) : Bool × QuicStream :=
  match s.sendState with
  | .resetSent => (true, { s with sendState := .resetRecvd })
  | .resetRecvd => (true, s)
  | _ => (false, s)

def streamMapScheduleStopSending (s : QuicStream) (qsm : QuicStreamMap) : Bool × QuicStreamMap :=
  if ¬ s.stopSending then (false, qsm)
  else if s.wantStopSending then (true, qsm)
  else
    match s.recvState with
    | .recv | .sizeKnown => (true, streamMapUpdateState { s with wantStopSending := true } qsm)
    | _ => (true, qsm)

end Ossl
