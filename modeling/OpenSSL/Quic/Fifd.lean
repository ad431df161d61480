import OpenSSL.Quic.StreamMap

/- The frame-in-flight dispatcher of ssl/quic/quic_fifd.c with the callbacks of ssl/quic/quic_txp.c.
   A packet's chunks are as ossl_quic_txpim_pkt_get_chunks returns them, its CFQ items by name. mem
   i is whether there is memory for the i-th chunk. The handlers' calls are listed beside the
   packetiser. -/
namespace Ossl

structure QuicTxpimChunk where
  streamId : Nat
  start : Nat
  stop : Nat
  hasFin : Bool
  hasStopSending : Bool
  hasResetStream : Bool
  deriving DecidableEq

structure QuicTxpimPkt where
  pktSpace : Nat
  chunks : List QuicTxpimChunk
  retx : List Nat
  hadHandshakeDoneFrame : Bool
  hadMaxDataFrame : Bool
  hadMaxStreamsBidiFrame : Bool
  hadMaxStreamsUniFrame : Bool
  hadAckFrame : Bool
  deriving DecidableEq

def abortChunk (streamId : Nat) (txpSentStopSending txpSentResetStream : Bool) :
    Option QuicTxpimChunk :=
  if txpSentStopSending || txpSentResetStream then
    some
      { streamId, start := maxU64, stop := 0, hasFin := false
        hasStopSending := txpSentStopSending, hasResetStream := txpSentResetStream }
  else none

inductive FrameType where
  | handshakeDone
  | maxData
  | maxStreamsBidi
  | maxStreamsUni
  | ackWithEcn
  | maxStreamData
  | stopSending
  | resetStream
  deriving DecidableEq

inductive FifdCall where
  | regenFrame (frameType : FrameType) (streamId : Nat)
  | confirmFrame (frameType : FrameType) (streamId : Nat)
  | sstreamUpdated (streamId : Nat)
  | cfqMarkTx (item : Nat)
  | cfqMarkLost (item : Nat)
  | cfqRelease (item : Nat)
  deriving DecidableEq

structure QuicTxPacketiser where
  qsm : QuicStreamMap
  crypto : Nat → Option QuicSstream
  wantHandshakeDone : Bool
  wantMaxData : Bool
  wantMaxStreamsBidi : Bool
  wantMaxStreamsUni : Bool
  wantAck : Nat

def noStreamId : Nat := maxU64

def getSstreamById (streamId pnSpace : Nat) (txp : QuicTxPacketiser) : Option QuicSstream :=
  if streamId = noStreamId then txp.crypto pnSpace
  else
    match txp.qsm.map streamId with
    | none => none
    | some s => s.sstream

def putSstreamById (streamId pnSpace : Nat) (sstream : QuicSstream) (txp : QuicTxPacketiser) :
    QuicTxPacketiser :=
  if streamId = noStreamId then
    { txp with crypto := Function.update txp.crypto pnSpace (some sstream) }
  else
    match txp.qsm.map streamId with
    | none => txp
    | some s => { txp with qsm := putStream { s with sstream := some sstream } txp.qsm }

def onRegenNotify (frameType : FrameType) (streamId pnSpace : Nat) (txp : QuicTxPacketiser) :
    QuicTxPacketiser :=
  match frameType with
  | .handshakeDone => { txp with wantHandshakeDone := true }
  | .maxData => { txp with wantMaxData := true }
  | .maxStreamsBidi => { txp with wantMaxStreamsBidi := true }
  | .maxStreamsUni => { txp with wantMaxStreamsUni := true }
  | .ackWithEcn => { txp with wantAck := txp.wantAck ||| 1 <<< pnSpace }
  | .maxStreamData =>
    match txp.qsm.map streamId with
    | none => txp
    | some s =>
      { txp with qsm := streamMapUpdateState { s with wantMaxStreamData := true } txp.qsm }
  | .stopSending =>
    match txp.qsm.map streamId with
    | none => txp
    | some s => { txp with qsm := (streamMapScheduleStopSending s txp.qsm).2 }
  | .resetStream =>
    match txp.qsm.map streamId with
    | none => txp
    | some s =>
      { txp with qsm := streamMapUpdateState { s with wantResetStream := true } txp.qsm }

def onConfirmNotify (frameType : FrameType) (streamId : Nat) (txp : QuicTxPacketiser) :
    QuicTxPacketiser :=
  match frameType with
  | .stopSending =>
    match txp.qsm.map streamId with
    | none => txp
    | some s =>
      { txp with qsm := streamMapUpdateState { s with ackedStopSending := true } txp.qsm }
  | .resetStream =>
    match txp.qsm.map streamId with
    | none => txp
    | some s =>
      { txp with qsm := streamMapUpdateState (streamMapNotifyResetStreamAcked s).2 txp.qsm }
  | _ => txp

def onSstreamUpdated (streamId : Nat) (txp : QuicTxPacketiser) : QuicTxPacketiser :=
  match txp.qsm.map streamId with
  | none => txp
  | some s => { txp with qsm := streamMapUpdateState s txp.qsm }

abbrev FifdRun : Type := QuicTxPacketiser × List FifdCall

def regenFrame (frameType : FrameType) (streamId pnSpace : Nat) (r : FifdRun) : FifdRun :=
  (onRegenNotify frameType streamId pnSpace r.1, r.2 ++ [.regenFrame frameType streamId])

def confirmFrame (frameType : FrameType) (streamId : Nat) (r : FifdRun) : FifdRun :=
  (onConfirmNotify frameType streamId r.1, r.2 ++ [.confirmFrame frameType streamId])

def sstreamUpdated (streamId : Nat) (r : FifdRun) : FifdRun :=
  (onSstreamUpdated streamId r.1, r.2 ++ [.sstreamUpdated streamId])

def callIf (condition : Bool) (call : FifdRun → FifdRun) (r : FifdRun) : FifdRun :=
  if condition then call r else r

def onAckedChunk (mem : Bool) (pnSpace : Nat) (chunk : QuicTxpimChunk) (r : FifdRun) : FifdRun :=
  match getSstreamById chunk.streamId pnSpace r.1 with
  | none => r
  | some sstream =>
    let isStream := decide (chunk.streamId ≠ noStreamId)
    let sstream :=
      if chunk.start ≤ chunk.stop then (quicSstreamMarkAcked mem sstream chunk.start chunk.stop).2
      else sstream
    let sstream := if chunk.hasFin && isStream then (quicSstreamMarkAckedFin sstream).2 else sstream
    let r := (putSstreamById chunk.streamId pnSpace sstream r.1, r.2)
    let r := callIf (chunk.hasStopSending && isStream) (confirmFrame .stopSending chunk.streamId) r
    let r := callIf (chunk.hasResetStream && isStream) (confirmFrame .resetStream chunk.streamId) r
    callIf (quicSstreamIsTotallyAcked sstream) (sstreamUpdated chunk.streamId) r

def onAckedChunks (mem : Nat → Bool) (pnSpace : Nat) :
    Nat → List QuicTxpimChunk → FifdRun → FifdRun
  | _, [], r => r
  | i, chunk :: chunks, r =>
    onAckedChunks mem pnSpace (i + 1) chunks (onAckedChunk (mem i) pnSpace chunk r)

def onAcked (mem : Nat → Bool) (pkt : QuicTxpimPkt) (txp : QuicTxPacketiser) : FifdRun :=
  let r := onAckedChunks mem pkt.pktSpace 0 pkt.chunks (txp, [])
  (r.1, r.2 ++ pkt.retx.map .cfqRelease)

def onLostChunk (mem : Bool) (pnSpace : Nat) (chunk : QuicTxpimChunk) (r : FifdRun) : FifdRun :=
  match getSstreamById chunk.streamId pnSpace r.1 with
  | none => r
  | some sstream =>
    let isStream := decide (chunk.streamId ≠ noStreamId)
    let hasData := decide (chunk.start ≤ chunk.stop)
    let sstream :=
      if hasData then (quicSstreamMarkLost mem sstream chunk.start chunk.stop).2 else sstream
    let sstream := if chunk.hasFin && isStream then (quicSstreamMarkLostFin sstream).2 else sstream
    let updated := hasData || chunk.hasFin && isStream
    let r := (putSstreamById chunk.streamId pnSpace sstream r.1, r.2)
    let r := callIf (chunk.hasStopSending && isStream)
      (regenFrame .stopSending chunk.streamId pnSpace) r
    let r := callIf (chunk.hasResetStream && isStream)
      (regenFrame .resetStream chunk.streamId pnSpace) r
    let r := regenFrame .maxStreamData chunk.streamId pnSpace r
    callIf (updated && isStream) (sstreamUpdated chunk.streamId) r

def onLostChunks (mem : Nat → Bool) (pnSpace : Nat) :
    Nat → List QuicTxpimChunk → FifdRun → FifdRun
  | _, [], r => r
  | i, chunk :: chunks, r =>
    onLostChunks mem pnSpace (i + 1) chunks (onLostChunk (mem i) pnSpace chunk r)

def onLost (mem : Nat → Bool) (pkt : QuicTxpimPkt) (txp : QuicTxPacketiser) : FifdRun :=
  let r := onLostChunks mem pkt.pktSpace 0 pkt.chunks (txp, [])
  let r := (r.1, r.2 ++ pkt.retx.map .cfqMarkLost)
  let r := callIf pkt.hadHandshakeDoneFrame (regenFrame .handshakeDone noStreamId pkt.pktSpace) r
  let r := callIf pkt.hadMaxDataFrame (regenFrame .maxData noStreamId pkt.pktSpace) r
  let r := callIf pkt.hadMaxStreamsBidiFrame (regenFrame .maxStreamsBidi noStreamId pkt.pktSpace) r
  let r := callIf pkt.hadMaxStreamsUniFrame (regenFrame .maxStreamsUni noStreamId pkt.pktSpace) r
  callIf pkt.hadAckFrame (regenFrame .ackWithEcn noStreamId pkt.pktSpace) r

def onDiscarded (pkt : QuicTxpimPkt) (txp : QuicTxPacketiser) : FifdRun :=
  (txp, pkt.retx.map .cfqRelease)

def commitChunks (pnSpace : Nat) : List QuicTxpimChunk → QuicTxPacketiser → Bool × QuicTxPacketiser
  | [], txp => (true, txp)
  | chunk :: chunks, txp =>
    match getSstreamById chunk.streamId pnSpace txp with
    | none => commitChunks pnSpace chunks txp
    | some sstream =>
      let sent :=
        if chunk.start ≤ chunk.stop then
          quicSstreamMarkTransmitted sstream chunk.start chunk.stop
        else (true, sstream)
      if sent.1 = false then (false, putSstreamById chunk.streamId pnSpace sent.2 txp)
      else
        let fin :=
          if chunk.hasFin then quicSstreamMarkTransmittedFin sent.2 (addU64 chunk.stop 1)
          else (true, sent.2)
        let txp := putSstreamById chunk.streamId pnSpace fin.2 txp
        if fin.1 = false then (false, txp) else commitChunks pnSpace chunks txp

def quicFifdPktCommit (tracked : Bool) (pkt : QuicTxpimPkt) (txp : QuicTxPacketiser) :
    Bool × FifdRun :=
  let marked := commitChunks pkt.pktSpace pkt.chunks txp
  (marked.1 && tracked, (marked.2, pkt.retx.map .cfqMarkTx))

end Ossl
