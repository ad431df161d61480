import Mathlib.Algebra.GroupWithZero.Nat
import OpenSSL.Quic.UintSetLaws
import OpenSSL.RingBuf

/- The send stream of ssl/quic/quic_sstream.c. A byte is NEW when it is in newSet,
   ACKED when it is in ackedSet and IN_FLIGHT otherwise. -/
namespace Ossl
open Spans RingWindow

structure QuicSstream where
  ringBuf : RingBuf
  newSet : UintSet
  ackedSet : UintSet
  haveFinalSize : Bool
  sentFinalSize : Bool
  ackedFinalSize : Bool
  cleanse : Bool

def quicSstreamNew (mem : Bool) (initBufSize : Nat) : Option QuicSstream :=
  let resized := ringBufResize mem ringBufInit initBufSize
  if resized.1 = false then none else some ⟨resized.2, [], [], false, false, false, false⟩

/- The header fields that the call fills in, and the contents of its IO vectors. -/
structure StreamFrameOut where
  offset : Nat
  len : Nat
  isFin : Bool
  iov : List (List UInt8)
  deriving DecidableEq

/- The loop that points IO vectors into the ring buffer; none stands for a failed
   ring_buf_get_buf_at. Every round but the last adds a byte. -/
def frameRounds : Nat → RingBuf → Nat → Nat → Nat → Option (List (List UInt8))
  | 0, _, _, _, _ => some []
  | i + 1, r, start, maxLen, totalLen =>
    if maxLen ≤ totalLen then some []
    else
      match ringBufGetBufAt r (addU64 start totalLen) with
      | none => none
      | some (src, srcLen) =>
        if srcLen = 0 then some []
        else
          let srcLen := if maxLen < addU64 totalLen srcLen then maxLen - totalLen else srcLen
          match frameRounds i r start maxLen (totalLen + srcLen) with
          | none => none
          | some iov => some (readCells r.start src srcLen :: iov)

def quicSstreamGetStreamFrame (qss : QuicSstream) (skip numIov : Nat) : Option StreamFrameOut :=
  if numIov < 2 then none
  else
    match qss.newSet[skip]? with
    | none =>
      -- no FIN for an infinitely increasing skip
      if qss.newSet.length < skip then none
      else if qss.haveFinalSize = false ∨ qss.sentFinalSize then none
      else some ⟨qss.ringBuf.headOffset, 0, true, []⟩
    | some range =>
      let maxLen := addU64 (subU64 range.stop range.start) 1
      match frameRounds (maxLen + 1) qss.ringBuf range.start maxLen 0 with
      | none => none
      | some iov =>
        let len := (iov.map List.length).sum
        some ⟨range.start, len,
          qss.haveFinalSize && decide (addU64 range.start len = qss.ringBuf.headOffset), iov⟩

def quicSstreamGetCurSize (qss : QuicSstream) : Nat := qss.ringBuf.headOffset

def quicSstreamMarkTransmitted (qss : QuicSstream) (start stop : Nat) : Bool × QuicSstream :=
  let removed := uintSetRemove qss.newSet ⟨start, stop⟩
  (removed.1, { qss with newSet := removed.2 })

def quicSstreamMarkTransmittedFin (qss : QuicSstream) (finalSize : Nat) : Bool × QuicSstream :=
  if qss.haveFinalSize = false ∨ finalSize ≠ qss.ringBuf.headOffset then (false, qss)
  else (true, { qss with sentFinalSize := true })

def quicSstreamMarkLost (mem : Bool) (qss : QuicSstream) (start stop : Nat) :
    Bool × QuicSstream :=
  let inserted := uintSetInsert mem qss.newSet ⟨start, stop⟩
  (inserted.1, { qss with newSet := inserted.2 })

def quicSstreamMarkLostFin (qss : QuicSstream) : Bool × QuicSstream :=
  if qss.ackedFinalSize then (false, qss) else (true, { qss with sentFinalSize := false })

def qssCull (qss : QuicSstream) : QuicSstream :=
  match qss.ackedSet with
  | [] => qss
  | h :: _ => { qss with ringBuf := ringBufCpopRange qss.ringBuf h.start h.stop qss.cleanse }

def quicSstreamMarkAcked (mem : Bool) (qss : QuicSstream) (start stop : Nat) :
    Bool × QuicSstream :=
  let inserted := uintSetInsert mem qss.ackedSet ⟨start, stop⟩
  if inserted.1 = false then (false, { qss with ackedSet := inserted.2 })
  else (true, qssCull { qss with ackedSet := inserted.2 })

def quicSstreamMarkAckedFin (qss : QuicSstream) : Bool × QuicSstream :=
  if qss.haveFinalSize = false then (false, qss) else (true, { qss with ackedFinalSize := true })

def quicSstreamFin (qss : QuicSstream) : QuicSstream :=
  if qss.haveFinalSize then qss else { qss with haveFinalSize := true }

/- The loop of ossl_quic_sstream_append; every round but the last consumes a byte. -/
def appendRounds : Nat → RingBuf → List UInt8 → Nat → Nat × RingBuf
  | 0, r, _, consumed => (consumed, r)
  | i + 1, r, buf, consumed =>
    if buf.length = 0 then (consumed, r)
    else
      let pushed := ringBufPush r buf
      if pushed.1 = 0 then (consumed, pushed.2)
      else appendRounds i pushed.2 (buf.drop pushed.1) (consumed + pushed.1)

def quicSstreamAppend (mem : Bool) (qss : QuicSstream) (buf : List UInt8) :
    Bool × Nat × QuicSstream :=
  if qss.haveFinalSize then (false, 0, qss)
  else
    let pushed := appendRounds (buf.length + 1) qss.ringBuf buf 0
    if 0 < pushed.1 then
      let start := qss.ringBuf.headOffset
      let inserted := uintSetInsert mem qss.newSet ⟨start, subU64 (addU64 start pushed.1) 1⟩
      if inserted.1 = false then
        -- the offsets are restored, the bytes beyond them are not
        (false, 0,
          { qss with
            newSet := inserted.2
            ringBuf := { pushed.2 with
              alloc := qss.ringBuf.alloc
              headOffset := qss.ringBuf.headOffset
              ctailOffset := qss.ringBuf.ctailOffset } })
      else (true, pushed.1, { qss with newSet := inserted.2, ringBuf := pushed.2 })
    else (true, 0, { qss with ringBuf := pushed.2 })

def quicSstreamSetBufferSize (mem : Bool) (qss : QuicSstream) (numBytes : Nat) :
    Bool × QuicSstream :=
  let resized := ringBufResize mem qss.ringBuf numBytes
  (resized.1, { qss with ringBuf := resized.2 })

def quicSstreamIsTotallyAcked (qss : QuicSstream) : Bool :=
  if qss.haveFinalSize ∧ qss.ackedFinalSize = false then false
  else if quicSstreamGetCurSize qss = 0 then true
  else
    match qss.ackedSet with
    | [r] => decide (r.start = 0 ∧ addU64 r.stop 1 = qss.ringBuf.headOffset)
    | _ => false

def quicSstreamSetCleanse (qss : QuicSstream) (cleanse : Bool) : QuicSstream :=
  { qss with cleanse := cleanse }

def quicSstreamAdjustIov (len : Nat) (iov : List (List UInt8)) : List (List UInt8) :=
  match iov with
  | [] => []
  | v :: rest => v.take len :: quicSstreamAdjustIov (len - v.length) rest

end Ossl
