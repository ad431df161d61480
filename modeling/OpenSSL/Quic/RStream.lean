import OpenSSL.Quic.Fc
import OpenSSL.Quic.SfList
import OpenSSL.RingBuf

/- The receive stream of ssl/quic/quic_rstream.c. The flow controller comes with its parent; the
   smoothed round-trip time and the readings of the clock are arguments. -/
namespace Ossl
open RingWindow

structure QuicRstream where
  fl : SframeList
  rxfc : Option (QuicRxfc × Option QuicRxfc)
  headRange : UintRange
  rbuf : RingBuf

structure RetireEnv where
  rtt : OsslTime
  own : RxfcClock
  conn : RxfcClock
  deriving DecidableEq

def quicRstreamNew (mem : Bool) (rxfc : Option (QuicRxfc × Option QuicRxfc)) (rbufSize : Nat) :
    Option QuicRstream :=
  let resized := ringBufResize mem ringBufInit rbufSize
  if resized.1 = false then none else some ⟨sframeListInit, rxfc, ⟨0, 0⟩, resized.2⟩

def quicRstreamQueueData (mem : Bool) (qrs : QuicRstream) (offset : Nat)
    (data : Option (List UInt8)) (dataLen : Nat) (fin : Bool) : Bool × QuicRstream :=
  -- an empty frame is allowed only at the end of the stream
  if (data = none ∧ dataLen ≠ 0) ∨ (dataLen = 0 ∧ fin = false) then (false, qrs)
  else
    match sframeListInsert mem qrs.fl ⟨offset, addU64 offset dataLen⟩ data fin with
    | .error _ => (false, qrs)
    | .ok fl => (true, { qrs with fl := fl })

/- The bytes of read_internal that lie in the ring buffer, in two parts when they
   pass its last cell; none stands for its assertions. -/
def fetchRing (rbuf : RingBuf) (start l : Nat) : Option (List UInt8) :=
  match ringBufGetPtr rbuf start with
  | none => none
  | some (data, maxLen) =>
    if maxLen < l then
      match ringBufGetPtr rbuf (addU64 start maxLen) with
      | none => none
      | some (data', maxLen') =>
        if maxLen' ≤ l - maxLen then none
        else some (readCells rbuf.start data maxLen ++ readCells rbuf.start data' (l - maxLen))
    else some (readCells rbuf.start data l)

def fetchBytes (rbuf : RingBuf) (data : Option (List UInt8)) (start l : Nat) :
    Option (List UInt8) :=
  match data with
  | some data => some (data.take l)
  | none => fetchRing rbuf start l

/- What the loop of read_internal has gathered. broken is the failed assertion of
   ossl_sframe_list_peek. -/
structure Gathered where
  bytes : List UInt8
  offset : Nat
  fin : Bool
  broken : Bool
  deriving DecidableEq

def readRounds : Nat → RingBuf → SframeList → Option SframeIter → Nat → Gathered → Option Gathered
  | 0, _, _, _, _, acc => some acc
  | i + 1, rbuf, fl, iter, size, acc =>
    match sframeListPeek fl iter with
    | .nothing _ fin => some { acc with fin := fin }
    | .broken _ => some { acc with fin := false, broken := true }
    | .frame range data fin iter =>
      let l := subU64 range.stop range.start
      let fin := if size < l then false else fin
      let l := if size < l then size else l
      let acc := { acc with offset := addU64 range.start l, fin := fin }
      if l = 0 then some acc
      else
        match fetchBytes rbuf data range.start l with
        | none => none
        | some bytes =>
          let acc := { acc with bytes := acc.bytes ++ bytes }
          if size - l = 0 then some acc else readRounds i rbuf fl (some iter) (size - l) acc

def readInternal (qrs : QuicRstream) (size : Nat) (drop : Bool) : Option Gathered × QuicRstream :=
  match readRounds (qrs.fl.frames.length + 1) qrs.rbuf qrs.fl none size ⟨[], 0, false, false⟩ with
  | none => (none, qrs)
  | some got =>
    if drop ∧ got.offset ≠ 0 then
      let dropped := sframeListDropFrames qrs.fl got.offset
      (if dropped.1 then some got else none,
        { qrs with
          fl := dropped.2
          rbuf := ringBufCpopRange qrs.rbuf 0 (subU64 got.offset 1) dropped.2.cleanse })
    else (some got, qrs)

def retire (env : RetireEnv) (qrs : QuicRstream) (numBytes : Nat) : Bool × QuicRstream :=
  match qrs.rxfc with
  | none => (true, qrs)
  | some (rxfc, parent) =>
    let retired := rxfcOnRetire env.own env.conn rxfc parent numBytes env.rtt
    (retired.1, { qrs with rxfc := some (retired.2.1, retired.2.2) })

def quicRstreamRead (env : RetireEnv) (qrs : QuicRstream) (size : Nat) :
    Bool × Option Gathered × QuicRstream :=
  let result := readInternal qrs size true
  match result.1 with
  | none => (false, none, result.2)
  | some got =>
    let retired := retire env result.2 got.bytes.length
    (retired.1, some got, retired.2)

def quicRstreamGetRecord (qrs : QuicRstream) :
    Bool × Option (List UInt8 × Bool) × QuicRstream :=
  let locked := sframeListLockHead qrs.fl qrs.headRange
  let qrs := { qrs with fl := locked.1, headRange := locked.2.1 }
  match locked.2.2 with
  | none => (true, none, qrs)
  | some (record, fin) =>
    -- a final empty frame is dropped at once
    let dropped := if qrs.headRange.stop = qrs.headRange.start then
        if fin = false then (false, qrs.fl) else sframeListDropFrames qrs.fl qrs.headRange.stop
      else (true, qrs.fl)
    if dropped.1 = false then (false, none, { qrs with fl := dropped.2 })
    else
      let qrs := { qrs with fl := dropped.2 }
      let recLen := subU64 qrs.headRange.stop qrs.headRange.start
      match record with
      | some record => (true, some (record.take recLen, fin), qrs)
      | none =>
        if recLen = 0 then (true, some ([], fin), qrs)
        else
          match ringBufGetPtr qrs.rbuf qrs.headRange.start with
          | none => (false, none, qrs)
          | some (data, maxLen) =>
            if maxLen < recLen then
              (true, some (readCells qrs.rbuf.start data maxLen, fin),
                { qrs with
                  headRange := ⟨qrs.headRange.start, addU64 qrs.headRange.start maxLen⟩ })
            else (true, some (readCells qrs.rbuf.start data recLen, fin), qrs)

def sizeMax : Nat := maxU64

def quicRstreamReleaseRecord (env : RetireEnv) (qrs : QuicRstream) (readLen : Nat) :
    Bool × QuicRstream :=
  if qrs.fl.headLocked = false then (false, qrs)
  else if subU64 qrs.headRange.stop qrs.headRange.start < readLen ∧ readLen ≠ sizeMax then
    (false, qrs)
  else
    let offset := if subU64 qrs.headRange.stop qrs.headRange.start < readLen then
        qrs.headRange.stop
      else addU64 qrs.headRange.start readLen
    let dropped := sframeListDropFrames qrs.fl offset
    if dropped.1 = false then (false, qrs)
    else
      let rbuf := if 0 < offset then
          ringBufCpopRange qrs.rbuf 0 (subU64 offset 1) dropped.2.cleanse
        else qrs.rbuf
      retire env { qrs with fl := dropped.2, rbuf := rbuf } offset

def quicRstreamMoveToRbuf (qrs : QuicRstream) : Bool × QuicRstream :=
  if ringBufAvail qrs.rbuf = 0 then (false, qrs)
  else
    let moved := sframeListMoveData ringBufWriteAt qrs.fl qrs.rbuf
    (moved.1, { qrs with fl := moved.2.1, rbuf := moved.2.2 })

end Ossl
