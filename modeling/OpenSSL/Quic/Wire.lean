import OpenSSL.Lib.Spans
import OpenSSL.Packet
import OpenSSL.Time
import OpenSSL.Wpacket

/- The frame encoders and decoders of ssl/quic/quic_wire.c. -/
namespace Ossl
open Spans

def frameTypePing : Nat := 0x01
def frameTypeAckWithoutEcn : Nat := 0x02
def frameTypeAckWithEcn : Nat := 0x03
def frameTypeResetStream : Nat := 0x04
def frameTypeStopSending : Nat := 0x05
def frameTypeCrypto : Nat := 0x06
def frameTypeNewToken : Nat := 0x07
def frameTypeStream : Nat := 0x08
def frameTypeMaxData : Nat := 0x10
def frameTypeMaxStreamData : Nat := 0x11
def frameTypeMaxStreamsBidi : Nat := 0x12
def frameTypeMaxStreamsUni : Nat := 0x13
def frameTypeDataBlocked : Nat := 0x14
def frameTypeStreamDataBlocked : Nat := 0x15
def frameTypeStreamsBlockedBidi : Nat := 0x16
def frameTypeStreamsBlockedUni : Nat := 0x17
def frameTypeNewConnId : Nat := 0x18
def frameTypeRetireConnId : Nat := 0x19
def frameTypePathChallenge : Nat := 0x1A
def frameTypePathResponse : Nat := 0x1B
def frameTypeConnCloseTransport : Nat := 0x1C
def frameTypeConnCloseApp : Nat := 0x1D
def frameTypeHandshakeDone : Nat := 0x1E

def frameFlagStreamFin : Nat := 0x01
def frameFlagStreamLen : Nat := 0x02
def frameFlagStreamOff : Nat := 0x04
def frameFlagStreamMask : Nat := 0x07

abbrev AckRange := Span Nat

structure FrameAck where
  ackRanges : List AckRange
  delayTime : OsslTime
  ect0 : Nat
  ect1 : Nat
  ecnce : Nat
  ecnPresent : Bool
  deriving DecidableEq

structure FrameResetStream where
  streamId : Nat
  appErrorCode : Nat
  finalSize : Nat
  deriving DecidableEq

structure FrameStopSending where
  streamId : Nat
  appErrorCode : Nat
  deriving DecidableEq

/- data is what the pointer points to, none for NULL. -/
structure FrameCrypto where
  offset : Nat
  len : Nat
  data : Option (List UInt8)
  deriving DecidableEq

structure FrameStream where
  streamId : Nat
  offset : Nat
  len : Nat
  data : Option (List UInt8)
  hasExplicitLen : Bool
  isFin : Bool
  deriving DecidableEq

def quicMaxConnIdLen : Nat := 20
def quicStatelessResetTokenLen : Nat := 16

structure QuicConnId where
  idLen : Nat
  id : Vector UInt8 quicMaxConnIdLen
  deriving DecidableEq

structure FrameNewConnId where
  seqNum : Nat
  retirePriorTo : Nat
  connId : QuicConnId
  statelessReset : Vector UInt8 quicStatelessResetTokenLen
  deriving DecidableEq

structure FrameConnClose where
  isApp : Bool
  errorCode : Nat
  frameType : Nat
  reason : List UInt8
  deriving DecidableEq

/- Encoding. -/

def wpacketWhen (c : Prop) [Decidable c] (w : WpacketM Unit) : WpacketM Unit :=
  if c then w else pure ()

/- Room for the data, which is filled in unless the pointer is NULL. -/
def wpacketAllocateData (len : Nat) (data : Option (List UInt8)) : WpacketM (Option Nat) :=
  match data with
  | none => wpacketAllocateBytes len
  | some bytes => wpacketFill len (bytes.take len)

def encodeFrameHdr (frameType : Nat) : WpacketM Unit := wpacketQuicWriteVlint frameType

def wireEncodeFramePing : WpacketM Unit := encodeFrameHdr frameTypePing

def encodeAckRanges : Nat → List AckRange → WpacketM Unit
  | _, [] => pure ()
  | prevStart, r :: rest => do
    wpacketQuicWriteVlint (subU64 (subU64 prevStart r.stop) 2)
    wpacketQuicWriteVlint (subU64 r.stop r.start)
    encodeAckRanges r.start rest

def ackDelayEnc (ackDelayExponent : Nat) (delayTime : OsslTime) : Nat :=
  osslTimeDivide (osslTimeDivide delayTime timeUs) (1 <<< ackDelayExponent)

def wireEncodeFrameAck (ackDelayExponent : Nat) (ack : FrameAck) : WpacketM Unit :=
  match ack.ackRanges with
  | [] => failure
  | first :: rest => do
    encodeFrameHdr (if ack.ecnPresent then frameTypeAckWithEcn else frameTypeAckWithoutEcn)
    wpacketQuicWriteVlint first.stop
    wpacketQuicWriteVlint (ackDelayEnc ackDelayExponent ack.delayTime)
    wpacketQuicWriteVlint rest.length
    wpacketQuicWriteVlint (subU64 first.stop first.start)
    encodeAckRanges first.start rest
    wpacketWhen (ack.ecnPresent = true) (do
      wpacketQuicWriteVlint ack.ect0
      wpacketQuicWriteVlint ack.ect1
      wpacketQuicWriteVlint ack.ecnce)

def wireEncodeFrameResetStream (f : FrameResetStream) : WpacketM Unit := do
  encodeFrameHdr frameTypeResetStream
  wpacketQuicWriteVlint f.streamId
  wpacketQuicWriteVlint f.appErrorCode
  wpacketQuicWriteVlint f.finalSize

def wireEncodeFrameStopSending (f : FrameStopSending) : WpacketM Unit := do
  encodeFrameHdr frameTypeStopSending
  wpacketQuicWriteVlint f.streamId
  wpacketQuicWriteVlint f.appErrorCode

def wireEncodeFrameCryptoHdr (f : FrameCrypto) : WpacketM Unit := do
  encodeFrameHdr frameTypeCrypto
  wpacketQuicWriteVlint f.offset
  wpacketQuicWriteVlint f.len

def wireEncodeFrameCrypto (f : FrameCrypto) : WpacketM (Option Nat) := do
  wireEncodeFrameCryptoHdr f
  wpacketAllocateData f.len f.data

def wireEncodeFrameNewToken (token : List UInt8) : WpacketM Unit := do
  encodeFrameHdr frameTypeNewToken
  wpacketQuicWriteVlint token.length
  wpacketMemcpy token

def streamFrameType (f : FrameStream) : Nat :=
  frameTypeStream ||| (if f.offset ≠ 0 then frameFlagStreamOff else 0) |||
    (if f.hasExplicitLen then frameFlagStreamLen else 0) |||
    (if f.isFin then frameFlagStreamFin else 0)

def wireEncodeFrameStreamHdr (f : FrameStream) : WpacketM Unit := do
  encodeFrameHdr (streamFrameType f)
  wpacketQuicWriteVlint f.streamId
  wpacketWhen (f.offset ≠ 0) (wpacketQuicWriteVlint f.offset)
  wpacketWhen (f.hasExplicitLen = true) (wpacketQuicWriteVlint f.len)

def wireEncodeFrameStream (f : FrameStream) : WpacketM (Option Nat) := do
  wireEncodeFrameStreamHdr f
  wpacketAllocateData f.len f.data

def wireEncodeFrameMaxData (maxData : Nat) : WpacketM Unit := do
  encodeFrameHdr frameTypeMaxData
  wpacketQuicWriteVlint maxData

def wireEncodeFrameMaxStreamData (streamId maxData : Nat) : WpacketM Unit := do
  encodeFrameHdr frameTypeMaxStreamData
  wpacketQuicWriteVlint streamId
  wpacketQuicWriteVlint maxData

def wireEncodeFrameMaxStreams (isUni : Bool) (maxStreams : Nat) : WpacketM Unit := do
  encodeFrameHdr (if isUni then frameTypeMaxStreamsUni else frameTypeMaxStreamsBidi)
  wpacketQuicWriteVlint maxStreams

def wireEncodeFrameDataBlocked (maxData : Nat) : WpacketM Unit := do
  encodeFrameHdr frameTypeDataBlocked
  wpacketQuicWriteVlint maxData

def wireEncodeFrameStreamDataBlocked (streamId maxStreamData : Nat) : WpacketM Unit := do
  encodeFrameHdr frameTypeStreamDataBlocked
  wpacketQuicWriteVlint streamId
  wpacketQuicWriteVlint maxStreamData

def wireEncodeFrameStreamsBlocked (isUni : Bool) (maxStreams : Nat) : WpacketM Unit := do
  encodeFrameHdr (if isUni then frameTypeStreamsBlockedUni else frameTypeStreamsBlockedBidi)
  wpacketQuicWriteVlint maxStreams

def wireEncodeFrameNewConnId (f : FrameNewConnId) : WpacketM Unit := do
  guard (¬ (f.connId.idLen < 1 ∨ quicMaxConnIdLen < f.connId.idLen))
  encodeFrameHdr frameTypeNewConnId
  wpacketQuicWriteVlint f.seqNum
  wpacketQuicWriteVlint f.retirePriorTo
  wpacketPutBytes f.connId.idLen 1
  wpacketMemcpy (f.connId.id.toList.take f.connId.idLen)
  wpacketMemcpy f.statelessReset.toList

def wireEncodeFrameRetireConnId (seqNum : Nat) : WpacketM Unit := do
  encodeFrameHdr frameTypeRetireConnId
  wpacketQuicWriteVlint seqNum

def wireEncodeFramePathChallenge (data : Nat) : WpacketM Unit := do
  encodeFrameHdr frameTypePathChallenge
  wpacketPutBytes data 8

def wireEncodeFramePathResponse (data : Nat) : WpacketM Unit := do
  encodeFrameHdr frameTypePathResponse
  wpacketPutBytes data 8

def wireEncodeFrameConnClose (f : FrameConnClose) : WpacketM Unit := do
  encodeFrameHdr (if f.isApp then frameTypeConnCloseApp else frameTypeConnCloseTransport)
  wpacketQuicWriteVlint f.errorCode
  wpacketWhen (f.isApp = false) (wpacketQuicWriteVlint f.frameType)
  wpacketQuicWriteVlint f.reason.length
  wpacketMemcpy f.reason

def wireEncodeFrameHandshakeDone : WpacketM Unit := encodeFrameHdr frameTypeHandshakeDone

/- Decoding. -/

def wirePeekFrameHeader (pkt : Packet) : Option (Nat × Bool) := packetPeekQuicVlintEx pkt

def wireSkipFrameHeader : PacketM Nat := packetGetQuicVlint

def expectFrameHeaderMask (expectedFrameType maskBits : Nat) : PacketM Nat := do
  let actualFrameType ← wireSkipFrameHeader
  guard (actualFrameType &&& (maxU64 - maskBits) = expectedFrameType)
  pure actualFrameType

def expectFrameHeader (expectedFrameType : Nat) : PacketM Unit := do
  let actualFrameType ← wireSkipFrameHeader
  guard (actualFrameType = expectedFrameType)

def ackDelayDec (ackDelayExponent ackDelayRaw : Nat) : OsslTime :=
  let scaled := safeMulU64 ackDelayRaw (1 <<< ackDelayExponent)
  if scaled.2 then osslTimeInfinite else osslTimeMultiply timeUs scaled.1

def putAckRange (i start stop len : Nat) (ackRanges : Option (List AckRange)) :
    Nat × Option (List AckRange) :=
  match ackRanges with
  | none => (start, none)
  | some ranges =>
    if i + 1 < ranges.length then
      (subU64 stop len, some (ranges.set (i + 1) ⟨subU64 stop len, stop⟩))
    else (start, some ranges)

def decodeAckRanges : Nat → Nat → Nat → Option (List AckRange) → PacketM (Option (List AckRange))
  | 0, _, _, ackRanges => pure ackRanges
  | count + 1, i, start, ackRanges => do
    let gap ← packetGetQuicVlint
    let len ← packetGetQuicVlint
    let stop := subU64 (subU64 start gap) 2
    guard (¬ (start < addU64 gap 2 ∨ stop < len))
    let next := putAckRange i start stop len ackRanges
    decodeAckRanges count (i + 1) next.1 next.2

/- The total number of ranges goes with the frame, which may be NULL. -/
def wireDecodeFrameAck (ackDelayExponent : Nat) (ack : Option FrameAck) :
    PacketM (Option FrameAck × Nat) := do
  let frameType ← expectFrameHeaderMask frameTypeAckWithoutEcn 1
  let largestAckd ← packetGetQuicVlint
  let ackDelayRaw ← packetGetQuicVlint
  let ackRangeCount ← packetGetQuicVlint
  let firstAckRange ← packetGetQuicVlint
  guard (¬ largestAckd < firstAckRange)
  let start := largestAckd - firstAckRange
  let ackRanges ← decodeAckRanges ackRangeCount 0 start
    (ack.map fun a => a.ackRanges.set 0 ⟨start, largestAckd⟩)
  let ack := ack.map fun a =>
    { a with
      delayTime := ackDelayDec ackDelayExponent ackDelayRaw
      ackRanges := (ackRanges.getD []).take (ackRangeCount + 1) }
  if frameType = frameTypeAckWithEcn then do
    let ect0 ← packetGetQuicVlint
    let ect1 ← packetGetQuicVlint
    let ecnce ← packetGetQuicVlint
    pure (ack.map fun a =>
      { a with ect0 := ect0, ect1 := ect1, ecnce := ecnce, ecnPresent := true },
      ackRangeCount + 1)
  else pure (ack.map fun a => { a with ecnPresent := false }, ackRangeCount + 1)

def wireDecodeFrameResetStream : PacketM FrameResetStream := do
  expectFrameHeader frameTypeResetStream
  let streamId ← packetGetQuicVlint
  let appErrorCode ← packetGetQuicVlint
  let finalSize ← packetGetQuicVlint
  pure ⟨streamId, appErrorCode, finalSize⟩

def wireDecodeFrameStopSending : PacketM FrameStopSending := do
  expectFrameHeader frameTypeStopSending
  let streamId ← packetGetQuicVlint
  let appErrorCode ← packetGetQuicVlint
  pure ⟨streamId, appErrorCode⟩

def wireDecodeFrameCrypto (nodata : Bool) : PacketM FrameCrypto := do
  expectFrameHeader frameTypeCrypto
  let offset ← packetGetQuicVlint
  let len ← packetGetQuicVlint
  guard (¬ 2 ^ 62 - 1 < addU64 offset len)
  if nodata then pure ⟨offset, len, none⟩
  else do
    let data ← packetData
    packetForward len
    pure ⟨offset, len, some (data.take len)⟩

def wireDecodeFrameNewToken : PacketM (List UInt8) := do
  expectFrameHeader frameTypeNewToken
  let tokenLen ← packetGetQuicVlint
  let token ← packetData
  packetForward tokenLen
  pure (token.take tokenLen)

def wireDecodeFrameStream (nodata : Bool) : PacketM FrameStream := do
  let frameType ← expectFrameHeaderMask frameTypeStream frameFlagStreamMask
  let streamId ← packetGetQuicVlint
  let offset ← (if frameType &&& frameFlagStreamOff ≠ 0 then packetGetQuicVlint else pure 0)
  let hasExplicitLen := decide (frameType &&& frameFlagStreamLen ≠ 0)
  let isFin := decide (frameType &&& frameFlagStreamFin ≠ 0)
  let len ← (if hasExplicitLen then packetGetQuicVlint
    else if nodata then pure 0 else packetRemaining)
  guard (¬ 2 ^ 62 - 1 < addU64 offset len)
  if nodata then pure ⟨streamId, offset, len, none, hasExplicitLen, isFin⟩
  else do
    let data ← packetData
    packetForward len
    pure ⟨streamId, offset, len, some (data.take len), hasExplicitLen, isFin⟩

def wireDecodeFrameMaxData : PacketM Nat := do
  expectFrameHeader frameTypeMaxData
  packetGetQuicVlint

def wireDecodeFrameMaxStreamData : PacketM (Nat × Nat) := do
  expectFrameHeader frameTypeMaxStreamData
  let streamId ← packetGetQuicVlint
  let maxStreamData ← packetGetQuicVlint
  pure (streamId, maxStreamData)

def wireDecodeFrameMaxStreams : PacketM Nat := do
  let _ ← expectFrameHeaderMask frameTypeMaxStreamsBidi 1
  packetGetQuicVlint

def wireDecodeFrameDataBlocked : PacketM Nat := do
  expectFrameHeader frameTypeDataBlocked
  packetGetQuicVlint

def wireDecodeFrameStreamDataBlocked : PacketM (Nat × Nat) := do
  expectFrameHeader frameTypeStreamDataBlocked
  let streamId ← packetGetQuicVlint
  let maxStreamData ← packetGetQuicVlint
  pure (streamId, maxStreamData)

def wireDecodeFrameStreamsBlocked : PacketM Nat := do
  let _ ← expectFrameHeaderMask frameTypeStreamsBlockedBidi 1
  packetGetQuicVlint

def copiedTo (n : Nat) (bytes : List UInt8) : Vector UInt8 n := Vector.ofFn fun i => bytes.getD i 0

def wireDecodeFrameNewConnId : PacketM FrameNewConnId := do
  expectFrameHeader frameTypeNewConnId
  let seqNum ← packetGetQuicVlint
  let retirePriorTo ← packetGetQuicVlint
  guard (¬ seqNum < retirePriorTo)
  let len ← packetGet1
  guard (¬ (len < 1 ∨ quicMaxConnIdLen < len))
  let id ← packetCopyBytes len
  let token ← packetCopyBytes quicStatelessResetTokenLen
  pure ⟨seqNum, retirePriorTo, ⟨len, copiedTo _ id⟩, copiedTo _ token⟩

def wireDecodeFrameRetireConnId : PacketM Nat := do
  expectFrameHeader frameTypeRetireConnId
  packetGetQuicVlint

def wireDecodeFramePathChallenge : PacketM Nat := do
  expectFrameHeader frameTypePathChallenge
  packetGetNet8

def wireDecodeFramePathResponse : PacketM Nat := do
  expectFrameHeader frameTypePathResponse
  packetGetNet8

def wireDecodeFrameConnClose : PacketM FrameConnClose := do
  let frameType ← expectFrameHeaderMask frameTypeConnCloseTransport 1
  let errorCode ← packetGetQuicVlint
  let isApp := decide (frameType &&& 1 ≠ 0)
  let closeFrameType ← (if isApp then pure 0 else packetGetQuicVlint)
  let reasonLen ← packetGetQuicVlint
  let reason ← packetGetBytes reasonLen
  pure ⟨isApp, errorCode, closeFrameType, reason⟩

def wireDecodeFramePing : PacketM Unit := expectFrameHeader frameTypePing

def wireDecodeFrameHandshakeDone : PacketM Unit := expectFrameHeader frameTypeHandshakeDone

end Ossl
