import OpenSSL.Quic.Wire

/- The packet headers of ssl/quic/quic_wire_pkt.c. A pointer into a packet is its
   offset from the start of the packet. -/
namespace Ossl

inductive QuicPktType where
  | initial
  | zeroRtt
  | handshake
  | retry
  | oneRtt
  | versionNeg
  deriving DecidableEq

def pktTypeIsEncrypted : QuicPktType → Bool
  | .retry => false
  | .versionNeg => false
  | _ => true

def pktTypeHasPn (type : QuicPktType) : Bool := pktTypeIsEncrypted type
def pktTypeCanShareDgram (type : QuicPktType) : Bool := pktTypeIsEncrypted type

def pktTypeMustBeLast (type : QuicPktType) : Bool :=
  !pktTypeCanShareDgram type || decide (type = .oneRtt)

def quicVersion1 : Nat := 1
def quicMinValidPktLenCrypto : Nat := 21
def quicMinValidPktLenVersionNeg : Nat := 7
def quicMinValidPktLen : Nat := quicMinValidPktLenVersionNeg
def pnSize : Nat := 4

/- The length of the token is token_len. There is no data where the pointer is NULL. -/
structure QuicPktHdr where
  type : QuicPktType
  spinBit : Bool
  keyPhase : Bool
  pnLen : Nat
  isPartial : Bool
  fixed : Bool
  unused : Nat
  reserved : Nat
  version : Nat
  dstConnId : QuicConnId
  srcConnId : QuicConnId
  pn : Vector UInt8 pnSize
  token : List UInt8
  len : Nat
  data : Option (List UInt8)
  deriving DecidableEq

structure QuicPktHdrPtrs where
  rawStart : Option Nat
  rawSample : Option Nat
  rawSampleLen : Nat
  rawPn : Option Nat
  deriving DecidableEq

/- A version that is not known ends the decoding in its own way. -/
inductive PktHdrDecode where
  | badVersion
  | decoded (hdr : QuicPktHdr) (ptrs : QuicPktHdrPtrs)
  deriving DecidableEq

def QuicConnId.bytes (c : QuicConnId) : List UInt8 := c.id.toList.take c.idLen

def connIdOf (bytes : List UInt8) : QuicConnId := ⟨bytes.length, copiedTo _ bytes⟩

def packetOffset (l : Nat) : PacketM Nat := do
  let left ← packetRemaining
  pure (l - left)

def decodedPtrs (l : Nat) : Option Nat → QuicPktHdrPtrs
  | none => ⟨some 0, none, 0, none⟩
  | some pn => ⟨some 0, some (pn + 4), subU64 l (pn + 4), some pn⟩

def decodePnBytes (isPartial : Bool) (pnLen : Nat) : PacketM (Vector UInt8 pnSize) :=
  if isPartial then do
    packetForward pnSize
    pure (copiedTo _ [])
  else do
    let pn ← packetCopyBytes pnLen
    pure (copiedTo _ pn)

def decodeShortHdr (shortConnIdLen : Nat) (isPartial : Bool) (l b0 : Nat) :
    PacketM PktHdrDecode := do
  guard (¬ quicMaxConnIdLen < shortConnIdLen)
  guard (¬ (b0 &&& 0x40 = 0 ∨ l < quicMinValidPktLenCrypto))
  let pnLen := if isPartial then 0 else (b0 &&& 0x03) + 1
  let id ← packetCopyBytes shortConnIdLen
  let pnAt ← packetOffset l
  let pn ← decodePnBytes isPartial pnLen
  let len ← packetRemaining
  let data ← packetData
  packetForward len
  pure (.decoded
    { type := .oneRtt, spinBit := decide (b0 &&& 0x20 ≠ 0)
      keyPhase := !isPartial && decide (b0 &&& 0x04 ≠ 0), pnLen, isPartial, fixed := true
      unused := 0, reserved := if isPartial then 0 else (b0 &&& 0x18) >>> 3, version := 0
      dstConnId := connIdOf id, srcConnId := connIdOf [], pn, token := [], len
      data := some (data.take len) } (decodedPtrs l (some pnAt)))

def longPktType (rawType : Nat) : QuicPktType :=
  if rawType = 0 then .initial
  else if rawType = 1 then .zeroRtt
  else if rawType = 2 then .handshake
  else .retry

def decodeVersionNegHdr (l b0 : Nat) (dst src : List UInt8) : PacketM PktHdrDecode := do
  let data ← packetData
  let len ← packetRemaining
  guard (¬ len % 4 ≠ 0)
  packetForward len
  pure (.decoded
    { type := .versionNeg, spinBit := false, keyPhase := false, pnLen := 0, isPartial := false
      fixed := decide (b0 &&& 0x40 ≠ 0), unused := 0, reserved := 0, version := 0
      dstConnId := connIdOf dst, srcConnId := connIdOf src, pn := copiedTo _ [], token := [], len
      data := some (data.take len) } (decodedPtrs l none))

def decodeRetryHdr (l b0 version : Nat) (dst src : List UInt8) : PacketM PktHdrDecode := do
  let data ← packetData
  let len ← packetRemaining
  packetForward len
  pure (.decoded
    { type := .retry, spinBit := false, keyPhase := false, pnLen := 0, isPartial := false
      fixed := true, unused := b0 &&& 0x0f, reserved := 0, version, dstConnId := connIdOf dst
      srcConnId := connIdOf src, pn := copiedTo _ [], token := [], len
      data := some (data.take len) } (decodedPtrs l none))

def decodeToken (type : QuicPktType) : PacketM (List UInt8) :=
  if type = .initial then do
    let tokenLen ← packetGetQuicVlint
    packetGetBytes tokenLen
  else pure []

def decodeBody (nodata : Bool) (len : Nat) : PacketM (Option (List UInt8)) :=
  if nodata then pure none
  else do
    let data ← packetData
    packetForward len
    pure (some (data.take len))

def decodeLongHdr (isPartial nodata : Bool) (type : QuicPktType) (l b0 version : Nat)
    (dst src token : List UInt8) : PacketM PktHdrDecode := do
  let pnLen := if isPartial then 0 else (b0 &&& 0x03) + 1
  let len ← packetGetQuicVlint
  guard (¬ len < pnSize)
  let left ← packetRemaining
  guard (¬ (nodata = false ∧ left < len))
  let pnAt ← packetOffset l
  let pn ← decodePnBytes isPartial pnLen
  let bodyLen := len - (if isPartial then pnSize else pnLen)
  let data ← decodeBody nodata bodyLen
  pure (.decoded
    { type, spinBit := false, keyPhase := false, pnLen, isPartial, fixed := true, unused := 0
      reserved := if isPartial then 0 else (b0 &&& 0x0C) >>> 2, version
      dstConnId := connIdOf dst, srcConnId := connIdOf src, pn, token, len := bodyLen
      data } (decodedPtrs l (some pnAt)))

def decodeConnId : PacketM (List UInt8) := do
  let len ← packetGet1
  guard (¬ quicMaxConnIdLen < len)
  packetCopyBytes len

def wireDecodePktHdr (shortConnIdLen : Nat) (isPartial nodata : Bool) : PacketM PktHdrDecode := do
  let l ← packetRemaining
  guard (¬ l < quicMinValidPktLen)
  let b0 ← packetGet1
  if b0 &&& 0x80 = 0 then decodeShortHdr shortConnIdLen isPartial l b0
  else do
    let version ← packetGetNet4
    guard (¬ (version ≠ 0 ∧ b0 &&& 0x40 = 0))
    let dst ← decodeConnId
    let src ← decodeConnId
    if version = 0 then decodeVersionNegHdr l b0 dst src
    else if version ≠ quicVersion1 then pure .badVersion
    else do
      guard (¬ l < quicMinValidPktLenCrypto)
      let type := longPktType ((b0 >>> 4) &&& 0x3)
      let token ← decodeToken type
      if type = .retry then decodeRetryHdr l b0 version dst src
      else decodeLongHdr isPartial nodata type l b0 version dst src token

def rawPktType : QuicPktType → Nat
  | .zeroRtt => 1
  | .handshake => 2
  | .retry => 3
  | _ => 0

def shortFirstByte (hdr : QuicPktHdr) : Nat :=
  (hdr.spinBit.toNat <<< 5) ||| (hdr.keyPhase.toNat <<< 2) ||| (hdr.pnLen - 1) |||
    (hdr.reserved <<< 3) ||| 0x40

def longFirstByte (hdr : QuicPktHdr) : Nat :=
  let b0 := (rawPktType hdr.type <<< 4) ||| 0x80
  let b0 := if hdr.type ≠ .versionNeg ∨ hdr.fixed = true then b0 ||| 0x40 else b0
  let b0 := if pktTypeHasPn hdr.type then b0 ||| (hdr.pnLen - 1) ||| (hdr.reserved <<< 2) else b0
  if hdr.type = .retry then b0 ||| hdr.unused else b0

def encodePnBytes (hdr : QuicPktHdr) : WpacketM Unit := wpacketMemcpy (hdr.pn.toList.take hdr.pnLen)

def reservePayload (len : Nat) : WpacketM Unit :=
  if 0 < len then do
    let _ ← wpacketReserveBytes len
  else pure ()

def encodeHdrTail (hdr : QuicPktHdr) (wantPtrs : Bool) (start offStart : Nat) :
    WpacketM (Option QuicPktHdrPtrs) := do
  let offPn ← wpacketGetTotalWritten
  encodePnBytes hdr
  reservePayload hdr.len
  let curr ← wpacketCursor
  let offSample := offPn + 4
  pure (if wantPtrs then
    some ⟨some 0, some (offSample - offStart),
      subU64 (curr - start + hdr.len) (offSample - offStart), some (offPn - offStart)⟩
    else none)

def encodeShortHdr (shortConnIdLen : Nat) (hdr : QuicPktHdr) (wantPtrs : Bool)
    (start offStart : Nat) : WpacketM (Option QuicPktHdrPtrs) := do
  guard (¬ (hdr.dstConnId.idLen ≠ shortConnIdLen ∨ quicMaxConnIdLen < shortConnIdLen ∨
    hdr.pnLen < 1 ∨ 4 < hdr.pnLen))
  wpacketPutBytes (shortFirstByte hdr) 1
  wpacketMemcpy (hdr.dstConnId.id.toList.take shortConnIdLen)
  encodeHdrTail hdr wantPtrs start offStart

def encodeConnId (c : QuicConnId) : WpacketM Unit := do
  wpacketPutBytes c.idLen 1
  wpacketMemcpy c.bytes

def encodeToken (hdr : QuicPktHdr) : WpacketM Unit :=
  if hdr.type = .initial then do
    wpacketQuicWriteVlint hdr.token.length
    wpacketMemcpy hdr.token
  else pure ()

def encodeLongHdr (hdr : QuicPktHdr) (wantPtrs : Bool) (start offStart : Nat) :
    WpacketM (Option QuicPktHdrPtrs) := do
  guard (¬ (quicMaxConnIdLen < hdr.dstConnId.idLen ∨ quicMaxConnIdLen < hdr.srcConnId.idLen))
  guard (¬ (pktTypeHasPn hdr.type = true ∧ (hdr.pnLen < 1 ∨ 4 < hdr.pnLen)))
  guard (¬ (hdr.type = .versionNeg ∧ hdr.version ≠ 0))
  wpacketPutBytes (longFirstByte hdr) 1
  wpacketPutBytes hdr.version 4
  encodeConnId hdr.dstConnId
  encodeConnId hdr.srcConnId
  if hdr.type = .versionNeg then do
    reservePayload hdr.len
    pure (if wantPtrs then some ⟨none, none, 0, none⟩ else none)
  else if hdr.type = .retry then do
    wpacketMemcpy hdr.token
    pure (if wantPtrs then some ⟨none, none, 0, none⟩ else none)
  else do
    encodeToken hdr
    wpacketQuicWriteVlint (addU64 hdr.len hdr.pnLen)
    encodeHdrTail hdr wantPtrs start offStart

def wireEncodePktHdr (shortConnIdLen : Nat) (hdr : QuicPktHdr) (wantPtrs : Bool) :
    WpacketM (Option QuicPktHdrPtrs) := do
  let start ← wpacketCursor
  let offStart ← wpacketGetTotalWritten
  let kind ← wpacketGetBuf
  guard (¬ (wantPtrs = true ∧ kind ≠ .staticbuf))
  guard (¬ (hdr.isPartial = true ∨ hdr.type = .oneRtt ∧ hdr.dstConnId.idLen ≠ shortConnIdLen))
  if hdr.type = .oneRtt then encodeShortHdr shortConnIdLen hdr wantPtrs start offStart
  else encodeLongHdr hdr wantPtrs start offStart

def wireGetEncodedPktHdrLen (shortConnIdLen : Nat) (hdr : QuicPktHdr) : Nat :=
  if hdr.isPartial = true ∨ hdr.type = .oneRtt ∧ hdr.dstConnId.idLen ≠ shortConnIdLen then 0
  else if hdr.type = .oneRtt then
    if hdr.dstConnId.idLen ≠ shortConnIdLen ∨ quicMaxConnIdLen < shortConnIdLen ∨
      hdr.pnLen < 1 ∨ 4 < hdr.pnLen then 0
    else 1 + shortConnIdLen + hdr.pnLen
  else if quicMaxConnIdLen < hdr.dstConnId.idLen ∨ quicMaxConnIdLen < hdr.srcConnId.idLen then 0
  else if pktTypeHasPn hdr.type = true ∧ (hdr.pnLen < 1 ∨ 4 < hdr.pnLen) then 0
  else
    let len := 1 + 4 + 1 + hdr.dstConnId.idLen + 1 + hdr.srcConnId.idLen
    let len := if pktTypeHasPn hdr.type then len + hdr.pnLen else len
    let tokenEnclen := vlintEncodeLen hdr.token.length
    if hdr.type = .initial ∧ tokenEnclen = 0 then 0
    else
      let len := if hdr.type = .initial then len + (tokenEnclen + hdr.token.length) else len
      let enclen := vlintEncodeLen (addU64 hdr.len hdr.pnLen)
      if pktTypeMustBeLast hdr.type = false ∧ enclen = 0 then 0
      else if pktTypeMustBeLast hdr.type = false then len + enclen
      else len

end Ossl
