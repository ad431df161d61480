import OpenSSL.Quic.WirePkt
import OpenSSL.Quic.WireRoundTrip

/- Packet headers: the length that is predicted, the bytes that are written and
   what they are decoded to. -/
namespace Ossl
open Option List BigEndian Codec

def QuicPktHdr.pnBytes (hdr : QuicPktHdr) : List UInt8 := hdr.pn.toList.take hdr.pnLen

def connIdBytes (c : QuicConnId) : List UInt8 := netBytes 1 c.idLen ++ c.bytes

def shortFront (hdr : QuicPktHdr) : List UInt8 :=
  netBytes 1 (shortFirstByte hdr) ++ hdr.dstConnId.bytes

def tokenBytes (hdr : QuicPktHdr) : List UInt8 :=
  if hdr.type = .initial then vlintEncode hdr.token.length ++ hdr.token else []

def longFront (hdr : QuicPktHdr) : List UInt8 :=
  netBytes 1 (longFirstByte hdr) ++ (netBytes 4 hdr.version ++ (connIdBytes hdr.dstConnId ++
    (connIdBytes hdr.srcConnId ++ (tokenBytes hdr ++ vlintEncode (addU64 hdr.len hdr.pnLen)))))

def hdrFront (hdr : QuicPktHdr) : List UInt8 :=
  if hdr.type = .oneRtt then shortFront hdr else longFront hdr

def hdrBytes (hdr : QuicPktHdr) : List UInt8 := hdrFront hdr ++ hdr.pnBytes

/- The headers of packets that are encrypted, with fields within their widths. -/
structure PktHdrOk (hdr : QuicPktHdr) : Prop where
  encrypted : pktTypeHasPn hdr.type = true
  version : hdr.version = quicVersion1
  reserved : hdr.reserved < 4
  sample : 4 ≤ hdr.len + hdr.pnLen

def QuicPktHdr.carried (hdr : QuicPktHdr) (payload : List UInt8) : QuicPktHdr :=
  let short := decide (hdr.type = .oneRtt)
  { hdr with
    spinBit := short && hdr.spinBit, keyPhase := short && hdr.keyPhase, fixed := true, unused := 0
    version := if short then 0 else hdr.version
    dstConnId := connIdOf hdr.dstConnId.bytes
    srcConnId := if short then connIdOf [] else connIdOf hdr.srcConnId.bytes
    pn := copiedTo _ hdr.pnBytes, token := if hdr.type = .initial then hdr.token else []
    data := some payload }

variable {c : QuicConnId} {n : Nat}

theorem connId_length (fits : c.idLen ≤ quicMaxConnIdLen) : c.bytes.length = c.idLen := by
  rw [QuicConnId.bytes, length_take, Vector.length_toList]
  omega

variable {hdr : QuicPktHdr} {shortConnIdLen : Nat} {payload : List UInt8}

theorem pnBytes_length (few : hdr.pnLen ≤ 4) : hdr.pnBytes.length = hdr.pnLen := by
  rw [QuicPktHdr.pnBytes, length_take, Vector.length_toList]
  have : pnSize = 4 := rfl
  omega

theorem reservePayload_yields (len : Nat) (before : List UInt8) :
    Yields wpacketOutput (reservePayload len) before (len = 0 ∨ before.length + len < 2 ^ 64) [] () := by
  unfold reservePayload
  by_cases some : 0 < len
  · rw [if_pos some]
    exact yields_mono .inr (reserveBytes_yields len before)
  · rw [if_neg some]
    exact yields_mono (fun _ => .inl (by omega)) (yields_pure _ _ _)

def hdrPtrs (hdr : QuicPktHdr) (wantPtrs : Bool) (front : List UInt8) : Option QuicPktHdrPtrs :=
  if wantPtrs then
    some (decodedPtrs ((front ++ hdr.pnBytes).length + hdr.len) (some front.length))
  else none

def PayloadFits (hdr : QuicPktHdr) (behind : List UInt8) : Prop :=
  hdr.len = 0 ∨ (behind ++ hdr.pnBytes).length + hdr.len < 2 ^ 64

theorem encodeHdrTail_yields (hdr : QuicPktHdr) (wantPtrs : Bool) (before front : List UInt8) :
    Yields wpacketOutput (encodeHdrTail hdr wantPtrs before.length before.length) (before ++ front)
      (PayloadFits hdr (before ++ front)) hdr.pnBytes (hdrPtrs hdr wantPtrs front) := by
  have pnAt : (before ++ front).length - before.length = front.length := by
    rw [length_append]
    omega
  have sampleAt : (before ++ front).length + 4 - before.length = front.length + 4 := by
    rw [length_append]
    omega
  have written : (before ++ front ++ hdr.pnBytes).length - before.length =
      (front ++ hdr.pnBytes).length := by
    rw [append_assoc, length_append]
    omega
  rw [hdrPtrs, decodedPtrs, ← written, ← sampleAt, ← pnAt]
  apply yields_mono (And.left ∘ And.right ∘ And.right)
  apply yields_read (totalWritten_yields _)
  apply yields_last (yields_of_emits (memcpy_emits hdr.pnBytes) _)
  apply yields_read (reservePayload_yields _ _)
  apply yields_read (cursor_yields _)
  apply yields_pure

theorem encodeShortHdr_yields (hdr : QuicPktHdr) (shortConnIdLen : Nat) (wantPtrs : Bool)
    (before : List UInt8) :
    Yields wpacketOutput
      (encodeShortHdr shortConnIdLen hdr wantPtrs before.length before.length) before
      ((hdr.dstConnId.idLen = shortConnIdLen ∧ shortConnIdLen ≤ quicMaxConnIdLen ∧
        1 ≤ hdr.pnLen ∧ hdr.pnLen ≤ 4) ∧ PayloadFits hdr (before ++ shortFront hdr))
      (shortFront hdr ++ hdr.pnBytes) (hdrPtrs hdr wantPtrs (shortFront hdr)) := by
  have tail := encodeHdrTail_yields hdr wantPtrs before (shortFront hdr)
  generalize hdrPtrs hdr wantPtrs (shortFront hdr) = ptrs at tail ⊢
  generalize PayloadFits hdr (before ++ shortFront hdr) = fits at tail ⊢
  rw [shortFront, ← append_assoc] at tail
  rw [shortFront, append_assoc]
  have run : Yields wpacketOutput
      (encodeShortHdr shortConnIdLen hdr wantPtrs before.length before.length) before
      (¬ (hdr.dstConnId.idLen ≠ shortConnIdLen ∨ quicMaxConnIdLen < shortConnIdLen ∨
        hdr.pnLen < 1 ∨ 4 < hdr.pnLen) ∧ shortFirstByte hdr < 2 ^ (8 * 1) ∧ True ∧ fits)
      (netBytes 1 (shortFirstByte hdr) ++ (hdr.dstConnId.bytes ++ hdr.pnBytes)) ptrs := by
    apply yields_guard_bind
    intro valid
    obtain rfl : hdr.dstConnId.idLen = shortConnIdLen := by omega
    apply yields_bind (yields_of_emits (putBytes_emits _ _) _)
    exact yields_bind (yields_of_emits (memcpy_emits hdr.dstConnId.bytes) _) tail
  exact yields_mono (fun holds => ⟨by omega, holds.2.2.2⟩) run

theorem encodeConnId_emits (c : QuicConnId) :
    Emits wpacketOutput (encodeConnId c) True (connIdBytes c) :=
  emits_mono (fun _ => trivial) (emits_bind (putBytes_emits _ _) fun _ => memcpy_emits _)

theorem encodeToken_emits (hdr : QuicPktHdr) :
    Emits wpacketOutput (encodeToken hdr)
      (hdr.type = .initial → hdr.token.length ≤ vlintMax) (tokenBytes hdr) := by
  have either := emits_ite (b := hdr.type = .initial)
    (fun _ => emits_bind (writeVlint_emits hdr.token.length) fun _ => memcpy_emits hdr.token)
    (fun _ => emits_pure wpacketOutput ())
  apply emits_mono _ either
  intro holds type
  rw [if_pos type] at holds
  exact holds.1

/-- What a long header takes: the fields in front of the number fit their bytes. -/
theorem encodeLongHdr_yields (has : pktTypeHasPn hdr.type = true) (wantPtrs : Bool)
    (before : List UInt8) :
    Yields wpacketOutput (encodeLongHdr hdr wantPtrs before.length before.length) before
      ((hdr.dstConnId.idLen ≤ quicMaxConnIdLen ∧ hdr.srcConnId.idLen ≤ quicMaxConnIdLen ∧
        1 ≤ hdr.pnLen ∧ hdr.pnLen ≤ 4) ∧
        (hdr.type = .initial → hdr.token.length ≤ vlintMax) ∧
        addU64 hdr.len hdr.pnLen ≤ vlintMax ∧ PayloadFits hdr (before ++ longFront hdr))
      (longFront hdr ++ hdr.pnBytes) (hdrPtrs hdr wantPtrs (longFront hdr)) := by
  have tail := encodeHdrTail_yields hdr wantPtrs before (longFront hdr)
  generalize hdrPtrs hdr wantPtrs (longFront hdr) = ptrs at tail ⊢
  generalize PayloadFits hdr (before ++ longFront hdr) = fits at tail ⊢
  have plain : hdr.type ≠ .versionNeg ∧ hdr.type ≠ .retry := by
    constructor
    · intro same
      rw [same] at has
      cases has
    · intro same
      rw [same] at has
      cases has
  have run : Yields wpacketOutput (encodeLongHdr hdr wantPtrs before.length before.length) before
      (¬ (quicMaxConnIdLen < hdr.dstConnId.idLen ∨ quicMaxConnIdLen < hdr.srcConnId.idLen) ∧
        ¬ (pktTypeHasPn hdr.type = true ∧ (hdr.pnLen < 1 ∨ 4 < hdr.pnLen)) ∧
        ¬ (hdr.type = .versionNeg ∧ hdr.version ≠ 0) ∧ longFirstByte hdr < 2 ^ (8 * 1) ∧
        hdr.version < 2 ^ (8 * 4) ∧ True ∧ True ∧
        (hdr.type = .initial → hdr.token.length ≤ vlintMax) ∧
        addU64 hdr.len hdr.pnLen ≤ vlintMax ∧ fits)
      (netBytes 1 (longFirstByte hdr) ++ (netBytes 4 hdr.version ++ (connIdBytes hdr.dstConnId ++
        (connIdBytes hdr.srcConnId ++ (tokenBytes hdr ++
          (vlintEncode (addU64 hdr.len hdr.pnLen) ++ hdr.pnBytes)))))) ptrs := by
    refine yields_guard_bind fun _ => yields_guard_bind fun _ => yields_guard_bind fun _ => ?_
    apply yields_bind (yields_of_emits (putBytes_emits _ _) _)
    apply yields_bind (yields_of_emits (putBytes_emits _ _) _)
    apply yields_bind (yields_of_emits (encodeConnId_emits _) _)
    apply yields_bind (yields_of_emits (encodeConnId_emits _) _)
    rw [if_neg plain.1, if_neg plain.2]
    apply yields_bind (yields_of_emits (encodeToken_emits hdr) _)
    apply yields_bind (yields_of_emits (writeVlint_emits _) _)
    simp only [longFront, append_assoc] at tail ⊢
    exact tail
  simp only [longFront, append_assoc]
  refine yields_mono (fun holds => ?_) run
  obtain ⟨ids, number, _, _, _, _, _, token, length, room⟩ := holds
  rw [has] at number
  exact ⟨by simp only [true_and] at number; omega, token, length, room⟩

structure PktHdrFits (shortConnIdLen : Nat) (hdr : QuicPktHdr) (behind : Nat) : Prop where
  whole : hdr.isPartial = false
  short : hdr.type = .oneRtt → hdr.dstConnId.idLen = shortConnIdLen
  dst : hdr.dstConnId.idLen ≤ quicMaxConnIdLen
  src : hdr.type ≠ .oneRtt → hdr.srcConnId.idLen ≤ quicMaxConnIdLen
  pnLen : 1 ≤ hdr.pnLen ∧ hdr.pnLen ≤ 4
  token : hdr.type = .initial → hdr.token.length ≤ vlintMax
  length : hdr.type ≠ .oneRtt → hdr.len + hdr.pnLen ≤ vlintMax
  room : hdr.len = 0 ∨ behind + (hdrBytes hdr).length + hdr.len < 2 ^ 64

theorem wireEncodePktHdr_yields (has : pktTypeHasPn hdr.type = true) (shortConnIdLen : Nat)
    (wantPtrs : Bool) (before : List UInt8) :
    Yields wpacketOutput (wireEncodePktHdr shortConnIdLen hdr wantPtrs) before
      (PktHdrFits shortConnIdLen hdr before.length) (hdrBytes hdr)
      (hdrPtrs hdr wantPtrs (hdrFront hdr)) := by
  have body : Yields wpacketOutput
      (if hdr.type = .oneRtt then
        encodeShortHdr shortConnIdLen hdr wantPtrs before.length before.length
      else encodeLongHdr hdr wantPtrs before.length before.length) before
      (hdr.isPartial = false → PktHdrFits shortConnIdLen hdr before.length) (hdrBytes hdr)
      (hdrPtrs hdr wantPtrs (hdrFront hdr)) := by
    have room : PayloadFits hdr (before ++ hdrFront hdr) ↔
        (hdr.len = 0 ∨ before.length + (hdrBytes hdr).length + hdr.len < 2 ^ 64) := by
      simp only [PayloadFits, hdrBytes, append_assoc, length_append]
    by_cases short : hdr.type = .oneRtt
    · have run := encodeShortHdr_yields hdr shortConnIdLen wantPtrs before
      rw [if_pos short]
      unfold hdrBytes hdrFront at room ⊢
      rw [if_pos short] at room ⊢
      apply yields_mono _ run
      rintro ⟨⟨same, few, number⟩, fits⟩ whole
      refine ⟨whole, fun _ => same, by omega, fun long => absurd short long, number,
        fun initial => ?_, fun long => absurd short long, ?_⟩
      · rw [short] at initial
        cases initial
      · unfold hdrBytes hdrFront
        rw [if_pos short]
        exact room.mp fits
    · have run := encodeLongHdr_yields has wantPtrs before
      rw [if_neg short]
      unfold hdrBytes hdrFront at room ⊢
      rw [if_neg short] at room ⊢
      apply yields_mono _ run
      rintro ⟨⟨dst, src, number⟩, token, length, fits⟩ whole
      refine ⟨whole, fun same => absurd same short, dst, fun _ => src, number, token, fun _ => ?_, ?_⟩
      · have pn := pnBytes_length number.2
        rcases room.mp fits with none | some
        · rw [addU64_exact (by omega)] at length
          exact length
        · rw [length_append] at some
          rw [addU64_exact (by omega)] at length
          exact length
      · unfold hdrBytes hdrFront
        rw [if_neg short]
        exact room.mp fits
  have run : Yields wpacketOutput (wireEncodePktHdr shortConnIdLen hdr wantPtrs) before
      (True ∧ True ∧ ¬ (hdr.isPartial = true ∨
        hdr.type = .oneRtt ∧ hdr.dstConnId.idLen ≠ shortConnIdLen) ∧
        (hdr.isPartial = false → PktHdrFits shortConnIdLen hdr before.length))
      (hdrBytes hdr) (hdrPtrs hdr wantPtrs (hdrFront hdr)) := by
    apply yields_read (cursor_yields before)
    apply yields_read (totalWritten_yields before)
    refine yields_any (fun s => ⟨s.buf, rfl⟩) fun kind => ?_
    exact yields_mono And.right (yields_guard_bind fun _ => yields_guard_bind fun _ => body)
  apply yields_mono _ run
  rintro ⟨_, _, usable, fits⟩
  exact fits (by simpa using fun partly => usable (.inl partly))

/-- The predicted length is that of the bytes in front of the payload. -/
theorem encoded_length {behind : Nat} (has : pktTypeHasPn hdr.type = true)
    (fits : PktHdrFits shortConnIdLen hdr behind) :
    (hdrBytes hdr).length = wireGetEncodedPktHdrLen shortConnIdLen hdr := by
  have dst := connId_length fits.dst
  have pn := pnBytes_length fits.pnLen.2
  have number := fits.pnLen
  have usable : ¬ (hdr.isPartial = true ∨
      hdr.type = .oneRtt ∧ hdr.dstConnId.idLen ≠ shortConnIdLen) := by
    rintro (partly | ⟨short, differs⟩)
    · rw [fits.whole] at partly
      cases partly
    · exact differs (fits.short short)
  unfold wireGetEncodedPktHdrLen
  rw [if_neg usable, hdrBytes, length_append, pn]
  by_cases short : hdr.type = .oneRtt
  · have same := fits.short short
    have few := fits.dst
    rw [if_pos short, if_neg (by omega), hdrFront, if_pos short, shortFront, length_append,
      netBytes_length, dst, same]
  · have src := connId_length (fits.src short)
    have ids := fits.src short
    have few := fits.dst
    have shared : pktTypeMustBeLast hdr.type = false := by
      unfold pktTypeMustBeLast pktTypeCanShareDgram
      change pktTypeIsEncrypted hdr.type = true at has
      rw [has]
      simp [short]
    have length := fits.length short
    have top : vlintMax < 2 ^ 62 := by decide
    have exact' : addU64 hdr.len hdr.pnLen = hdr.len + hdr.pnLen := addU64_exact (by omega)
    have coded := (vlint_decodes length []).1
    have positive := vlintEncodeLen_pos.mpr length
    have front : (longFront hdr).length = 1 + 4 + (1 + hdr.dstConnId.idLen) +
        (1 + hdr.srcConnId.idLen) + (tokenBytes hdr).length +
        vlintEncodeLen (hdr.len + hdr.pnLen) := by
      simp only [longFront, connIdBytes, length_append, netBytes_length, dst, src, exact', coded]
      omega
    rw [if_neg short, if_neg (by omega), if_neg (by omega), hdrFront, if_neg short, front]
    simp only [has, shared, exact', positive, if_true, and_false, if_false]
    by_cases initial : hdr.type = .initial
    · have token := fits.token initial
      have codedToken := (vlint_decodes token []).1
      have positiveToken := vlintEncodeLen_pos.mpr token
      simp only [tokenBytes, initial, if_true, true_and, positiveToken, if_false, length_append,
        codedToken]
      omega
    · simp only [tokenBytes, initial, false_and, if_false, length_nil]
      omega

theorem shortFirstByte_fields (pnLen : 1 ≤ hdr.pnLen ∧ hdr.pnLen ≤ 4)
    (reserved : hdr.reserved < 4) : let b0 := shortFirstByte hdr
    b0 < 2 ^ 8 ∧ b0 &&& 0x80 = 0 ∧ b0 &&& 0x40 ≠ 0 ∧ decide (b0 &&& 0x20 ≠ 0) = hdr.spinBit ∧
      decide (b0 &&& 0x04 ≠ 0) = hdr.keyPhase ∧ (b0 &&& 0x03) + 1 = hdr.pnLen ∧
      (b0 &&& 0x18) >>> 3 = hdr.reserved := by
  have all : ∀ (spin key : Bool) (n r : Fin 4),
      let b0 := (spin.toNat <<< 5) ||| (key.toNat <<< 2) ||| n.val ||| (r.val <<< 3) ||| 0x40
      b0 < 2 ^ 8 ∧ b0 &&& 0x80 = 0 ∧ b0 &&& 0x40 ≠ 0 ∧ decide (b0 &&& 0x20 ≠ 0) = spin ∧
        decide (b0 &&& 0x04 ≠ 0) = key ∧ b0 &&& 0x03 = n.val ∧ (b0 &&& 0x18) >>> 3 = r.val := by
    decide
  obtain ⟨byte, form, fixed, spin, key, number, rest⟩ :=
    all hdr.spinBit hdr.keyPhase ⟨hdr.pnLen - 1, by omega⟩ ⟨hdr.reserved, reserved⟩
  refine ⟨byte, form, fixed, spin, key, ?_, rest⟩
  rw [shortFirstByte, number]
  dsimp only
  omega

theorem longFirstByte_fields (has : pktTypeHasPn hdr.type = true) (long : hdr.type ≠ .oneRtt)
    (pnLen : 1 ≤ hdr.pnLen ∧ hdr.pnLen ≤ 4) (reserved : hdr.reserved < 4) :
    let b0 := longFirstByte hdr
    b0 < 2 ^ 8 ∧ b0 &&& 0x80 ≠ 0 ∧ b0 &&& 0x40 ≠ 0 ∧
      longPktType ((b0 >>> 4) &&& 0x3) = hdr.type ∧ (b0 &&& 0x03) + 1 = hdr.pnLen ∧
      (b0 &&& 0x0C) >>> 2 = hdr.reserved := by
  have all : ∀ raw n r : Fin 4,
      let b0 := (raw.val <<< 4) ||| 0x80 ||| 0x40 ||| n.val ||| (r.val <<< 2)
      b0 < 2 ^ 8 ∧ b0 &&& 0x80 ≠ 0 ∧ b0 &&& 0x40 ≠ 0 ∧ (b0 >>> 4) &&& 0x3 = raw.val ∧
        b0 &&& 0x03 = n.val ∧ (b0 &&& 0x0C) >>> 2 = r.val := by
    decide
  have raw : rawPktType hdr.type < 4 ∧ longPktType (rawPktType hdr.type) = hdr.type ∧
      hdr.type ≠ .versionNeg ∧ hdr.type ≠ .retry := by
    cases type : hdr.type with
    | initial => decide
    | zeroRtt => decide
    | handshake => decide
    | retry => rw [type] at has; cases has
    | oneRtt => exact absurd type long
    | versionNeg => rw [type] at has; cases has
  have byte : longFirstByte hdr =
      (rawPktType hdr.type <<< 4) ||| 0x80 ||| 0x40 ||| (hdr.pnLen - 1) ||| (hdr.reserved <<< 2) := by
    simp only [longFirstByte, raw.2.2.1, raw.2.2.2, has, ne_eq, not_false_eq_true, true_or, if_true,
      if_false]
  obtain ⟨small, form, fixed, type, number, rest⟩ :=
    all ⟨rawPktType hdr.type, raw.1⟩ ⟨hdr.pnLen - 1, by omega⟩ ⟨hdr.reserved, reserved⟩
  rw [← byte] at small form fixed type number rest
  refine ⟨small, form, fixed, ?_, ?_, rest⟩
  · rw [type]
    exact raw.2.1
  · rw [number]
    dsimp only
    omega

theorem offset_reads (l : Nat) (rest : List UInt8) :
    Reads (packetOffset l) [] (l - rest.length) rest := rfl

theorem pnBytes_reads {pn : List UInt8} (len : pn.length = n) (rest : List UInt8) :
    Reads (decodePnBytes false n) pn (copiedTo _ pn) rest :=
  reads_last (getBytes_reads len rest)

theorem short_reads {behind : Nat} (ok : PktHdrOk hdr)
    (fits : PktHdrFits shortConnIdLen hdr behind) (short : hdr.type = .oneRtt)
    (len : payload.length = hdr.len)
    (least : quicMinValidPktLenCrypto ≤ (hdrBytes hdr ++ payload).length) :
    Reads (wireDecodePktHdr shortConnIdLen false false) (hdrBytes hdr ++ payload)
      (.decoded (hdr.carried payload)
        (decodedPtrs (hdrBytes hdr ++ payload).length (some (hdrFront hdr).length))) [] := by
  obtain ⟨byte, form, fixed, spin, key, number, reserved⟩ :=
    shortFirstByte_fields fits.pnLen ok.reserved
  have dst : hdr.dstConnId.bytes.length = shortConnIdLen :=
    (connId_length fits.dst).trans (fits.short short)
  have few : shortConnIdLen ≤ quicMaxConnIdLen := fits.short short ▸ fits.dst
  have pn := pnBytes_length fits.pnLen.2
  generalize total : (hdrBytes hdr ++ payload).length = l at least ⊢
  have pnAt : l - (hdr.pnBytes ++ payload ++ []).length = (hdrFront hdr).length := by
    rw [← total, hdrBytes]
    simp only [length_append, length_nil]
    omega
  have front : hdrFront hdr = shortFront hdr := if_pos short
  have split : hdrBytes hdr ++ payload =
      netBytes 1 (shortFirstByte hdr) ++ (hdr.dstConnId.bytes ++ (hdr.pnBytes ++ payload)) := by
    simp only [hdrBytes, front, shortFront, append_assoc]
  have start : Reads packetRemaining [] l (hdrBytes hdr ++ payload ++ []) := by
    have all := remaining_reads (hdrBytes hdr ++ payload ++ [])
    rwa [append_nil, total, ← append_nil (hdrBytes hdr ++ payload)] at all
  rw [split] at start ⊢
  have more : ¬ l < quicMinValidPktLen := by
    have : quicMinValidPktLen ≤ quicMinValidPktLenCrypto := by decide
    omega
  refine reads_look start (reads_guard_bind more (reads_bind (get1_reads byte _) ?_))
  rw [if_pos form]
  refine reads_guard_bind (not_lt.mpr few) (reads_guard_bind ?_ ?_)
  · rintro (unset | less)
    · exact fixed unset
    · omega
  refine reads_bind (getBytes_reads dst _) (reads_look (offset_reads l _) ?_)
  refine reads_bind (pnBytes_reads (pn.trans number.symm) _) ?_
  refine reads_look (remaining_reads _) (data_reads (by simp) ?_)
  have taken : payload.take hdr.len = payload := by rw [← len, take_length]
  rw [pnAt]
  simp only [QuicPktHdr.carried, short, fits.whole, spin, key, number, reserved, len, taken,
    if_false, Bool.false_eq_true, Bool.not_false, Bool.true_and, append_nil, decide_true,
    if_true, reduceCtorEq]

theorem connId_reads (fits : c.idLen ≤ quicMaxConnIdLen) (rest : List UInt8) :
    Reads decodeConnId (connIdBytes c) c.bytes rest := by
  have most : quicMaxConnIdLen = 20 := rfl
  apply reads_bind (get1_reads (by omega) _)
  apply reads_guard_bind (not_lt.mpr fits)
  exact getBytes_reads (connId_length fits) _

theorem token_reads (fits : hdr.type = .initial → hdr.token.length ≤ vlintMax) (rest : List UInt8) :
    Reads (decodeToken hdr.type) (tokenBytes hdr) (if hdr.type = .initial then hdr.token else [])
      rest := by
  unfold decodeToken tokenBytes
  by_cases initial : hdr.type = .initial
  · simp only [if_pos initial]
    exact reads_bind (getQuicVlint_reads (fits initial) _) (getBytes_reads rfl _)
  · simp only [if_neg initial]
    exact reads_pure _ _

theorem body_reads (len : payload.length = n) (rest : List UInt8) :
    Reads (decodeBody false n) payload (some payload) rest :=
  data_reads len (by rw [take_left' len])

theorem long_reads {behind : Nat} (ok : PktHdrOk hdr)
    (fits : PktHdrFits shortConnIdLen hdr behind) (long : hdr.type ≠ .oneRtt)
    (len : payload.length = hdr.len)
    (least : quicMinValidPktLenCrypto ≤ (hdrBytes hdr ++ payload).length) :
    Reads (wireDecodePktHdr shortConnIdLen false false) (hdrBytes hdr ++ payload)
      (.decoded (hdr.carried payload)
        (decodedPtrs (hdrBytes hdr ++ payload).length (some (hdrFront hdr).length))) [] := by
  obtain ⟨byte, form, fixed, type, number, reserved⟩ :=
    longFirstByte_fields ok.encrypted long fits.pnLen ok.reserved
  have version : hdr.version = 1 := ok.version
  have length := fits.length long
  have top : vlintMax < 2 ^ 62 := by decide
  have whole : addU64 hdr.len hdr.pnLen = hdr.len + hdr.pnLen := addU64_exact (by omega)
  have pn := pnBytes_length fits.pnLen.2
  generalize total : (hdrBytes hdr ++ payload).length = l at least ⊢
  have pnAt : l - (hdr.pnBytes ++ payload ++ []).length = (hdrFront hdr).length := by
    rw [← total, hdrBytes]
    simp only [length_append, length_nil]
    omega
  have front : hdrFront hdr = longFront hdr := if_neg long
  have split : hdrBytes hdr ++ payload =
      netBytes 1 (longFirstByte hdr) ++ (netBytes 4 hdr.version ++ (connIdBytes hdr.dstConnId ++
        (connIdBytes hdr.srcConnId ++ (tokenBytes hdr ++ (vlintEncode (hdr.len + hdr.pnLen) ++
          (hdr.pnBytes ++ payload)))))) := by
    simp only [hdrBytes, front, longFront, append_assoc, whole]
  have start : Reads packetRemaining [] l (hdrBytes hdr ++ payload ++ []) := by
    have all := remaining_reads (hdrBytes hdr ++ payload ++ [])
    rwa [append_nil, total, ← append_nil (hdrBytes hdr ++ payload)] at all
  rw [split] at start ⊢
  have more : ¬ l < quicMinValidPktLen := by
    have : quicMinValidPktLen ≤ quicMinValidPktLenCrypto := by decide
    omega
  have known : ¬ (hdr.version ≠ 0 ∧ longFirstByte hdr &&& 0x40 = 0) := fun unset => fixed unset.2
  have plain : hdr.type ≠ .retry := by
    intro same
    have has := ok.encrypted
    rw [same] at has
    cases has
  refine reads_look start (reads_guard_bind more (reads_bind (get1_reads byte _) ?_))
  rw [if_neg form]
  refine reads_bind (getNet4_reads (by rw [version]; decide) _) (reads_guard_bind known ?_)
  refine reads_bind (connId_reads fits.dst _) (reads_bind (connId_reads (fits.src long) _) ?_)
  rw [if_neg (by omega), if_neg (not_not.mpr ok.version)]
  refine reads_guard_bind (not_lt.mpr least) ?_
  rw [type]
  refine reads_bind (token_reads fits.token _) ?_
  rw [if_neg plain]
  have sample : pnSize = 4 := rfl
  have enough := ok.sample
  refine reads_bind (getQuicVlint_reads length _) (reads_guard_bind (by omega) ?_)
  refine reads_look (remaining_reads _) (reads_guard_bind ?_ ?_)
  · rintro ⟨_, less⟩
    simp only [length_append, length_nil] at less
    omega
  refine reads_look (offset_reads l _) (reads_bind (pnBytes_reads (pn.trans number.symm) _) ?_)
  have rest : payload.length = hdr.len + hdr.pnLen - hdr.pnLen := by omega
  simp only [Bool.false_eq_true, if_false, number, reserved, pnAt]
  have body := reads_last (g := fun data => PktHdrDecode.decoded
    { type := hdr.type, spinBit := false, keyPhase := false, pnLen := hdr.pnLen, isPartial := false
      fixed := true, unused := 0, reserved := hdr.reserved, version := hdr.version
      dstConnId := connIdOf hdr.dstConnId.bytes, srcConnId := connIdOf hdr.srcConnId.bytes
      pn := copiedTo _ hdr.pnBytes, token := if hdr.type = .initial then hdr.token else []
      len := hdr.len + hdr.pnLen - hdr.pnLen, data }
    (decodedPtrs l (some (hdrFront hdr).length))) (body_reads rest [])
  have same : hdr.len + hdr.pnLen - hdr.pnLen = hdr.len := by omega
  simp only [QuicPktHdr.carried, long, fits.whole, decide_false, Bool.false_and,
    Bool.false_eq_true, if_false]
  rw [same] at body ⊢
  exact body

/-- A header that is accepted takes as many bytes as predicted, and these with the payload behind
    them are decoded, to the end, to the fields that the type of the packet has, the pointers where
    the encoder told. -/
theorem pkt_hdr_round_trip (hdr : QuicPktHdr) (shortConnIdLen : Nat) (wantPtrs : Bool)
    (pkt pkt' : Wpacket) (ptrs : Option QuicPktHdrPtrs) (payload : List UInt8) (ok : PktHdrOk hdr)
    (ready : WpacketReady pkt)
    (run : (wireEncodePktHdr shortConnIdLen hdr wantPtrs).run pkt = some (ptrs, pkt'))
    (len : payload.length = hdr.len)
    (least : quicMinValidPktLenCrypto ≤
      wireGetEncodedPktHdrLen shortConnIdLen hdr + payload.length) :
    ∃ (header : List UInt8) (read : QuicPktHdrPtrs), wpacketOut pkt' = wpacketOut pkt ++ header ∧
      header.length = wireGetEncodedPktHdrLen shortConnIdLen hdr ∧
      (wireDecodePktHdr shortConnIdLen false false).run (header ++ payload) =
        some (.decoded (hdr.carried payload) read, []) ∧
      ptrs = if wantPtrs then some read else none := by
  obtain ⟨fits, _, out, same⟩ :=
    wireEncodePktHdr_yields ok.encrypted shortConnIdLen wantPtrs (wpacketOut pkt) pkt ptrs pkt' ready
      rfl run
  have length := encoded_length ok.encrypted fits
  have enough : quicMinValidPktLenCrypto ≤ (hdrBytes hdr ++ payload).length := by
    rwa [length_append, length]
  refine ⟨hdrBytes hdr, decodedPtrs (hdrBytes hdr ++ payload).length (some (hdrFront hdr).length),
    out, length, ?_, ?_⟩
  · have reads : Reads (wireDecodePktHdr shortConnIdLen false false) (hdrBytes hdr ++ payload)
        (.decoded (hdr.carried payload)
          (decodedPtrs (hdrBytes hdr ++ payload).length (some (hdrFront hdr).length))) [] := by
      by_cases short : hdr.type = .oneRtt
      · exact short_reads ok fits short len enough
      · exact long_reads ok fits short len enough
    rwa [Reads, append_nil] at reads
  · rw [same, hdrPtrs, ← hdrBytes, length_append, len]

def sampleHdr : QuicPktHdr where
  type := .initial
  spinBit := false
  keyPhase := false
  pnLen := 2
  isPartial := false
  fixed := true
  unused := 0
  reserved := 0
  version := 1
  dstConnId := connIdOf [1, 2, 3]
  srcConnId := connIdOf [4, 5]
  pn := copiedTo _ [7, 8]
  token := [9, 9]
  len := 20
  data := none

def samplePkt : Wpacket := ⟨.staticbuf, fun _ => 0, 0, 0, 64, [⟨0, 0, 0, 0⟩], false⟩

theorem samplePkt_ready : WpacketReady samplePkt :=
  ⟨rfl, by decide, rfl, by decide, by decide, nofun⟩

theorem pkt_hdr_round_trip_initial :
    ∃ ptrs pkt', (wireEncodePktHdr 0 sampleHdr true).run samplePkt = some (ptrs, pkt') ∧
      ∃ (header : List UInt8) (read : QuicPktHdrPtrs), wpacketOut pkt' = [] ++ header ∧
        header.length = wireGetEncodedPktHdrLen 0 sampleHdr ∧
        (wireDecodePktHdr 0 false false).run (header ++ replicate 20 0) =
          some (.decoded (sampleHdr.carried (replicate 20 0)) read, []) ∧
        ptrs = if true then some read else none := by
  have accepted : ((wireEncodePktHdr 0 sampleHdr true).run samplePkt).isSome = true := by decide
  obtain ⟨⟨ptrs, pkt'⟩, run⟩ := isSome_iff_exists.mp accepted
  exact ⟨ptrs, pkt', run, pkt_hdr_round_trip sampleHdr 0 true samplePkt pkt' ptrs
    (replicate 20 0) ⟨rfl, rfl, by decide, by decide⟩ samplePkt_ready run rfl (by decide)⟩

/- All fields of a header that its packet might give back. -/
structure SameFields (read hdr : QuicPktHdr) : Prop where
  type : read.type = hdr.type
  version : read.version = hdr.version
  dstConnId : read.dstConnId.bytes = hdr.dstConnId.bytes
  srcConnId : read.srcConnId.bytes = hdr.srcConnId.bytes
  token : read.token = hdr.token
  bits : read.reserved = hdr.reserved ∧ read.spinBit = hdr.spinBit ∧ read.keyPhase = hdr.keyPhase
  pn : read.pnBytes = hdr.pnBytes
  len : read.len = hdr.len

theorem pkt_hdr_version_not_carried :
    ¬ ∀ (hdr : QuicPktHdr) (shortConnIdLen : Nat) (pkt pkt' : Wpacket)
      (ptrs : Option QuicPktHdrPtrs) (payload : List UInt8), PktHdrOk hdr → WpacketReady pkt →
      (wireEncodePktHdr shortConnIdLen hdr true).run pkt = some (ptrs, pkt') →
      payload.length = hdr.len →
      quicMinValidPktLenCrypto ≤ wireGetEncodedPktHdrLen shortConnIdLen hdr + payload.length →
      ∃ header read readPtrs, wpacketOut pkt' = wpacketOut pkt ++ header ∧
        header.length = wireGetEncodedPktHdrLen shortConnIdLen hdr ∧
        (wireDecodePktHdr shortConnIdLen false false).run (header ++ payload) =
          some (.decoded read readPtrs, []) ∧ SameFields read hdr ∧ ptrs = some readPtrs := by
  intro always
  let hdr : QuicPktHdr := { sampleHdr with type := .oneRtt }
  have ok : PktHdrOk hdr := ⟨rfl, rfl, by decide, by decide⟩
  have accepted : ((wireEncodePktHdr 3 hdr true).run samplePkt).isSome = true := by decide
  obtain ⟨⟨ptrs, pkt'⟩, run⟩ := isSome_iff_exists.mp accepted
  obtain ⟨header, read, _, out, _, decoded, same, _⟩ :=
    always hdr 3 samplePkt pkt' ptrs (replicate 20 0) ok samplePkt_ready run rfl (by decide)
  obtain ⟨fits, _, written, _⟩ :=
    wireEncodePktHdr_yields rfl 3 true [] samplePkt ptrs pkt' samplePkt_ready rfl run
  have bytes : header = hdrBytes hdr :=
    append_cancel_left ((out.symm.trans written : [] ++ header = [] ++ hdrBytes hdr))
  have len : (replicate 20 0 : List UInt8).length = hdr.len := rfl
  have reads := short_reads ok fits rfl len (by decide)
  rw [Reads, append_nil, ← bytes] at reads
  have twice := some.inj (decoded.symm.trans reads)
  have version := same.version
  rw [(PktHdrDecode.decoded.inj (Prod.mk.inj twice).1).1] at version
  exact absurd version (by decide)

end Ossl
