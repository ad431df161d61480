import OpenSSL.Quic.Wire

/- Every frame that an encoder accepts is read back by its decoder. -/
namespace Ossl
open BigEndian Codec Spans

/- The values that the frame encoders take. A header is written alone, or it is
   parted from the data that its caller writes behind it. -/
inductive QuicFrame where
  | ping
  | ack (ackDelayExponent : Nat) (f : FrameAck)
  | resetStream (f : FrameResetStream)
  | stopSending (f : FrameStopSending)
  | cryptoHdr (f : FrameCrypto)
  | cryptoParted (f : FrameCrypto) (data : List UInt8)
  | crypto (f : FrameCrypto)
  | newToken (token : List UInt8)
  | streamHdr (f : FrameStream)
  | streamParted (f : FrameStream) (data : List UInt8)
  | stream (f : FrameStream)
  | maxData (maxData : Nat)
  | maxStreamData (streamId maxData : Nat)
  | maxStreams (isUni : Bool) (maxStreams : Nat)
  | dataBlocked (maxData : Nat)
  | streamDataBlocked (streamId maxStreamData : Nat)
  | streamsBlocked (isUni : Bool) (maxStreams : Nat)
  | newConnId (f : FrameNewConnId)
  | retireConnId (seqNum : Nat)
  | pathChallenge (data : Nat)
  | pathResponse (data : Nat)
  | connClose (f : FrameConnClose)
  | handshakeDone

inductive DecodedFrame where
  | nothing
  | number (v : Nat)
  | ofStream (streamId v : Nat)
  | token (bytes : List UInt8)
  | ack (f : Option FrameAck) (totalRanges : Nat)
  | resetStream (f : FrameResetStream)
  | stopSending (f : FrameStopSending)
  | crypto (f : FrameCrypto)
  | stream (f : FrameStream)
  | newConnId (f : FrameNewConnId)
  | connClose (f : FrameConnClose)
  deriving DecidableEq

def QuicFrame.encode : QuicFrame → WpacketM Unit
  | .ping => wireEncodeFramePing
  | .ack ackDelayExponent f => wireEncodeFrameAck ackDelayExponent f
  | .resetStream f => wireEncodeFrameResetStream f
  | .stopSending f => wireEncodeFrameStopSending f
  | .cryptoHdr f => wireEncodeFrameCryptoHdr f
  | .cryptoParted f data => do
    wireEncodeFrameCryptoHdr f
    wpacketMemcpy data
  | .crypto f => do let _ ← wireEncodeFrameCrypto f
  | .newToken token => wireEncodeFrameNewToken token
  | .streamHdr f => wireEncodeFrameStreamHdr f
  | .streamParted f data => do
    wireEncodeFrameStreamHdr f
    wpacketMemcpy data
  | .stream f => do let _ ← wireEncodeFrameStream f
  | .maxData limit => wireEncodeFrameMaxData limit
  | .maxStreamData streamId limit => wireEncodeFrameMaxStreamData streamId limit
  | .maxStreams isUni limit => wireEncodeFrameMaxStreams isUni limit
  | .dataBlocked limit => wireEncodeFrameDataBlocked limit
  | .streamDataBlocked streamId limit => wireEncodeFrameStreamDataBlocked streamId limit
  | .streamsBlocked isUni limit => wireEncodeFrameStreamsBlocked isUni limit
  | .newConnId f => wireEncodeFrameNewConnId f
  | .retireConnId seqNum => wireEncodeFrameRetireConnId seqNum
  | .pathChallenge data => wireEncodeFramePathChallenge data
  | .pathResponse data => wireEncodeFramePathResponse data
  | .connClose f => wireEncodeFrameConnClose f
  | .handshakeDone => wireEncodeFrameHandshakeDone

def QuicFrame.decode (into : FrameAck) : QuicFrame → PacketM DecodedFrame
  | .ping => do
    wireDecodeFramePing
    pure .nothing
  | .ack ackDelayExponent _ => do
    let got ← wireDecodeFrameAck ackDelayExponent (some into)
    pure (.ack got.1 got.2)
  | .resetStream _ => do
    let got ← wireDecodeFrameResetStream
    pure (.resetStream got)
  | .stopSending _ => do
    let got ← wireDecodeFrameStopSending
    pure (.stopSending got)
  | .cryptoHdr _ => do
    let got ← wireDecodeFrameCrypto true
    pure (.crypto got)
  | .cryptoParted _ _ | .crypto _ => do
    let got ← wireDecodeFrameCrypto false
    pure (.crypto got)
  | .newToken _ => do
    let got ← wireDecodeFrameNewToken
    pure (.token got)
  | .streamHdr _ => do
    let got ← wireDecodeFrameStream true
    pure (.stream got)
  | .streamParted _ _ | .stream _ => do
    let got ← wireDecodeFrameStream false
    pure (.stream got)
  | .maxData _ => do
    let got ← wireDecodeFrameMaxData
    pure (.number got)
  | .maxStreamData _ _ => do
    let got ← wireDecodeFrameMaxStreamData
    pure (.ofStream got.1 got.2)
  | .maxStreams _ _ => do
    let got ← wireDecodeFrameMaxStreams
    pure (.number got)
  | .dataBlocked _ => do
    let got ← wireDecodeFrameDataBlocked
    pure (.number got)
  | .streamDataBlocked _ _ => do
    let got ← wireDecodeFrameStreamDataBlocked
    pure (.ofStream got.1 got.2)
  | .streamsBlocked _ _ => do
    let got ← wireDecodeFrameStreamsBlocked
    pure (.number got)
  | .newConnId _ => do
    let got ← wireDecodeFrameNewConnId
    pure (.newConnId got)
  | .retireConnId _ => do
    let got ← wireDecodeFrameRetireConnId
    pure (.number got)
  | .pathChallenge _ => do
    let got ← wireDecodeFramePathChallenge
    pure (.number got)
  | .pathResponse _ => do
    let got ← wireDecodeFramePathResponse
    pure (.number got)
  | .connClose _ => do
    let got ← wireDecodeFrameConnClose
    pure (.connClose got)
  | .handshakeDone => do
    wireDecodeFrameHandshakeDone
    pure .nothing

def QuicFrame.frameType : QuicFrame → Nat
  | .ping => frameTypePing
  | .ack _ f => if f.ecnPresent then frameTypeAckWithEcn else frameTypeAckWithoutEcn
  | .resetStream _ => frameTypeResetStream
  | .stopSending _ => frameTypeStopSending
  | .cryptoHdr _ | .cryptoParted _ _ | .crypto _ => frameTypeCrypto
  | .newToken _ => frameTypeNewToken
  | .streamHdr f | .streamParted f _ | .stream f => streamFrameType f
  | .maxData _ => frameTypeMaxData
  | .maxStreamData _ _ => frameTypeMaxStreamData
  | .maxStreams isUni _ => if isUni then frameTypeMaxStreamsUni else frameTypeMaxStreamsBidi
  | .dataBlocked _ => frameTypeDataBlocked
  | .streamDataBlocked _ _ => frameTypeStreamDataBlocked
  | .streamsBlocked isUni _ =>
    if isUni then frameTypeStreamsBlockedUni else frameTypeStreamsBlockedBidi
  | .newConnId _ => frameTypeNewConnId
  | .retireConnId _ => frameTypeRetireConnId
  | .pathChallenge _ => frameTypePathChallenge
  | .pathResponse _ => frameTypePathResponse
  | .connClose f => if f.isApp then frameTypeConnCloseApp else frameTypeConnCloseTransport
  | .handshakeDone => frameTypeHandshakeDone

def roundedDelay (ackDelayExponent : Nat) (delayTime : OsslTime) : OsslTime :=
  delayTime / 1000 / 2 ^ ackDelayExponent * 2 ^ ackDelayExponent * 1000

/- The values that were sent. An ACK without ECN leaves the counts alone, the bytes of a connection
   ID past its length come back as zeros, and an application CONNECTION_CLOSE has no frame type. -/
def QuicFrame.received (into : FrameAck) : QuicFrame → DecodedFrame
  | .ping | .handshakeDone => .nothing
  | .ack ackDelayExponent f =>
    .ack (some
      { ackRanges := f.ackRanges
        delayTime := roundedDelay ackDelayExponent f.delayTime
        ect0 := if f.ecnPresent then f.ect0 else into.ect0
        ect1 := if f.ecnPresent then f.ect1 else into.ect1
        ecnce := if f.ecnPresent then f.ecnce else into.ecnce
        ecnPresent := f.ecnPresent }) f.ackRanges.length
  | .resetStream f => .resetStream f
  | .stopSending f => .stopSending f
  | .cryptoHdr f => .crypto { f with data := none }
  | .cryptoParted f data => .crypto { f with data := some data }
  | .crypto f => .crypto f
  | .newToken token => .token token
  | .streamHdr f => .stream { f with data := none }
  | .streamParted f data => .stream { f with data := some data }
  | .stream f => .stream f
  | .maxData v | .maxStreams _ v | .dataBlocked v | .streamsBlocked _ v | .retireConnId v
  | .pathChallenge v | .pathResponse v => .number v
  | .maxStreamData streamId v | .streamDataBlocked streamId v => .ofStream streamId v
  | .newConnId f =>
    .newConnId
      { f with connId := ⟨f.connId.idLen, copiedTo _ (f.connId.id.toList.take f.connId.idLen)⟩ }
  | .connClose f => .connClose { f with frameType := if f.isApp then 0 else f.frameType }

/- What the callers see to: the ranges are descending and apart, times and 64-bit fields are in
   range, the data is as long as it says, a header alone has its length, and the array for an ACK is
   large enough. -/
def QuicFrame.WellFormed (into : FrameAck) : QuicFrame → Prop
  | .ack ackDelayExponent f =>
    ackDelayExponent < 64 ∧ f.delayTime < 2 ^ 64 ∧ Separated f.ackRanges.reverse ∧
      f.ackRanges.length ≤ into.ackRanges.length
  | .cryptoHdr f => f.offset + f.len ≤ 2 ^ 62 - 1
  | .cryptoParted f data => f.offset + f.len ≤ 2 ^ 62 - 1 ∧ data.length = f.len
  | .crypto f =>
    f.offset + f.len ≤ 2 ^ 62 - 1 ∧ ∃ data, f.data = some data ∧ data.length = f.len
  | .streamHdr f => f.offset + f.len ≤ 2 ^ 62 - 1 ∧ f.hasExplicitLen = true
  | .streamParted f data => f.offset + f.len ≤ 2 ^ 62 - 1 ∧ data.length = f.len
  | .stream f =>
    f.offset + f.len ≤ 2 ^ 62 - 1 ∧ ∃ data, f.data = some data ∧ data.length = f.len
  | .newConnId f => f.retirePriorTo ≤ f.seqNum
  | .pathChallenge data | .pathResponse data => data < 2 ^ 64
  | _ => True

def QuicFrame.reachesEnd : QuicFrame → Bool
  | .streamParted f _ | .stream f => !f.hasExplicitLen
  | _ => false

theorem frameType_fits (frame : QuicFrame) : frame.frameType ≤ vlintMax := by
  have ofStream : ∀ f : FrameStream, streamFrameType f ≤ vlintMax := by
    intro f
    unfold streamFrameType
    split_ifs <;> decide
  cases frame with
  | streamHdr f => exact ofStream f
  | streamParted f data => exact ofStream f
  | stream f => exact ofStream f
  | ack ackDelayExponent f => simp only [QuicFrame.frameType]; split_ifs <;> decide
  | maxStreams isUni v => cases isUni <;> exact of_decide_eq_true rfl
  | streamsBlocked isUni v => cases isUni <;> exact of_decide_eq_true rfl
  | connClose f => simp only [QuicFrame.frameType]; split_ifs <;> decide
  | _ => exact of_decide_eq_true rfl

theorem header_reads {frameType : Nat} (fits : frameType ≤ vlintMax) (rest : List UInt8) :
    Reads (expectFrameHeader frameType) (vlintEncode frameType) () rest := by
  refine reads_whole ?_
  exact reads_bind (getQuicVlint_reads fits _) (reads_guard rfl rest)

variable {expected n offset v : Nat} {ranges : List AckRange}

theorem headerMask_reads {frameType maskBits : Nat} (fits : frameType ≤ vlintMax)
    (masked : frameType &&& (maxU64 - maskBits) = expected) (rest : List UInt8) :
    Reads (expectFrameHeaderMask expected maskBits) (vlintEncode frameType) frameType rest := by
  refine reads_whole ?_
  exact reads_bind (getQuicVlint_reads fits _) (reads_guard_bind masked (reads_pure frameType rest))

/-- What a frame is encoded to starts with its type, and the decoder reads it back. -/
def Codes (into : FrameAck) (frame : QuicFrame) : Prop :=
  frame.WellFormed into → ∃ cond body,
    Emits wpacketOutput frame.encode cond (vlintEncode frame.frameType ++ body) ∧
      (cond → ∀ rest, (frame.reachesEnd = true → rest = []) →
        Reads (frame.decode into) (vlintEncode frame.frameType ++ body) (frame.received into) rest)

theorem bare_codes {into : FrameAck} {frame : QuicFrame} {expected : Nat}
    (encode : frame.encode = encodeFrameHdr expected) (type : frame.frameType = expected)
    (decode : frame.decode into = do
      expectFrameHeader expected
      pure (frame.received into)) : Codes into frame := by
  intro _
  refine ⟨expected ≤ vlintMax, [], ?_, ?_⟩
  · rw [encode, type, List.append_nil]
    exact writeVlint_emits _
  · intro fits rest _
    rw [decode, type, List.append_nil]
    exact reads_last (header_reads fits rest)

/-- A frame with one number behind its type, some bits of which may be masked. -/
theorem number_codes {into : FrameAck} {frame : QuicFrame} {v : Nat} {get : PacketM Nat}
    (encode : frame.encode = do
      encodeFrameHdr frame.frameType
      wpacketQuicWriteVlint v)
    (decode : frame.decode into = do
      let got ← get
      pure (.number got))
    (header : ∀ rest, frame.frameType ≤ vlintMax → v ≤ vlintMax →
      Reads get (vlintEncode frame.frameType ++ vlintEncode v) v rest)
    (received : frame.received into = .number v) : Codes into frame := by
  intro _
  rw [encode, decode, received]
  refine ⟨_, _, emits_bind (writeVlint_emits _) fun _ => writeVlint_emits _, ?_⟩
  rintro ⟨type, value⟩ rest _
  exact reads_last (header rest type value)

theorem expected_number_reads {frameType : Nat} (type : frameType ≤ vlintMax)
    (value : v ≤ vlintMax) (rest : List UInt8) :
    Reads (expectFrameHeader frameType >>= fun _ => packetGetQuicVlint)
      (vlintEncode frameType ++ vlintEncode v) v rest :=
  reads_bind (header_reads type _) (getQuicVlint_reads value rest)

theorem masked_number_reads {frameType : Nat} (type : frameType ≤ vlintMax)
    (masked : frameType &&& (maxU64 - 1) = expected) (value : v ≤ vlintMax) (rest : List UInt8) :
    Reads (expectFrameHeaderMask expected 1 >>= fun _ => packetGetQuicVlint)
      (vlintEncode frameType ++ vlintEncode v) v rest :=
  reads_bind (headerMask_reads type masked _) (getQuicVlint_reads value rest)

theorem variants_masked (second : Bool) :
    (if second then frameTypeMaxStreamsUni else frameTypeMaxStreamsBidi) &&& (maxU64 - 1) =
        frameTypeMaxStreamsBidi ∧
      (if second then frameTypeStreamsBlockedUni else frameTypeStreamsBlockedBidi) &&& (maxU64 - 1) =
        frameTypeStreamsBlockedBidi ∧
      (if second then frameTypeConnCloseApp else frameTypeConnCloseTransport) &&& (maxU64 - 1) =
        frameTypeConnCloseTransport ∧
      (if second then frameTypeAckWithEcn else frameTypeAckWithoutEcn) &&& (maxU64 - 1) =
        frameTypeAckWithoutEcn := by
  cases second <;> decide

variable (into : FrameAck) (f : FrameStream)

theorem maxStreams_codes (isUni : Bool) (v : Nat) : Codes into (.maxStreams isUni v) :=
  number_codes rfl rfl
    (fun rest type value => masked_number_reads type (variants_masked isUni).1 value rest) rfl

theorem streamsBlocked_codes (isUni : Bool) (v : Nat) : Codes into (.streamsBlocked isUni v) :=
  number_codes rfl rfl
    (fun rest type value => masked_number_reads type (variants_masked isUni).2.1 value rest) rfl

/-- A frame with the eight bytes of a number behind its type. -/
theorem path_codes {into : FrameAck} {frame : QuicFrame} {data frameType : Nat}
    (encode : frame.encode = do
      encodeFrameHdr frameType
      wpacketPutBytes data 8)
    (type : frame.frameType = frameType)
    (decode : frame.decode into = do
      let got ← (do
        expectFrameHeader frameType
        packetGetNet8)
      pure (.number got))
    (received : frame.received into = .number data) : Codes into frame := by
  intro _
  rw [encode, decode, received, type]
  refine ⟨_, _, emits_bind (writeVlint_emits _) fun _ => putBytes_emits _ _, ?_⟩
  rintro ⟨fits, value⟩ rest _
  exact reads_last (reads_bind (header_reads fits _) (getNet8_reads value rest))

theorem maxStreamData_codes (streamId v : Nat) : Codes into (.maxStreamData streamId v) := by
  intro _
  refine ⟨_, _, emits_bind (writeVlint_emits _) fun _ => emits_bind (writeVlint_emits _) fun _ =>
    writeVlint_emits _, ?_⟩
  rintro ⟨type, id, value⟩ rest _
  exact reads_last (x := (streamId, v)) (reads_bind (header_reads type _)
    (reads_bind (getQuicVlint_reads id _) (reads_last (getQuicVlint_reads value rest))))

theorem streamDataBlocked_codes (streamId v : Nat) :
    Codes into (.streamDataBlocked streamId v) := by
  intro _
  refine ⟨_, _, emits_bind (writeVlint_emits _) fun _ => emits_bind (writeVlint_emits _) fun _ =>
    writeVlint_emits _, ?_⟩
  rintro ⟨type, id, value⟩ rest _
  exact reads_last (x := (streamId, v)) (reads_bind (header_reads type _)
    (reads_bind (getQuicVlint_reads id _) (reads_last (getQuicVlint_reads value rest))))

theorem stopSending_codes (f : FrameStopSending) : Codes into (.stopSending f) := by
  intro _
  refine ⟨_, _, emits_bind (writeVlint_emits _) fun _ => emits_bind (writeVlint_emits _) fun _ =>
    writeVlint_emits _, ?_⟩
  rintro ⟨type, id, code⟩ rest _
  exact reads_last (reads_bind (header_reads type _) (reads_bind (getQuicVlint_reads id _)
    (reads_last (getQuicVlint_reads code rest))))

theorem resetStream_codes (f : FrameResetStream) : Codes into (.resetStream f) := by
  intro _
  refine ⟨_, _, emits_bind (writeVlint_emits _) fun _ => emits_bind (writeVlint_emits _) fun _ =>
    emits_bind (writeVlint_emits _) fun _ => writeVlint_emits _, ?_⟩
  rintro ⟨type, id, code, size⟩ rest _
  exact reads_last (reads_bind (header_reads type _) (reads_bind (getQuicVlint_reads id _)
    (reads_bind (getQuicVlint_reads code _) (reads_last (getQuicVlint_reads size rest)))))

theorem newToken_codes (token : List UInt8) : Codes into (.newToken token) := by
  intro _
  refine ⟨_, _, emits_bind (writeVlint_emits _) fun _ => emits_bind (writeVlint_emits _) fun _ =>
    memcpy_emits _, ?_⟩
  rintro ⟨type, len, _⟩ rest _
  exact reads_last (reads_bind (header_reads type _) (reads_bind (getQuicVlint_reads len _)
    (data_reads rfl (List.take_left' rfl))))

theorem when_emits (c : Prop) [Decidable c] (v : Nat) :
    Emits wpacketOutput (wpacketWhen c (wpacketQuicWriteVlint v)) (if c then v ≤ vlintMax else True)
      (if c then vlintEncode v else []) :=
  emits_ite (fun _ => writeVlint_emits v) fun _ => emits_pure _ _

theorem connClose_codes (f : FrameConnClose) : Codes into (.connClose f) := by
  intro _
  refine ⟨_, _, emits_bind (writeVlint_emits _) fun _ => emits_bind (writeVlint_emits _) fun _ =>
    emits_bind (when_emits _ _) fun _ => emits_bind (writeVlint_emits _) fun _ =>
      memcpy_emits _, ?_⟩
  rintro ⟨type, code, kind, len, _⟩ rest _
  obtain ⟨isApp, errorCode, closeType, reason⟩ := f
  have flag : decide ((if isApp then frameTypeConnCloseApp else frameTypeConnCloseTransport) &&& 1 ≠
      0) = isApp := by
    cases isApp <;> decide
  refine reads_last
    (x := (⟨isApp, errorCode, if isApp then 0 else closeType, reason⟩ : FrameConnClose)) ?_
  refine reads_bind (headerMask_reads type (variants_masked isApp).2.2.1 _)
    (reads_bind (getQuicVlint_reads code _) ?_)
  rw [flag]
  refine reads_bind (x := if isApp then 0 else closeType) ?_
    (reads_bind (getQuicVlint_reads len _) (reads_last (getBytes_reads rfl rest)))
  cases isApp with
  | true => exact reads_pure 0 _
  | false => exact getQuicVlint_reads kind _

theorem cryptoHdr_emits (f : FrameCrypto) :
    Emits wpacketOutput (wireEncodeFrameCryptoHdr f)
      (frameTypeCrypto ≤ vlintMax ∧ f.offset ≤ vlintMax ∧ f.len ≤ vlintMax)
      (vlintEncode frameTypeCrypto ++ (vlintEncode f.offset ++ vlintEncode f.len)) :=
  emits_bind (writeVlint_emits _) fun _ => emits_bind (writeVlint_emits _) fun _ =>
    writeVlint_emits _

variable {len : Nat}

theorem end_checked (within : offset + len ≤ 2 ^ 62 - 1) : ¬ 2 ^ 62 - 1 < addU64 offset len := by
  rw [addU64_exact (by omega)]
  omega

theorem crypto_reads {data : List UInt8} (type : frameTypeCrypto ≤ vlintMax)
    (off : offset ≤ vlintMax) (size : len ≤ vlintMax) (within : offset + len ≤ 2 ^ 62 - 1)
    (whole : data.length = len) (rest : List UInt8) : Reads (wireDecodeFrameCrypto false)
      (vlintEncode frameTypeCrypto ++ (vlintEncode offset ++ (vlintEncode len ++ data)))
      ⟨offset, len, some data⟩ rest :=
  reads_bind (header_reads type _) (reads_bind (getQuicVlint_reads off _)
    (reads_bind (getQuicVlint_reads size _) (reads_guard_bind (end_checked within)
      (data_reads whole (by rw [List.take_left' whole])))))

theorem cryptoHdr_codes (f : FrameCrypto) : Codes into (.cryptoHdr f) := by
  intro within
  refine ⟨_, _, cryptoHdr_emits f, ?_⟩
  rintro ⟨type, off, size⟩ rest _
  refine reads_last (reads_bind (header_reads type _) (reads_bind (getQuicVlint_reads off _) ?_))
  exact reads_whole (reads_bind (getQuicVlint_reads size _)
    (reads_guard_bind (end_checked within) (reads_pure _ rest)))

theorem cryptoParted_codes (f : FrameCrypto) (data : List UInt8) :
    Codes into (.cryptoParted f data) := by
  rintro ⟨within, whole⟩
  have emits := emits_bind (cryptoHdr_emits f) fun _ => memcpy_emits data
  simp only [List.append_assoc] at emits
  refine ⟨_, _, emits, ?_⟩
  rintro ⟨⟨type, off, size⟩, _⟩ rest _
  exact reads_last (crypto_reads type off size within whole rest)

theorem allocateData_emits {data : List UInt8} (whole : data.length = len) :
    Emits wpacketOutput (wpacketAllocateData len (some data)) (len ≠ 0) data := by
  rw [wpacketAllocateData, List.take_of_length_le (by omega)]
  exact fill_emits whole

theorem crypto_codes (f : FrameCrypto) : Codes into (.crypto f) := by
  rintro ⟨within, data, points, whole⟩
  obtain ⟨offset, len, _⟩ := f
  subst points
  have emits := emits_last (g := fun _ => ())
    (emits_bind (cryptoHdr_emits ⟨offset, len, some data⟩) fun _ => allocateData_emits whole)
  simp only [List.append_assoc] at emits
  refine ⟨_, _, emits, ?_⟩
  rintro ⟨⟨type, off, size⟩, _⟩ rest _
  exact reads_last (crypto_reads type off size within whole rest)

theorem copiedTo_toList (v : Vector UInt8 n) : copiedTo n v.toList = v := by
  ext i inside
  simp only [copiedTo, Vector.getElem_ofFn]
  rw [List.getD_eq_getElem?_getD, List.getElem?_eq_getElem (by simpa using inside),
    Option.getD_some, Vector.getElem_toList]

theorem newConnId_codes (f : FrameNewConnId) : Codes into (.newConnId f) := by
  intro ordered
  refine ⟨_, _, emits_guard_bind fun _ => emits_bind (writeVlint_emits _) fun _ =>
    emits_bind (writeVlint_emits _) fun _ => emits_bind (writeVlint_emits _) fun _ =>
    emits_bind (putBytes_emits _ _) fun _ => emits_bind (memcpy_emits _) fun _ =>
    memcpy_emits _, ?_⟩
  rintro ⟨length, type, seq, retire, byte, _⟩ rest _
  have idLen : (f.connId.id.toList.take f.connId.idLen).length = f.connId.idLen := by
    rw [List.length_take, Vector.length_toList]
    omega
  refine reads_last (x := ({ f with connId := ⟨f.connId.idLen, copiedTo _ _⟩ } : FrameNewConnId)) ?_
  refine reads_bind (header_reads type _) (reads_bind (getQuicVlint_reads seq _)
    (reads_bind (getQuicVlint_reads retire _) (reads_guard_bind (not_lt.mpr ordered)
    (reads_bind (get1_reads byte _) (reads_guard_bind length
    (reads_bind (getBytes_reads idLen _) ?_))))))
  have token := reads_last (g := fun token => (⟨f.seqNum, f.retirePriorTo, ⟨f.connId.idLen,
      copiedTo _ (f.connId.id.toList.take f.connId.idLen)⟩, copiedTo _ token⟩ : FrameNewConnId))
    (getBytes_reads (n := quicStatelessResetTokenLen) (f.statelessReset.length_toList) rest)
  rwa [copiedTo_toList] at token

theorem stream_flags : streamFrameType f &&& (maxU64 - frameFlagStreamMask) = frameTypeStream ∧
      (streamFrameType f &&& frameFlagStreamOff ≠ 0 ↔ f.offset ≠ 0) ∧
      decide (streamFrameType f &&& frameFlagStreamLen ≠ 0) = f.hasExplicitLen ∧
      decide (streamFrameType f &&& frameFlagStreamFin ≠ 0) = f.isFin := by
  obtain ⟨streamId, offset, len, data, hasExplicitLen, isFin⟩ := f
  by_cases off : offset = 0 <;> cases hasExplicitLen <;> cases isFin <;>
    simp only [streamFrameType, off, ne_eq, not_true_eq_false, not_false_eq_true, if_true, if_false,
      Bool.false_eq_true, iff_true, iff_false] <;> decide

theorem streamHdr_emits : Emits wpacketOutput (wireEncodeFrameStreamHdr f)
      (streamFrameType f ≤ vlintMax ∧ f.streamId ≤ vlintMax ∧
        (if f.offset ≠ 0 then f.offset ≤ vlintMax else True) ∧
        (if f.hasExplicitLen = true then f.len ≤ vlintMax else True))
      (vlintEncode (streamFrameType f) ++ (vlintEncode f.streamId ++
        ((if f.offset ≠ 0 then vlintEncode f.offset else []) ++
          (if f.hasExplicitLen = true then vlintEncode f.len else [])))) :=
  emits_bind (writeVlint_emits _) fun _ => emits_bind (writeVlint_emits _) fun _ =>
    emits_bind (when_emits _ _) fun _ => when_emits _ _

theorem streamOffset_reads {f : FrameStream}
    (fits : if f.offset ≠ 0 then f.offset ≤ vlintMax else True) (rest : List UInt8) :
    Reads (if streamFrameType f &&& frameFlagStreamOff ≠ 0 then packetGetQuicVlint else pure 0)
      (if f.offset ≠ 0 then vlintEncode f.offset else []) f.offset rest := by
  have flag := (stream_flags f).2.1
  by_cases off : f.offset ≠ 0
  · rw [if_pos off] at fits
    rw [if_pos off, if_pos (flag.mpr off)]
    exact getQuicVlint_reads fits rest
  · rw [if_neg off, if_neg (flag.not.mpr off), not_not.mp off]
    exact reads_pure 0 rest

theorem streamHdr_codes : Codes into (.streamHdr f) := by
  rintro ⟨within, explicit⟩
  refine ⟨_, _, streamHdr_emits f, ?_⟩
  rintro ⟨type, id, off, size⟩ rest _
  obtain ⟨masked, _, lenFlag, finFlag⟩ := stream_flags f
  rw [if_pos explicit] at size ⊢
  refine reads_last (reads_bind (headerMask_reads type masked _)
    (reads_bind (getQuicVlint_reads id _) (reads_bind (streamOffset_reads off _) ?_)))
  dsimp only
  rw [lenFlag, finFlag, if_pos explicit]
  exact reads_whole (reads_bind (getQuicVlint_reads size _)
    (reads_guard_bind (end_checked within) (reads_pure _ rest)))

theorem stream_reads {f : FrameStream} {data : List UInt8} (type : streamFrameType f ≤ vlintMax)
    (id : f.streamId ≤ vlintMax) (off : if f.offset ≠ 0 then f.offset ≤ vlintMax else True)
    (size : if f.hasExplicitLen = true then f.len ≤ vlintMax else True)
    (within : f.offset + f.len ≤ 2 ^ 62 - 1) (whole : data.length = f.len) (rest : List UInt8)
    (last : f.hasExplicitLen = false → rest = []) :
    Reads (wireDecodeFrameStream false)
      (vlintEncode (streamFrameType f) ++ (vlintEncode f.streamId ++
        ((if f.offset ≠ 0 then vlintEncode f.offset else []) ++
          ((if f.hasExplicitLen = true then vlintEncode f.len else []) ++ data))))
      { f with data := some data } rest := by
  obtain ⟨masked, _, lenFlag, finFlag⟩ := stream_flags f
  refine reads_bind (headerMask_reads type masked _)
    (reads_bind (getQuicVlint_reads id _) (reads_bind (streamOffset_reads off _) ?_))
  rw [lenFlag, finFlag]
  have value : FrameStream.mk f.streamId f.offset f.len (some ((data ++ rest).take f.len))
      f.hasExplicitLen f.isFin = { f with data := some data } := by
    rw [List.take_left' whole]
  refine reads_bind (x := f.len) ?_ (reads_guard_bind (end_checked within) (data_reads whole value))
  by_cases explicit : f.hasExplicitLen = true
  · rw [if_pos explicit] at size
    rw [if_pos explicit, if_pos explicit]
    exact getQuicVlint_reads size _
  · rw [if_neg explicit, if_neg explicit, ← whole]
    obtain rfl := last (by simpa using explicit)
    have all := remaining_reads (data ++ [])
    rwa [List.append_nil] at all ⊢

theorem streamParted_codes (data : List UInt8) : Codes into (.streamParted f data) := by
  rintro ⟨within, whole⟩
  have emits := emits_bind (streamHdr_emits f) fun _ => memcpy_emits data
  simp only [List.append_assoc] at emits
  refine ⟨_, _, emits, ?_⟩
  rintro ⟨⟨type, id, off, size⟩, _⟩ rest last
  refine reads_last (stream_reads type id off size within whole rest fun implicit => last ?_)
  simp only [QuicFrame.reachesEnd, implicit, Bool.not_false]

theorem stream_codes : Codes into (.stream f) := by
  rintro ⟨within, data, points, whole⟩
  have emits := emits_last (g := fun _ => ())
    (emits_bind (streamHdr_emits f) fun _ => allocateData_emits whole)
  simp only [List.append_assoc, ← points] at emits
  refine ⟨_, _, emits, ?_⟩
  rintro ⟨⟨type, id, off, size⟩, _⟩ rest last
  have reads := stream_reads type id off size within whole rest
    fun implicit => last (by simp only [QuicFrame.reachesEnd, implicit, Bool.not_false])
  rw [← points] at reads
  exact reads_last reads

def ackRangeBytes : Nat → List AckRange → List UInt8
  | _, [] => []
  | prevStart, r :: rest =>
    vlintEncode (subU64 (subU64 prevStart r.stop) 2) ++
      (vlintEncode (subU64 r.stop r.start) ++ ackRangeBytes r.start rest)

theorem encodeAckRanges_emits (prevStart : Nat) (ranges : List AckRange) :
    Emits wpacketOutput (encodeAckRanges prevStart ranges) True
      (ackRangeBytes prevStart ranges) := by
  induction ranges generalizing prevStart with
  | nil => exact emits_pure _ _
  | cons r rest ih =>
    exact emits_mono (fun _ => trivial) (emits_bind (writeVlint_emits _) fun _ =>
      emits_bind (writeVlint_emits _) fun _ => ih r.start)

theorem set_take (inside : n < ranges.length) (r : AckRange) :
    (ranges.set n r).take (n + 1) = ranges.take n ++ [r] := by
  rw [List.take_succ_eq_append_getElem (by simpa using inside), List.take_set_of_le (le_refl n),
    List.getElem_set_self]

/-- The ranges behind the first one go to the array in their order. -/
theorem decodeAckRanges_reads (apart : Separated ranges.reverse) {prevStart : Nat}
    (below : ∀ r ∈ ranges, r.stop + 1 < prevStart) (fits : prevStart ≤ vlintMax) (i : Nat)
    (array : List AckRange) (room : i + 1 + ranges.length ≤ array.length) (rest : List UInt8) :
    ∃ array', Reads (decodeAckRanges ranges.length i prevStart (some array))
        (ackRangeBytes prevStart ranges) (some array') rest ∧
      array'.take (i + 1 + ranges.length) = array.take (i + 1) ++ ranges := by
  induction ranges generalizing i prevStart array with
  | nil => exact ⟨array, reads_pure _ _, by simp⟩
  | cons r later ih =>
    obtain ⟨valid, apart', below'⟩ := separated_reverse_cons.mp apart
    have first := below r (by simp)
    have most : vlintMax < 2 ^ 62 := by decide
    simp only [List.length_cons] at room
    have inside : i + 1 < array.length := by omega
    have down : ∀ {a b : Nat}, b ≤ a → a ≤ vlintMax → subU64 a b = a - b :=
      fun le bound => subU64_exact (by omega) le
    have gap : subU64 (subU64 prevStart r.stop) 2 = prevStart - r.stop - 2 := by
      rw [down (by omega) fits, down (by omega) (by omega)]
    have len : subU64 r.stop r.start = r.stop - r.start := down valid (by omega)
    have stop : subU64 (subU64 prevStart (prevStart - r.stop - 2)) 2 = r.stop := by
      rw [down (by omega) fits, down (by omega) (by omega)]
      omega
    have start : subU64 r.stop (r.stop - r.start) = r.start := by
      rw [down (by omega) (by omega)]
      omega
    have put : putAckRange i prevStart r.stop (r.stop - r.start) (some array) =
        (r.start, some (array.set (i + 1) r)) := by
      simp only [putAckRange, inside, if_true, start]
    obtain ⟨array', reads, taken⟩ := ih apart' below' (by omega) (i + 1) (array.set (i + 1) r)
      (by simp only [List.length_set]; omega)
    refine ⟨array', ?_, ?_⟩
    · rw [ackRangeBytes, gap, len, List.length_cons, decodeAckRanges]
      refine reads_bind (getQuicVlint_reads (by omega) _)
        (reads_bind (getQuicVlint_reads (by omega) _) ?_)
      dsimp only
      rw [stop, put]
      refine reads_guard_bind ?_ reads
      rw [addU64_exact (by omega)]
      omega
    · rw [List.length_cons, show i + 1 + (later.length + 1) = i + 1 + 1 + later.length by omega, taken,
        set_take inside, List.append_assoc, List.singleton_append]

/-- A delay that was divided by the two units is multiplied by them again. -/
theorem ackDelay_rounded {ackDelayExponent delayTime : Nat} (time : delayTime < 2 ^ 64) :
    ackDelayDec ackDelayExponent (ackDelayEnc ackDelayExponent delayTime) =
      roundedDelay ackDelayExponent delayTime := by
  have unit : timeUs = 1000 := by decide
  have scale : (1 : Nat) <<< ackDelayExponent = 2 ^ ackDelayExponent := Nat.one_shiftLeft _
  have positive : 2 ^ ackDelayExponent ≠ 0 := (Nat.two_pow_pos _).ne'
  have enc : ackDelayEnc ackDelayExponent delayTime = delayTime / 1000 / 2 ^ ackDelayExponent := by
    simp only [ackDelayEnc, osslTimeDivide, safeDivU64, unit, scale, positive, ne_eq,
      not_false_eq_true, if_true, OfNat.ofNat_ne_zero, Bool.false_eq_true, if_false]
  have back := Nat.div_mul_le_self (delayTime / 1000) (2 ^ ackDelayExponent)
  rw [enc, roundedDelay]
  simp only [ackDelayDec, safeMulU64, mulU64, osslTimeMultiply, scale, unit]
  generalize delayTime / 1000 / 2 ^ ackDelayExponent * 2 ^ ackDelayExponent = scaled at back
  rw [Nat.mod_eq_of_lt (by omega : scaled < 2 ^ 64), Nat.mod_eq_of_lt (by omega : 1000 * scaled < 2 ^ 64)]
  simp only [Nat.not_le.mpr (by omega : scaled < 2 ^ 64),
    Nat.not_le.mpr (by omega : 1000 * scaled < 2 ^ 64), decide_false, Bool.false_eq_true, if_false]
  exact mul_comm _ _

theorem ack_codes (ackDelayExponent : Nat) (f : FrameAck) :
    Codes into (.ack ackDelayExponent f) := by
  rintro ⟨defined, time, apart, room⟩
  obtain ⟨ackRanges, delayTime, ect0, ect1, ecnce, ecnPresent⟩ := f
  cases ackRanges with
  | nil =>
    -- an ACK without ranges is not encoded
    refine ⟨False, [], ?_, fun never => never.elim⟩
    intro s x s' _ run
    contradiction
  | cons first later =>
    obtain ⟨valid, apart', below⟩ := separated_reverse_cons.mp apart
    refine ⟨_, _, emits_bind (writeVlint_emits _) fun _ => emits_bind (writeVlint_emits _) fun _ =>
      emits_bind (writeVlint_emits _) fun _ => emits_bind (writeVlint_emits _) fun _ =>
      emits_bind (writeVlint_emits _) fun _ => emits_bind (encodeAckRanges_emits _ _) fun _ =>
      emits_ite (fun _ => emits_bind (writeVlint_emits _) fun _ =>
        emits_bind (writeVlint_emits _) fun _ => writeVlint_emits _) fun _ => emits_pure _ _, ?_⟩
    rintro ⟨type, largest, delay, count, len, _, counts⟩ rest _
    have most : vlintMax < 2 ^ 62 := by decide
    have size : subU64 first.stop first.start = first.stop - first.start :=
      subU64_exact (by omega) valid
    rw [size] at len ⊢
    obtain ⟨array, ranges, taken⟩ := decodeAckRanges_reads apart' below
      (by omega : first.start ≤ vlintMax) 0 (into.ackRanges.set 0 first)
      (by simp only [List.length_set]; simpa [add_comm] using room)
      ((if ecnPresent = true then vlintEncode ect0 ++ (vlintEncode ect1 ++ vlintEncode ecnce)
        else []) ++ rest)
    refine reads_last (x := (some (⟨first :: later, roundedDelay ackDelayExponent delayTime,
      if ecnPresent then ect0 else into.ect0, if ecnPresent then ect1 else into.ect1,
      if ecnPresent then ecnce else into.ecnce, ecnPresent⟩ : FrameAck), later.length + 1)) ?_
    refine reads_bind (headerMask_reads type (variants_masked ecnPresent).2.2.2 _)
      (reads_bind (getQuicVlint_reads largest _) (reads_bind (getQuicVlint_reads delay _)
      (reads_bind (getQuicVlint_reads count _) (reads_bind (getQuicVlint_reads len _)
      (reads_guard_bind (by omega) (reads_bind (x := some array) ?_ ?_))))))
    · rw [show first.stop - (first.stop - first.start) = first.start by omega]
      exact ranges
    · have whole : array.take (later.length + 1) = first :: later := by
        rw [zero_add, add_comm] at taken
        rw [taken, set_take (by simp only [List.length_cons] at room; omega)]
        rfl
      dsimp only [Option.map, Option.getD]
      rw [whole, ackDelay_rounded time]
      cases ecnPresent with
      | true =>
        exact reads_bind (getQuicVlint_reads counts.1 _)
          (reads_bind (getQuicVlint_reads counts.2.1 _)
            (reads_last (getQuicVlint_reads counts.2.2 rest)))
      | false => exact reads_pure _ rest

theorem frame_codes (frame : QuicFrame) : Codes into frame := by
  cases frame with
  | ping => exact bare_codes rfl rfl rfl
  | ack ackDelayExponent f => exact ack_codes into ackDelayExponent f
  | resetStream f => exact resetStream_codes into f
  | stopSending f => exact stopSending_codes into f
  | cryptoHdr f => exact cryptoHdr_codes into f
  | cryptoParted f data => exact cryptoParted_codes into f data
  | crypto f => exact crypto_codes into f
  | newToken token => exact newToken_codes into token
  | streamHdr f => exact streamHdr_codes into f
  | streamParted f data => exact streamParted_codes into f data
  | stream f => exact stream_codes into f
  | maxData v =>
    exact number_codes rfl rfl (fun rest type value => expected_number_reads type value rest) rfl
  | maxStreamData streamId v => exact maxStreamData_codes into streamId v
  | maxStreams isUni v => exact maxStreams_codes into isUni v
  | dataBlocked v =>
    exact number_codes rfl rfl (fun rest type value => expected_number_reads type value rest) rfl
  | streamDataBlocked streamId v => exact streamDataBlocked_codes into streamId v
  | streamsBlocked isUni v => exact streamsBlocked_codes into isUni v
  | newConnId f => exact newConnId_codes into f
  | retireConnId v =>
    exact number_codes rfl rfl (fun rest type value => expected_number_reads type value rest) rfl
  | pathChallenge data => exact path_codes rfl rfl rfl rfl
  | pathResponse data => exact path_codes rfl rfl rfl rfl
  | connClose f => exact connClose_codes into f
  | handshakeDone => exact bare_codes rfl rfl rfl

/-- What an encoder has put behind the bytes already written is, with any bytes behind
    it, exactly what the matching decoder takes, and it returns what was sent; the
    header tells which decoder that is. -/
theorem frame_round_trip (frame : QuicFrame) (into : FrameAck) (wellFormed : frame.WellFormed into)
    (pkt pkt' : Wpacket) (ready : WpacketReady pkt)
    (accepted : frame.encode.run pkt = some ((), pkt')) :
    ∃ written, wpacketOut pkt' = wpacketOut pkt ++ written ∧
      ∀ rest, (frame.reachesEnd = true → rest = []) →
        wirePeekFrameHeader (written ++ rest) = some (frame.frameType, true) ∧
        (frame.decode into).run (written ++ rest) = some (frame.received into, rest) := by
  obtain ⟨cond, body, emits, reads⟩ := frame_codes into frame wellFormed
  obtain ⟨holds, _, out⟩ := emits pkt () pkt' ready accepted
  refine ⟨_, out, fun rest last => ⟨?_, reads holds rest last⟩⟩
  rw [List.append_assoc]
  exact peekQuicVlint_encoded (frameType_fits frame) (body ++ rest)

/- Two ranges with their ECN counts, a delay of 123.456 ms in units of 8 us, and room
   for three ranges where it is decoded. -/
def sampleAck : QuicFrame := .ack 3 ⟨[⟨10, 12⟩, ⟨3, 5⟩], 123456789, 1, 2, 3, true⟩

def sampleInto : FrameAck := ⟨[⟨0, 0⟩, ⟨0, 0⟩, ⟨0, 0⟩], 0, 0, 0, 0, false⟩

def sampleWriter : Wpacket := ⟨.staticbuf, fun _ => 0, 0, 0, 64, [⟨0, 0, 0, 0⟩], false⟩

theorem frame_round_trip_ack :
    ∃ pkt written, sampleAck.encode.run sampleWriter = some ((), pkt) ∧
      wpacketOut pkt = wpacketOut sampleWriter ++ written ∧
      ∀ rest, (sampleAck.decode sampleInto).run (written ++ rest) =
        some (.ack (some ⟨[⟨10, 12⟩, ⟨3, 5⟩], 123456000, 1, 2, 3, true⟩) 2, rest) := by
  have accepted : ∃ pkt, sampleAck.encode.run sampleWriter = some ((), pkt) := ⟨_, rfl⟩
  obtain ⟨pkt, accepted⟩ := accepted
  have apart : Separated ([⟨10, 12⟩, ⟨3, 5⟩] : List AckRange).reverse := ⟨by decide, by decide⟩
  obtain ⟨written, out, reads⟩ := frame_round_trip sampleAck sampleInto
    ⟨by decide, by decide, apart, by decide⟩ sampleWriter pkt
    ((initStaticLen_ready (by decide : 64 < 2 ^ 64)
      (rfl : wpacketInitStaticLen true (fun _ => 0) 64 0 = some sampleWriter)).1) accepted
  exact ⟨pkt, written, accepted, out, fun rest => (reads rest (fun never => nomatch never)).2⟩

end Ossl
