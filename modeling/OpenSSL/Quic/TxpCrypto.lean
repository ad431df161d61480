import OpenSSL.Quic.SStreamRuns
import OpenSSL.Quic.Txp

/- The CRYPTO frames of a packet in ssl/quic/quic_txp.c: which NEW ranges of the send stream one
   call takes, and where it stops. -/
namespace Ossl
open Nat List Spans Runs

def minFrameSizeCrypto : Nat := 4

def encodedFrameLenCryptoHdr (f : FrameCrypto) : Nat :=
  let a := vlintEncodeLen frameTypeCrypto
  let b := vlintEncodeLen f.offset
  let c := vlintEncodeLen f.len
  if a = 0 ∨ b = 0 ∨ c = 0 then 0 else a + b + c

def determineCryptoLen (chdr : FrameCrypto) (spaceLeft : Nat) : FrameFit :=
  let baseHdrLen := encodedFrameLenCryptoHdr { chdr with len := 0 }
  if baseHdrLen = 0 then ⟨false, 0, 0⟩
  else determineLen spaceLeft chdr.len (baseHdrLen - 1)

/- sent lists the frames that the call has put in, each with the skip count it was found by. -/
structure CryptoPkt where
  pkt : TxpPkt
  sent : List (Nat × FrameCrypto)

def txpPutCryptoFrame (skip : Nat) (chdr : FrameCrypto) (iov : List (List UInt8)) (c : CryptoPkt) :
    FrameWritten × CryptoPkt :=
  let ensured := txElEnsureIovec (c.pkt.h.iovec.length + 3) c.pkt.h
  if ensured.1 = false then (.failed, { c with pkt := { c.pkt with h := ensured.2 } })
  else
    let put := txHelperFrame (wireEncodeFrameCryptoHdr chdr) ensured.2
    match put.1 with
    | .written =>
      let h := txHelperUnrestrict (txHelperAppendPayload (quicSstreamAdjustIov chdr.len iov) put.2)
      (.written, { pkt := { c.pkt with h, haveAckEliciting := true }, sent := c.sent ++ [(skip, chdr)] })
    | failure => (failure, { c with pkt := { c.pkt with h := put.2 } })

def cryptoChunk (chdr : FrameCrypto) : QuicTxpimChunk where
  streamId := maxU64
  start := chdr.offset
  stop := subU64 (addU64 chdr.offset chdr.len) 1
  hasFin := false
  hasStopSending := false
  hasResetStream := false

def txpCryptoFrameRound (qss : QuicSstream) (i : Nat) (c : CryptoPkt) :
    (Bool × CryptoPkt) ⊕ (Nat × CryptoPkt) :=
  let spaceLeft := txHelperGetSpaceLeft c.pkt.h
  if spaceLeft < minFrameSizeCrypto then .inl (true, c)
  else
    match quicSstreamGetStreamFrame qss i 2 with
    | none => .inl (true, c)
    | some frame =>
      if frame.len = 0 then .inl (true, c)
      else
        let fit := determineCryptoLen ⟨frame.offset, frame.len, none⟩ spaceLeft
        if fit.valid = false then .inl (true, c)
        else
          let chdr : FrameCrypto := ⟨frame.offset, fit.payloadLen, none⟩
          let put := txpPutCryptoFrame i chdr frame.iov c
          match put.1 with
          | .failed => .inl (false, put.2)
          | .noRoom => .inl (true, put.2)
          | .written =>
            let logged := txpimPktAppendChunk (cryptoChunk chdr) put.2.pkt
            let c := { put.2 with pkt := logged.2 }
            -- the loop over the IO vectors counts with the same variable
            if logged.1 = false then .inl (false, c) else .inr (frame.iov.length + 1, c)

def txpCryptoFrameRounds (qss : QuicSstream) : Nat → Nat → CryptoPkt → Bool × CryptoPkt
  | 0, _, c => (true, c)
  | rounds + 1, i, c =>
    match txpCryptoFrameRound qss i c with
    | .inl out => out
    | .inr (i, c) => txpCryptoFrameRounds qss rounds i c

def txpGenerateCryptoFrames (qss : QuicSstream) (pkt : TxpPkt) : Bool × CryptoPkt :=
  txpCryptoFrameRounds qss (pkt.h.maxPpl + 1) 0 ⟨pkt, []⟩

/- The packet being filled: what is used and what is held back fit in it, and so does what is
   left of it in the scratch buffer. -/
structure HelperReady (h : TxHelper) : Prop where
  most : h.maxPpl < 2 ^ 64
  used : h.bytesAppended + h.reserve ≤ h.maxPpl ∨
    (h.reserveAllowed = true ∧ h.bytesAppended ≤ h.maxPpl)
  scratch : h.scratchBytes + (h.maxPpl - h.bytesAppended) ≤ h.scratchLen
  scratchMost : h.scratchLen < 2 ^ 64
  explicit : h.doneImplicit = false
  vectors : h.iovec.length ≤ h.allocIovec
  grown : h.allocIovec = 0 ∨ 8 ≤ h.allocIovec

def Supplied (n : Nat) (h : TxHelper) : Prop := replicate n true <+: h.allocs

def rangeHdr (range : UintRange) : FrameCrypto := ⟨range.start, range.stop + 1 - range.start, none⟩

variable {h : TxHelper} {m n spaceLeft v : Nat} {f : FrameCrypto} {c : CryptoPkt}
    {s : TracedSstream}

theorem txHelperGetSpaceLeft_eq (ready : HelperReady h) : txHelperGetSpaceLeft h =
      h.maxPpl - (if h.reserveAllowed then 0 else h.reserve) - h.bytesAppended := by
  have most := ready.most
  have used := ready.used
  unfold txHelperGetSpaceLeft
  cases allowed : h.reserveAllowed with
  | true =>
    simp only [if_true]
    rw [subU64_exact most (zero_le _), subU64_exact (by omega) (by omega)]
  | false =>
    simp only [allowed, Bool.false_eq_true, false_and, or_false] at used
    simp only [Bool.false_eq_true, if_false]
    rw [subU64_exact most (by omega), subU64_exact (by omega) (by omega)]

theorem supplied_alloc (supplied : Supplied (n + 1) h) :
    (txHelperAlloc h).1 = true ∧ Supplied n (txHelperAlloc h).2 := by
  obtain ⟨later, is⟩ := supplied
  have alloc : txHelperAlloc h = (true, { h with allocs := replicate n true ++ later }) := by
    unfold txHelperAlloc
    rw [← is]
    rfl
  rw [alloc]
  exact ⟨rfl, prefix_append _ _⟩

theorem supplied_less (le : m ≤ n) (supplied : Supplied n h) : Supplied m h := by
  refine List.IsPrefix.trans ?_ supplied
  rw [← Nat.add_sub_cancel' le, replicate_add]
  exact prefix_append _ _

structure HelperSame (h h' : TxHelper) : Prop where
  maxPpl : h'.maxPpl = h.maxPpl
  bytesAppended : h'.bytesAppended = h.bytesAppended
  scratchLen : h'.scratchLen = h.scratchLen
  scratchBytes : h'.scratchBytes = h.scratchBytes
  reserve : h'.reserve = h.reserve
  reserveAllowed : h'.reserveAllowed = h.reserveAllowed
  doneImplicit : h'.doneImplicit = h.doneImplicit
  iovec : h'.iovec = h.iovec

theorem txHelperAlloc_same (h : TxHelper) :
    HelperSame h (txHelperAlloc h).2 ∧ (txHelperAlloc h).2.allocIovec = h.allocIovec := by
  unfold txHelperAlloc
  split
  · exact ⟨⟨rfl, rfl, rfl, rfl, rfl, rfl, rfl, rfl⟩, rfl⟩
  · exact ⟨⟨rfl, rfl, rfl, rfl, rfl, rfl, rfl, rfl⟩, rfl⟩

/-- Room for three more vectors is there when the call returns 1. -/
theorem txElEnsureIovec_three (ready : HelperReady h) :
    HelperSame h (txElEnsureIovec (h.iovec.length + 3) h).2 ∧
      ((txElEnsureIovec (h.iovec.length + 3) h).1 = true →
        h.iovec.length + 3 ≤ (txElEnsureIovec (h.iovec.length + 3) h).2.allocIovec ∧
          8 ≤ (txElEnsureIovec (h.iovec.length + 3) h).2.allocIovec) ∧
      ∀ n, Supplied (n + 1) h → (txElEnsureIovec (h.iovec.length + 3) h).1 = true ∧
        Supplied n (txElEnsureIovec (h.iovec.length + 3) h).2 := by
  have vectors := ready.vectors
  have grown := ready.grown
  unfold txElEnsureIovec
  by_cases enough : h.iovec.length + 3 ≤ h.allocIovec
  · rw [if_pos enough]
    exact ⟨⟨rfl, rfl, rfl, rfl, rfl, rfl, rfl, rfl⟩, fun _ => ⟨enough, by dsimp only; omega⟩,
      fun n supplied => ⟨rfl, supplied_less (le_succ n) supplied⟩⟩
  · rw [if_neg enough]
    obtain ⟨same, _⟩ := txHelperAlloc_same h
    by_cases failed : (txHelperAlloc h).1 = false
    · rw [if_pos failed]
      refine ⟨same, fun done => ?_, fun n supplied => ?_⟩
      · rw [failed] at done
        exact nomatch done
      · rw [(supplied_alloc supplied).1] at failed
        exact nomatch failed
    · rw [if_neg failed]
      refine ⟨{ same with }, fun _ => ?_, fun n supplied => ?_⟩
      · dsimp only
        split
        · omega
        · omega
      · exact ⟨rfl, (supplied_alloc supplied).2⟩

/- A writer over a static buffer, that has something to write to. -/
structure StaticReady (pkt : Wpacket) : Prop where
  ready : WpacketReady pkt
  static_ : pkt.buf = .staticbuf
  subs : pkt.subs ≠ []

variable {pkt : Wpacket} {h' : TxHelper} {later : UintRange} {skip : Nat}

theorem writeVlint_writes (ready : StaticReady pkt) (fits : v ≤ vlintMax)
    (room : pkt.written + vlintEncodeLen v ≤ pkt.maxsize) :
    ∃ pkt', (wpacketQuicWriteVlint v).run pkt = some ((), pkt') ∧ StaticReady pkt' ∧
      pkt'.written = pkt.written + vlintEncodeLen v ∧ pkt'.maxsize = pkt.maxsize := by
  have some_ : vlintEncodeLen v ≠ 0 := vlintEncodeLen_pos.mpr fits
  have size := ready.ready.size
  have enough : ¬ subU64 pkt.maxsize pkt.written < vlintEncodeLen v := by
    rw [subU64_exact size ready.ready.fits]
    omega
  have notEmpty : ¬ (pkt.subs.isEmpty = true ∨ vlintEncodeLen v = 0) := by
    rw [List.isEmpty_iff]
    exact not_or.mpr ⟨ready.subs, some_⟩
  have reserved : (wpacketReserveBytes (vlintEncodeLen v)).run pkt =
      some (some pkt.curr, pkt) := by
    change wpacketReserveBytes (vlintEncodeLen v) pkt = _
    unfold wpacketReserveBytes
    rw [if_neg notEmpty, if_neg enough]
    simp only [wpacketGrow, wpacketGetCurr, ready.static_, ready.ready.forward, Option.map_some,
      Bool.false_eq_true, if_false]
  have allocated : (wpacketAllocateBytes (vlintEncodeLen v)).run pkt = some (some pkt.curr,
      { pkt with
        written := addU64 pkt.written (vlintEncodeLen v)
        curr := addU64 pkt.curr (vlintEncodeLen v) }) := by
    rw [wpacketAllocateBytes, StateT.run_bind, reserved]
    rfl
  have filled : ∃ pkt', (wpacketFill (vlintEncodeLen v) (vlintEncode v)).run pkt =
        some (some pkt.curr, pkt') ∧
      pkt'.buf = pkt.buf ∧ pkt'.subs = pkt.subs ∧ pkt'.maxsize = pkt.maxsize ∧
      pkt'.written = addU64 pkt.written (vlintEncodeLen v) := by
    rw [wpacketFill, StateT.run_bind, allocated]
    exact ⟨_, rfl, rfl, rfl, rfl, rfl⟩
  obtain ⟨pkt', fill, buf, subs, maxsize, written⟩ := filled
  have run : (wpacketQuicWriteVlint v).run pkt = some ((), pkt') := by
    rw [wpacketQuicWriteVlint, guard, if_pos some_]
    change (wpacketFill (vlintEncodeLen v) (vlintEncode v) >>= fun _ => pure ()).run pkt = _
    rw [StateT.run_bind, fill]
    rfl
  refine ⟨pkt', run, ⟨(writeVlint_emits v pkt () pkt' ready.ready run).2.1, ?_, ?_⟩, ?_, maxsize⟩
  · rw [buf, ready.static_]
  · rw [subs]
    exact ready.subs
  · rw [written, addU64_exact (by omega)]

theorem encodedFrameLenCryptoHdr_eq (offset : f.offset ≤ vlintMax) (len : f.len ≤ vlintMax) :
    encodedFrameLenCryptoHdr f = 1 + vlintEncodeLen f.offset + vlintEncodeLen f.len := by
  have b := vlintEncodeLen_pos.mpr offset
  have c := vlintEncodeLen_pos.mpr len
  unfold encodedFrameLenCryptoHdr
  rw [if_neg]
  · rfl
  · rintro (never | never | never)
    · exact nomatch never
    · exact b never
    · exact c never

theorem wireEncodeFrameCryptoHdr_writes (ready : StaticReady pkt) (offset : f.offset ≤ vlintMax)
    (len : f.len ≤ vlintMax) (room : pkt.written + encodedFrameLenCryptoHdr f ≤ pkt.maxsize) :
    ∃ pkt', (wireEncodeFrameCryptoHdr f).run pkt = some ((), pkt') ∧
      pkt'.written = pkt.written + encodedFrameLenCryptoHdr f := by
  rw [encodedFrameLenCryptoHdr_eq offset len] at room ⊢
  have type : vlintEncodeLen frameTypeCrypto = 1 := rfl
  obtain ⟨pkt₁, run₁, ready₁, written₁, max₁⟩ := writeVlint_writes ready
    (by decide : frameTypeCrypto ≤ vlintMax) (by omega)
  obtain ⟨pkt₂, run₂, ready₂, written₂, max₂⟩ := writeVlint_writes ready₁ offset (by omega)
  obtain ⟨pkt₃, run₃, _, written₃, _⟩ := writeVlint_writes ready₂ len (by omega)
  refine ⟨pkt₃, ?_, by omega⟩
  unfold wireEncodeFrameCryptoHdr encodeFrameHdr
  simp only [StateT.run_bind, run₁, Option.bind_eq_bind, Option.bind_some, run₂, run₃]

theorem helperReady_same (ready : HelperReady h) (same : HelperSame h h')
    (vectors : h'.iovec.length ≤ h'.allocIovec) (grown : h'.allocIovec = 0 ∨ 8 ≤ h'.allocIovec) :
    HelperReady h' := by
  refine ⟨?_, ?_, ?_, ?_, ?_, vectors, grown⟩
  · rw [same.maxPpl]
    exact ready.most
  · rw [same.maxPpl, same.bytesAppended, same.reserve, same.reserveAllowed]
    exact ready.used
  · rw [same.maxPpl, same.bytesAppended, same.scratchBytes, same.scratchLen]
    exact ready.scratch
  · rw [same.scratchLen]
    exact ready.scratchMost
  · rw [same.doneImplicit]
    exact ready.explicit

/-- A frame is begun, or the allocation of its writer fails. -/
theorem txHelperBegin_spec (ready : HelperReady h) (some_ : 0 < txHelperGetSpaceLeft h) :
    (((txHelperAlloc h).1 = false ∧ txHelperBegin h = (none, (txHelperAlloc h).2)) ∨
      ∃ wpkt, txHelperBegin h = (some wpkt, (txHelperAlloc h).2) ∧ StaticReady wpkt ∧
        wpkt.written = 0 ∧ wpkt.maxsize = txHelperGetSpaceLeft h) := by
  have scratch := ready.scratch
  have scratchMost := ready.scratchMost
  have len : subU64 h.scratchLen h.scratchBytes = h.scratchLen - h.scratchBytes :=
    subU64_exact scratchMost (by omega)
  have space : txHelperGetSpaceLeft h ≤ h.maxPpl - h.bytesAppended := by
    rw [txHelperGetSpaceLeft_eq ready]
    omega
  unfold txHelperBegin
  dsimp only
  rw [if_neg (by rw [ready.explicit]; exact Bool.false_ne_true), len, if_neg (by omega)]
  unfold wpacketInitStaticLen
  rw [if_neg (by omega)]
  have whole : maxmaxsize 0 = 2 ^ 64 - 1 := rfl
  rw [if_neg (by omega)]
  unfold wpacketInternInitLen
  cases sub : (txHelperAlloc h).1 with
  | false => exact .inl ⟨rfl, rfl⟩
  | true =>
    refine .inr ⟨⟨.staticbuf, fun _ => 0, 0, 0, txHelperGetSpaceLeft h, [⟨0, 0, 0, 0⟩], false⟩,
      ?_, ?_, rfl, rfl⟩
    · have limits : ¬ (maxmaxsize 8 < txHelperGetSpaceLeft h ∨ txHelperGetSpaceLeft h < 0) := by
        have : maxmaxsize 8 = 2 ^ 64 - 1 := rfl
        omega
      simp only [wpacketSetMaxSize, getLast?_singleton, if_true, Bool.true_eq_false, if_false]
      rw [if_neg limits]
    · refine ⟨⟨rfl, by simp, rfl, zero_le _, ?_, by simp⟩, rfl, cons_ne_nil _ _⟩
      show txHelperGetSpaceLeft h < 2 ^ 64
      omega

/- The bytes and at most so many vectors have come to the packet, scratch of them in the scratch
   buffer. -/
structure HelperAppended (h h' : TxHelper) (bytes scratch vectors : Nat) : Prop where
  maxPpl : h'.maxPpl = h.maxPpl
  bytesAppended : h'.bytesAppended = h.bytesAppended + bytes
  scratchLen : h'.scratchLen = h.scratchLen
  scratchBytes : h'.scratchBytes = h.scratchBytes + scratch
  reserve : h'.reserve = h.reserve
  doneImplicit : h'.doneImplicit = h.doneImplicit
  allocIovec : h'.allocIovec = h.allocIovec
  allocs : h'.allocs = h.allocs
  iovec : h'.iovec.length ≤ h.iovec.length + vectors

theorem helperAppended_trans {a b c : TxHelper} {m' n' v' : Nat}
    (first : HelperAppended a b m m' v) (second : HelperAppended b c n n' v') :
    HelperAppended a c (m + n) (m' + n') (v + v') where
  maxPpl := second.maxPpl.trans first.maxPpl
  bytesAppended := by rw [second.bytesAppended, first.bytesAppended, add_assoc]
  scratchLen := second.scratchLen.trans first.scratchLen
  scratchBytes := by rw [second.scratchBytes, first.scratchBytes, add_assoc]
  reserve := second.reserve.trans first.reserve
  doneImplicit := second.doneImplicit.trans first.doneImplicit
  allocIovec := second.allocIovec.trans first.allocIovec
  allocs := second.allocs.trans first.allocs
  iovec := by
    have one := first.iovec
    have two := second.iovec
    omega

theorem txHelperAppendIovec_room (buf : List UInt8) (explicit : h.doneImplicit = false)
    (vectors : h.iovec.length < h.allocIovec) (fits : h.bytesAppended + buf.length < 2 ^ 64) :
    (txHelperAppendIovec buf h).1 = true ∧
      HelperAppended h (txHelperAppendIovec buf h).2 buf.length 0 1 := by
  unfold txHelperAppendIovec
  by_cases empty : buf.length = 0
  · rw [if_pos empty, empty]
    exact ⟨rfl, rfl, rfl, rfl, rfl, rfl, rfl, rfl, rfl, le_succ _⟩
  · have ensured : txElEnsureIovec (h.iovec.length + 1) h = (true, h) := if_pos vectors
    rw [if_neg empty, if_neg (by rw [explicit]; exact Bool.false_ne_true), ensured]
    refine ⟨rfl, rfl, ?_, rfl, rfl, rfl, rfl, rfl, rfl, ?_⟩
    · exact addU64_exact fits
    · show (h.iovec ++ [buf]).length ≤ _
      rw [length_append, length_singleton]

theorem txHelperAppendPayload_room (iov : List (List UInt8)) (explicit : h.doneImplicit = false)
    (vectors : h.iovec.length + iov.length ≤ h.allocIovec)
    (fits : h.bytesAppended + (iov.map length).sum < 2 ^ 64) :
    HelperAppended h (txHelperAppendPayload iov h) (iov.map length).sum 0 iov.length := by
  induction iov generalizing h with
  | nil => exact ⟨rfl, rfl, rfl, rfl, rfl, rfl, rfl, rfl, le_refl _⟩
  | cons buf iov ih =>
    simp only [length_cons, map_cons, sum_cons] at vectors fits ⊢
    obtain ⟨_, first⟩ := txHelperAppendIovec_room buf explicit (by omega) (by omega)
    have rest := ih (h := (txHelperAppendIovec buf h).2) (first.doneImplicit.trans explicit)
      (by have := first.iovec; rw [first.allocIovec]; omega) (by rw [first.bytesAppended]; omega)
    have both := helperAppended_trans first rest
    rw [add_comm iov.length 1]
    exact both

theorem adjustIov_length (len : Nat) (iov : List (List UInt8)) :
    (quicSstreamAdjustIov len iov).length = iov.length := by
  induction iov generalizing len with
  | nil => rfl
  | cons v rest ih => rw [quicSstreamAdjustIov, length_cons, ih, length_cons]

theorem adjustIov_sum {len : Nat} {iov : List (List UInt8)} (part : len ≤ (iov.map length).sum) :
    ((quicSstreamAdjustIov len iov).map length).sum = len := by
  induction iov generalizing len with
  | nil => exact (le_zero.mp part).symm
  | cons v rest ih =>
    rw [map_cons, sum_cons] at part
    rw [quicSstreamAdjustIov, map_cons, sum_cons, ih (by omega), length_take]
    omega

/-- The header of a frame is put in, or the allocation of its writer fails. -/
theorem txHelperFrame_spec (ready : HelperReady h) (offset : f.offset ≤ vlintMax)
    (len : f.len ≤ vlintMax) (room : encodedFrameLenCryptoHdr f ≤ txHelperGetSpaceLeft h)
    (vectors : h.iovec.length < h.allocIovec) :
    ((txHelperAlloc h).1 = false ∧ (txHelperFrame (wireEncodeFrameCryptoHdr f) h).1 = .failed) ∨
      ((txHelperFrame (wireEncodeFrameCryptoHdr f) h).1 = .written ∧
        HelperAppended (txHelperAlloc h).2 (txHelperFrame (wireEncodeFrameCryptoHdr f) h).2
          (encodedFrameLenCryptoHdr f) (encodedFrameLenCryptoHdr f) 1) := by
  obtain ⟨same, alloc⟩ := txHelperAlloc_same h
  have most := ready.most
  have scratch := ready.scratch
  have scratchMost := ready.scratchMost
  have space := txHelperGetSpaceLeft_eq ready
  have size := encodedFrameLenCryptoHdr_eq offset len
  unfold txHelperFrame
  rcases txHelperBegin_spec ready (by omega) with ⟨failed, begun⟩ | ⟨wpkt, begun, static_, zero, max⟩
  · rw [begun]
    exact .inl ⟨failed, rfl⟩
  · rw [begun]
    obtain ⟨wpkt', encoded, written⟩ := wireEncodeFrameCryptoHdr_writes static_ offset len (by omega)
    rw [zero, zero_add] at written
    have encoded' : wireEncodeFrameCryptoHdr f wpkt = some ((), wpkt') := encoded
    dsimp only
    rw [encoded']
    have out : (wpacketOut wpkt').length = encodedFrameLenCryptoHdr f := by
      rw [out_length, written]
    obtain ⟨done, appended⟩ := txHelperAppendIovec_room (h := (txHelperAlloc h).2)
      (wpacketOut wpkt') (same.doneImplicit.trans ready.explicit)
      (by rw [same.iovec, alloc]; exact vectors) (by rw [same.bytesAppended, out]; omega)
    rw [out] at appended
    have kept : ¬ (txHelperAppendIovec (wpacketOut wpkt') (txHelperAlloc h).2).1 = false := by
      rw [done]
      simp
    unfold txHelperCommit
    dsimp only
    rw [if_neg kept, written]
    refine .inr ⟨rfl, appended.maxPpl, appended.bytesAppended, appended.scratchLen, ?_,
      appended.reserve, appended.doneImplicit, appended.allocIovec, appended.allocs, appended.iovec⟩
    rw [addU64_exact, appended.scratchBytes, add_zero]
    rw [appended.scratchBytes, same.scratchBytes]
    omega

structure CryptoPut (c c' : CryptoPkt) (skip : Nat) (chdr : FrameCrypto) : Prop where
  sent : c'.sent = c.sent ++ [(skip, chdr)]
  ready : HelperReady c'.pkt.h
  reserveAllowed : c'.pkt.h.reserveAllowed = true
  maxPpl : c'.pkt.h.maxPpl = c.pkt.h.maxPpl
  bytesAppended : c'.pkt.h.bytesAppended =
    c.pkt.h.bytesAppended + encodedFrameLenCryptoHdr chdr + chdr.len

theorem supplied_of_allocs (same : h'.allocs = h.allocs) (supplied : Supplied n h) :
    Supplied n h' := by
  unfold Supplied
  rw [same]
  exact supplied

theorem txpPutCryptoFrame_spec (ready : HelperReady c.pkt.h) (skip : Nat) (chdr : FrameCrypto)
    (iov : List (List UInt8)) (offset : chdr.offset ≤ vlintMax) (len : chdr.len ≤ vlintMax)
    (room : encodedFrameLenCryptoHdr chdr + chdr.len ≤ txHelperGetSpaceLeft c.pkt.h)
    (part : chdr.len ≤ (iov.map length).sum) (two : iov.length ≤ 2) :
    (((txpPutCryptoFrame skip chdr iov c).1 = .failed ∧
        (txpPutCryptoFrame skip chdr iov c).2.sent = c.sent) ∨
      ((txpPutCryptoFrame skip chdr iov c).1 = .written ∧
        CryptoPut c (txpPutCryptoFrame skip chdr iov c).2 skip chdr)) ∧
    ∀ n, Supplied (n + 2) c.pkt.h → (txpPutCryptoFrame skip chdr iov c).1 = .written ∧
      Supplied n (txpPutCryptoFrame skip chdr iov c).2.pkt.h := by
  obtain ⟨same, roomy, supplies⟩ := txElEnsureIovec_three ready
  have most := ready.most
  have used := ready.used
  have space := txHelperGetSpaceLeft_eq ready
  unfold txpPutCryptoFrame
  generalize txElEnsureIovec (c.pkt.h.iovec.length + 3) c.pkt.h = ensured at same roomy supplies
  obtain ⟨done, h⟩ := ensured
  dsimp only at same roomy supplies ⊢
  cases done with
  | false =>
    rw [if_pos rfl]
    exact ⟨.inl ⟨rfl, rfl⟩, fun n supplied => nomatch (supplies (n + 1) supplied).1⟩
  | true =>
    obtain ⟨three, eight⟩ := roomy rfl
    rw [if_neg (by simp)]
    have ready' : HelperReady h := helperReady_same ready same (by rw [same.iovec]; omega)
      (.inr eight)
    have space' : txHelperGetSpaceLeft h = txHelperGetSpaceLeft c.pkt.h := by
      rw [txHelperGetSpaceLeft_eq ready', space, same.maxPpl, same.reserve, same.reserveAllowed,
        same.bytesAppended]
    obtain ⟨allocSame, allocIovec⟩ := txHelperAlloc_same h
    have framed := txHelperFrame_spec ready' offset len (by omega) (by rw [same.iovec]; omega)
    generalize txHelperFrame (wireEncodeFrameCryptoHdr chdr) h = put at framed
    obtain ⟨outcome, h'⟩ := put
    rcases framed with ⟨failed, out⟩ | ⟨out, appended⟩
    · subst out
      refine ⟨.inl ⟨rfl, rfl⟩, fun n supplied => ?_⟩
      rw [(supplied_alloc (supplies (n + 1) supplied).2).1] at failed
      exact nomatch failed
    · dsimp only at out appended
      subst out
      have bytes := appended.bytesAppended.trans
        (congrArg (· + _) (allocSame.bytesAppended.trans same.bytesAppended))
      have vectors := appended.iovec
      rw [allocSame.iovec, same.iovec] at vectors
      have alloc : h'.allocIovec = h.allocIovec := appended.allocIovec.trans allocIovec
      have payload := txHelperAppendPayload_room (quicSstreamAdjustIov chdr.len iov)
        (h := h') (appended.doneImplicit.trans (allocSame.doneImplicit.trans ready'.explicit))
        (by rw [adjustIov_length, alloc]; omega) (by rw [adjustIov_sum part, bytes]; omega)
      rw [adjustIov_sum part, adjustIov_length] at payload
      have all := helperAppended_trans appended payload
      have scratch' := ready'.scratch
      refine ⟨.inr ⟨rfl, rfl, ?_, rfl, ?_, ?_⟩, fun n supplied => ⟨rfl, ?_⟩⟩
      · refine ⟨?_, .inr ⟨rfl, ?_⟩, ?_, ?_, ?_, ?_, .inr ?_⟩
        all_goals unfold txHelperUnrestrict
        all_goals dsimp only
        · rw [all.maxPpl, allocSame.maxPpl, same.maxPpl]
          exact most
        · rw [all.bytesAppended, all.maxPpl, allocSame.maxPpl, allocSame.bytesAppended,
            same.maxPpl, same.bytesAppended]
          omega
        · rw [all.scratchBytes, all.bytesAppended, all.maxPpl, all.scratchLen, allocSame.maxPpl,
            allocSame.bytesAppended, allocSame.scratchBytes, allocSame.scratchLen]
          rw [same.maxPpl, same.bytesAppended] at scratch' ⊢
          omega
        · rw [all.scratchLen, allocSame.scratchLen]
          exact ready'.scratchMost
        · rw [all.doneImplicit, allocSame.doneImplicit]
          exact ready'.explicit
        · have last := payload.iovec
          rw [all.allocIovec, allocIovec]
          omega
        · rw [all.allocIovec, allocIovec]
          exact eight
      · show (txHelperAppendPayload _ _).maxPpl = _
        rw [all.maxPpl, allocSame.maxPpl, same.maxPpl]
      · show (txHelperAppendPayload _ _).bytesAppended = _
        rw [all.bytesAppended, allocSame.bytesAppended, same.bytesAppended, add_assoc]
      · exact supplied_of_allocs (show (txHelperAppendPayload _ _).allocs = _ from all.allocs)
          (supplied_alloc (supplies (n + 1) supplied).2).2

theorem tryLen_some (spaceLeft maxn : Nat) {origLen baseHdrLen lenbytes : Nat} (some_ : 0 < origLen)
    (small : baseHdrLen + lenbytes < 2 ^ 63) (less : origLen < 2 ^ 63) :
    tryLen spaceLeft origLen baseHdrLen lenbytes maxn =
      ⟨decide (0 < min (min origLen maxn) (spaceLeft - (baseHdrLen + lenbytes))),
        baseHdrLen + lenbytes, min (min origLen maxn) (spaceLeft - (baseHdrLen + lenbytes))⟩ := by
  unfold tryLen
  dsimp only
  rw [addU64_exact (by omega), if_neg (by omega)]
  have first : (if maxn < origLen then maxn else origLen) = min origLen maxn := by
    split <;> omega
  rw [first, addU64_exact (by omega)]
  have second : (if spaceLeft < min origLen maxn + (baseHdrLen + lenbytes) then
      (if baseHdrLen + lenbytes ≤ spaceLeft then spaceLeft - (baseHdrLen + lenbytes) else 0)
      else min origLen maxn) =
      min (min origLen maxn) (spaceLeft - (baseHdrLen + lenbytes)) := by
    split_ifs <;> omega
  rw [second]

/-- The choice is one of the fits, if there is any. -/
theorem determineLen_cases (spaceLeft origLen baseHdrLen : Nat) :
    ((determineLen spaceLeft origLen baseHdrLen).valid = true ∧ ∃ field ∈ lengthFields,
      determineLen spaceLeft origLen baseHdrLen =
        tryLen spaceLeft origLen baseHdrLen field.1 field.2) ∨
    (determineLen spaceLeft origLen baseHdrLen = ⟨false, 0, 0⟩ ∧ ∀ field ∈ lengthFields,
      (tryLen spaceLeft origLen baseHdrLen field.1 field.2).valid = false) := by
  unfold determineLen
  induction lengthFields with
  | nil => exact .inr ⟨rfl, fun _ member => nomatch member⟩
  | cons field fields ih =>
    rw [foldr_cons]
    dsimp only
    split
    · rename_i chosen
      exact .inl ⟨chosen.1, field, mem_cons_self, rfl⟩
    · rename_i passed
      rcases ih with ⟨valid, other, member, is⟩ | ⟨none_, others⟩
      · exact .inl ⟨valid, other, mem_cons_of_mem field member, is⟩
      · refine .inr ⟨none_, ?_⟩
        rw [none_] at passed
        intro other member
        rcases mem_cons.mp member with rfl | member
        · rw [Bool.eq_false_iff]
          exact fun valid => passed ⟨valid, zero_le _⟩
        · exact others other member

theorem vlintEncodeLen_some_le (v : Nat) : vlintEncodeLen v ≤ 8 := by
  unfold vlintEncodeLen
  split_ifs <;> omega

theorem vlintEncodeLen_field {field : Nat × Nat} (member : field ∈ lengthFields)
    (fits : v ≤ field.2) : vlintEncodeLen v ≤ field.1 := by
  simp only [lengthFields, mem_cons, not_mem_nil, or_false] at member
  rcases member with rfl | rfl | rfl | rfl
  all_goals dsimp only at fits ⊢
  all_goals unfold vlintEncodeLen
  all_goals split_ifs <;> omega

/-- A frame fits where there is room for its shortest header and a byte; what is chosen for it
    fits with the header that it gets. -/
theorem determineCryptoLen_spec (chdr : FrameCrypto) (spaceLeft : Nat) (offset : chdr.offset ≤ vlintMax)
    (some_ : 0 < chdr.len) (less : chdr.len < 2 ^ 63) :
    ((determineCryptoLen chdr spaceLeft).valid = true ↔
        1 + vlintEncodeLen chdr.offset + 1 < spaceLeft) ∧
      ((determineCryptoLen chdr spaceLeft).valid = true →
        0 < (determineCryptoLen chdr spaceLeft).payloadLen ∧
        (determineCryptoLen chdr spaceLeft).payloadLen ≤ chdr.len ∧
        (determineCryptoLen chdr spaceLeft).payloadLen ≤ vlintMax ∧
        1 + vlintEncodeLen chdr.offset +
          vlintEncodeLen (determineCryptoLen chdr spaceLeft).payloadLen +
          (determineCryptoLen chdr spaceLeft).payloadLen ≤ spaceLeft) := by
  have base : encodedFrameLenCryptoHdr { chdr with len := 0 } = 1 + vlintEncodeLen chdr.offset + 1 :=
    encodedFrameLenCryptoHdr_eq (f := { chdr with len := 0 }) offset (zero_le _)
  have short := vlintEncodeLen_some_le chdr.offset
  have is : determineCryptoLen chdr spaceLeft =
      determineLen spaceLeft chdr.len (1 + vlintEncodeLen chdr.offset) := by
    unfold determineCryptoLen
    rw [base, if_neg (by omega), Nat.add_sub_cancel]
  have fields : ∀ field ∈ lengthFields, 1 ≤ field.1 ∧ field.1 ≤ 8 ∧ field.2 ≤ vlintMax := by decide
  have tried := fun (field : Nat × Nat) (member : field ∈ lengthFields) =>
    tryLen_some spaceLeft field.2 some_
      (show 1 + vlintEncodeLen chdr.offset + field.1 < 2 ^ 63 by
        have := fields field member
        omega) less
  rw [is]
  rcases determineLen_cases spaceLeft chdr.len (1 + vlintEncodeLen chdr.offset) with
    ⟨valid, field, member, chosen⟩ | ⟨none_, others⟩
  · obtain ⟨least, most, upTo⟩ := fields field member
    rw [chosen, tried field member] at valid ⊢
    dsimp only at valid ⊢
    rw [decide_eq_true_eq] at valid
    have hdr := vlintEncodeLen_field (v := min (min chdr.len field.2)
      (spaceLeft - (1 + vlintEncodeLen chdr.offset + field.1))) member (by omega)
    refine ⟨?_, fun _ => ⟨valid, by omega, by omega, by omega⟩⟩
    rw [decide_eq_true_eq]
    exact ⟨fun _ => by omega, fun _ => valid⟩
  · have first := others (1, 2 ^ 6 - 1) (by decide)
    rw [tried (1, 2 ^ 6 - 1) (by decide)] at first
    rw [decide_eq_false_iff_not] at first
    rw [none_]
    refine ⟨⟨(fun never => nomatch never), fun room => ?_⟩, (fun never => nomatch never)⟩
    exact absurd (by omega) first

def RangeFits (range : UintRange) (spaceLeft : Nat) : Prop :=
  minFrameSizeCrypto ≤ spaceLeft ∧ (determineCryptoLen (rangeHdr range) spaceLeft).valid = true

def cryptoHdr (range : UintRange) (spaceLeft : Nat) : FrameCrypto :=
  ⟨range.start, (determineCryptoLen (rangeHdr range) spaceLeft).payloadLen, none⟩

variable {range : UintRange}

theorem newRange_bounds (ok : SstreamOk s) (member : range ∈ s.qss.newSet) :
    range.start ≤ range.stop ∧ range.stop < 2 ^ 62 := by
  have valid := ok.newSep.nonempty range member
  have top := ((ok.new range.stop).mp (mem_points_of_mem member ⟨valid, le_refl _⟩)).1
  have quic := ok.quic
  rw [ok.size, maxOffset] at quic
  exact ⟨valid, by omega⟩

theorem rangeFits_iff (ok : SstreamOk s) (member : range ∈ s.qss.newSet)
    (spaceLeft : Nat) :
    RangeFits range spaceLeft ↔ 1 + vlintEncodeLen range.start + 1 < spaceLeft := by
  obtain ⟨valid, top⟩ := newRange_bounds ok member
  have offset : range.start ≤ vlintMax := by unfold vlintMax; omega
  have positive := vlintEncodeLen_pos.mpr offset
  have spec := (determineCryptoLen_spec (rangeHdr range) spaceLeft offset
    (show 0 < range.stop + 1 - range.start by omega)
    (show range.stop + 1 - range.start < 2 ^ 63 by omega)).1
  unfold RangeFits
  rw [spec]
  show minFrameSizeCrypto ≤ spaceLeft ∧ 1 + vlintEncodeLen range.start + 1 < spaceLeft ↔ _
  unfold minFrameSizeCrypto
  omega

theorem rangeFits_earlier (ok : SstreamOk s) (member : range ∈ s.qss.newSet)
    (member' : later ∈ s.qss.newSet) (order : range.start ≤ later.start)
    (fits : RangeFits later spaceLeft) : RangeFits range spaceLeft := by
  have wide : vlintEncodeLen range.start ≤ vlintEncodeLen later.start := by
    have top := (newRange_bounds ok member')
    unfold vlintEncodeLen vlintMax
    split_ifs <;> omega
  rw [rangeFits_iff ok member]
  rw [rangeFits_iff ok member'] at fits
  omega

theorem getStreamFrame_len {qss : QuicSstream}
    (here : qss.newSet[skip]? = some range) {frame : StreamFrameOut}
    (run : quicSstreamGetStreamFrame qss skip 2 = some frame) :
    frame.len = (frame.iov.map length).sum := by
  rw [quicSstreamGetStreamFrame, if_neg (by decide)] at run
  simp only [here] at run
  split at run
  · cases run
  · obtain rfl := Option.some.inj run
    rfl

theorem txpimPktAppendChunk_helper (chunk : QuicTxpimChunk) (pkt : TxpPkt) :
    (txpimPktAppendChunk chunk pkt).1 = (txHelperAlloc pkt.h).1 ∧
      (txpimPktAppendChunk chunk pkt).2.h = (txHelperAlloc pkt.h).2 := by
  unfold txpimPktAppendChunk
  dsimp only
  split
  · rename_i failed
    exact ⟨failed.symm, rfl⟩
  · rename_i done
    exact ⟨(Bool.not_eq_false _ ▸ done).symm, rfl⟩

/-- A round stops for want of a range or of room, puts in the range's frame and goes on behind its
    vectors, or fails in an allocation. -/
theorem txpCryptoFrameRound_cases (ok : SstreamOk s) (ready : HelperReady c.pkt.h) (i : Nat) :
    (txpCryptoFrameRound s.qss i c = .inl (true, c) ∧
      ∀ range, s.qss.newSet[i]? = some range → ¬ RangeFits range (txHelperGetSpaceLeft c.pkt.h)) ∨
    ∃ range, s.qss.newSet[i]? = some range ∧ RangeFits range (txHelperGetSpaceLeft c.pkt.h) ∧
      ((¬ Supplied 3 c.pkt.h ∧ ∃ c', txpCryptoFrameRound s.qss i c = .inl (false, c') ∧
        (c'.sent = c.sent ∨
          c'.sent = c.sent ++ [(i, cryptoHdr range (txHelperGetSpaceLeft c.pkt.h))])) ∨
      ∃ c' vectors, txpCryptoFrameRound s.qss i c = .inr (vectors + 1, c') ∧ 1 ≤ vectors ∧
        CryptoPut c c' i (cryptoHdr range (txHelperGetSpaceLeft c.pkt.h)) ∧
        ∀ n, Supplied (n + 3) c.pkt.h → Supplied n c'.pkt.h) := by
  unfold txpCryptoFrameRound
  by_cases tight : txHelperGetSpaceLeft c.pkt.h < minFrameSizeCrypto
  · rw [if_pos tight]
    exact .inl ⟨rfl, fun _ _ fits => not_lt.mpr fits.1 tight⟩
  · rw [if_neg tight]
    cases here : s.qss.newSet[i]? with
    | none =>
      refine .inl ⟨?_, fun _ never => nomatch never⟩
      cases run : quicSstreamGetStreamFrame s.qss i 2 with
      | none => rfl
      | some frame =>
        have past := getStreamFrame_past ok (getElem?_eq_none_iff.mp here) run
        rw [past.2.2]
        exact if_pos rfl
    | some range =>
      have member := mem_of_getElem? here
      obtain ⟨valid, top⟩ := newRange_bounds ok member
      obtain ⟨frame, run, of⟩ := getStreamFrame_range ok (le_refl 2) here
      have total := getStreamFrame_len here run
      have hdr : (⟨frame.offset, frame.len, none⟩ : FrameCrypto) = rangeHdr range := by
        rw [of.offset, of.len]
        rfl
      have some_ : frame.len ≠ 0 := by
        rw [of.len]
        omega
      rw [run]
      dsimp only
      rw [if_neg some_, hdr, of.offset]
      by_cases fits : (determineCryptoLen (rangeHdr range) (txHelperGetSpaceLeft c.pkt.h)).valid = true
      · have offset : range.start ≤ vlintMax := by unfold vlintMax; omega
        obtain ⟨positive, part, small, room⟩ := (determineCryptoLen_spec (rangeHdr range) _
          offset (show 0 < range.stop + 1 - range.start by omega)
          (show range.stop + 1 - range.start < 2 ^ 63 by omega)).2 fits
        have size := encodedFrameLenCryptoHdr_eq
          (f := cryptoHdr range (txHelperGetSpaceLeft c.pkt.h)) offset small
        obtain ⟨outcome, supplies⟩ := txpPutCryptoFrame_spec ready i
          (cryptoHdr range (txHelperGetSpaceLeft c.pkt.h)) frame.iov offset small
          (by rw [size]; exact room) (by rw [← total, of.len]; exact part) of.vectors
        have vectors : 1 ≤ frame.iov.length := by
          cases empty : frame.iov with
          | nil =>
            rw [empty] at total
            exact absurd total some_
          | cons v rest => exact succ_le_succ (zero_le _)
        refine .inr ⟨range, rfl, ⟨not_lt.mp tight, fits⟩, ?_⟩
        rw [if_neg (by rw [fits]; simp)]
        unfold cryptoHdr at outcome supplies ⊢
        generalize txpPutCryptoFrame i ⟨range.start, _, none⟩ frame.iov c = put at outcome supplies ⊢
        obtain ⟨out, c'⟩ := put
        rcases outcome with ⟨rfl, sent⟩ | ⟨rfl, put⟩
        · exact .inl ⟨(fun supplied => nomatch (supplies 1 supplied).1), c', rfl, .inl sent⟩
        · obtain ⟨same, allocIovec⟩ := txHelperAlloc_same c'.pkt.h
          obtain ⟨mem, helper⟩ := txpimPktAppendChunk_helper
            (cryptoChunk ⟨range.start, (determineCryptoLen (rangeHdr range)
              (txHelperGetSpaceLeft c.pkt.h)).payloadLen, none⟩) c'.pkt
          generalize txpimPktAppendChunk _ c'.pkt = chunk at mem helper ⊢
          obtain ⟨logged, pkt'⟩ := chunk
          cases logged with
          | false =>
            refine .inl ⟨fun supplied => ?_, _, rfl, .inr put.sent⟩
            rw [(supplied_alloc (supplies 1 supplied).2).1] at mem
            exact nomatch mem
          | true =>
            refine .inr ⟨_, frame.iov.length, rfl, vectors, ⟨put.sent, ?_, ?_, ?_, ?_⟩, ?_⟩
            all_goals dsimp only
            all_goals rw [helper]
            · exact helperReady_same put.ready same
                (by rw [same.iovec, allocIovec]; exact put.ready.vectors)
                (by rw [allocIovec]; exact put.ready.grown)
            · exact same.reserveAllowed.trans put.reserveAllowed
            · exact same.maxPpl.trans put.maxPpl
            · exact same.bytesAppended.trans put.bytesAppended
            · intro n supplied
              exact (supplied_alloc (supplies (n + 1) supplied).2).2
      · rw [if_pos (Bool.eq_false_iff.mpr fits)]
        refine .inl ⟨rfl, fun other same => ?_⟩
        obtain rfl := Option.some.inj same
        exact fun both => fits both.2

theorem cryptoPut_room {c' : CryptoPkt}
    (put : CryptoPut c c' skip (cryptoHdr range spaceLeft)) :
    txHelperGetSpaceLeft c'.pkt.h = c.pkt.h.maxPpl - (c.pkt.h.bytesAppended +
      encodedFrameLenCryptoHdr (cryptoHdr range spaceLeft) + (cryptoHdr range spaceLeft).len) := by
  rw [txHelperGetSpaceLeft_eq put.ready, put.reserveAllowed, if_pos rfl, Nat.sub_zero, put.maxPpl,
    put.bytesAppended]

theorem cryptoHdr_part (ok : SstreamOk s) (member : range ∈ s.qss.newSet)
    (fits : RangeFits range spaceLeft) : 0 < (cryptoHdr range spaceLeft).len ∧
      range.start + (cryptoHdr range spaceLeft).len ≤ range.stop + 1 := by
  obtain ⟨valid, top⟩ := newRange_bounds ok member
  have spec := (determineCryptoLen_spec (rangeHdr range) spaceLeft
    (show range.start ≤ vlintMax by unfold vlintMax; omega)
    (show 0 < range.stop + 1 - range.start by omega)
    (show range.stop + 1 - range.start < 2 ^ 63 by omega)).2 fits.2
  have part : (cryptoHdr range spaceLeft).len ≤ range.stop + 1 - range.start := spec.2.1
  exact ⟨spec.1, by omega⟩

/-- More rounds than there are bytes left make no difference. -/
theorem txpCryptoFrameRounds_ends (ok : SstreamOk s) (ready : HelperReady c.pkt.h) (i : Nat)
    (enough : c.pkt.h.maxPpl - c.pkt.h.bytesAppended < m)
    (enough' : c.pkt.h.maxPpl - c.pkt.h.bytesAppended < n) :
    txpCryptoFrameRounds s.qss m i c = txpCryptoFrameRounds s.qss n i c := by
  induction m generalizing n i c with
  | zero => omega
  | succ m ih =>
    obtain ⟨n, rfl⟩ := exists_eq_succ_of_ne_zero (by omega : n ≠ 0)
    rw [succ_eq_add_one, txpCryptoFrameRounds, txpCryptoFrameRounds]
    rcases txpCryptoFrameRound_cases ok ready i with
      ⟨stops, _⟩ | ⟨range, here, fits, ⟨_, c', fails, _⟩ | ⟨c', vectors, goes, _, put, _⟩⟩
    · rw [stops]
    · rw [fails]
    · rw [goes]
      have part := (cryptoHdr_part ok (mem_of_getElem? here) fits).1
      have bytes := put.bytesAppended
      have used := put.ready.used
      have max := put.maxPpl
      exact ih put.ready (vectors + 1) (by omega) (by omega)

theorem txpCryptoFrameRounds_sent (ok : SstreamOk s) (ready : HelperReady c.pkt.h)
    (rounds i : Nat) : c.sent <+: (txpCryptoFrameRounds s.qss rounds i c).2.sent := by
  induction rounds generalizing i c with
  | zero => exact prefix_refl _
  | succ rounds ih =>
    rw [txpCryptoFrameRounds]
    rcases txpCryptoFrameRound_cases ok ready i with
      ⟨stops, _⟩ | ⟨range, here, fits, ⟨_, c', fails, same | more⟩ | ⟨c', vectors, goes, _, put, _⟩⟩
    · simp [stops]
    · simp [fails, same]
    · simp [fails, more]
    · rw [goes]
      refine List.IsPrefix.trans ?_ (ih put.ready (vectors + 1))
      rw [put.sent]
      exact prefix_append _ _

/-- What one call should put in the packet: a frame for each of the first NEW ranges, in their
    order, until the ranges or the room run out. -/
structure CryptoInOrder (qss : QuicSstream) (pkt : TxpPkt) : Prop where
  ends : ∀ rounds, pkt.h.maxPpl < rounds →
    txpCryptoFrameRounds qss rounds 0 ⟨pkt, []⟩ = txpGenerateCryptoFrames qss pkt
  visits : (txpGenerateCryptoFrames qss pkt).2.sent.map Prod.fst =
    List.range (txpGenerateCryptoFrames qss pkt).2.sent.length
  within : ∀ p ∈ (txpGenerateCryptoFrames qss pkt).2.sent, ∃ range, qss.newSet[p.1]? = some range ∧
    range.start ≤ p.2.offset ∧ 0 < p.2.len ∧ p.2.offset + p.2.len ≤ range.stop + 1
  apart : (txpGenerateCryptoFrames qss pkt).2.sent.Pairwise
    (fun p q => p.2.offset + p.2.len ≤ q.2.offset)
  stopped : (txpGenerateCryptoFrames qss pkt).1 = true → ∀ range,
    qss.newSet[(txpGenerateCryptoFrames qss pkt).2.sent.length]? = some range →
    ¬ RangeFits range (txHelperGetSpaceLeft (txpGenerateCryptoFrames qss pkt).2.pkt.h)

def SecondLeftOut (qss : QuicSstream) (h : TxHelper) : Prop :=
  ∀ first second, qss.newSet[0]? = some first → qss.newSet[1]? = some second →
    RangeFits first (txHelperGetSpaceLeft h) →
    ¬ RangeFits second (h.maxPpl - (h.bytesAppended +
      encodedFrameLenCryptoHdr (cryptoHdr first (txHelperGetSpaceLeft h)) +
      (cryptoHdr first (txHelperGetSpaceLeft h)).len))

/-- A call that puts in no frame but one of the first range is in order if it stops rightly. -/
theorem cryptoInOrder_of_first (ok : SstreamOk s) {pkt : TxpPkt} (ready : HelperReady pkt.h)
    (sent : (txpGenerateCryptoFrames s.qss pkt).2.sent = [] ∨ ∃ range,
      s.qss.newSet[0]? = some range ∧ RangeFits range (txHelperGetSpaceLeft pkt.h) ∧
      (txpGenerateCryptoFrames s.qss pkt).2.sent =
        [(0, cryptoHdr range (txHelperGetSpaceLeft pkt.h))])
    (stopped : (txpGenerateCryptoFrames s.qss pkt).1 = true → ∀ range,
      s.qss.newSet[(txpGenerateCryptoFrames s.qss pkt).2.sent.length]? = some range →
      ¬ RangeFits range (txHelperGetSpaceLeft (txpGenerateCryptoFrames s.qss pkt).2.pkt.h)) :
    CryptoInOrder s.qss pkt := by
  have ends : ∀ rounds, pkt.h.maxPpl < rounds →
      txpCryptoFrameRounds s.qss rounds 0 ⟨pkt, []⟩ = txpGenerateCryptoFrames s.qss pkt :=
    fun rounds enough => txpCryptoFrameRounds_ends ok (c := ⟨pkt, []⟩) ready 0
      (show pkt.h.maxPpl - pkt.h.bytesAppended < rounds by omega)
      (show pkt.h.maxPpl - pkt.h.bytesAppended < pkt.h.maxPpl + 1 by omega)
  rcases sent with none_ | ⟨range, here, fits, one⟩
  · refine ⟨ends, ?_, ?_, ?_, stopped⟩
    · rw [none_]
      rfl
    · rw [none_]
      exact fun _ member => nomatch member
    · rw [none_]
      exact List.Pairwise.nil
  · refine ⟨ends, ?_, ?_, ?_, stopped⟩
    · rw [one]
      rfl
    · rw [one]
      intro p member
      rw [mem_singleton.mp member]
      exact ⟨range, here, le_refl _, cryptoHdr_part ok (mem_of_getElem? here) fits⟩
    · rw [one]
      exact pairwise_singleton _ _

theorem newSet_ascends (ok : SstreamOk s) {i j : Nat} (less : i < j) {first : UintRange}
    (here : s.qss.newSet[i]? = some first) (there : s.qss.newSet[j]? = some later) :
    first.start ≤ later.start := by
  obtain ⟨boundI, rfl⟩ := List.getElem?_eq_some_iff.mp here
  obtain ⟨boundJ, rfl⟩ := List.getElem?_eq_some_iff.mp there
  have apart := pairwise_iff_getElem.mp ok.newSep.apart i j boundI boundJ less
  have valid := ok.newSep.nonempty _ (getElem_mem boundI)
  omega

/-- The frames are in order where the second range is left out for want of room; and only there,
    unless an allocation fails. -/
theorem crypto_frames_in_order_iff {s : TracedSstream} (ok : SstreamOk s) {pkt : TxpPkt}
    (ready : HelperReady pkt.h) :
    (SecondLeftOut s.qss pkt.h → CryptoInOrder s.qss pkt) ∧
      (Supplied 6 pkt.h → CryptoInOrder s.qss pkt → SecondLeftOut s.qss pkt.h) := by
  have is : txpGenerateCryptoFrames s.qss pkt =
      txpCryptoFrameRounds s.qss (pkt.h.maxPpl + 1) 0 ⟨pkt, []⟩ := rfl
  rw [txpCryptoFrameRounds] at is
  rcases txpCryptoFrameRound_cases ok (c := ⟨pkt, []⟩) ready 0 with
    ⟨stops, none_⟩ | ⟨first, here, fits, ⟨short, c', fails, sent⟩ | ⟨c', vectors, goes, some_, put, left⟩⟩
  · rw [stops] at is
    refine ⟨fun _ => cryptoInOrder_of_first ok ready (.inl (by rw [is])) ?_, fun _ _ => ?_⟩
    · rw [is]
      exact fun _ => none_
    · intro first second here _ fits
      exact absurd fits (none_ first here)
  · rw [fails] at is
    refine ⟨fun _ => cryptoInOrder_of_first ok ready ?_ ?_, fun supplied => ?_⟩
    · rw [is]
      rcases sent with none_ | one
      · exact .inl none_
      · exact .inr ⟨first, here, fits, one⟩
    · rw [is]
      exact fun never => nomatch never
    · exact absurd (supplied_less (by decide) supplied) short
  · have space := txHelperGetSpaceLeft_eq ready
    have least : 4 ≤ txHelperGetSpaceLeft pkt.h := fits.1
    obtain ⟨m, count⟩ := exists_eq_succ_of_ne_zero (by omega : pkt.h.maxPpl ≠ 0)
    rw [goes] at is
    dsimp only at is
    rw [count, succ_eq_add_one, txpCryptoFrameRounds] at is
    have one : c'.sent = [(0, cryptoHdr first (txHelperGetSpaceLeft pkt.h))] := put.sent
    have room := cryptoPut_room put
    -- what decides is the room behind the first frame
    have condition : SecondLeftOut s.qss pkt.h ↔ ∀ second, s.qss.newSet[1]? = some second →
        ¬ RangeFits second (txHelperGetSpaceLeft c'.pkt.h) := by
      rw [room]
      constructor
      · intro leaves second there
        exact leaves first second here there fits
      · intro leaves first' second here' there _
        rw [here] at here'
        obtain rfl := Option.some.inj here'
        exact leaves second there
    have skipped : ∀ range, s.qss.newSet[vectors + 1]? = some range →
        RangeFits range (txHelperGetSpaceLeft c'.pkt.h) → ¬ SecondLeftOut s.qss pkt.h := by
      intro range there room' leaves
      obtain ⟨bound, _⟩ := List.getElem?_eq_some_iff.mp there
      have second := List.getElem?_eq_getElem (by omega : 1 < s.qss.newSet.length)
      exact condition.mp leaves _ second (rangeFits_earlier ok (mem_of_getElem? second)
        (mem_of_getElem? there) (newSet_ascends ok (by omega) second there) room')
    rcases txpCryptoFrameRound_cases ok put.ready (vectors + 1) with
      ⟨stops, none_⟩ | ⟨range, there, fits', ⟨short, c'', fails, sent⟩ | ⟨c'', more, again, _, put', _⟩⟩
    · rw [stops] at is
      constructor
      · intro leaves
        refine cryptoInOrder_of_first ok ready ?_ ?_
        · rw [is]
          exact .inr ⟨first, here, fits, one⟩
        · rw [is, one]
          exact fun _ => condition.mp leaves
      · intro _ inOrder
        have stopped := inOrder.stopped
        rw [is, one] at stopped
        exact condition.mpr (stopped rfl)
    · refine ⟨fun leaves => absurd leaves (skipped range there fits'), fun supplied => ?_⟩
      exact absurd (left 3 supplied) short
    · refine ⟨fun leaves => absurd leaves (skipped range there fits'), fun _ inOrder => ?_⟩
      rw [again] at is
      dsimp only at is
      have sent := txpCryptoFrameRounds_sent ok put'.ready m (more + 1)
      rw [← is, put'.sent, one] at sent
      obtain ⟨rest, whole⟩ := sent
      have visits := inOrder.visits
      rw [← whole] at visits
      have second := congrArg (fun l => l[1]?) visits
      simp at second
      omega

/- Of five bytes of handshake data the second and the fourth have been sent. -/
def gappedCryptoCalls : List SstreamCall :=
  [.append true [1, 2, 3, 4, 5], .markTransmitted 1 1, .markTransmitted 3 3]

def gappedCrypto : TracedSstream :=
  run applySstreamCall
    (freshSstream ⟨⟨fun _ => 0, 8, 0, 0⟩, [], [], false, false, false, false⟩) gappedCryptoCalls

theorem gappedCrypto_ok : SstreamOk gappedCrypto := by
  have created := quicSstreamNew_ok (by decide : 8 < 2 ^ 64)
    (rfl : quicSstreamNew true 8 = some ⟨⟨fun _ => 0, 8, 0, 0⟩, [], [], false, false, false, false⟩)
  refine run_invariant applySstreamCall_ok created ⟨trivial, ?_, ?_, trivial⟩
  · intro x low high
    obtain rfl := le_antisymm high low
    exact ⟨by decide, by decide⟩
  · intro x low high
    obtain rfl := le_antisymm high low
    exact ⟨by decide, by decide⟩

def emptyPkt (maxPpl : Nat) : TxpPkt where
  h := ⟨maxPpl, 0, maxPpl, 0, 0, [], 0, false, false, replicate 20 true⟩
  tpkt := ⟨0, [], [], false, false, false, false, false⟩
  forcePad := false
  haveAckEliciting := false
  streamHead := []
  frames := []

theorem emptyPkt_ready {maxPpl : Nat} (most : maxPpl < 2 ^ 64) : HelperReady (emptyPkt maxPpl).h :=
  ⟨most, .inl (by simp [emptyPkt]), by simp [emptyPkt], most, rfl, le_refl _, .inl rfl⟩

/-- The first range is put in, and then the third one, over and over. -/
theorem crypto_frames_repeat :
    ¬ ∀ (s : TracedSstream) (pkt : TxpPkt), SstreamOk s → HelperReady pkt.h →
      CryptoInOrder s.qss pkt := by
  intro always
  have visits := (always gappedCrypto (emptyPkt 16) gappedCrypto_ok
    (emptyPkt_ready (by decide))).visits
  exact absurd visits (by decide +kernel)

theorem crypto_frames_in_order_iff_gapped : ¬ CryptoInOrder gappedCrypto.qss (emptyPkt 16) := by
  intro inOrder
  have leaves := (crypto_frames_in_order_iff gappedCrypto_ok (emptyPkt_ready (by decide))).2
    ⟨replicate 14 true, rfl⟩ inOrder
  refine leaves ⟨0, 0⟩ ⟨2, 2⟩ (by decide +kernel) (by decide +kernel) ?_ ?_
  · exact ⟨by decide +kernel, by decide +kernel⟩
  · exact ⟨by decide +kernel, by decide +kernel⟩

end Ossl
