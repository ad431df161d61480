import OpenSSL.Ssl.StatemDtlsInput

/- How ssl/statem/statem_dtls.c writes a handshake message in fragments. -/
namespace Ossl
open List BigEndian Runs Or

/- sent is what dtls1_write_bytes has taken, mac what ssl3_finish_mac has been given. -/
structure DtlsWriter where
  initBuf : List UInt8
  initOff : Nat
  initNum : Nat
  wMsgHdr : HmHeader
  mtu : Nat
  maxSendFragment : Nat
  noQueryMtu : Bool
  msgCallback : Bool
  retransmitting : Bool
  badVer : Bool
  sent : List (List UInt8)
  mac : List UInt8

/- What dtls1_do_write keeps from one round of its loop to the next. -/
structure WriteLoop where
  overhead : Nat
  fragOff : Nat
  retry : Bool

/- A failure, with the answers to BIO_CTRL_DGRAM_MTU_EXCEEDED and to the query that may follow. -/
inductive WroteBytes where
  | all
  | failed (mtuExceeded : Bool) (queried : Option Nat)

structure WriteTurn where
  wpending : Nat
  flush : Int
  wrote : WroteBytes

inductive Turned where
  | again (l : WriteLoop)
  | ret (code : Int)

def writeFragOff (l : WriteLoop) (s : DtlsWriter) : Option (Nat × DtlsWriter) :=
  if s.initOff ≠ 0 then
    if l.fragOff > 0 then
      if s.initOff ≤ dtls1HmHeaderLength then none
      else some (l.fragOff, { s with initOff := s.initOff - dtls1HmHeaderLength
                                     initNum := s.initNum + dtls1HmHeaderLength })
    else some (s.wMsgHdr.fragOff, s)
  else some (l.fragOff, s)

def currMtu (t : WriteTurn) (l : WriteLoop) (s : DtlsWriter) : Except Int Nat :=
  let usedLen := t.wpending + l.overhead
  let currMtu := if s.mtu > usedLen then s.mtu - usedLen else 0
  if currMtu ≤ dtls1HmHeaderLength then
    if t.flush ≤ 0 then .error t.flush
    else if s.mtu > l.overhead + dtls1HmHeaderLength then .ok (s.mtu - l.overhead)
    else .error (-1)
  else .ok currMtu

def dtls1FixMessageHeader (s : DtlsWriter) (fragOff fragLen : Nat) : DtlsWriter :=
  { s with wMsgHdr := { s.wMsgHdr with fragOff := fragOff, fragLen := fragLen } }

def writtenHeader (s : DtlsWriter) : List UInt8 :=
  writeAt s.initBuf s.initOff (encodeHeader s.wMsgHdr)

def restoredBuf (s : DtlsWriter) : List UInt8 :=
  if s.msgCallback ∧ s.initOff ≠ 0 then
    writeAt (writtenHeader s) s.initOff ((s.initBuf.drop s.initOff).take dtls1HmHeaderLength)
  else writtenHeader s

def finishMac (s : DtlsWriter) (fragOff len : Nat) : DtlsWriter :=
  if s.retransmitting then s
  else if fragOff = 0 ∧ s.badVer = false then
    let initBuf := writeAt s.initBuf s.initOff (messageHeader s.wMsgHdr)
    { s with initBuf := initBuf, mac := s.mac ++ (initBuf.drop s.initOff).take len }
  else
    let p := s.initBuf.drop (s.initOff + dtls1HmHeaderLength)
    { s with mac := s.mac ++ p.take (len - dtls1HmHeaderLength) }

def wroteFragment (l : WriteLoop) (s : DtlsWriter) (fragOff len : Nat) : Turned × DtlsWriter :=
  let s := finishMac s fragOff len
  if len = s.initNum then (.ret 1, { s with initOff := 0, initNum := 0 })
  else
    let s := { s with initOff := s.initOff + len, initNum := s.initNum - len }
    let fragOff := fragOff + (len - dtls1HmHeaderLength)
    (.again { l with fragOff := fragOff }, dtls1FixMessageHeader s fragOff 0)

def dtls1DoWriteTurn (t : WriteTurn) (l : WriteLoop) (s : DtlsWriter) : Turned × DtlsWriter :=
  match writeFragOff l s with
  | none => (.ret (-1), s)
  | some (fragOff, s) =>
    match currMtu t l s with
    | .error code => (.ret code, s)
    | .ok currMtu =>
      let len := if s.initNum > currMtu then currMtu else s.initNum
      let len := if len > s.maxSendFragment then s.maxSendFragment else len
      if len < dtls1HmHeaderLength then (.ret (-1), s)
      else
        let s := dtls1FixMessageHeader s fragOff (len - dtls1HmHeaderLength)
        let record := ((writtenHeader s).drop s.initOff).take len
        let s := { s with initBuf := restoredBuf s }
        match t.wrote with
        | .all => wroteFragment l { s with sent := s.sent ++ [record] } fragOff len
        | .failed mtuExceeded queried =>
          if l.retry ∧ mtuExceeded then
            if s.noQueryMtu then (.ret (-1), s)
            else
              match queried with
              | none => (.ret (-1), s)
              | some mtu => (.again { l with fragOff := fragOff, retry := false }, { s with mtu := mtu })
          else (.ret (-1), s)

inductive WriteEvent where
  | call (queried : Option Nat) (minMtu overhead : Nat)
  | turn (t : WriteTurn)

structure WriteRun where
  conn : DtlsWriter
  doing : Option WriteLoop
  ret : Option Int

def writeStep (w : WriteRun) : WriteEvent → WriteRun
  | .call queried minMtu overhead =>
    match w.doing, queried with
    | some _, _ => w
    | none, none => { w with ret := some (-1) }
    | none, some mtu =>
      let s := { w.conn with mtu := mtu }
      if mtu < minMtu then { w with conn := s, ret := some (-1) }
      else if s.initOff = 0 ∧ s.initNum ≠ s.wMsgHdr.msgLen + dtls1HmHeaderLength then
        { w with conn := s, ret := some (-1) }
      else if s.initNum = 0 then { w with conn := s, ret := some 0 }
      else { conn := s, doing := some ⟨overhead, 0, true⟩, ret := none }
  | .turn t =>
    match w.doing with
    | none => w
    | some l =>
      match dtls1DoWriteTurn t l w.conn with
      | (.again l, s) => { w with conn := s, doing := some l }
      | (.ret code, s) => { conn := s, doing := none, ret := some code }

structure WriteStart (m : HsMessage) (seq : Nat) (s : DtlsWriter) : Prop where
  off : s.initOff = 0
  num : s.initNum = m.body.length + dtls1HmHeaderLength
  header : s.wMsgHdr.type = m.type ∧ s.wMsgHdr.msgLen = m.body.length ∧ s.wMsgHdr.seq = seq
  room : s.initBuf.length = m.body.length + dtls1HmHeaderLength
  body : s.initBuf.drop dtls1HmHeaderLength = m.body
  sent : s.sent = []
  mac : s.mac = []
  least : dtls1HmHeaderLength < s.maxSendFragment

def Consecutive : Nat → List HsFragment → Nat → Prop
  | off, [], last => off = last
  | off, f :: frags, last => f.off = off ∧ Consecutive (off + f.len) frags last

def fragmentRecord (m : HsMessage) (f : HsFragment) : List UInt8 :=
  encodeHeader (f.header m) ++ f.part m

/-- The records are fragments that cover the message up to an offset, each byte once. -/
def SentTo (m : HsMessage) (seq : Nat) (sent : List (List UInt8)) (off : Nat) : Prop :=
  ∃ frags : List HsFragment, sent = frags.map (fragmentRecord m) ∧ Consecutive 0 frags off ∧
    ∀ f ∈ frags, f.seq = seq

def MacTo (m : HsMessage) (s : DtlsWriter) (off : Nat) : Prop :=
  s.retransmitting = false → s.badVer = false →
    s.mac = if s.sent = [] then [] else messageHeader s.wMsgHdr ++ m.body.take off

/-- The next fragment starts at the offset, with the room for its header before it. -/
structure WriteReady (m : HsMessage) (seq : Nat) (s : DtlsWriter) (off : Nat) : Prop where
  initOff : s.initOff = off
  num : s.initNum = m.body.length - off + dtls1HmHeaderLength
  header : s.wMsgHdr.type = m.type ∧ s.wMsgHdr.msgLen = m.body.length ∧ s.wMsgHdr.seq = seq
  room : s.initBuf.length = m.body.length + dtls1HmHeaderLength
  body : s.initBuf.drop (off + dtls1HmHeaderLength) = m.body.drop off
  sent : SentTo m seq s.sent off
  mac : MacTo m s off
  least : dtls1HmHeaderLength < s.maxSendFragment
  place : off = 0 ∧ s.sent = [] ∨ 0 < off ∧ off < m.body.length ∧ s.wMsgHdr.fragOff = off ∧ s.sent ≠ []

/-- The last fragment is behind, and the room for the next header is not made yet. -/
structure WriteMoved (m : HsMessage) (seq : Nat) (s : DtlsWriter) (off : Nat) : Prop where
  initOff : s.initOff = off + dtls1HmHeaderLength
  pos : 0 < off
  ready : WriteReady m seq { s with initOff := s.initOff - dtls1HmHeaderLength
                                    initNum := s.initNum + dtls1HmHeaderLength } off

structure WriteDone (m : HsMessage) (seq : Nat) (s : DtlsWriter) : Prop where
  header : s.wMsgHdr.type = m.type ∧ s.wMsgHdr.msgLen = m.body.length ∧ s.wMsgHdr.seq = seq
  off : s.initOff = 0
  num : s.initNum = 0
  sent : SentTo m seq s.sent m.body.length
  mac : s.retransmitting = false → s.badVer = false → s.mac = messageHeader s.wMsgHdr ++ m.body

theorem encodeHeader_twelve (hdr : HmHeader) : (encodeHeader hdr).length = 12 :=
  encodeHeader_length hdr

@[simp] theorem messageHeader_length (hdr : HmHeader) : (messageHeader hdr).length = 12 := by
  simp [messageHeader]

variable {off seq : Nat} {m : HsMessage} {s : DtlsWriter} {l : WriteLoop}

variable {buf : List UInt8} {len : Nat} {t : WriteTurn}

theorem writeAt_same_length {bytes : List UInt8} (room : off + bytes.length ≤ buf.length) :
    (writeAt buf off bytes).length = buf.length := by
  simp [writeAt]
  omega

theorem writeAt_read {bytes : List UInt8} (room : off + bytes.length ≤ buf.length) :
    (writeAt buf off bytes).drop off = bytes ++ buf.drop (off + bytes.length) ∧
      (writeAt buf off bytes).drop (off + bytes.length) = buf.drop (off + bytes.length) := by
  have front : (buf.take off).length = off := by
    rw [length_take]
    omega
  have read : (writeAt buf off bytes).drop off = bytes ++ buf.drop (off + bytes.length) := by
    rw [writeAt, append_assoc, drop_left' front]
  refine ⟨read, ?_⟩
  rw [← drop_drop, read, drop_left]

theorem consecutive_snoc {frags : List HsFragment} {f : HsFragment} {start : Nat}
    (front : Consecutive start frags off) (next : f.off = off) :
    Consecutive start (frags ++ [f]) (off + f.len) := by
  induction frags generalizing start with
  | nil =>
    have same : start = off := front
    rw [same]
    exact ⟨next, rfl⟩
  | cons g frags ih => exact ⟨front.1, ih front.2⟩

theorem sentTo_snoc {sent : List (List UInt8)} (front : SentTo m seq sent off) (len : Nat) :
    SentTo m seq (sent ++ [fragmentRecord m ⟨seq, off, len⟩]) (off + len) := by
  obtain ⟨frags, rfl, consecutive, seqs⟩ := front
  refine ⟨frags ++ [⟨seq, off, len⟩], by simp, consecutive_snoc consecutive rfl, ?_⟩
  intro f member
  rw [mem_append, mem_singleton] at member
  rcases member with old | rfl
  · exact seqs f old
  · rfl

section Ready
variable {m : HsMessage} {seq off : Nat} {s : DtlsWriter} (ready : WriteReady m seq s off)
include ready

theorem WriteReady.within : off ≤ m.body.length := by
  rcases ready.place with ⟨rfl, _⟩ | ⟨_, less, _⟩
  · exact Nat.zero_le _
  · exact le_of_lt less

theorem WriteReady.header_room : s.initOff + 12 ≤ s.initBuf.length := by
  have within := ready.within
  have room := ready.room
  have at_ := ready.initOff
  rw [dtls1HmHeaderLength] at room
  omega

/-- The header goes over bytes that are sent already, and the rest of the body stays. -/
theorem WriteReady.header_written :
    (writtenHeader s).length = s.initBuf.length ∧
      (writtenHeader s).drop off = encodeHeader s.wMsgHdr ++ m.body.drop off ∧
      (writtenHeader s).drop (off + 12) = m.body.drop off := by
  have room := ready.header_room
  have body := ready.body
  have length := encodeHeader_twelve s.wMsgHdr
  have fits : s.initOff + (encodeHeader s.wMsgHdr).length ≤ s.initBuf.length := by
    rw [length]
    exact room
  have read := writeAt_read fits
  rw [length, ready.initOff] at read
  rw [dtls1HmHeaderLength] at body
  rw [body] at read
  refine ⟨writeAt_same_length fits, ?_, ?_⟩
  · rw [writtenHeader, ready.initOff]
    exact read.1
  · rw [writtenHeader, ready.initOff]
    exact read.2

theorem WriteReady.restored :
    (restoredBuf s).length = s.initBuf.length ∧ (restoredBuf s).drop (off + 12) = m.body.drop off := by
  obtain ⟨length, _, tail⟩ := ready.header_written
  have room := ready.header_room
  rw [restoredBuf]
  by_cases saved : s.msgCallback ∧ s.initOff ≠ 0
  · rw [if_pos saved]
    have bytes : ((s.initBuf.drop s.initOff).take dtls1HmHeaderLength).length = 12 := by
      rw [length_take, length_drop, dtls1HmHeaderLength]
      omega
    have fits : s.initOff + ((s.initBuf.drop s.initOff).take dtls1HmHeaderLength).length ≤
        (writtenHeader s).length := by
      rw [bytes, length]
      exact room
    have read := (writeAt_read fits).2
    rw [bytes] at read
    refine ⟨by rw [writeAt_same_length fits, length], ?_⟩
    rw [← ready.initOff, read, ready.initOff, tail]
  · rw [if_neg saved]
    exact ⟨length, tail⟩

theorem WriteReady.record {len : Nat} (least : 12 ≤ len)
    (hdr : s.wMsgHdr = ⟨m.type, m.body.length, seq, off, len - 12⟩) :
    ((writtenHeader s).drop s.initOff).take len = fragmentRecord m ⟨seq, off, len - 12⟩ := by
  have read := ready.header_written.2.1
  rw [ready.initOff, read, take_append, encodeHeader_twelve,
    take_of_length_le (by rw [encodeHeader_twelve]; exact least), hdr]
  rfl

/-- An attempt that fails leaves everything ready for the same fragment. -/
theorem WriteReady.failed (len : Nat) (other : DtlsWriter)
    (is : other = { dtls1FixMessageHeader s off len with
      initBuf := restoredBuf (dtls1FixMessageHeader s off len) }) : WriteReady m seq other off := by
  have fixed : WriteReady m seq (dtls1FixMessageHeader s off len) off :=
    { ready with
      mac := ready.mac
      place := by
        rcases ready.place with first | ⟨pos, less, _, some_⟩
        · exact .inl first
        · exact .inr ⟨pos, less, rfl, some_⟩ }
  obtain ⟨length, body⟩ := fixed.restored
  rw [is]
  exact { fixed with
    room := length.trans fixed.room
    body := body
    mac := fixed.mac }

end Ready

/-- The transcript takes the header of the whole message once, and then the bodies. -/
theorem finishMac_spec (ready : WriteReady m seq s off) (record : List UInt8) (least : 12 ≤ len) :
    ∃ initBuf mac, finishMac { s with sent := s.sent ++ [record] } off len =
        { s with sent := s.sent ++ [record], initBuf := initBuf, mac := mac } ∧
      initBuf.length = s.initBuf.length ∧ initBuf.drop (off + 12) = s.initBuf.drop (off + 12) ∧
      (s.retransmitting = false → s.badVer = false →
        mac = messageHeader s.wMsgHdr ++ m.body.take (off + (len - 12))) := by
  have room := ready.header_room
  have macced := ready.mac
  rw [finishMac]
  by_cases silent : s.retransmitting = true
  · rw [if_pos silent]
    exact ⟨s.initBuf, s.mac, rfl, rfl, rfl, by intro not_; rw [silent] at not_; nomatch not_⟩
  · rw [if_neg silent]
    have body := ready.body
    rw [dtls1HmHeaderLength] at body
    by_cases first : off = 0 ∧ s.badVer = false
    · rw [if_pos first]
      have length := messageHeader_length s.wMsgHdr
      have fits : s.initOff + (messageHeader s.wMsgHdr).length ≤ s.initBuf.length := by
        rw [length]
        exact room
      have read := writeAt_read fits
      rw [length, ready.initOff] at read
      rw [ready.initOff] at fits ⊢
      refine ⟨_, _, rfl, writeAt_same_length fits, read.2, ?_⟩
      intro sends plain
      have none_ : s.sent = [] := by
        rcases ready.place with ⟨_, is⟩ | ⟨pos, _⟩
        · exact is
        · omega
      have start := macced sends plain
      rw [if_pos none_] at start
      rw [read.1, body, start, nil_append, take_append, length,
        take_of_length_le (by rw [length]; exact least), first.1, drop_zero, zero_add]
    · rw [if_neg first]
      refine ⟨s.initBuf, _, rfl, rfl, rfl, ?_⟩
      intro sends plain
      have some_ : s.sent ≠ [] := by
        rcases ready.place with ⟨zero, _⟩ | ⟨_, _, _, is⟩
        · exact absurd ⟨zero, plain⟩ first
        · exact is
      have start := macced sends plain
      rw [if_neg some_] at start
      rw [start, ready.initOff, dtls1HmHeaderLength, body, append_assoc, take_add]

/-- A fragment that is taken is the last one, or moves the offset behind it. -/
theorem wroteFragment_spec (ready : WriteReady m seq s off) (l : WriteLoop) (least : 12 ≤ len)
    (most : len ≤ s.initNum) (some_ : 12 < len ∨ len = s.initNum) :
    let record := fragmentRecord m ⟨seq, off, len - 12⟩
    (∃ s', wroteFragment l { s with sent := s.sent ++ [record] } off len = (.ret 1, s') ∧
      WriteDone m seq s') ∨
    ∃ s' l', wroteFragment l { s with sent := s.sent ++ [record] } off len = (.again l', s') ∧
      l'.fragOff = off + (len - 12) ∧ WriteMoved m seq s' (off + (len - 12)) := by
  intro record
  obtain ⟨initBuf, mac, is, length, body, maced⟩ := finishMac_spec ready record least
  have num := ready.num
  have at_ := ready.initOff
  have inside := ready.within
  have tail := ready.body
  have sent := sentTo_snoc ready.sent (len - 12)
  rw [dtls1HmHeaderLength] at num tail
  rw [wroteFragment, is]
  by_cases last : len = s.initNum
  · apply inl
    rw [if_pos last]
    have whole : off + (len - 12) = m.body.length := by omega
    rw [whole] at sent maced
    rw [take_length] at maced
    exact ⟨_, rfl, ready.header, rfl, rfl, sent, maced⟩
  · apply inr
    rw [if_neg last]
    refine ⟨_, _, rfl, rfl, ?_, by omega, ?_⟩
    · dsimp only [dtls1FixMessageHeader]
      rw [at_, dtls1HmHeaderLength]
      omega
    · exact
        { initOff := by
            dsimp only [dtls1FixMessageHeader]
            rw [at_, dtls1HmHeaderLength]
            omega
          num := by
            dsimp only [dtls1FixMessageHeader]
            rw [dtls1HmHeaderLength]
            omega
          header := ready.header
          room := length.trans ready.room
          body := by
            dsimp only [dtls1FixMessageHeader]
            have step (bytes : List UInt8) : bytes.drop (off + (len - 12) + 12) =
                (bytes.drop (off + 12)).drop (len - 12) := by
              rw [drop_drop]
              congr 1
              omega
            rw [dtls1HmHeaderLength, step, body, tail, drop_drop]
          sent := sent
          mac := by
            intro sends plain
            have some_ : s.sent ++ [record] ≠ [] := by simp
            exact (maced sends plain).trans (if_neg some_).symm
          least := ready.least
          place := inr ⟨by omega, by omega, rfl, by simp [dtls1FixMessageHeader]⟩ }

def InWriteLoop (m : HsMessage) (seq : Nat) (l : WriteLoop) (s : DtlsWriter) : Prop :=
  (∃ off, WriteReady m seq s off ∧ l.fragOff = 0) ∨ ∃ off, WriteMoved m seq s off ∧ l.fragOff = off

theorem writeFragOff_spec (inside : InWriteLoop m seq l s) :
    ∃ off s', writeFragOff l s = some (off, s') ∧ WriteReady m seq s' off ∧
      (s.initOff = 0 → off = 0) ∧ s'.noQueryMtu = s.noQueryMtu := by
  rcases inside with ⟨off, ready, zero⟩ | ⟨off, moved, same⟩
  · have at_ := ready.initOff
    rw [writeFragOff]
    by_cases start : s.initOff ≠ 0
    · rw [if_pos start, if_neg (by omega)]
      rcases ready.place with ⟨none_, _⟩ | ⟨_, _, fragOff, _⟩
      · omega
      · exact ⟨off, s, by rw [fragOff], ready, by omega, rfl⟩
    · rw [if_neg start, zero]
      have none_ : off = 0 := by omega
      exact ⟨0, s, rfl, by rw [← none_]; exact ready, fun _ => rfl, rfl⟩
  · have at_ := moved.initOff
    have pos := moved.pos
    rw [dtls1HmHeaderLength] at at_
    rw [writeFragOff, if_pos (by omega), if_pos (by omega),
      if_neg (by rw [dtls1HmHeaderLength]; omega), same]
    exact ⟨off, _, rfl, moved.ready, by omega, rfl⟩

theorem currMtu_least {mtu : Nat} (is : currMtu t l s = .ok mtu) : 12 < mtu := by
  rw [currMtu, dtls1HmHeaderLength] at is
  generalize (if s.mtu > t.wpending + l.overhead then s.mtu - (t.wpending + l.overhead) else 0) =
    room at is
  split at is
  · split at is
    · cases is
    · split at is
      · cases is
        omega
      · cases is
  · cases is
    omega

theorem currMtu_error {code : Int} (is : currMtu t l s = .error code) : code ≠ 1 := by
  rw [currMtu] at is
  generalize (if s.mtu > t.wpending + l.overhead then s.mtu - (t.wpending + l.overhead) else 0) =
    room at is
  split at is
  · split at is
    · cases is
      omega
    · split at is
      · nomatch is
      · cases is
        decide
  · nomatch is

/- The loop goes round again after a failure only while no fragment is behind it. -/
def NoLateRetry (w : WriteRun) : WriteEvent → Prop
  | .call _ _ _ => True
  | .turn t =>
    ∀ l mtu, w.doing = some l → l.retry = true → w.conn.noQueryMtu = false →
      t.wrote = .failed true (some mtu) → w.conn.initOff = 0

/- What holds between the calls of dtls1_do_write and inside of them. -/
structure WriteOk (m : HsMessage) (seq : Nat) (w : WriteRun) : Prop where
  inside : ∀ l, w.doing = some l → InWriteLoop m seq l w.conn
  between : w.doing = none → (∃ off, WriteReady m seq w.conn off) ∨ WriteDone m seq w.conn
  done : w.ret = some 1 → w.doing = none ∧ WriteDone m seq w.conn

/-- One round keeps what has been sent, and what is to be sent, together. -/
theorem dtls1DoWriteTurn_spec (t : WriteTurn) (inside : InWriteLoop m seq l s)
    (early : ∀ mtu, l.retry = true → s.noQueryMtu = false → t.wrote = .failed true (some mtu) →
      s.initOff = 0) :
    (∃ l' s', dtls1DoWriteTurn t l s = (.again l', s') ∧ InWriteLoop m seq l' s') ∨
      (∃ s', dtls1DoWriteTurn t l s = (.ret 1, s') ∧ WriteDone m seq s') ∨
      ∃ code s' off, dtls1DoWriteTurn t l s = (.ret code, s') ∧ code ≠ 1 ∧ WriteReady m seq s' off := by
  obtain ⟨off, s1, start, ready, first, query⟩ := writeFragOff_spec inside
  rw [dtls1DoWriteTurn, start]
  dsimp only
  cases mtu : currMtu t l s1 with
  | error code => exact inr (inr ⟨code, s1, off, rfl, currMtu_error mtu, ready⟩)
  | ok mtu' =>
    have wide := currMtu_least mtu
    have least := ready.least
    have num := ready.num
    rw [dtls1HmHeaderLength] at least num
    dsimp only
    generalize size : (if (if s1.initNum > mtu' then mtu' else s1.initNum) > s1.maxSendFragment
      then s1.maxSendFragment else if s1.initNum > mtu' then mtu' else s1.initNum) = len
    have bounds : 12 ≤ len ∧ len ≤ s1.initNum ∧ (12 < len ∨ len = s1.initNum) := by
      rw [← size]
      split <;> split <;> omega
    obtain ⟨enough, most, some_⟩ := bounds
    rw [if_neg (by rw [dtls1HmHeaderLength]; omega)]
    have fixed : WriteReady m seq (dtls1FixMessageHeader s1 off (len - 12)) off :=
      { ready with
        mac := ready.mac
        place := by
          rcases ready.place with is | ⟨pos, less, _, more⟩
          · exact inl is
          · exact inr ⟨pos, less, rfl, more⟩ }
    have kept := ready.failed (len - 12) _ rfl
    have record := fixed.record enough (by
      obtain ⟨type, length, seqs⟩ := ready.header
      simp [dtls1FixMessageHeader, type, length, seqs])
    cases wrote : t.wrote with
    | all =>
      rw [dtls1HmHeaderLength, record]
      rcases wroteFragment_spec kept l enough most some_ with ⟨s', is, done⟩ | ⟨s', l', is, at_, moved⟩
      · exact inr (inl ⟨s', is, done⟩)
      · exact inl ⟨l', s', is, inr ⟨_, moved, at_⟩⟩
    | failed mtuExceeded queried =>
      dsimp only
      by_cases again : l.retry = true ∧ mtuExceeded = true
      · rw [if_pos again]
        by_cases refuses : s1.noQueryMtu = true
        · have same : (dtls1FixMessageHeader s1 off (len - dtls1HmHeaderLength)).noQueryMtu = true :=
            refuses
          rw [if_pos same]
          exact inr (inr ⟨-1, _, off, rfl, by decide, kept⟩)
        · have same : ¬ (dtls1FixMessageHeader s1 off (len - dtls1HmHeaderLength)).noQueryMtu = true :=
            refuses
          rw [if_neg same]
          cases queried with
          | none => exact inr (inr ⟨-1, _, off, rfl, by decide, kept⟩)
          | some next =>
            rw [query, Bool.not_eq_true] at refuses
            rw [again.2] at wrote
            have zero := first (early next again.1 refuses wrote)
            subst zero
            apply inl
            exact ⟨_, _, rfl, inl ⟨0, { kept with mac := kept.mac }, rfl⟩⟩
      · rw [if_neg again]
        exact inr (inr ⟨-1, _, off, rfl, by decide, kept⟩)

theorem writeOk_idle {ret : Option Int}
    (between : (∃ off, WriteReady m seq s off) ∨ WriteDone m seq s) (other : ret ≠ some 1) :
    WriteOk m seq ⟨s, none, ret⟩ :=
  { inside := by
      intro l is
      nomatch is
    between := fun _ => between
    done := fun one => absurd one other }

theorem writeStep_ok (w : WriteRun) (e : WriteEvent) (ok : WriteOk m seq w)
    (early : NoLateRetry w e) : WriteOk m seq (writeStep w e) := by
  obtain ⟨conn, doing, ret⟩ := w
  cases e with
  | call queried minMtu overhead =>
    cases doing with
    | some l => exact ok
    | none =>
      have fails : (some (-1) : Option Int) ≠ some 1 := by decide
      have between := ok.between rfl
      have moved (mtu : Nat) : (∃ off, WriteReady m seq { conn with mtu := mtu } off) ∨
          WriteDone m seq { conn with mtu := mtu } := by
        rcases between with ⟨off, ready⟩ | done
        · exact .inl ⟨off, { ready with mac := ready.mac }⟩
        · exact .inr { done with mac := done.mac }
      cases queried with
      | none => exact writeOk_idle between fails
      | some mtu =>
        unfold writeStep
        dsimp only
        by_cases small : mtu < minMtu
        · rw [if_pos small]
          exact writeOk_idle (moved mtu) fails
        · rw [if_neg small]
          by_cases wrong : conn.initOff = 0 ∧
              conn.initNum ≠ conn.wMsgHdr.msgLen + dtls1HmHeaderLength
          · rw [if_pos wrong]
            exact writeOk_idle (moved mtu) fails
          · rw [if_neg wrong]
            by_cases nothing : conn.initNum = 0
            · rw [if_pos nothing]
              exact writeOk_idle (moved mtu) (by decide)
            · rw [if_neg nothing]
              rcases moved mtu with ⟨off, ready⟩ | done
              · constructor
                · intro l is
                  cases is
                  exact .inl ⟨off, ready, rfl⟩
                · intro none_
                  nomatch none_
                · intro one
                  nomatch one
              · exact absurd done.num nothing
  | turn t =>
    cases doing with
    | none => exact ok
    | some l =>
      rw [writeStep]
      dsimp only
      rcases dtls1DoWriteTurn_spec t (ok.inside l rfl) (fun mtu => early l mtu rfl) with
        ⟨l', s', is, inside⟩ | ⟨s', is, done⟩ | ⟨code, s', off, is, other, ready⟩
      · rw [is]
        constructor
        · intro l'' same
          cases same
          exact inside
        · intro none_
          nomatch none_
        · intro one
          nomatch (ok.done one).1
      · rw [is]
        constructor
        · intro l'' same
          nomatch same
        · intro _
          exact .inr done
        · intro _
          exact ⟨rfl, done⟩
      · rw [is]
        apply writeOk_idle (.inl ⟨off, ready⟩)
        intro one
        cases one
        exact absurd rfl other

theorem writeStart_ok (start : WriteStart m seq s) : WriteOk m seq ⟨s, none, none⟩ := by
  have ready : WriteReady m seq s 0 :=
    { initOff := start.off
      num := start.num
      header := start.header
      room := start.room
      body := by rw [zero_add, start.body, drop_zero]
      sent := ⟨[], by rw [start.sent]; rfl, rfl, by simp⟩
      mac := by
        intro _ _
        rw [start.mac, if_pos start.sent]
      least := start.least
      place := .inl ⟨rfl, start.sent⟩ }
  exact writeOk_idle (.inl ⟨0, ready⟩) (by decide)

def WrittenWhole (m : HsMessage) (seq : Nat) (w : WriteRun) : Prop :=
  w.ret = some 1 → SentTo m seq w.conn.sent m.body.length ∧
    (w.conn.retransmitting = false → w.conn.badVer = false →
      w.conn.mac = fragmentRecord m ⟨seq, 0, m.body.length⟩)

/-- Fragmentation survives every retry but those in the loop on a later fragment. -/
theorem dtls_written_whole {m : HsMessage} {seq : Nat} {s : DtlsWriter} (start : WriteStart m seq s)
    {events : List WriteEvent} (early : Admissible writeStep NoLateRetry ⟨s, none, none⟩ events) :
    ∀ w ∈ visited writeStep ⟨s, none, none⟩ events, WrittenWhole m seq w := by
  intro w member one
  have ok := visited_invariant writeStep_ok (writeStart_ok start) early w member
  have done := (ok.done one).2
  obtain ⟨type, length, seqs⟩ := done.header
  refine ⟨done.sent, ?_⟩
  intro sends plain
  rw [done.mac sends plain, messageHeader, type, length, seqs]
  simp [fragmentRecord, encodeHeader, HsFragment.header, HsFragment.part]

def thirtyBytes : HsMessage := ⟨1, replicate 30 7, by decide⟩

def thirtyStart : DtlsWriter :=
  { initBuf := replicate 12 0 ++ replicate 30 7
    initOff := 0
    initNum := 42
    wMsgHdr := ⟨1, 30, 0, 0, 30⟩
    mtu := 0
    maxSendFragment := 512
    noQueryMtu := false
    msgCallback := false
    retransmitting := false
    badVer := false
    sent := []
    mac := [] }

def takes : WriteEvent := .turn ⟨0, 1, .all⟩

/- The BIO reports a smaller MTU for the first fragment, and asks for the second one again. -/
def firstTooLong : List WriteEvent :=
  [.call (some 40) 20 0, .turn ⟨0, 1, .failed true (some 30)⟩, takes, .turn ⟨0, 1, .failed false none⟩,
    .call (some 30) 20 0, takes]

theorem thirtyStart_starts : WriteStart thirtyBytes 0 thirtyStart :=
  ⟨rfl, rfl, ⟨rfl, rfl, rfl⟩, rfl, rfl, rfl, rfl, by decide⟩

theorem dtls_written_whole_thirty :
    (run writeStep ⟨thirtyStart, none, none⟩ firstTooLong).ret = some 1 ∧
      ∀ w ∈ visited writeStep ⟨thirtyStart, none, none⟩ firstTooLong,
        WrittenWhole thirtyBytes 0 w := by
  refine ⟨by decide +kernel, dtls_written_whole thirtyStart_starts ?_⟩
  refine ⟨trivial, ?_, ?_, ?_, trivial, ?_, trivial⟩
  · intro l mtu _ _ _ _
    rfl
  · intro l mtu _ _ _ wrote
    nomatch wrote
  · intro l mtu _ _ _ wrote
    nomatch wrote
  · intro l mtu _ _ _ wrote
    nomatch wrote

def secondTooLong : List WriteEvent :=
  [.call (some 30) 20 0, takes, .turn ⟨0, 1, .failed true (some 30)⟩, takes, takes]

/-- The second attempt makes room for a header twice, and sends twelve bytes too many. -/
theorem second_attempt_overlaps :
    (run writeStep ⟨thirtyStart, none, none⟩ secondTooLong).ret = some 1 ∧
      ¬ WrittenWhole thirtyBytes 0 (run writeStep ⟨thirtyStart, none, none⟩ secondTooLong) := by
  have written : (run writeStep ⟨thirtyStart, none, none⟩ secondTooLong).ret = some 1 := by
    decide +kernel
  have lengths : (run writeStep ⟨thirtyStart, none, none⟩ secondTooLong).conn.sent.map
      List.length = [30, 30, 18] := by decide +kernel
  refine ⟨written, ?_⟩
  intro whole
  obtain ⟨⟨frags, is, consecutive, _⟩, _⟩ := whole written
  rw [is, map_map] at lengths
  have three : frags.length = 3 := by simpa using congrArg List.length lengths
  obtain ⟨f, g, h, rfl⟩ := length_eq_three.mp three
  obtain ⟨first, second, third, last⟩ := consecutive
  have body : thirtyBytes.body.length = 30 := rfl
  simp only [map_cons, map_nil, Function.comp_apply, fragmentRecord, length_append,
    encodeHeader_twelve, HsFragment.part, length_take, length_drop, body, List.cons.injEq]
    at lengths
  omega

end Ossl
