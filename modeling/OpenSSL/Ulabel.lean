import OpenSSL.Punycode
import OpenSSL.Wpacket

/- The conversion of a host name to U-labels in crypto/punycode.c. -/
namespace Ossl
open Option Nat List BigEndian Codec RingWindow

def labelDot : UInt8 := 46

def codepoint2utf8 (utf : Nat) : Option (List UInt8) :=
  let low (shift : Nat) : UInt8 := UInt8.ofNat (utf >>> shift &&& 0x3F ||| 0x80)
  if utf ≤ 0x7F then some [UInt8.ofNat utf]
  else if utf ≤ 0x07FF then some [UInt8.ofNat (utf >>> 6 &&& 0x1F ||| 0xC0), low 0]
  else if utf ≤ 0xFFFF then some [UInt8.ofNat (utf >>> 12 &&& 0x0F ||| 0xE0), low 6, low 0]
  else if utf ≤ 0x10FFFF then
    some [UInt8.ofNat (utf >>> 18 &&& 0x07 ||| 0xF0), low 12, low 6, low 0]
  else none

structure LabelState where
  pkt : Wpacket
  result : Int

def labelWrite (w : WpacketM Unit) (s : LabelState) : LabelState :=
  match w.run s.pkt with
  | some (_, pkt) => { s with pkt := pkt }
  | none => { s with result := 0 }

def labelBufSize : Nat := 512

def copyCodepoints : List Nat → LabelState → Except LabelState LabelState
  | [], s => .ok s
  | utf :: buf, s =>
    match codepoint2utf8 utf with
    | none => .error { s with result := -1 }
    | some seed => copyCodepoints buf (labelWrite (wpacketMemcpy seed) s)

def hasAcePrefix (inptr : List UInt8) : Bool := decide (inptr.take 4 = [120, 110, 45, 45])

def copyLabel (inptr : List UInt8) (delta : Nat) (s : LabelState) : Except LabelState LabelState :=
  if hasAcePrefix inptr = false then .ok (labelWrite (wpacketMemcpy (inptr.take delta)) s)
  else
    match Punycode.punycodeDecode ((inptr.drop 4).take (delta - 4))
        (replicate labelBufSize 0) labelBufSize with
    | none => .error { s with result := -1 }
    | some d =>
      if d.ret = false then .error { s with result := -1 }
      else copyCodepoints (d.pDecoded.take d.poutLength) s

def strchr : List UInt8 → UInt8 → Option Nat
  | [], _ => none
  | a :: s, c => if a = c then some 0 else (strchr s c).map (· + 1)

def a2ulabelRounds : Nat → List UInt8 → LabelState → Except LabelState LabelState
  | 0, _, s => .error { s with result := -1 }
  | rounds + 1, inptr, s => do
    let tmpptr := strchr inptr labelDot
    let s ← copyLabel inptr (tmpptr.getD inptr.length) s
    match tmpptr with
    | none => .ok (labelWrite (wpacketPutBytes 0 1) s)
    | some place =>
      a2ulabelRounds rounds (inptr.drop (place + 1)) (labelWrite (wpacketPutBytes labelDot.toNat 1) s)

def a2ulabel (s : List UInt8) (out : Nat → UInt8) (outlen : Nat) : Int × (Nat → UInt8) :=
  match wpacketInitStaticLen true out outlen 0 with
  | none => (-1, out)
  | some pkt =>
    match a2ulabelRounds (s.length + 1) s ⟨pkt, 1⟩ with
    | .error s => (s.result, s.pkt.data)
    | .ok s => (s.result, s.pkt.data)

def NoAceLabel (s : List UInt8) : Prop :=
  ∀ before label, s = before ++ label → (before = [] ∨ before.getLast? = some labelDot) →
    hasAcePrefix label = false

structure StaticWriter (pkt : Wpacket) : Prop where
  ready : WpacketReady pkt
  static : pkt.buf = .staticbuf
  opened : pkt.subs.isEmpty = false

theorem staticFill_runs {pkt : Wpacket} (writer : StaticWriter pkt) (bytes : List UInt8)
    (some_ : bytes.length ≠ 0) (room : pkt.written + bytes.length ≤ pkt.maxsize) :
    ∃ pkt', (wpacketFill bytes.length bytes).run pkt = some (some pkt.written, pkt') ∧
      StaticWriter pkt' ∧ pkt'.maxsize = pkt.maxsize ∧
      wpacketOut pkt' = wpacketOut pkt ++ bytes := by
  have ready := writer.ready
  have size := ready.size
  have enough : ¬ subU64 pkt.maxsize pkt.written < bytes.length := by
    rw [subU64_exact size ready.fits]
    omega
  have reserve : (wpacketReserveBytes bytes.length).run pkt = some (some pkt.written, pkt) := by
    show wpacketReserveBytes bytes.length pkt = _
    rw [wpacketReserveBytes, if_neg (by
      rw [writer.opened, not_or]
      exact ⟨Bool.false_ne_true, some_⟩), if_neg enough, wpacketGrow, writer.static]
    dsimp only
    rw [wpacketGetCurr, writer.static, ready.forward, ready.curr]
    rfl
  have run : (wpacketFill bytes.length bytes).run pkt = some (some pkt.written,
      { pkt with
        written := addU64 pkt.written bytes.length
        curr := addU64 pkt.curr bytes.length
        data := writeCells pkt.data pkt.written bytes }) := by
    rw [wpacketFill, wpacketAllocateBytes, StateT.run_bind, StateT.run_bind, reserve]
    rfl
  obtain ⟨_, ready', out⟩ := fill_emits rfl pkt _ _ ready run
  exact ⟨_, run, ⟨ready', writer.static, writer.opened⟩, rfl, out⟩

structure Wrote (s s' : LabelState) (bytes : List UInt8) : Prop where
  result : s'.result = s.result
  writer : StaticWriter s'.pkt
  maxsize : s'.pkt.maxsize = s.pkt.maxsize
  out : wpacketOut s'.pkt = wpacketOut s.pkt ++ bytes

theorem wrote_trans {s1 s2 s3 : LabelState} {xs ys : List UInt8} (first : Wrote s1 s2 xs)
    (second : Wrote s2 s3 ys) : Wrote s1 s3 (xs ++ ys) := by
  constructor
  · exact second.result.trans first.result
  · exact second.writer
  · exact second.maxsize.trans first.maxsize
  · rw [second.out, first.out, append_assoc]

variable {s : LabelState}

theorem wrote_written {s' : LabelState} {bytes : List UInt8} (wrote : Wrote s s' bytes) :
    s'.pkt.written = s.pkt.written + bytes.length := by
  rw [← out_length, ← out_length, wrote.out, length_append]

theorem memcpy_wrote (writer : StaticWriter s.pkt) (src : List UInt8)
    (room : s.pkt.written + src.length ≤ s.pkt.maxsize) :
    Wrote s (labelWrite (wpacketMemcpy src) s) src := by
  by_cases empty : src.length = 0
  · have run : (wpacketMemcpy src).run s.pkt = some ((), s.pkt) := by
      rw [wpacketMemcpy, if_pos empty]
      rfl
    rw [labelWrite, run, length_eq_zero_iff.mp empty]
    exact ⟨rfl, writer, rfl, (append_nil _).symm⟩
  · obtain ⟨pkt', run, writer', maxsize, out⟩ := staticFill_runs writer src empty room
    have copied : (wpacketMemcpy src).run s.pkt = some ((), pkt') := by
      rw [wpacketMemcpy, if_neg empty, StateT.run_bind, run]
      rfl
    rw [labelWrite, copied]
    exact ⟨rfl, writer', maxsize, out⟩

theorem putByte_wrote (writer : StaticWriter s.pkt) {c : Nat} (byte : c < 256)
    (room : s.pkt.written + 1 ≤ s.pkt.maxsize) :
    Wrote s (labelWrite (wpacketPutBytes c 1) s) [UInt8.ofNat c] := by
  have put : putValue 1 c [] = ([UInt8.ofNat c], 0) := by
    rw [putValue_eq, shiftRight_eq_div_pow, div_eq_of_lt byte]
    rfl
  obtain ⟨pkt', run, writer', maxsize, out⟩ := staticFill_runs writer [UInt8.ofNat c]
    (succ_ne_zero 0) room
  have done : (wpacketPutBytes c 1).run s.pkt = some ((), pkt') := by
    rw [wpacketPutBytes, put, StateT.run_bind]
    show ((wpacketFill 1 [UInt8.ofNat c] >>= fun data =>
      guard (data = none ∨ (0 : Nat) = 0) : WpacketM Unit)).run s.pkt = _
    rw [StateT.run_bind]
    show ((wpacketFill [UInt8.ofNat c].length [UInt8.ofNat c]).run s.pkt >>= _) = _
    rw [run]
    rfl
  rw [labelWrite, done]
  exact ⟨rfl, writer', maxsize, out⟩

theorem strchr_splits {s : List UInt8} {c : UInt8} {place : Nat} (found : strchr s c = some place) :
    place < s.length ∧ s = s.take place ++ c :: s.drop (place + 1) := by
  induction s generalizing place with
  | nil => contradiction
  | cons a s ih =>
    rw [strchr] at found
    by_cases is : a = c
    · rw [if_pos is] at found
      rw [← some.inj found, is]
      exact ⟨succ_pos _, rfl⟩
    · rw [if_neg is, map_eq_some_iff] at found
      obtain ⟨inner, here, next⟩ := found
      obtain ⟨inside, split⟩ := ih here
      rw [← next]
      exact ⟨succ_lt_succ inside, congrArg (a :: ·) split⟩

theorem noAceLabel_rest {front rest : List UInt8} (none_ : NoAceLabel (front ++ labelDot :: rest)) :
    NoAceLabel rest := by
  intro before label split start
  apply none_ (front ++ labelDot :: before) label
  · rw [split, append_assoc, cons_append]
  · apply Or.inr
    cases start with
    | inl empty =>
      rw [empty]
      exact getLast?_concat
    | inr last =>
      rw [getLast?_append_of_ne_nil _ (cons_ne_nil labelDot before), getLast?_cons, last]
      rfl

theorem a2ulabelRounds_copies (rounds : Nat) (inptr : List UInt8) (s : LabelState)
    (enough : inptr.length < rounds) (none_ : NoAceLabel inptr) (writer : StaticWriter s.pkt)
    (room : s.pkt.written + inptr.length + 1 ≤ s.pkt.maxsize) :
    ∃ s', a2ulabelRounds rounds inptr s = .ok s' ∧ Wrote s s' (inptr ++ [0]) := by
  induction rounds generalizing inptr s with
  | zero => exact absurd enough (not_lt_zero _)
  | succ rounds ih =>
    have plain : hasAcePrefix inptr = false := none_ [] inptr rfl (.inl rfl)
    rw [a2ulabelRounds]
    cases found : strchr inptr labelDot with
    | none =>
      have copied := memcpy_wrote writer inptr (by omega)
      have written := wrote_written copied
      have ended := putByte_wrote copied.writer (c := 0) (by decide) (by
        rw [copied.maxsize, written]
        exact room)
      refine ⟨_, ?_, wrote_trans copied ended⟩
      rw [copyLabel, if_pos plain, getD_none, take_length]
      rfl
    | some place =>
      obtain ⟨inside, split⟩ := strchr_splits found
      have size : (inptr.take place).length = place := length_take_of_le (le_of_lt inside)
      have copied := memcpy_wrote writer (inptr.take place) (by omega)
      have written := wrote_written copied
      have dotted := putByte_wrote copied.writer (c := labelDot.toNat) (by decide) (by
        rw [copied.maxsize, written]
        omega)
      have further := wrote_written dotted
      have both := wrote_trans copied dotted
      rw [split] at none_
      obtain ⟨s', run, wrote⟩ := ih (inptr.drop (place + 1)) _ (by
          rw [length_drop]
          omega) (noAceLabel_rest none_) dotted.writer (by
          rw [both.maxsize, further, written, size, length_drop]
          simp only [length_cons, length_nil]
          omega)
      refine ⟨s', ?_, ?_⟩
      · rw [copyLabel, if_pos plain, getD_some]
        exact run
      · have all := wrote_trans both wrote
        have same : inptr.take place ++ [UInt8.ofNat labelDot.toNat] ++
            (inptr.drop (place + 1) ++ [0]) = inptr ++ [0] := by
          conv => rhs; rw [split]
          rw [append_assoc, append_assoc]
          rfl
        rw [same] at all
        exact all

/-- A name without A-labels is copied as it is. -/
theorem a2ulabel_copies {s : List UInt8} (none_ : NoAceLabel s) (out : Nat → UInt8) (outlen : Nat)
    (room : s.length < outlen) (word : outlen < 2 ^ 64) :
    ∃ data, a2ulabel s out outlen = (1, data) ∧ readCells data 0 (s.length + 1) = s ++ [0] := by
  have limit : maxmaxsize 0 = 2 ^ 64 - 1 := rfl
  have init : wpacketInitStaticLen true out outlen 0 =
      some ⟨.staticbuf, out, 0, 0, outlen, [⟨0, 0, 0, 0⟩], false⟩ := by
    rw [wpacketInitStaticLen, if_neg (by omega), if_neg (by omega)]
    rfl
  obtain ⟨ready, empty⟩ := initStaticLen_ready word init
  obtain ⟨s', run, wrote⟩ := a2ulabelRounds_copies (s.length + 1) s
    ⟨⟨.staticbuf, out, 0, 0, outlen, [⟨0, 0, 0, 0⟩], false⟩, 1⟩ (lt_succ_self _) none_
    ⟨ready, rfl, rfl⟩ (by dsimp only; omega)
  refine ⟨s'.pkt.data, ?_, ?_⟩
  · rw [a2ulabel, init]
    dsimp only
    rw [run]
    dsimp only
    rw [wrote.result]
  · have written := wrote_written wrote
    have is := wrote.out
    rw [empty, nil_append, wpacketOut, written] at is
    rw [← is]
    simp

end Ossl
