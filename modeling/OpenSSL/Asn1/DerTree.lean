import OpenSSL.Asn1.DerWriter
import OpenSSL.Asn1.Integer
import Mathlib.Data.Nat.Size

/- Trees of DER values, their encodings and the calls that write them, the last value first. -/
namespace Ossl
open Option Nat List Base128 BigEndian Codec RingWindow UInt8

def derLengthOctets (n : Nat) : List UInt8 :=
  if n ≤ 0x7f then [UInt8.ofNat n]
  else UInt8.ofNat (0x80 + (Nat.digits 256 n).length) :: netBytes (Nat.digits 256 n).length n

def derInteger (v : Nat) : List UInt8 := netBytes (v.size / 8 + 1) v

def derHeader (identifier n : Nat) : List UInt8 := UInt8.ofNat identifier :: derLengthOctets n

def derElement (identifier : Nat) (contents : List UInt8) : List UInt8 :=
  derHeader identifier contents.length ++ contents

def derTagged (tag : Int) (body : List UInt8) : List UInt8 :=
  if tag < 0 then body else derElement (0xA0 + tag.toNat) body

inductive DerPrimitive where
  | boolean (b : Int)
  | uint32 (v : Nat)
  | bn (v : Nat)
  | octetString (data : List UInt8)
  | null
  | precompiled (bytes : List UInt8)

namespace DerPrimitive

def encode : DerPrimitive → List UInt8
  | boolean b => derElement 1 [if b = 0 then 0 else 0xFF]
  | uint32 v | bn v => derElement 2 (derInteger v)
  | octetString data => derElement 4 data
  | null => derElement 5 []
  | precompiled bytes => bytes

def call (tag : Int) : DerPrimitive → WpacketCall
  | boolean b => osslDerWBoolean tag b
  | uint32 v => osslDerWUint32 tag v
  | bn v => osslDerWBn tag (some v)
  | octetString data => osslDerWOctetString tag data
  | null => osslDerWNull tag
  | precompiled bytes => osslDerWPrecompiled tag bytes

def Valid : DerPrimitive → Prop
  | uint32 v => v < 2 ^ 32
  | _ => True

def isBoolean : DerPrimitive → Bool
  | boolean _ => true
  | _ => false

end DerPrimitive

/- Values one after the other, those of a sequence among them. -/
inductive DerForest where
  | none
  | primitive (before : DerForest) (tag : Int) (value : DerPrimitive)
  | sequence (before : DerForest) (tag : Int) (elements : DerForest)

namespace DerForest

def encode : DerForest → List UInt8
  | none => []
  | primitive before tag value => before.encode ++ derTagged tag value.encode
  | sequence before tag elements => before.encode ++ derTagged tag (derElement 0x30 elements.encode)

def calls : DerForest → List WpacketCall
  | none => []
  | primitive before tag value => value.call tag :: before.calls
  | sequence before tag elements =>
    osslDerWBeginSequence tag :: (elements.calls ++ osslDerWEndSequence tag :: before.calls)

def Valid : DerForest → Prop
  | none => True
  | primitive before tag value => tag ≤ 30 ∧ value.Valid ∧ before.Valid
  | sequence before tag elements => tag ≤ 30 ∧ elements.Valid ∧ before.Valid

def hasBoolean : DerForest → Bool
  | none => false
  | primitive before _ value => value.isBoolean || before.hasBoolean
  | sequence before _ elements => elements.hasBoolean || before.hasBoolean

end DerForest

/-- The contents of an integer are its value, and no shorter ones are. -/
theorem derInteger_minimal (v : Nat) :
    Twos.value (derInteger v) = v ∧ Twos.Minimal (derInteger v) := by
  have bound : v < 2 ^ (8 * (v.size / 8) + 7) :=
    (lt_size_self v).trans_le (Nat.pow_le_pow_right (by decide) (by omega))
  have whole : v < 2 ^ (8 * (v.size / 8 + 1)) :=
    bound.trans_le (Nat.pow_le_pow_right (by decide) (by omega))
  have same : netValue (derInteger v) = v := by
    rw [derInteger, netValue_netBytes, mod_eq_of_lt whole]
  have plain : Twos.value (derInteger v) = v := by
    have sign : Twos.negative (derInteger v) = false := by
      apply decide_eq_false
      intro high
      have := (Twos.first_le _ (netBytes (v.size / 8) v) _).mp high
      rw [netBytes_length] at this
      have value : netValue (ofNat (v >>> (8 * (v.size / 8))) :: netBytes (v.size / 8) v) = v :=
        same
      rw [value, show 128 = 2 ^ 7 from rfl, ← pow_add, add_comm] at this
      omega
    rw [Twos.value, same, sign]
    simp
  refine ⟨plain, ?_⟩
  rw [derInteger] at plain ⊢
  cases count : v.size / 8 with
  | zero => trivial
  | succ k =>
    rw [count] at plain
    apply (Twos.minimal_iff _ _ _).mpr
    right
    rw [netBytes_length]
    have least : 2 ^ (8 * k + 7) ≤ v := lt_size.mp (by omega)
    rw [pow_add, mul_comm] at least
    have value : Twos.value (ofNat (v >>> (8 * (k + 1))) :: ofNat (v >>> (8 * k)) ::
        netBytes k v) = v := plain
    rw [value]
    exact_mod_cast least

variable {k n : Nat} {forest : DerForest}

theorem derLengthOctets_minimal (long : 0x7f < n) : netValue (derLengthOctets n).tail = n ∧
      ∀ octets : List UInt8, netValue octets = n → (derLengthOctets n).length ≤ 1 + octets.length := by
  have fits : n < 256 ^ (digits 256 n).length := lt_base_pow_length_digits (by decide)
  rw [derLengthOctets, if_neg (by omega), tail_cons, length_cons, netBytes_length,
    netValue_netBytes, pow_mul]
  refine ⟨mod_eq_of_lt fits, ?_⟩
  intro octets value
  have bound := netValue_lt octets
  rw [value, pow_mul] at bound
  have fewer : (digits 256 n).length ≤ octets.length :=
    (digits_length_le_iff (by decide) n).mpr bound
  omega

/-- A writer that has put out its bytes from the end of the buffer on, and nothing before. -/
structure DerWriting (len : Nat) (data : Nat → UInt8) (pkt : Wpacket) (out : List UInt8) :
    Prop where
  endfirst : pkt.endfirst = true
  buf : pkt.buf = .staticbuf
  curr : pkt.curr = pkt.written
  written : pkt.written = out.length
  maxsize : pkt.maxsize = len
  fits : out.length ≤ len
  size : len < 2 ^ 64
  stack : pkt.subs ≠ []
  put : readCells pkt.data (len - out.length) out.length = out
  before : ∀ i < len - out.length, pkt.data i = data i

/-- From this state on, a call puts the bytes in front if there is room, and fails if not. -/
def DerGoes (len : Nat) (data : Nat → UInt8) (pkt : Wpacket) (out : List UInt8)
    (call : WpacketCall) (bytes : List UInt8) (subs : List WpacketSub) : Prop :=
  (out.length + bytes.length ≤ len →
    (call pkt).1 = true ∧ DerWriting len data (call pkt).2 (bytes ++ out) ∧
      (call pkt).2.subs = subs) ∧
  (len < out.length + bytes.length →
    (call pkt).1 = false ∧ ∃ left, DerWriting len data (call pkt).2 left)

/-- A call that puts bytes in front from any state. -/
def DerPuts (call : WpacketCall) (bytes : List UInt8) : Prop :=
  ∀ len data pkt out, DerWriting len data pkt out → DerGoes len data pkt out call bytes pkt.subs

theorem readCells_front (mem : Nat → UInt8) (p m : Nat) (bytes : List UInt8) :
    readCells (writeCells mem p bytes) p (bytes.length + m) =
      bytes ++ readCells mem (p + bytes.length) m := by
  apply ext_getElem
  · simp
  · intro i first second
    simp only [readCells, getElem_map, getElem_range, writeCells]
    rw [if_pos (by omega), Nat.add_sub_cancel_left]
    by_cases inside : i < bytes.length
    · rw [getElem_append_left inside, getD_eq_getElem?_getD,
        getElem?_eq_getElem inside, getD_some]
    · rw [getElem_append_right (by omega), getD_eq_getElem?_getD,
        getElem?_eq_none (by omega), getD_none, getElem_map, getElem_range]
      congr 1
      omega

variable {identifier len v : Nat} {pkt : Wpacket} {body out : List UInt8} {tag : Int}

theorem fill_backward {data : Nat → UInt8} (writing : DerWriting len data pkt out)
    {bytes : List UInt8} (whole : bytes.length = n) (some_ : n ≠ 0) :
    (out.length + n ≤ len → ∃ pkt', (wpacketFill n bytes).run pkt =
        some (some (len - out.length - n), pkt') ∧
      DerWriting len data pkt' (bytes ++ out) ∧ pkt'.subs = pkt.subs) ∧
    (len < out.length + n → (wpacketFill n bytes).run pkt = none) := by
  have fits := writing.fits
  have size := writing.size
  have room : subU64 pkt.maxsize pkt.written = len - out.length := by
    rw [writing.maxsize, writing.written]
    exact subU64_exact size fits
  have stacked : ¬ (pkt.subs.isEmpty = true ∨ n = 0) := by
    have := writing.stack
    simp only [List.isEmpty_iff]
    tauto
  constructor
  · intro enough
    have grow : wpacketGrow pkt n = some pkt := by
      rw [wpacketGrow, writing.buf]
    have here : wpacketGetCurr pkt = some (len - out.length) := by
      simp only [wpacketGetCurr, writing.buf, writing.endfirst, if_true, writing.maxsize,
        writing.curr, writing.written]
    have reserve : (wpacketReserveBytes n).run pkt = some (some (len - out.length - n), pkt) := by
      rw [StateT.run, wpacketReserveBytes, if_neg stacked, if_neg (by omega), grow]
      dsimp only
      rw [here, map_some, if_pos writing.endfirst]
    have sum : addU64 pkt.written n = out.length + n := by
      rw [writing.written]
      exact addU64_exact (by omega)
    refine ⟨_, runs_seq (runs_seq reserve rfl) rfl, ?_, rfl⟩
    have longer : (bytes ++ out).length = out.length + n := by
      rw [length_append, whole]
      omega
    refine ⟨writing.endfirst, writing.buf, ?_, ?_, writing.maxsize, by omega, size, writing.stack,
      ?_, ?_⟩
    · simp only [writing.curr]
    · simp only [sum, longer]
    · have place : len - (bytes ++ out).length = len - out.length - n := by omega
      have total : (bytes ++ out).length = bytes.length + out.length := length_append
      have after : len - out.length - n + bytes.length = len - out.length := by omega
      rw [place, total]
      rw [readCells_front, after, writing.put]
    · intro i below
      show writeCells pkt.data (len - out.length - n) bytes i = data i
      rw [writeCells, if_neg (by omega)]
      exact writing.before i (by omega)
  · intro less
    have refused : (wpacketReserveBytes n).run pkt = none := by
      rw [StateT.run, wpacketReserveBytes, if_neg stacked, if_pos (by omega)]
    exact fails_first (fails_first refused)

theorem allOf_append (xs ys : List WpacketCall) (pkt : Wpacket) :
    allOf (xs ++ ys) pkt =
      if (allOf xs pkt).1 then allOf ys (allOf xs pkt).2 else (false, (allOf xs pkt).2) := by
  induction xs generalizing pkt with
  | nil => rfl
  | cons call xs ih =>
    rw [cons_append, allOf, allOf, ih]
    by_cases done : (call pkt).1
    · rw [if_pos done, if_pos done]
    · rw [if_neg done, if_neg done, if_neg (by simp)]

theorem allOf_one (call : WpacketCall) (pkt : Wpacket) : allOf [call] pkt = call pkt := by
  rw [allOf, allOf]
  split_ifs with done
  · exact Prod.ext done.symm rfl
  · exact Prod.ext (Bool.eq_false_iff.mpr done).symm rfl

theorem allOf_flat (xs ys : List WpacketCall) (pkt : Wpacket) :
    allOf (allOf xs :: ys) pkt = allOf (xs ++ ys) pkt := by
  rw [allOf_append, allOf]

section
variable {len : Nat} {data : Nat → UInt8} {pkt : Wpacket} {out : List UInt8}

variable {parents subs : List WpacketSub} {n : Nat}

theorem goes_congr {call call' : WpacketCall} {bytes : List UInt8} (same : call pkt = call' pkt)
    (goes : DerGoes len data pkt out call bytes subs) :
    DerGoes len data pkt out call' bytes subs := by
  unfold DerGoes at *
  rwa [← same]

theorem goes_nothing {call : WpacketCall} (writing : DerWriting len data pkt out)
    (same : call pkt = (true, pkt)) : DerGoes len data pkt out call [] pkt.subs := by
  constructor
  · intro _
    rw [same]
    exact ⟨rfl, writing, rfl⟩
  · intro less
    have := writing.fits
    simp only [length_nil] at less
    omega

variable {first second : List UInt8} {subs' : List WpacketSub} {k val : Nat} {sub : WpacketSub}

theorem goes_append {xs ys : List WpacketCall}
    (goes : DerGoes len data pkt out (allOf xs) first subs)
    (later : ∀ mid, DerWriting len data mid (first ++ out) → mid.subs = subs →
      DerGoes len data mid (first ++ out) (allOf ys) second subs') :
    DerGoes len data pkt out (allOf (xs ++ ys)) (second ++ first) subs' := by
  unfold DerGoes at *
  simp only [allOf_append, length_append] at *
  constructor
  · intro room
    obtain ⟨done, writing, stack⟩ := goes.1 (by omega)
    obtain ⟨done', writing', stack'⟩ := (later _ writing stack).1 (by omega)
    rw [if_pos done, append_assoc]
    exact ⟨done', writing', stack'⟩
  · intro less
    by_cases room : out.length + first.length ≤ len
    · obtain ⟨done, writing, stack⟩ := goes.1 room
      rw [if_pos done]
      exact (later _ writing stack).2 (by omega)
    · obtain ⟨failed, left, writing⟩ := goes.2 (by omega)
      rw [if_neg (by simp [failed])]
      exact ⟨rfl, left, writing⟩

theorem goes_cons {call : WpacketCall} {calls : List WpacketCall}
    (goes : DerGoes len data pkt out call first subs)
    (later : ∀ mid, DerWriting len data mid (first ++ out) → mid.subs = subs →
      DerGoes len data mid (first ++ out) (allOf calls) second subs') :
    DerGoes len data pkt out (allOf (call :: calls)) (second ++ first) subs' :=
  goes_append (goes_congr (allOf_one call pkt).symm goes) later

theorem fill_goes {w : WpacketM Unit} {bytes : List UInt8} (writing : DerWriting len data pkt out)
    (whole : bytes.length = n) (some_ : n ≠ 0)
    (runs : ∀ dest pkt', (wpacketFill n bytes).run pkt = some (dest, pkt') →
      w.run pkt = some ((), pkt'))
    (fails : (wpacketFill n bytes).run pkt = none → w.run pkt = none) :
    DerGoes len data pkt out (callOf w) bytes pkt.subs := by
  obtain ⟨room, full⟩ := fill_backward writing whole some_
  rw [← whole] at room full
  constructor
  · intro enough
    obtain ⟨pkt', run, writing', stack⟩ := room enough
    rw [callOf, runs _ _ (whole ▸ run)]
    exact ⟨rfl, writing', stack⟩
  · intro less
    rw [callOf, fails (whole ▸ full less)]
    exact ⟨rfl, out, writing⟩

theorem putBytes_goes {size : Nat} (writing : DerWriting len data pkt out)
    (small : val < 2 ^ (8 * size)) (bounds : 1 ≤ size ∧ size ≤ 8) :
    DerGoes len data pkt out (callOf (wpacketPutBytes val size)) (netBytes size val) pkt.subs := by
  have whole : val >>> (8 * size) = 0 := by
    rw [shiftRight_eq_div_pow]
    exact div_eq_of_lt small
  have put : wpacketPutBytes val size = (guard (size ≤ 8) >>= fun _ =>
      wpacketFill size (netBytes size val) >>= fun dest => guard (dest = none ∨ 0 = 0)) := by
    rw [wpacketPutBytes, putValue_eq, append_nil, whole]
  apply fill_goes writing (netBytes_length size val) (by omega)
  · intro dest pkt' run
    rw [put]
    exact runs_seq (guard_runs bounds.2 pkt) (runs_seq run (guard_runs (.inr rfl) pkt'))
  · intro run
    rw [put]
    exact fails_later (guard_runs bounds.2 pkt) (fails_first run)

theorem putU8_goes (writing : DerWriting len data pkt out) (small : val < 256) :
    DerGoes len data pkt out (putBytesU8 val) [ofNat val] pkt.subs :=
  putBytes_goes writing small (by decide)

theorem start_goes (writing : DerWriting len data pkt out) :
    DerGoes len data pkt out startSubPacket [] (⟨0, 0, out.length, 0⟩ :: pkt.subs) := by
  have fits := writing.fits
  have size := writing.size
  have run : (wpacketStartSubPacketLen true 0).run pkt =
      some ((), { pkt with subs := ⟨0, 0, out.length, 0⟩ :: pkt.subs }) := by
    have sum : addU64 pkt.written 0 = out.length := by
      rw [writing.written]
      exact addU64_exact (by omega)
    rw [StateT.run, wpacketStartSubPacketLen, if_neg writing.stack, if_neg (by simp),
      if_neg (by simp), sum]
    rfl
  constructor
  · intro _
    rw [startSubPacket, callOf, run]
    exact ⟨rfl, { writing with fits := fits, size := size, stack := cons_ne_nil _ _ }, rfl⟩
  · intro less
    simp only [length_nil] at less
    omega

theorem lengthOctets_count (bound : n < 2 ^ 64) :
    1 + shiftCount 8 sizeBits (n >>> 8) = max 1 (digits 256 n).length ∧
      (digits 256 n).length ≤ 8 ∧ n < 2 ^ (8 * (digits 256 n).length) := by
  have shifted : n >>> 8 = n / 256 := shiftRight_eq_div_pow n 8
  have small : n >>> 8 < 2 ^ sizeBits := by
    rw [shifted]
    exact lt_of_le_of_lt (div_le_self _ _) bound
  refine ⟨?_, (digits_length_le_iff (by decide) _).mpr bound, ?_⟩
  · rw [shiftCount_eq (by decide) small, shifted]
    by_cases pos : 0 < n
    · rw [digits_def' (by decide : 1 < 256) pos, length_cons]
      show 1 + (digits 256 (n / 256)).length = _
      omega
    · obtain rfl : n = 0 := by omega
      rfl
  · rw [pow_mul]
    exact lt_base_pow_length_digits (by decide)

theorem lengthOctets_put (count : k = max 1 (digits 256 n).length)
    (small : (digits 256 n).length ≤ 8) :
    (if 0x7f < n then [ofNat (k ||| 0x80)] else []) ++ netBytes k n = derLengthOctets n := by
  rw [derLengthOctets]
  by_cases long : 0x7f < n
  · rw [if_pos long, if_neg (by omega)]
    have some : 0 < (digits 256 n).length := by
      apply length_pos_iff.mpr
      apply digits_ne_nil_iff_ne_zero.mpr
      omega
    have same : k = (digits 256 n).length := by omega
    have low : k < 2 ^ 7 := by omega
    have tagged : k ||| 0x80 = 0x80 + k := by
      rw [lor_comm]
      exact shifted_or low 1
    rw [tagged, same]
    rfl
  · rw [if_neg long, if_pos (by omega)]
    have one : (digits 256 n).length ≤ 1 := (digits_length_le_iff (by decide) _).mpr (by omega)
    obtain rfl : k = 1 := by omega
    rfl

variable {parent : WpacketSub}

theorem close_backward (endfirst : pkt.endfirst = true)
    (subs : pkt.subs = sub :: parent :: parents) (plain : sub.lenbytes = 0 ∧ sub.flags = 0)
    (packlen : subU64 pkt.written sub.pwritten = n) :
    wpacketClose.run pkt = ((wpacketPutDerLength n).run pkt).map
      fun r => ((), { r.2 with subs := parent :: parents }) := by
  have intern : wpacketClose.run pkt =
      (wpacketInternClose sub (parent :: parents) true).run pkt := by
    rw [StateT.run, wpacketClose, subs]
  have total : wpacketGetTotalWritten.run pkt = some (pkt.written, pkt) := rfl
  have none_ : sub.flags &&& wpacketFlagsAbandonOnZeroLength = 0 := by rw [plain.2]; rfl
  have allowed : subU64 pkt.written sub.pwritten ≠ 0 ∨
      sub.flags &&& wpacketFlagsNonZeroLength = 0 := .inr (by rw [plain.2]; rfl)
  have kept : (wpacketAbandon sub (subU64 pkt.written sub.pwritten) true).run pkt =
      some (sub, pkt) := by
    rw [StateT.run, wpacketAbandon, if_neg (by simp [none_])]
  have length : (wpacketWriteLength sub (parent :: parents)
      (subU64 pkt.written sub.pwritten)).run pkt = (wpacketPutDerLength n).run pkt := by
    rw [StateT.run, wpacketWriteLength, plain.1, if_neg (lt_irrefl 0),
      if_pos ⟨endfirst, cons_ne_nil _ _, .inr none_⟩, packlen]
  rw [intern]
  cases put : (wpacketPutDerLength n).run pkt with
  | none =>
    exact fails_later total (fails_later (guard_runs allowed pkt) (fails_later kept
      (fails_first (length.trans put))))
  | some r =>
    exact runs_seq total (runs_seq (guard_runs allowed pkt) (runs_seq kept
      (runs_seq (length.trans put) rfl)))

def popTo (subs : List WpacketSub) : WpacketCall := fun pkt => (true, { pkt with subs := subs })

theorem closeCall_eq (endfirst : pkt.endfirst = true)
    (subs : pkt.subs = sub :: parent :: parents) (plain : sub.lenbytes = 0 ∧ sub.flags = 0)
    (packlen : subU64 pkt.written sub.pwritten = n)
    (count : 1 + shiftCount 8 sizeBits (n >>> 8) = k) :
    closeCall pkt = allOf [callOf (wpacketPutBytes n k),
      orElse (decide (n ≤ 0x7f)) (putBytesU8 (k ||| 0x80)), popTo (parent :: parents)] pkt := by
  have left : wpacketCloseLeft pkt = (callOf (wpacketPutBytes n k) pkt).2 := by
    rw [wpacketCloseLeft, subs]
    dsimp only
    rw [packlen, count, if_neg (by rw [plain.2]; simp)]
  have unfolded : wpacketPutDerLength n = (wpacketPutBytes n k >>= fun _ =>
      if 0x7f < n then wpacketPutBytes (k ||| 0x80) 1 else pure ()) := by
    rw [wpacketPutDerLength, count]
  rw [closeCall, close_backward endfirst subs plain packlen, left, unfolded]
  cases first : (wpacketPutBytes n k).run pkt with
  | none =>
    have called : callOf (wpacketPutBytes n k) pkt = (false, pkt) := by rw [callOf, first]
    rw [fails_first first, allOf, called]
    rfl
  | some r =>
    obtain ⟨_, mid⟩ := r
    have called : callOf (wpacketPutBytes n k) pkt = (true, mid) := by rw [callOf, first]
    rw [allOf, called, if_pos rfl, allOf]
    by_cases long : 0x7f < n
    · have test : decide (n ≤ 0x7f) = false := decide_eq_false (by omega)
      simp only [if_pos long, test, orElse, putBytesU8, callOf]
      cases second : (wpacketPutBytes (k ||| 0x80) 1).run mid with
      | none =>
        rw [fails_later first second]
        rfl
      | some r =>
        rw [runs_seq first second]
        rfl
    · have test : decide (n ≤ 0x7f) = true := decide_eq_true (by omega)
      have nothing : (pure () : WpacketM Unit).run mid = some ((), mid) := rfl
      simp only [if_neg long, test, orElse]
      rw [runs_seq first nothing]
      rfl

theorem pop_goes (writing : DerWriting len data pkt out) :
    DerGoes len data pkt out (popTo (parent :: parents)) [] (parent :: parents) := by
  constructor
  · intro _
    exact ⟨rfl, { writing with stack := cons_ne_nil _ _ }, rfl⟩
  · intro less
    have := writing.fits
    simp only [length_nil] at less
    omega

theorem close_goes {body outer : List UInt8}
    (writing : DerWriting len data pkt (body ++ outer))
    (subs : pkt.subs = ⟨0, 0, outer.length, 0⟩ :: parent :: parents) :
    DerGoes len data pkt (body ++ outer) closeCall (derLengthOctets body.length)
      (parent :: parents) := by
  have fits := writing.fits
  have size := writing.size
  have total : (body ++ outer).length = body.length + outer.length := length_append
  have packlen : subU64 pkt.written outer.length = body.length := by
    rw [writing.written, subU64_exact (by omega) (by omega)]
    omega
  obtain ⟨count, eight, small⟩ := lengthOctets_count (n := body.length) (by omega)
  rw [← lengthOctets_put rfl eight]
  apply goes_congr (closeCall_eq writing.endfirst subs ⟨rfl, rfl⟩ packlen count).symm
  have wide : body.length < 2 ^ (8 * max 1 (digits 256 body.length).length) :=
    small.trans_le (Nat.pow_le_pow_right (by decide) (by omega))
  have bounds : 1 ≤ max 1 (digits 256 body.length).length ∧
      max 1 (digits 256 body.length).length ≤ 8 := by omega
  generalize max 1 (digits 256 body.length).length = k at wide bounds
  apply goes_cons (putBytes_goes writing wide bounds)
  intro mid writing1 stack1
  have pop : ∀ mid out, DerWriting len data mid out →
      DerGoes len data mid out (allOf [popTo (parent :: parents)]) [] (parent :: parents) :=
    fun mid out writing => goes_congr (allOf_one _ mid).symm (pop_goes writing)
  by_cases long : 0x7f < body.length
  · rw [if_pos long, ← nil_append [ofNat (k ||| 0x80)]]
    have call : orElse (decide (body.length ≤ 0x7f)) (putBytesU8 (k ||| 0x80)) mid =
        putBytesU8 (k ||| 0x80) mid := by
      rw [orElse, decide_eq_false (by omega), if_neg Bool.false_ne_true]
    have tagged : k ||| 0x80 < 2 ^ 8 := or_lt_two_pow (by omega) (by decide)
    apply goes_cons (goes_congr call.symm (putU8_goes writing1 tagged))
    intro mid' writing2 _
    exact pop mid' _ writing2
  · rw [if_neg long, ← nil_append ([] : List UInt8)]
    have call : orElse (decide (body.length ≤ 0x7f)) (putBytesU8 (k ||| 0x80)) mid = (true, mid) := by
      rw [orElse, decide_eq_true (by omega), if_pos rfl]
    apply goes_cons (goes_nothing writing1 call)
    intro mid' writing2 _
    exact pop mid' _ writing2

end

/-- What closes a sub-packet: the length of its body and an identifier come in front. -/
def DerCloses (identifier : Nat) (closer : WpacketCall) : Prop :=
  ∀ len data pkt body outer parent parents, DerWriting len data pkt (body ++ outer) →
    pkt.subs = ⟨0, 0, outer.length, 0⟩ :: parent :: parents →
    DerGoes len data pkt (body ++ outer) closer (derHeader identifier body.length)
      (parent :: parents)

theorem closes_plain (small : identifier < 256) :
    DerCloses identifier (allOf [closeCall, putBytesU8 identifier]) := by
  intro len data pkt body outer parent parents writing subs
  show DerGoes len data pkt _ _ ([ofNat identifier] ++ derLengthOctets body.length) _
  apply goes_cons (close_goes writing subs)
  intro mid writing' stack
  rw [← stack]
  exact goes_congr (allOf_one _ mid).symm (putU8_goes writing' small)

/-- A close that looks at the sizes finds that it has written something. -/
theorem closes_sized (small : identifier < 256) {next : Nat → Nat → WpacketCall}
    (differ : ∀ size1 size2, size1 ≠ size2 → next size1 size2 = putBytesU8 identifier) :
    DerCloses identifier (allOf [closeSized next]) := by
  intro len data pkt body outer parent parents writing subs
  apply goes_congr _ (closes_plain small len data pkt body outer parent parents writing subs)
  have closing := close_goes writing subs
  rw [allOf_one, closeSized, allOf]
  by_cases room : (body ++ outer).length + (derLengthOctets body.length).length ≤ len
  · obtain ⟨done, writing', _⟩ := closing.1 room
    have some : 0 < (derLengthOctets body.length).length := by
      rw [derLengthOctets]
      split_ifs <;> simp
    have grown := writing'.written
    rw [length_append] at grown
    rw [if_pos done, if_pos done, allOf_one, differ _ _ (by rw [writing.written, grown]; omega)]
  · obtain ⟨failed, _⟩ := closing.2 (by omega)
    rw [failed]
    rfl

theorem element_puts (inner closers : List WpacketCall) (inside : DerPuts (allOf inner) body)
    (closes : DerCloses identifier (allOf closers)) :
    DerPuts (allOf (startSubPacket :: (inner ++ closers))) (derElement identifier body) := by
  intro len data pkt out writing
  rw [← append_nil (derElement identifier body)]
  apply goes_cons (start_goes writing)
  intro opened writing1 stack1
  apply goes_append (inside len data opened _ writing1)
  intro filled writing2 stack2
  rw [stack1] at stack2
  cases parents : pkt.subs with
  | nil => exact absurd parents writing.stack
  | cons parent rest =>
    rw [parents] at stack2
    exact closes len data filled body out parent rest writing2 stack2

theorem context_identifier (low : tag ≤ 30) :
    tag.toNat ||| (derFConstructed ||| derCContext) = 0xA0 + tag.toNat := by
  rw [lor_comm]
  exact shifted_or (i := 5) (by omega) 5

theorem context_puts (inner : List WpacketCall) (low : tag ≤ 30)
    (inside : DerPuts (allOf inner) body) :
    DerPuts (allOf (intStartContext tag :: (inner ++ [intEndContext tag]))) (derTagged tag body) := by
  by_cases without : tag < 0
  · intro len data pkt out writing
    rw [derTagged, if_pos without, ← append_nil body]
    apply goes_cons (goes_nothing writing (by rw [intStartContext, if_pos without]))
    intro mid writing1 stack1
    rw [← nil_append body]
    apply goes_append (inside len data mid _ writing1)
    intro final writing2 stack2
    rw [← stack1, ← stack2]
    apply goes_nothing writing2
    rw [allOf_one, intEndContext, if_pos without]
  · have start : intStartContext tag = startSubPacket := by
      funext pkt
      rw [intStartContext, if_neg without, if_neg (by omega)]
    have stop : intEndContext tag = closeSized (fun size1 size2 => orElse (size1 == size2)
        (putBytesU8 (tag.toNat ||| (derFConstructed ||| derCContext)))) := by
      funext pkt
      rw [intEndContext, if_neg without, if_neg (by omega)]
    rw [derTagged, if_neg without, start, stop, context_identifier low]
    apply element_puts inner _ inside
    apply closes_sized (by omega)
    intro size1 size2 differ
    funext pkt
    rw [orElse, if_neg (by simpa using differ)]

theorem memcpy_puts (bytes : List UInt8) : DerPuts (callOf (wpacketMemcpy bytes)) bytes := by
  intro len data pkt out writing
  by_cases empty : bytes.length = 0
  · obtain rfl := length_eq_zero_iff.mp empty
    exact goes_nothing writing rfl
  · apply fill_goes writing rfl empty
    · intro dest pkt' run
      rw [wpacketMemcpy, if_neg empty]
      exact runs_seq run rfl
    · intro run
      rw [wpacketMemcpy, if_neg empty]
      exact fails_first run

theorem one_puts {call : WpacketCall} {bytes : List UInt8} (puts : DerPuts call bytes) :
    DerPuts (allOf [call]) bytes := fun len data pkt out writing =>
  goes_congr (allOf_one call pkt).symm (puts len data pkt out writing)

theorem nothing_puts : DerPuts (allOf []) [] := fun _ _ _ _ writing => goes_nothing writing rfl

theorem topByteRounds_eq (fuel tmp n topByte : Nat) (bound : tmp < 2 ^ (8 * fuel)) :
    topByteRounds fuel tmp n topByte = (n + (Nat.digits 256 tmp).length,
      if tmp = 0 then topByte else (tmp >>> (8 * ((Nat.digits 256 tmp).length - 1))) &&& 0xFF) := by
  induction fuel generalizing tmp n topByte with
  | zero =>
    obtain rfl : tmp = 0 := by omega
    simp [topByteRounds]
  | succ fuel ih =>
    have shifted : tmp >>> 8 = tmp / 256 := shiftRight_eq_div_pow tmp 8
    rw [topByteRounds]
    by_cases zero : tmp = 0
    · simp [zero]
    · have smaller : tmp / 256 < 2 ^ (8 * fuel) := by
        apply Nat.div_lt_of_lt_mul
        rw [mul_succ, pow_add] at bound
        omega
      have digits : (Nat.digits 256 tmp).length = (Nat.digits 256 (tmp / 256)).length + 1 := by
        rw [digits_def' (by decide) (by omega), length_cons]
      rw [if_pos zero, shifted, ih _ _ _ smaller, digits, if_neg zero]
      refine Prod.ext (by simp only; omega) ?_
      by_cases last : tmp / 256 = 0
      · rw [if_pos last, last]
        rfl
      · have more : 0 < (Nat.digits 256 (tmp / 256)).length := by
          apply length_pos_iff.mpr
          exact digits_ne_nil_iff_ne_zero.mpr last
        have place : 8 + 8 * ((Nat.digits 256 (tmp / 256)).length - 1) =
            8 * ((Nat.digits 256 (tmp / 256)).length + 1 - 1) := by omega
        rw [if_neg last, ← place, shiftRight_add, shifted]

theorem top_flag {top : Nat} (byte : top < 256) : top &&& 0x80 = 0 ↔ top < 128 := by
  have := top_bit (ofNat top)
  rw [toNat_ofNat', mod_eq_of_lt byte] at this
  omega

/-- A sign octet goes in front of a number that fills its octets. -/
theorem integer_contents (some : 1 ≤ k) (fits : v < 2 ^ (8 * k))
    (fills : k = 1 ∨ 2 ^ (8 * (k - 1)) ≤ v) :
    (if ((v >>> (8 * (k - 1))) &&& 0xFF) &&& 0x80 = 0 then [] else [0]) ++ netBytes k v =
      derInteger v := by
  have split : 2 ^ (8 * k) = 256 * 2 ^ (8 * (k - 1)) := by
    rw [show 8 * k = 8 + 8 * (k - 1) by omega, Nat.pow_add]
  have top : (v >>> (8 * (k - 1))) &&& 0xFF = v / 2 ^ (8 * (k - 1)) := by
    rw [shiftRight_eq_div_pow, show (0xFF : Nat) = 2 ^ 8 - 1 from rfl, and_two_pow_sub_one_eq_mod]
    exact mod_eq_of_lt (Nat.div_lt_of_lt_mul (by omega))
  have byte : v / 2 ^ (8 * (k - 1)) < 256 := Nat.div_lt_of_lt_mul (by omega)
  have most : v.size ≤ 8 * k := size_le.mpr fits
  have half : 2 ^ (8 * k - 1) = 128 * 2 ^ (8 * (k - 1)) := by
    rw [show 8 * k - 1 = 7 + 8 * (k - 1) by omega, Nat.pow_add]
  rw [top, derInteger]
  by_cases high : v / 2 ^ (8 * (k - 1)) < 128
  · rw [if_pos ((top_flag byte).mpr high), nil_append]
    have less : v.size ≤ 8 * k - 1 := by
      apply size_le.mpr
      rw [half]
      exact (Nat.div_lt_iff_lt_mul (Nat.two_pow_pos (8 * (k - 1)))).mp high
    have least : 8 * (k - 1) ≤ v.size := by
      cases fills with
      | inl one => omega
      | inr fills => exact (lt_size.mpr fills).le
    congr 1
    omega
  · rw [if_neg (fun clear => high ((top_flag byte).mp clear))]
    have more : 8 * k - 1 < v.size := by
      apply lt_size.mpr
      rw [half]
      exact (Nat.le_div_iff_mul_le (Nat.two_pow_pos _)).mp (Nat.le_of_not_lt high)
    have whole : v.size / 8 + 1 = k + 1 := by omega
    rw [whole, netBytes, shiftRight_eq_div_pow, div_eq_of_lt fits]
    rfl

theorem integer_puts (low : tag ≤ 30) {put : WpacketCall × Nat}
    (puts : DerPuts put.1 (netBytes k v)) (some : 1 ≤ k) (fits : v < 2 ^ (8 * k))
    (fills : k = 1 ∨ 2 ^ (8 * (k - 1)) ≤ v) (top : put.2 = (v >>> (8 * (k - 1))) &&& 0xFF) :
    DerPuts (intDerWInteger tag put) (derTagged tag (derElement 2 (derInteger v))) := by
  have sign : DerPuts (allOf [put.1, orElse (put.2 &&& 0x80 == 0) (putBytesU8 0)])
      (derInteger v) := by
    intro len data pkt out writing
    rw [← integer_contents some fits fills, ← top]
    apply goes_cons (puts len data pkt out writing)
    intro mid writing' stack
    rw [← stack]
    apply goes_congr (allOf_one _ mid).symm
    by_cases clear : put.2 &&& 0x80 = 0
    · rw [if_pos clear]
      apply goes_nothing writing'
      rw [orElse, if_pos (by simpa using clear)]
    · rw [if_neg clear]
      apply goes_congr _ (putU8_goes writing' (by decide))
      rw [orElse, if_neg (by simpa using clear)]
  exact context_puts _ low (element_puts [put.1, _] [closeCall, putBytesU8 derPInteger] sign
    (closes_plain (by decide)))

theorem uint32_puts (low : tag ≤ 30) (bound : v < 2 ^ 32) :
    DerPuts (osslDerWUint32 tag v) (derTagged tag (derElement 2 (derInteger v))) := by
  have rounds := topByteRounds_eq uint32Bytes v 0 0 bound
  have four : (digits 256 v).length ≤ 4 := (digits_length_le_iff (by decide) _).mpr bound
  have fits : v < 256 ^ (digits 256 v).length := lt_base_pow_length_digits (by decide)
  rw [zero_add] at rounds
  by_cases zero : v = 0
  · subst zero
    have puts : DerPuts (intPutBytesUint32 0).1 (netBytes 1 0) :=
      fun len data pkt out writing => putBytes_goes writing (by decide) (by decide)
    exact integer_puts low puts (by decide) (by decide) (.inl rfl) rfl
  · have some : 0 < (digits 256 v).length := by
      apply length_pos_iff.mpr
      exact digits_ne_nil_iff_ne_zero.mpr zero
    have least : 256 ^ ((digits 256 v).length - 1) ≤ v := by
      have above := base_pow_length_digits_le 256 v (by decide) zero
      obtain ⟨k, counted⟩ := exists_eq_succ_of_ne_zero some.ne'
      rw [counted, pow_succ, mul_comm] at above
      rw [counted]
      exact le_of_mul_le_mul_left above (by decide)
    have count : (if (topByteRounds uint32Bytes v 0 0).1 = 0 then 1
        else (topByteRounds uint32Bytes v 0 0).1) = (digits 256 v).length := by
      rw [rounds]
      exact if_neg (by omega)
    have small : v < 2 ^ (8 * (digits 256 v).length) := by
      rw [pow_mul]
      exact fits
    have puts : DerPuts (intPutBytesUint32 v).1 (netBytes (digits 256 v).length v) := by
      intro len data pkt out writing
      rw [intPutBytesUint32]
      rw [count]
      exact putBytes_goes writing small (by omega)
    apply integer_puts low puts some small
    · right
      rw [pow_mul]
      exact least
    · rw [intPutBytesUint32]
      rw [rounds, if_neg zero]

theorem bnWord_top (v n : Nat) :
    (bnWord v ((n - 1) / bnBytes) >>> (8 * ((n - 1) % bnBytes))) &&& 0xFF =
      (v >>> (8 * (n - 1))) &&& 0xFF := by
  have place : 8 * bnBytes * ((n - 1) / bnBytes) + 8 * ((n - 1) % bnBytes) = 8 * (n - 1) := by
    rw [mul_assoc, ← mul_add, div_add_mod]
  have inside : 8 * ((n - 1) % bnBytes) + 8 ≤ 8 * bnBytes := by
    have := mod_lt (n - 1) (by decide : bnBytes > 0)
    omega
  apply eq_of_testBit_eq
  intro i
  simp only [bnWord, testBit_and, testBit_shiftRight, testBit_mod_two_pow]
  by_cases low : i < 8
  · have within : 8 * ((n - 1) % bnBytes) + i < 8 * bnBytes := by omega
    rw [decide_eq_true within, Bool.true_and, ← add_assoc, place]
  · have none : testBit 0xFF i = false :=
      testBit_lt_two_pow ((by decide : 0xFF < 2 ^ 8).trans_le
        (Nat.pow_le_pow_right (by decide) (by omega)))
    rw [none, Bool.and_false, Bool.and_false]

theorem bn_puts (low : tag ≤ 30) (v : Nat) :
    DerPuts (osslDerWBn tag (some (v : Int))) (derTagged tag (derElement 2 (derInteger v))) := by
  by_cases zero : v = 0
  · subst zero
    exact uint32_puts low (by decide)
  · have call : osslDerWBn tag (some (v : Int)) = intDerWInteger tag (intPutBytesBn v) := by
      funext pkt
      rw [osslDerWBn, if_neg (by omega), if_neg (by omega), Int.toNat_natCast]
    have pos : 0 < v.size := size_pos.mpr (by omega)
    have some : 1 ≤ bnNumBytes v := by
      rw [bnNumBytes]
      omega
    have small : v < 2 ^ (8 * bnNumBytes v) := by
      apply size_le.mp
      rw [bnNumBytes]
      omega
    have puts : DerPuts (intPutBytesBn v).1 (netBytes (bnNumBytes v) v) := by
      intro len data pkt out writing
      apply fill_goes writing (netBytes_length _ _) (by omega)
      · intro dest pkt' run
        exact runs_seq run rfl
      · exact fails_first
    rw [call]
    apply integer_puts low puts some small
    · right
      apply lt_size.mp
      rw [bnNumBytes]
      omega
    · exact bnWord_top v _

theorem primitive_puts (low : tag ≤ 30) {value : DerPrimitive} (valid : value.Valid)
    (plain : value.isBoolean = false) : DerPuts (value.call tag) (derTagged tag value.encode) := by
  cases value with
  | boolean b => contradiction
  | uint32 v => exact uint32_puts low valid
  | bn v => exact bn_puts low v
  | octetString data =>
    exact context_puts _ low (element_puts [_] [closeCall, putBytesU8 derPOctetString]
      (one_puts (memcpy_puts data)) (closes_plain (by decide)))
  | null =>
    exact context_puts _ low (element_puts [] [closeCall, putBytesU8 derPNull] nothing_puts
      (closes_plain (by decide)))
  | precompiled bytes => exact context_puts [_] low (one_puts (memcpy_puts bytes))

def sequenceCalls (tag : Int) (inside : List WpacketCall) : List WpacketCall :=
  intStartContext tag :: ((startSubPacket :: (inside ++ [closeSized (fun size1 size2 =>
    if size1 = size2 then callOf (wpacketSetFlags wpacketFlagsAbandonOnZeroLength)
    else putBytesU8 (derFConstructed ||| derPSequence))])) ++ [intEndContext tag])

theorem sequenceCalls_flat (tag : Int) (inside later : List WpacketCall) (pkt : Wpacket) :
    allOf (osslDerWBeginSequence tag :: (inside ++ osslDerWEndSequence tag :: later)) pkt =
      allOf (sequenceCalls tag inside ++ later) pkt := by
  rw [osslDerWBeginSequence, allOf_flat, ← append_assoc, allOf_append, osslDerWEndSequence]
  simp only [allOf_flat]
  rw [← allOf_append]
  simp [sequenceCalls]

theorem sequence_puts (low : tag ≤ 30) {inside : List WpacketCall}
    (puts : DerPuts (allOf inside) body) :
    DerPuts (allOf (sequenceCalls tag inside)) (derTagged tag (derElement 0x30 body)) := by
  apply context_puts _ low
  apply element_puts inside _ puts
  apply closes_sized (by decide)
  intro size1 size2 differ
  rw [if_neg differ]
  rfl

theorem forest_puts (valid : forest.Valid) (plain : forest.hasBoolean = false) :
    DerPuts (allOf forest.calls) forest.encode := by
  induction forest with
  | none => exact nothing_puts
  | primitive before tag value ih =>
    obtain ⟨low, validValue, validBefore⟩ := valid
    obtain ⟨plainValue, plainBefore⟩ := Bool.or_eq_false_iff.mp plain
    intro len data pkt out writing
    apply goes_cons (primitive_puts low validValue plainValue len data pkt out writing)
    intro mid writing' stack
    rw [← stack]
    exact ih validBefore plainBefore len data mid _ writing'
  | sequence before tag elements ihBefore ihElements =>
    obtain ⟨low, validElements, validBefore⟩ := valid
    obtain ⟨plainElements, plainBefore⟩ := Bool.or_eq_false_iff.mp plain
    intro len data pkt out writing
    apply goes_congr (sequenceCalls_flat tag elements.calls before.calls pkt).symm
    have puts := sequence_puts low (ihElements validElements plainElements)
    apply goes_append (puts len data pkt out writing)
    intro mid writing' stack
    rw [← stack]
    exact ihBefore validBefore plainBefore len data mid _ writing'

theorem stops_at (xs : List WpacketCall) {ys : List WpacketCall} {call : WpacketCall}
    (stops : (allOf xs pkt).1 = true → (call (allOf xs pkt).2).1 = false) :
    (allOf (xs ++ call :: ys) pkt).1 = false := by
  rw [allOf_append]
  by_cases done : (allOf xs pkt).1 = true
  · rw [if_pos done, allOf, if_neg (by simp [stops done])]
  · rw [if_neg done]

theorem startContext_goes {data : Nat → UInt8} (low : tag ≤ 30)
    (writing : DerWriting len data pkt out) :
    ∃ parent parents, DerGoes len data pkt out (intStartContext tag) [] (parent :: parents) := by
  by_cases without : tag < 0
  · cases stack : pkt.subs with
    | nil => exact absurd stack writing.stack
    | cons parent parents =>
      refine ⟨parent, parents, ?_⟩
      rw [← stack]
      exact goes_nothing writing (by rw [intStartContext, if_pos without])
  · refine ⟨_, _, goes_congr ?_ (start_goes writing)⟩
    rw [intStartContext, if_neg without, if_neg (by omega)]

/-- Where there is room for a boolean its call fails: the close that succeeds is taken for one that
    does not. -/
theorem boolean_fails {data : Nat → UInt8} {b : Int} (low : tag ≤ 30)
    (writing : DerWriting len data pkt out)
    (room : out.length + (derTagged tag (DerPrimitive.boolean b).encode).length ≤ len) :
    (osslDerWBoolean tag b pkt).1 = false := by
  have least : 3 ≤ (derTagged tag (DerPrimitive.boolean b).encode).length := by
    have three : (DerPrimitive.boolean b).encode.length = 3 := rfl
    rw [derTagged]
    split_ifs
    · exact three.ge
    · rw [derElement, length_append, three]
      omega
  obtain ⟨parent, parents, context⟩ := startContext_goes low writing
  obtain ⟨body, short, goes⟩ : ∃ body : List UInt8, body.length ≤ 1 ∧
      DerGoes len data pkt out (allOf [intStartContext tag, startSubPacket,
        orElse (b == 0) (putBytesU8 0xFF)]) (body ++ [] ++ [])
        (⟨0, 0, out.length, 0⟩ :: parent :: parents) := by
    refine ⟨if b = 0 then [] else [0xFF], by split_ifs <;> decide, ?_⟩
    apply goes_cons context
    intro mid writing1 stack1
    apply goes_cons (start_goes writing1)
    intro mid' writing2 stack2
    rw [stack1, nil_append] at stack2
    rw [← stack2]
    apply goes_congr (allOf_one _ mid').symm
    by_cases false_ : b = 0
    · rw [if_pos false_]
      apply goes_nothing writing2
      rw [orElse, if_pos (by simpa using false_)]
    · rw [if_neg false_]
      apply goes_congr _ (putU8_goes writing2 (by decide))
      rw [orElse, if_neg (by simpa using false_)]
  rw [append_nil, append_nil] at goes
  apply stops_at [_, _, _]
  intro _
  obtain ⟨_, writing', stack⟩ := goes.1 (by omega)
  have octets : (derLengthOctets body.length).length = 1 := by
    rw [derLengthOctets, if_pos (by omega)]
    rfl
  have closes := (close_goes writing' stack).1 (by rw [length_append, octets]; omega)
  rw [notOf, closes.1]
  rfl

theorem element_longer (identifier : Nat) (body : List UInt8) :
    body.length ≤ (derElement identifier body).length := by
  rw [derElement, length_append]
  omega

theorem tagged_longer (tag : Int) (body : List UInt8) :
    body.length ≤ (derTagged tag body).length := by
  rw [derTagged]
  split_ifs
  · exact le_refl _
  · exact element_longer _ body

theorem forest_fails (valid : forest.Valid) (boolean : forest.hasBoolean = true)
    {data : Nat → UInt8} (writing : DerWriting len data pkt out)
    (room : out.length + forest.encode.length ≤ len) : (allOf forest.calls pkt).1 = false := by
  induction forest generalizing pkt out with
  | none => contradiction
  | primitive before tag value ih =>
    obtain ⟨low, validValue, validBefore⟩ := valid
    rw [DerForest.encode, length_append] at room
    cases kind : value.isBoolean with
    | true =>
      cases value with
      | boolean b => exact stops_at [] fun _ => boolean_fails low writing (by omega)
      | _ => contradiction
    | false =>
      have later : before.hasBoolean = true := by
        have := boolean
        rw [DerForest.hasBoolean, kind, Bool.false_or] at this
        exact this
      obtain ⟨done, writing', _⟩ :=
        (primitive_puts low validValue kind len data pkt out writing).1 (by omega)
      rw [DerForest.calls, allOf, if_pos done]
      exact ih validBefore later writing' (by rw [length_append]; omega)
  | sequence before tag elements ihBefore ihElements =>
    obtain ⟨low, validElements, validBefore⟩ := valid
    rw [DerForest.encode, length_append] at room
    cases inside : elements.hasBoolean with
    | true =>
      have within := (element_longer 0x30 elements.encode).trans
        (tagged_longer tag (derElement 0x30 elements.encode))
      obtain ⟨parent, parents, context⟩ := startContext_goes low writing
      have opening : DerGoes len data pkt out (osslDerWBeginSequence tag) []
          (⟨0, 0, out.length, 0⟩ :: parent :: parents) := by
        rw [← append_nil ([] : List UInt8)]
        apply goes_cons context
        intro mid writing1 stack1
        rw [← stack1]
        exact goes_congr (allOf_one _ mid).symm (start_goes writing1)
      obtain ⟨done, writing', _⟩ := opening.1 (by simp only [length_nil]; omega)
      have fails := ihElements validElements inside writing' (by
        rw [length_append, length_nil]; omega)
      rw [DerForest.calls, allOf, if_pos done, allOf_append, if_neg (by simp [fails])]
    | false =>
      have later : before.hasBoolean = true := by
        have := boolean
        rw [DerForest.hasBoolean, inside, Bool.false_or] at this
        exact this
      obtain ⟨done, writing', _⟩ := (sequence_puts low (forest_puts validElements inside)
        len data pkt out writing).1 (by omega)
      rw [DerForest.calls, sequenceCalls_flat, allOf_append, if_pos done]
      exact ihBefore validBefore later writing' (by rw [length_append]; omega)

/-- In a buffer with enough room all calls return 1 and the encoding is in front of the end; in a
    smaller one some call returns 0; and what lies before the position is as it was, wherever the
    calls end. -/
def DerWritten (forest : DerForest) (len : Nat) (data : Nat → UInt8) : Prop :=
  ∃ pkt, wpacketInitDer true data len = some pkt ∧
    (forest.encode.length ≤ len → (allOf forest.calls pkt).1 = true ∧
      ∃ p, wpacketGetCurr (allOf forest.calls pkt).2 = some p ∧
        p + forest.encode.length = len ∧
        readCells (allOf forest.calls pkt).2.data p forest.encode.length = forest.encode) ∧
    (len < forest.encode.length → (allOf forest.calls pkt).1 = false) ∧
    (allOf forest.calls pkt).2.written ≤ len ∧
    (allOf forest.calls pkt).2.curr = (allOf forest.calls pkt).2.written ∧
    ∀ i < len - (allOf forest.calls pkt).2.written, (allOf forest.calls pkt).2.data i = data i

theorem initDer_writing (data : Nat → UInt8) (some_ : 0 < len) (size : len < 2 ^ 64) :
    ∃ pkt, wpacketInitDer true data len = some pkt ∧ DerWriting len data pkt [] := by
  refine ⟨⟨.staticbuf, data, 0, 0, len, [⟨0, 0, 0, 0⟩], true⟩, ?_, rfl, rfl, rfl, rfl, rfl,
    zero_le _, size, cons_ne_nil _ _, rfl, fun _ _ => rfl⟩
  rw [wpacketInitDer, if_neg (by omega)]
  rfl

/-- The DER writer writes the encoding of a forest, or runs out of room, exactly if there is no
    boolean in it; and no length could be written in fewer octets. -/
theorem der_written_iff (forest : DerForest) (valid : forest.Valid)
    (counted : forest.encode.length < 2 ^ 64) :
    ((∀ len data, 0 < len → len < 2 ^ 64 → DerWritten forest len data) ↔
      forest.hasBoolean = false) ∧
    ∀ n, 0x7f < n → netValue (derLengthOctets n).tail = n ∧ ∀ octets : List UInt8,
      netValue octets = n → (derLengthOctets n).length ≤ 1 + octets.length := by
  refine ⟨?_, fun n long => derLengthOctets_minimal long⟩
  constructor
  · intro all
    by_contra boolean
    obtain ⟨pkt, init, enough, _⟩ := all (max 1 forest.encode.length) (fun _ => 0) (by omega)
      (by omega)
    have room : 0 < max 1 forest.encode.length := by omega
    obtain ⟨pkt', init', writing⟩ := initDer_writing (fun _ => 0) room (by omega)
    obtain rfl := some.inj (init.symm.trans init')
    have fails := forest_fails valid (by simpa using boolean) writing (by
      rw [length_nil]; omega)
    rw [(enough (by omega)).1] at fails
    contradiction
  · intro plain len data some_ size
    obtain ⟨pkt, init, writing⟩ := initDer_writing data some_ size
    have puts := forest_puts valid plain len data pkt [] writing
    have left : ∃ left, DerWriting len data (allOf forest.calls pkt).2 left := by
      by_cases room : forest.encode.length ≤ len
      · exact ⟨_, (puts.1 (by rw [length_nil]; omega)).2.1⟩
      · exact (puts.2 (by rw [length_nil]; omega)).2
    obtain ⟨left, final⟩ := left
    refine ⟨pkt, init, ?_, ?_, ?_, final.curr, ?_⟩
    · intro room
      obtain ⟨done, written, _⟩ := puts.1 (by rw [length_nil]; omega)
      rw [append_nil] at written
      refine ⟨done, len - forest.encode.length, ?_, by omega, written.put⟩
      simp only [wpacketGetCurr, written.buf, written.endfirst, if_true, written.maxsize,
        written.curr, written.written]
    · intro less
      exact (puts.2 (by rw [length_nil]; omega)).1
    · rw [final.written]
      exact final.fits
    · rw [final.written]
      exact final.before

def sampleForest : DerForest :=
  .sequence .none 3 (.primitive (.primitive .none (-1) (.uint32 128)) 0 .null)

theorem der_written_iff_sample :
    sampleForest.encode = [0xA3, 10, 0x30, 8, 2, 2, 0, 0x80, 0xA0, 2, 5, 0] ∧
    ((∀ len data, 0 < len → len < 2 ^ 64 → DerWritten sampleForest len data) ↔
      sampleForest.hasBoolean = false) := by
  have valid : sampleForest.Valid := ⟨by decide, ⟨by decide, trivial, by decide, by
    show 128 < 2 ^ 32
    decide, trivial⟩, trivial⟩
  exact ⟨by decide +kernel, (der_written_iff sampleForest valid (by decide +kernel)).1⟩

/-- A boolean in a buffer with room for five of them. -/
theorem der_boolean_not_written :
    ¬ DerWritten (.primitive .none (-1) (.boolean 1)) 16 (fun _ => 0) := by
  intro written
  obtain ⟨pkt, init, enough, _⟩ := written
  have done := (enough (by decide +kernel)).1
  obtain rfl := some.inj init
  revert done
  decide +kernel

/-- What the writer puts for a number is an INTEGER whose contents are read back as it. -/
theorem der_integer_read_back {tag : Int} (low : tag ≤ 30) {v : Nat}
    (short : v < 2 ^ (8 * (intMax - 1))) :
    DerPuts (osslDerWBn tag (some (v : Int))) (derTagged tag (derElement 2 (derInteger v))) ∧
      ∀ (a : Option Asn1String) (rest : List UInt8), ∃ ret magnitude,
        osslC2iAsn1Integer a (derInteger v ++ rest) (derInteger v).length = some (ret, rest) ∧
          ret.neg = false ∧ ret.data = some magnitude ∧ netValue magnitude = v := by
  obtain ⟨value, minimal⟩ := derInteger_minimal v
  refine ⟨bn_puts low v, fun a rest => ?_⟩
  obtain ⟨accepts, reads⟩ := osslC2i_spec a (derInteger v) rest
  rw [value] at accepts reads
  obtain ⟨⟨ret, pp⟩, done⟩ := isSome_iff_exists.mp (accepts.mpr ⟨minimal, by
    rwa [Twos.Fits, Int.natAbs_natCast]⟩)
  obtain ⟨rfl, magnitude, data, _, _, canonical, is⟩ := reads ret pp done
  rw [Twos.signed] at is
  cases neg : ret.neg with
  | false =>
    rw [neg, if_neg Bool.false_ne_true] at is
    exact ⟨ret, magnitude, done, neg, data, by omega⟩
  | true =>
    -- a negative number has a magnitude above zero
    have pos := value_pos canonical neg
    rw [neg, if_pos rfl] at is
    omega

theorem der_integer_read_back_high :
    DerPuts (osslDerWBn 0 (some 128)) (derTagged 0 (derElement 2 [0, 0x80])) ∧
      ∀ (a : Option Asn1String) (rest : List UInt8), ∃ ret magnitude,
        osslC2iAsn1Integer a ([0, 0x80] ++ rest) 2 = some (ret, rest) ∧
          ret.neg = false ∧ ret.data = some magnitude ∧ netValue magnitude = 128 :=
  der_integer_read_back (by decide) (v := 128) ((by decide : 128 < 2 ^ 8).trans_le
    (Nat.pow_le_pow_right (by decide) (by decide)))

end Ossl
