import OpenSSL.Lib.Codec
import OpenSSL.Lib.RingWindow
import OpenSSL.Quic.Vlint
import OpenSSL.Word

/- The packet writer of crypto/packet.c. A pointer into its buffer is the index of
   the byte, none stands for NULL. A call that returns 0 is a failed writer. -/
namespace Ossl
open Prod Option Nat BigEndian Codec RingWindow List

structure BufMem where
  length : Nat
  max : Nat
  reallocs : List Bool
  deriving DecidableEq

inductive WpacketBuf where
  | null
  | staticbuf
  | buf (mem : BufMem)
  deriving DecidableEq

structure WpacketSub where
  packetLen : Nat
  lenbytes : Nat
  pwritten : Nat
  flags : Nat
  deriving DecidableEq

/- The innermost sub-packet comes first in subs. -/
structure Wpacket where
  buf : WpacketBuf
  data : Nat → UInt8
  curr : Nat
  written : Nat
  maxsize : Nat
  subs : List WpacketSub
  endfirst : Bool

abbrev WpacketM := StateT Wpacket Option

def zeroCells (data : Nat → UInt8) (start stop : Nat) : Nat → UInt8 :=
  fun i => if start ≤ i ∧ i < stop then 0 else data i

def limitBeforeExpansion : Nat := 0x5ffffffc

def bufMemGrow (str : BufMem) (data : Nat → UInt8) (len : Nat) :
    Option (BufMem × (Nat → UInt8)) :=
  if len ≤ str.length then some ({ str with length := len }, data)
  else if len ≤ str.max then some ({ str with length := len }, zeroCells data str.length len)
  else if limitBeforeExpansion < len then none
  else
    match str.reallocs with
    | true :: later => some (⟨len, (len + 3) / 3 * 4, later⟩, zeroCells data str.length len)
    | _ => none

def defaultBufSize : Nat := 256

def wpacketNewLen (length len : Nat) : Nat :=
  let reflen := if length < len then len else length
  if maxU64 / 2 < reflen then maxU64 else max (reflen * 2) defaultBufSize

def wpacketGrow (pkt : Wpacket) (len : Nat) : Option Wpacket :=
  match pkt.buf with
  | .buf mem =>
    if subU64 mem.length pkt.written < len then
      match bufMemGrow mem pkt.data (wpacketNewLen mem.length len) with
      | none => none
      | some (mem, data) => some { pkt with buf := .buf mem, data := data }
    else some pkt
  | _ => some pkt

def wpacketGetCurr (pkt : Wpacket) : Option Nat :=
  let curr := if pkt.endfirst then pkt.maxsize - pkt.curr else pkt.curr
  match pkt.buf with
  | .null => none
  | .staticbuf => some curr
  | .buf mem => if mem.max = 0 then none else some curr

def wpacketCursor : WpacketM Nat := fun pkt =>
  some (if pkt.endfirst then pkt.maxsize - pkt.curr else pkt.curr, pkt)

def wpacketGetTotalWritten : WpacketM Nat := fun pkt => some (pkt.written, pkt)

def wpacketGetBuf : WpacketM WpacketBuf := fun pkt => some (pkt.buf, pkt)

def wpacketReserveBytes (len : Nat) : WpacketM (Option Nat) := fun pkt =>
  if pkt.subs.isEmpty ∨ len = 0 then none
  else if subU64 pkt.maxsize pkt.written < len then none
  else
    match wpacketGrow pkt len with
    | none => none
    | some pkt =>
      some ((wpacketGetCurr pkt).map fun p => if pkt.endfirst then p - len else p, pkt)

def wpacketAllocateBytes (len : Nat) : WpacketM (Option Nat) := do
  let allocbytes ← wpacketReserveBytes len
  modify fun pkt =>
    { pkt with written := addU64 pkt.written len, curr := addU64 pkt.curr len }
  pure allocbytes

def wpacketStore (dest : Option Nat) (bytes : List UInt8) : WpacketM Unit :=
  modify fun pkt =>
    match dest with
    | none => pkt
    | some p => { pkt with data := writeCells pkt.data p bytes }

def wpacketFill (len : Nat) (bytes : List UInt8) : WpacketM (Option Nat) := do
  let dest ← wpacketAllocateBytes len
  wpacketStore dest bytes
  pure dest

def wpacketMemcpy (src : List UInt8) : WpacketM Unit :=
  if src.length = 0 then pure () else do let _ ← wpacketFill src.length src

def putValue : Nat → Nat → List UInt8 → List UInt8 × Nat
  | 0, value, bytes => (bytes, value)
  | len + 1, value, bytes =>
    putValue len (value >>> 8) (UInt8.ofNat (value &&& 0xFF) :: bytes)

def wpacketPutBytes (val size : Nat) : WpacketM Unit := do
  guard (size ≤ 8)
  let put := putValue size val []
  let data ← wpacketFill size put.1
  guard (data = none ∨ put.2 = 0)

/- A null writer has no byte to encode to; the C code does not check for that. -/
def wpacketQuicWriteVlint (v : Nat) : WpacketM Unit := do
  guard (vlintEncodeLen v ≠ 0)
  let _ ← wpacketFill (vlintEncodeLen v) (vlintEncode v)

def maxmaxsize (lenbytes : Nat) : Nat :=
  if 8 ≤ lenbytes ∨ lenbytes = 0 then maxU64 else 1 <<< (lenbytes * 8) - 1 + lenbytes

def wpacketInternInitLen (mem : Bool) (pkt : Wpacket) (lenbytes : Nat) : Option Wpacket :=
  let pkt := { pkt with curr := 0, written := 0 }
  if mem = false then none
  else if lenbytes = 0 then some { pkt with subs := [⟨0, 0, 0, 0⟩] }
  else
    match (wpacketAllocateBytes lenbytes).run { pkt with subs := [⟨0, lenbytes, lenbytes, 0⟩] } with
    | none => none
    | some (_, pkt) => some pkt

def wpacketInitStaticLen (mem : Bool) (data : Nat → UInt8) (len lenbytes : Nat) : Option Wpacket :=
  if len = 0 then none
  else
    let maxsize := if maxmaxsize lenbytes < len then maxmaxsize lenbytes else len
    wpacketInternInitLen mem ⟨.staticbuf, data, 0, 0, maxsize, [], false⟩ lenbytes

def wpacketInitLen (mem : Bool) (buf : BufMem) (data : Nat → UInt8) (lenbytes : Nat) :
    Option Wpacket :=
  wpacketInternInitLen mem ⟨.buf buf, data, 0, 0, maxmaxsize lenbytes, [], false⟩ lenbytes

def wpacketSetMaxSize (pkt : Wpacket) (maxsize : Nat) : Option Wpacket :=
  match pkt.subs.getLast? with
  | none => none
  | some sub =>
    let lenbytes := if sub.lenbytes = 0 then 8 else sub.lenbytes
    if maxmaxsize lenbytes < maxsize ∨ maxsize < pkt.written then none
    else some { pkt with maxsize := maxsize }

structure WpacketReady (pkt : Wpacket) : Prop where
  forward : pkt.endfirst = false
  buffered : pkt.buf ≠ .null
  curr : pkt.curr = pkt.written
  fits : pkt.written ≤ pkt.maxsize
  size : pkt.maxsize < 2 ^ 64
  grown : ∀ mem, pkt.buf = .buf mem →
    pkt.written ≤ mem.length ∧ mem.length ≤ mem.max ∧ mem.max < 2 ^ 32

def wpacketOut (pkt : Wpacket) : List UInt8 := readCells pkt.data 0 pkt.written

def wpacketOutput : Output Wpacket UInt8 := ⟨wpacketOut, WpacketReady⟩

/-- What growing leaves as it is, and the room there is after it. -/
structure WpacketGrown (pkt pkt' : Wpacket) (len : Nat) : Prop where
  same : pkt'.curr = pkt.curr ∧ pkt'.written = pkt.written ∧ pkt'.maxsize = pkt.maxsize ∧
    pkt'.subs = pkt.subs ∧ pkt'.endfirst = pkt.endfirst
  buffered : pkt'.buf ≠ .null
  data : ∀ i < pkt.written, pkt'.data i = pkt.data i
  grown : ∀ mem, pkt'.buf = .buf mem →
    pkt.written + len ≤ mem.length ∧ mem.length ≤ mem.max ∧ mem.max < 2 ^ 32

variable {len : Nat} {pkt : Wpacket}

theorem bufMemGrow_grown {str str' : BufMem} {data data' : Nat → UInt8} (more : str.length < len)
    (small : str.max < 2 ^ 32) (run : bufMemGrow str data len = some (str', data')) :
    str'.length = len ∧ len ≤ str'.max ∧ str'.max < 2 ^ 32 ∧
      data' = zeroCells data str.length len := by
  have limit : limitBeforeExpansion < 2 ^ 31 := by decide
  rw [bufMemGrow, if_neg (by omega)] at run
  split_ifs at run with roomy huge
  · obtain ⟨rfl, rfl⟩ := mk.inj (some.inj run)
    exact ⟨rfl, roomy, small, rfl⟩
  · split at run
    · obtain ⟨rfl, rfl⟩ := mk.inj (some.inj run)
      exact ⟨rfl, by simp only; omega, by simp only; omega, rfl⟩
    · contradiction

theorem newLen_enough (length len : Nat) :
    wpacketNewLen length len = maxU64 ∨
      length + len ≤ wpacketNewLen length len ∧ length < wpacketNewLen length len := by
  have least : defaultBufSize = 256 := rfl
  simp only [wpacketNewLen]
  generalize reflen : (if length < len then len else length) = n
  have : n = max length len := by split_ifs at reflen <;> omega
  split_ifs <;> omega

variable {pkt' : Wpacket}

theorem wpacketGrow_grown (ready : WpacketReady pkt) (run : wpacketGrow pkt len = some pkt') :
    WpacketGrown pkt pkt' len := by
  have top : maxU64 = 2 ^ 64 - 1 := rfl
  unfold wpacketGrow at run
  split at run
  · rename_i mem isBuf
    obtain ⟨before, inside, small⟩ := ready.grown mem isBuf
    rw [subU64_exact (by omega) before] at run
    split at run
    · have enough := newLen_enough mem.length len
      split at run
      · contradiction
      · rename_i mem' data' grow
        obtain rfl := some.inj run
        obtain ⟨length', max', small', cells⟩ := bufMemGrow_grown (by omega) small grow
        refine ⟨⟨rfl, rfl, rfl, rfl, rfl⟩, by simp, ?_, ?_⟩
        · intro i hi
          simp only [cells, zeroCells]
          rw [if_neg (by omega)]
        · intro m same
          obtain rfl := WpacketBuf.buf.inj same
          omega
    · obtain rfl := some.inj run
      refine ⟨⟨rfl, rfl, rfl, rfl, rfl⟩, ready.buffered, fun _ _ => rfl, ?_⟩
      intro m same
      rw [isBuf] at same
      obtain rfl := WpacketBuf.buf.inj same
      omega
  · rename_i notBuf
    obtain rfl := some.inj run
    exact ⟨⟨rfl, rfl, rfl, rfl, rfl⟩, ready.buffered, fun _ _ => rfl,
      fun mem same => absurd same (notBuf mem)⟩

theorem out_length (pkt : Wpacket) : (wpacketOut pkt).length = pkt.written := by
  simp [wpacketOut]

theorem totalWritten_yields (before : List UInt8) :
    Yields wpacketOutput wpacketGetTotalWritten before True [] before.length := by
  intro pkt n pkt' ready out run
  obtain ⟨rfl, rfl⟩ := mk.inj (some.inj run)
  exact ⟨trivial, ready, by rw [out, append_nil], by rw [← out]; exact (out_length pkt).symm⟩

theorem cursor_yields (before : List UInt8) :
    Yields wpacketOutput wpacketCursor before True [] before.length := by
  intro pkt n pkt' ready out run
  obtain ⟨rfl, rfl⟩ := mk.inj (some.inj run)
  refine ⟨trivial, ready, by rw [out, append_nil], ?_⟩
  rw [ready.forward, ← out, if_neg Bool.false_ne_true, ready.curr]
  exact (out_length pkt).symm

theorem reserveBytes_yields (len : Nat) (before : List UInt8) :
    Yields wpacketOutput (wpacketReserveBytes len >>= fun _ => pure ()) before
      (before.length + len < 2 ^ 64) [] () := by
  intro pkt x pkt' ready out run
  obtain ⟨⟨p, mid⟩, reserved, later⟩ := bind_eq_some_iff.mp run
  obtain ⟨rfl, rfl⟩ := mk.inj (some.inj later)
  have written := (out_length pkt).symm.trans (congrArg length out)
  have within := ready.fits
  have size := ready.size
  rw [wpacketReserveBytes] at reserved
  split_ifs at reserved with bad room
  rw [subU64_exact size within] at room
  split at reserved
  · contradiction
  · rename_i grown grow
    obtain ⟨rfl, rfl⟩ := mk.inj (some.inj reserved)
    obtain ⟨⟨curr, same, maxsize, subs, endfirst⟩, buffered, data, more⟩ :=
      wpacketGrow_grown ready grow
    refine ⟨by omega, ⟨endfirst.trans ready.forward, buffered, ?_, ?_, ?_, ?_⟩, ?_, rfl⟩
    · rw [curr, same, ready.curr]
    · rw [same, maxsize]
      exact within
    · rw [maxsize]
      exact size
    · intro mem kind
      have := more mem kind
      omega
    · rw [append_nil, ← out]
      simp only [wpacketOutput, wpacketOut, same, readCells]
      apply map_congr_left
      intro i inside
      exact data _ (by simpa using inside)

/-- An allocation hands out the cells after what is written. -/
theorem allocateBytes_allocated (ready : WpacketReady pkt) {dest : Option Nat}
    (run : (wpacketAllocateBytes len).run pkt = some (dest, pkt')) :
    dest = some pkt.written ∧ len ≠ 0 ∧ WpacketReady pkt' ∧ pkt'.written = pkt.written + len ∧
      ∀ i < pkt.written, pkt'.data i = pkt.data i := by
  have within := ready.fits
  have size := ready.size
  obtain ⟨⟨p, mid⟩, reserved, later⟩ := bind_eq_some_iff.mp run
  rw [wpacketReserveBytes] at reserved
  split_ifs at reserved with bad room
  rw [subU64_exact size within] at room
  split at reserved
  · contradiction
  · rename_i grown grow
    obtain ⟨rfl, rfl⟩ := mk.inj (some.inj reserved)
    have result := wpacketGrow_grown ready grow
    obtain ⟨⟨curr, written, maxsize, subs, endfirst⟩, buffered, data, more⟩ := result
    obtain ⟨rfl, rfl⟩ := mk.inj (some.inj later)
    have positive : len ≠ 0 := fun none => bad (.inr none)
    have forward := endfirst.trans ready.forward
    have here := curr.trans ready.curr
    refine ⟨?_, positive, ⟨forward, buffered, ?_, ?_, ?_, ?_⟩, ?_, data⟩
    · rw [wpacketGetCurr]
      simp only [forward, Bool.false_eq_true, if_false, here]
      cases kind : grown.buf with
      | null => exact absurd kind buffered
      | staticbuf => rfl
      | buf mem =>
        have := more mem kind
        have grownOnce : mem.max ≠ 0 := by omega
        simp [grownOnce]
    all_goals simp only [here, written, maxsize]
    · rw [addU64_exact (by omega)]; omega
    · exact size
    · intro mem kind
      rw [addU64_exact (by omega)]
      exact more mem kind
    · exact addU64_exact (by omega)

theorem readCells_write (mem : Nat → UInt8) (n : Nat) (bytes : List UInt8) :
    readCells (writeCells mem n bytes) 0 (n + bytes.length) = readCells mem 0 n ++ bytes := by
  refine ext_getElem (by simp) ?_
  intro i first second
  simp only [readCells, getElem_map, getElem_range, zero_add, writeCells]
  by_cases old : i < n
  · rw [if_neg (by omega), getElem_append_left (by simpa using old)]
    simp
  · rw [if_pos (by omega), getElem_append_right (by simpa using old)]
    simp only [length_map, length_range]
    rw [getD_eq_getElem?_getD, getElem?_eq_getElem (by simp at first; omega), getD_some]

theorem fill_emits {bytes : List UInt8} (whole : bytes.length = len) :
    Emits wpacketOutput (wpacketFill len bytes) (len ≠ 0) bytes := by
  intro pkt dest pkt' ready run
  obtain ⟨⟨p, mid⟩, allocated, later⟩ := bind_eq_some_iff.mp run
  obtain ⟨rfl, positive, ready', written, data⟩ := allocateBytes_allocated ready allocated
  obtain ⟨rfl, rfl⟩ := mk.inj (some.inj later)
  refine ⟨positive, { ready' with }, ?_⟩
  have old : readCells mid.data 0 pkt.written = readCells pkt.data 0 pkt.written := by
    refine ext_getElem (by simp) ?_
    intro i first second
    simp only [readCells_length] at first
    simp only [readCells, getElem_map, getElem_range, zero_add]
    exact data i first
  simp only [wpacketOutput, wpacketOut, written]
  rw [← whole, readCells_write, old]

theorem memcpy_emits (src : List UInt8) : Emits wpacketOutput (wpacketMemcpy src) True src := by
  rw [wpacketMemcpy]
  by_cases empty : src.length = 0
  · rw [if_pos empty, length_eq_zero_iff.mp empty]
    exact emits_pure _ _
  · rw [if_neg empty]
    exact emits_mono (fun _ => trivial) (emits_last (fill_emits rfl))

theorem netBytes_shifted (n v : Nat) :
    netBytes n (v >>> 8) ++ [UInt8.ofNat v] = netBytes (n + 1) v := by
  induction n with
  | zero => rfl
  | succ n ih =>
    rw [netBytes, cons_append, ih, netBytes, ← shiftRight_add, add_comm 8, ← mul_succ]
    rfl

theorem putValue_eq (len value : Nat) (bytes : List UInt8) :
    putValue len value bytes = (netBytes len value ++ bytes, value >>> (8 * len)) := by
  induction len generalizing value bytes with
  | zero => rfl
  | succ n ih =>
    have byte : UInt8.ofNat (value &&& 0xFF) = UInt8.ofNat value := by
      rw [← UInt8.toNat_inj, UInt8.toNat_ofNat', UInt8.toNat_ofNat',
        show (0xFF : Nat) = 2 ^ 8 - 1 from rfl, and_two_pow_sub_one_eq_mod, mod_mod]
    rw [putValue, ih, byte, ← netBytes_shifted n value, append_assoc, ← shiftRight_add,
      add_comm 8, ← mul_succ]
    rfl

theorem putBytes_emits (val size : Nat) :
    Emits wpacketOutput (wpacketPutBytes val size) (val < 2 ^ (8 * size)) (netBytes size val) := by
  rw [wpacketPutBytes]
  refine emits_mono And.right (emits_guard_bind fun _ => ?_)
  rw [putValue_eq, append_nil]
  intro pkt x pkt' ready run
  obtain ⟨⟨dest, mid⟩, filled, later⟩ := bind_eq_some_iff.mp run
  obtain ⟨_, ready', out⟩ := fill_emits (netBytes_length size val) pkt dest mid ready filled
  obtain ⟨⟨p, _⟩, allocated, stored⟩ := bind_eq_some_iff.mp filled
  obtain ⟨here, _⟩ := allocateBytes_allocated ready allocated
  obtain ⟨same, _⟩ := mk.inj (some.inj stored)
  obtain ⟨fits, ready'', out'⟩ := emits_guard wpacketOutput _ mid x pkt' ready' later
  refine ⟨?_, ready'', by rw [out', out, append_nil]⟩
  rcases fits with none | zero
  · rw [← same, here] at none; contradiction
  · rw [shiftRight_eq_div_pow] at zero
    exact (Nat.div_eq_zero_iff.mp zero).resolve_left (Nat.two_pow_pos _).ne'

theorem writeVlint_emits (v : Nat) :
    Emits wpacketOutput (wpacketQuicWriteVlint v) (v ≤ vlintMax) (vlintEncode v) := by
  have both : Emits wpacketOutput (wpacketQuicWriteVlint v)
      (vlintEncodeLen v ≠ 0 ∧ vlintEncodeLen v ≠ 0) (vlintEncode v) :=
    emits_guard_bind fun some =>
      emits_last (fill_emits (vlint_decodes (vlintEncodeLen_pos.mp some) []).1)
  exact emits_mono (fun holds => vlintEncodeLen_pos.mp holds.1) both

theorem initStaticLen_ready {mem : Bool} {data : Nat → UInt8} (bound : len < 2 ^ 64)
    (run : wpacketInitStaticLen mem data len 0 = some pkt) :
    WpacketReady pkt ∧ wpacketOut pkt = [] := by
  rw [wpacketInitStaticLen, wpacketInternInitLen, if_pos (rfl : 0 = 0)] at run
  split_ifs at run
  all_goals
    obtain rfl := some.inj run
    exact ⟨⟨rfl, by simp, rfl, zero_le _, by simp only; omega, by simp⟩, rfl⟩

end Ossl
