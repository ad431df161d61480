import OpenSSL.Lib.Base128
import OpenSSL.Wpacket

/- The sub-packets of crypto/packet.c. A length field is reserved when a sub-packet starts
   and filled in when it is closed. -/
namespace Ossl
open Prod Base128 BigEndian Codec RingWindow

def wpacketFlagsNonZeroLength : Nat := 1
def wpacketFlagsAbandonOnZeroLength : Nat := 2
def wpacketFlagsQuicVlint : Nat := 4

def wpacketInitNull (mem : Bool) (lenbytes : Nat) : Option Wpacket :=
  wpacketInternInitLen mem ⟨.null, fun _ => 0, 0, 0, maxmaxsize lenbytes, [], false⟩ 0

def wpacketInitDer (mem : Bool) (data : Nat → UInt8) (len : Nat) : Option Wpacket :=
  if len = 0 then none
  else wpacketInternInitLen mem ⟨.staticbuf, data, 0, 0, len, [], true⟩ 0

def wpacketSetFlags (flags : Nat) : WpacketM Unit := fun pkt =>
  match pkt.subs with
  | [] => none
  | sub :: parents => some ((), { pkt with subs := { sub with flags := flags } :: parents })

def wpacketMemset (ch : Int) (len : Nat) : WpacketM Unit :=
  if len = 0 then pure ()
  else do let _ ← wpacketFill len (List.replicate len (UInt8.ofInt ch))

def wpacketBuffered (pkt : Wpacket) : Bool :=
  match pkt.buf with
  | .null => false
  | .staticbuf => true
  | .buf mem => mem.max != 0

def putQuicValue (value len : Nat) : Option (List UInt8) :=
  if len < vlintEncodeLen value then none else some (vlintEncodeN value len)

def wpacketPutLength (sub : WpacketSub) (packlen : Nat) : WpacketM Unit := fun pkt =>
  if wpacketBuffered pkt = false then some ((), pkt)
  else if sub.flags &&& wpacketFlagsQuicVlint = 0 then
    let put := putValue sub.lenbytes packlen []
    if put.2 = 0 then
      some ((), { pkt with data := writeCells pkt.data sub.packetLen put.1 })
    else none
  else
    match putQuicValue packlen sub.lenbytes with
    | none => none
    | some bytes => some ((), { pkt with data := writeCells pkt.data sub.packetLen bytes })

def sizeBits : Nat := 64

def wpacketPutDerLength (packlen : Nat) : WpacketM Unit := do
  let numlenbytes := 1 + shiftCount 8 sizeBits (packlen >>> 8)
  wpacketPutBytes packlen numlenbytes
  if 0x7f < packlen then wpacketPutBytes (numlenbytes ||| 0x80) 1

def wpacketAbandon (sub : WpacketSub) (packlen : Nat) (doclose : Bool) : WpacketM WpacketSub :=
  fun pkt =>
    if packlen = 0 ∧ sub.flags &&& wpacketFlagsAbandonOnZeroLength ≠ 0 then
      if doclose = false then none
      else
        let pkt :=
          if subU64 pkt.curr sub.lenbytes = sub.packetLen then
            { pkt with
              written := subU64 pkt.written sub.lenbytes,
              curr := subU64 pkt.curr sub.lenbytes }
          else pkt
        some ({ sub with packetLen := 0, lenbytes := 0 }, pkt)
    else some (sub, pkt)

def wpacketWriteLength (sub : WpacketSub) (parents : List WpacketSub) (packlen : Nat) :
    WpacketM Unit := fun pkt =>
  if 0 < sub.lenbytes then (wpacketPutLength sub packlen).run pkt
  else if pkt.endfirst ∧ parents ≠ [] ∧
      (packlen ≠ 0 ∨ sub.flags &&& wpacketFlagsAbandonOnZeroLength = 0) then
    (wpacketPutDerLength packlen).run pkt
  else some ((), pkt)

def wpacketInternClose (sub : WpacketSub) (parents : List WpacketSub) (doclose : Bool) :
    WpacketM Unit := do
  let written ← wpacketGetTotalWritten
  let packlen := subU64 written sub.pwritten
  guard (packlen ≠ 0 ∨ sub.flags &&& wpacketFlagsNonZeroLength = 0)
  let sub ← wpacketAbandon sub packlen doclose
  wpacketWriteLength sub parents packlen
  modify fun pkt => if doclose then { pkt with subs := parents } else pkt

def wpacketClose : WpacketM Unit := fun pkt =>
  match pkt.subs with
  | sub :: parent :: parents => (wpacketInternClose sub (parent :: parents) true).run pkt
  | _ => none

def wpacketFinish : WpacketM Unit := fun pkt =>
  match pkt.subs with
  | [sub] => (wpacketInternClose sub [] true).run pkt
  | _ => none

def wpacketStartSubPacketLen (mem : Bool) (lenbytes : Nat) : WpacketM Unit := fun pkt =>
  if pkt.subs = [] then none
  else if 0 < lenbytes ∧ pkt.endfirst then none
  else if mem = false then none
  else
    let packetLen := if lenbytes = 0 then 0 else pkt.written
    let sub : WpacketSub := ⟨packetLen, lenbytes, addU64 pkt.written lenbytes, 0⟩
    let pkt := { pkt with subs := sub :: pkt.subs }
    if lenbytes = 0 then some ((), pkt)
    else
      match (wpacketAllocateBytes lenbytes).run pkt with
      | none => none
      | some (_, pkt) => some ((), pkt)

def wpacketStartQuicSubPacketBound (mem : Bool) (maxLen : Nat) : WpacketM Unit := do
  let enclen := vlintEncodeLen maxLen
  guard (enclen ≠ 0)
  wpacketStartSubPacketLen mem enclen
  modify fun pkt =>
    match pkt.subs with
    | [] => pkt
    | sub :: parents =>
      { pkt with subs := { sub with flags := sub.flags ||| wpacketFlagsQuicVlint } :: parents }

/-- What a step leaves as it is: the limit, and what the buffer has beyond it. -/
structure WpacketKept (pkt pkt' : Wpacket) : Prop where
  maxsize : pkt'.maxsize = pkt.maxsize
  longer : ∀ mem', pkt'.buf = .buf mem' → ∃ mem, pkt.buf = .buf mem ∧ mem.length ≤ mem'.length
  outside : ∀ i, pkt.maxsize ≤ i → (∀ mem, pkt.buf = .buf mem → i < mem.length) →
    pkt'.data i = pkt.data i

variable {mid pkt pkt' : Wpacket} {len n v : Nat} {α γ : Type} {sub : WpacketSub}
    {parents : List WpacketSub} {head : List UInt8}

theorem wpacketKept_same (maxsize : pkt'.maxsize = pkt.maxsize) (buf : pkt'.buf = pkt.buf)
    (data : pkt'.data = pkt.data) : WpacketKept pkt pkt' := by
  constructor
  · exact maxsize
  · intro mem kind
    exact ⟨mem, buf ▸ kind, le_refl _⟩
  · intro i _ _
    rw [data]

theorem wpacketKept_refl (pkt : Wpacket) : WpacketKept pkt pkt := wpacketKept_same rfl rfl rfl

theorem wpacketKept_trans {a b c : Wpacket} (first : WpacketKept a b) (second : WpacketKept b c) :
    WpacketKept a c := by
  constructor
  · rw [second.maxsize, first.maxsize]
  · intro mem'' kind
    obtain ⟨mem', kind', le'⟩ := second.longer mem'' kind
    obtain ⟨mem, kind, le⟩ := first.longer mem' kind'
    exact ⟨mem, kind, le.trans le'⟩
  · intro i beyond there
    rw [second.outside i (by rw [first.maxsize]; exact beyond), first.outside i beyond there]
    intro mem' kind'
    obtain ⟨mem, kind, le⟩ := first.longer mem' kind'
    exact (there mem kind).trans_le le

variable {bytes : List UInt8}

theorem wpacketKept_write {p : Nat} (inside : p + bytes.length ≤ pkt.maxsize) :
    WpacketKept pkt { pkt with data := writeCells pkt.data p bytes } := by
  refine ⟨rfl, (wpacketKept_refl pkt).longer, ?_⟩
  intro i beyond _
  simp only [writeCells]
  split
  · rw [List.getD_eq_getElem?_getD, List.getElem?_eq_none (by omega), Option.getD_none]
  · rfl

/-- A step to an output and a stack of sub-packets. -/
structure WpacketReaches (pkt pkt' : Wpacket) (out : List UInt8) (subs : List WpacketSub) :
    Prop where
  ready : WpacketReady pkt'
  out : wpacketOut pkt' = out
  subs : pkt'.subs = subs
  kept : WpacketKept pkt pkt'

theorem wpacketGrow_kept (ready : WpacketReady pkt) (run : wpacketGrow pkt len = some pkt') :
    WpacketKept pkt pkt' := by
  have top : maxU64 = 2 ^ 64 - 1 := rfl
  unfold wpacketGrow at run
  split at run
  · rename_i mem isBuf
    obtain ⟨before, inside, small⟩ := ready.grown mem isBuf
    split at run
    · have enough := newLen_enough mem.length len
      split at run
      · contradiction
      · rename_i mem' data' grow
        obtain rfl := Option.some.inj run
        obtain ⟨length', _, _, cells⟩ := bufMemGrow_grown (by omega) small grow
        refine ⟨rfl, ?_, ?_⟩
        · intro m same
          obtain rfl := WpacketBuf.buf.inj same
          exact ⟨mem, isBuf, by omega⟩
        · intro i _ there
          have old := there mem isBuf
          simp only [cells, zeroCells]
          rw [if_neg (by omega)]
    · obtain rfl := Option.some.inj run
      exact wpacketKept_refl pkt
  · obtain rfl := Option.some.inj run
    exact wpacketKept_refl pkt

variable {dest : Option Nat} {w : WpacketM α} {f : α → WpacketM γ} {y : γ} {x : α} {c : Prop}
    {packlen : Nat} {mem : Nat → UInt8} {body field : List UInt8}

theorem allocateBytes_kept (ready : WpacketReady pkt)
    (run : (wpacketAllocateBytes len).run pkt = some (dest, pkt')) :
    WpacketKept pkt pkt' ∧ pkt'.subs = pkt.subs := by
  obtain ⟨⟨p, mid⟩, reserved, later⟩ := Option.bind_eq_some_iff.mp run
  rw [wpacketReserveBytes] at reserved
  split_ifs at reserved
  split at reserved
  · contradiction
  · rename_i grown grow
    obtain ⟨rfl, rfl⟩ := mk.inj (Option.some.inj reserved)
    obtain ⟨rfl, rfl⟩ := mk.inj (Option.some.inj later)
    obtain ⟨same, longer, outside⟩ := wpacketGrow_kept ready grow
    exact ⟨⟨same, longer, outside⟩, (wpacketGrow_grown ready grow).same.2.2.2.1⟩

theorem fill_reaches (ready : WpacketReady pkt) (whole : bytes.length = len)
    (run : (wpacketFill len bytes).run pkt = some (dest, pkt')) :
    WpacketReaches pkt pkt' (wpacketOut pkt ++ bytes) pkt.subs := by
  obtain ⟨_, ready', out⟩ := fill_emits whole pkt dest pkt' ready run
  obtain ⟨⟨p, mid⟩, allocated, later⟩ := Option.bind_eq_some_iff.mp run
  obtain ⟨rfl, positive, ready1, written, data⟩ := allocateBytes_allocated ready allocated
  obtain ⟨kept, subs⟩ := allocateBytes_kept ready allocated
  obtain ⟨rfl, rfl⟩ := mk.inj (Option.some.inj later)
  have room : pkt.written + bytes.length ≤ mid.maxsize := by
    have := ready1.fits
    omega
  exact ⟨ready', out, subs, wpacketKept_trans kept (wpacketKept_write room)⟩

theorem fillOnly_reaches (ready : WpacketReady pkt)
    (whole : bytes.length = len)
    (run : (if len = 0 then pure () else do let _ ← wpacketFill len bytes : WpacketM Unit).run pkt =
      some ((), pkt')) : WpacketReaches pkt pkt' (wpacketOut pkt ++ bytes) pkt.subs := by
  by_cases empty : len = 0
  · rw [if_pos empty] at run
    obtain ⟨_, rfl⟩ := mk.inj (Option.some.inj run)
    obtain rfl := List.length_eq_zero_iff.mp (whole.trans empty)
    exact ⟨ready, (List.append_nil _).symm, rfl, wpacketKept_refl pkt⟩
  · rw [if_neg empty] at run
    obtain ⟨⟨dest, mid⟩, filled, later⟩ := Option.bind_eq_some_iff.mp run
    obtain ⟨_, rfl⟩ := mk.inj (Option.some.inj later)
    exact fill_reaches ready whole filled

theorem memcpy_reaches (ready : WpacketReady pkt) {src : List UInt8}
    (run : (wpacketMemcpy src).run pkt = some ((), pkt')) :
    WpacketReaches pkt pkt' (wpacketOut pkt ++ src) pkt.subs :=
  fillOnly_reaches ready rfl run

theorem memset_reaches (ready : WpacketReady pkt) {ch : Int}
    (run : (wpacketMemset ch len).run pkt = some ((), pkt')) :
    WpacketReaches pkt pkt' (wpacketOut pkt ++ List.replicate len (UInt8.ofInt ch)) pkt.subs :=
  fillOnly_reaches ready List.length_replicate run

theorem runs_bind (run : (w >>= f).run pkt = some (y, pkt')) :
    ∃ x mid, w.run pkt = some (x, mid) ∧ (f x).run mid = some (y, pkt') := by
  obtain ⟨⟨x, mid⟩, first, later⟩ := Option.bind_eq_some_iff.mp run
  exact ⟨x, mid, first, later⟩

theorem runs_seq (first : w.run pkt = some (x, mid)) (later : (f x).run mid = some (y, pkt')) :
    (w >>= f).run pkt = some (y, pkt') := by
  rw [StateT.run_bind, first]
  exact later

theorem fails_first (first : w.run pkt = none) : (w >>= f).run pkt = none := by
  rw [StateT.run_bind, first]
  rfl

theorem fails_later (first : w.run pkt = some (x, mid)) (later : (f x).run mid = none) :
    (w >>= f).run pkt = none := by
  rw [StateT.run_bind, first]
  exact later

theorem guard_runs [Decidable c] (holds : c) (pkt : Wpacket) :
    (guard c : WpacketM Unit).run pkt = some ((), pkt) := by
  rw [guard, if_pos holds]
  rfl

theorem guard_passes [Decidable c] {x : Unit}
    (run : (guard c : WpacketM Unit).run pkt = some (x, pkt')) : c ∧ pkt' = pkt := by
  by_cases holds : c
  · rw [guard, if_pos holds] at run
    exact ⟨holds, (mk.inj (Option.some.inj run)).2.symm⟩
  · rw [guard, if_neg holds] at run
    contradiction

theorem putBytes_reaches (ready : WpacketReady pkt) {val size : Nat}
    (run : (wpacketPutBytes val size).run pkt = some ((), pkt')) :
    WpacketReaches pkt pkt' (wpacketOut pkt ++ netBytes size val) pkt.subs := by
  obtain ⟨_, start, small, rest⟩ := runs_bind run
  obtain ⟨_, rfl⟩ := guard_passes small
  obtain ⟨dest, mid, filled, later⟩ := runs_bind rest
  obtain ⟨_, rfl⟩ := guard_passes later
  rw [putValue_eq, List.append_nil] at filled
  exact fill_reaches ready (netBytes_length size val) filled

theorem internClose_cases (counted : subU64 pkt.written sub.pwritten = packlen)
    (run : (wpacketInternClose sub parents true).run pkt = some ((), pkt')) :
    (packlen = 0 ∧ sub.flags &&& wpacketFlagsAbandonOnZeroLength ≠ 0 ∧
        pkt' = { pkt with
          written := if subU64 pkt.curr sub.lenbytes = sub.packetLen then
            subU64 pkt.written sub.lenbytes else pkt.written,
          curr := if subU64 pkt.curr sub.lenbytes = sub.packetLen then
            subU64 pkt.curr sub.lenbytes else pkt.curr,
          subs := parents }) ∨
      (packlen = 0 → sub.flags &&& wpacketFlagsAbandonOnZeroLength = 0) ∧
        ∃ mid, (wpacketWriteLength sub parents packlen).run pkt = some ((), mid) ∧
          pkt' = { mid with subs := parents } := by
  obtain ⟨written, pkt1, total, rest1⟩ := runs_bind run
  obtain ⟨rfl, rfl⟩ := mk.inj (Option.some.inj total)
  rw [counted] at rest1
  obtain ⟨_, pkt2, allowed, rest2⟩ := runs_bind rest1
  obtain ⟨_, rfl⟩ := guard_passes allowed
  obtain ⟨sub', pkt3, handled, rest3⟩ := runs_bind rest2
  obtain ⟨_, mid, wrote, last⟩ := runs_bind rest3
  obtain ⟨_, rfl⟩ := mk.inj (Option.some.inj last)
  by_cases abandoned : packlen = 0 ∧ sub.flags &&& wpacketFlagsAbandonOnZeroLength ≠ 0
  · left
    rw [StateT.run, wpacketAbandon, if_pos abandoned] at handled
    obtain ⟨rfl, rfl⟩ := mk.inj (Option.some.inj handled)
    rw [StateT.run, wpacketWriteLength, if_neg (lt_irrefl 0), if_neg (by tauto)] at wrote
    obtain ⟨_, rfl⟩ := mk.inj (Option.some.inj wrote)
    refine ⟨abandoned.1, abandoned.2, ?_⟩
    by_cases back : subU64 pkt2.curr sub.lenbytes = sub.packetLen
    · simp only [if_pos back, if_true]
    · simp only [if_neg back, if_true]
  · right
    rw [StateT.run, wpacketAbandon, if_neg abandoned] at handled
    obtain ⟨rfl, rfl⟩ := mk.inj (Option.some.inj handled)
    exact ⟨by tauto, mid, wrote, rfl⟩

def wpacketEnclosed (lenbytes flags : Nat) (body : List UInt8) : List UInt8 :=
  if body = [] ∧ flags &&& wpacketFlagsAbandonOnZeroLength ≠ 0 then []
  else if lenbytes = 0 then body
  else if flags &&& wpacketFlagsQuicVlint = 0 then netBytes lenbytes body.length ++ body
  else vlintEncodeN body.length lenbytes ++ body

def WpacketFits (lenbytes flags len : Nat) : Prop :=
  lenbytes ≠ 0 →
    if flags &&& wpacketFlagsQuicVlint = 0 then len < 2 ^ (8 * lenbytes)
    else len ≤ vlintMax → len < 2 ^ (8 * lenbytes - 2)

def VlintWide (lenbytes flags : Nat) : Prop :=
  flags &&& wpacketFlagsQuicVlint ≠ 0 → lenbytes ∈ [0, 1, 2, 4, 8]

instance (lenbytes flags : Nat) : Decidable (VlintWide lenbytes flags) :=
  inferInstanceAs (Decidable (_ → _))

theorem readCells_split (mem : Nat → UInt8) (m n : Nat) :
    readCells mem 0 (m + n) = readCells mem 0 m ++ readCells mem m n := by
  simp only [readCells, List.range_add, List.map_append, List.map_map, zero_add]
  rfl

theorem readCells_patch (out : readCells mem 0 n = head ++ (field ++ body))
    (same : bytes.length = field.length) :
    readCells (writeCells mem head.length bytes) 0 n = head ++ (bytes ++ body) := by
  have size := congrArg List.length out
  simp only [readCells_length, List.length_append] at size
  have cell : ∀ i < n, (head ++ (field ++ body))[i]? = some (mem i) := by
    intro i inside
    rw [← out, List.getElem?_eq_getElem (by simpa using inside)]
    simp [readCells]
  apply List.ext_getElem
  · simp only [readCells_length, List.length_append]
    omega
  · intro i first second
    rw [readCells_length] at first
    have old := cell i first
    apply Option.some.inj
    rw [← List.getElem?_eq_getElem second]
    simp only [readCells, List.getElem_map, List.getElem_range, zero_add, writeCells]
    by_cases before : i < head.length
    · rw [if_neg (by omega), List.getElem?_append_left before]
      rw [List.getElem?_append_left before] at old
      exact old.symm
    · rw [if_pos (by omega), List.getElem?_append_right (by omega)]
      rw [List.getElem?_append_right (by omega)] at old
      by_cases patched : i - head.length < bytes.length
      · rw [List.getElem?_append_left patched, List.getD_eq_getElem?_getD,
          List.getElem?_eq_getElem patched, Option.getD_some]
      · rw [List.getElem?_append_right (by omega), List.getD_eq_getElem?_getD,
          List.getElem?_eq_none (by omega), Option.getD_none, same]
        rw [List.getElem?_append_right (by omega)] at old
        exact old.symm

theorem vlintEncodeN_length (wide : n ∈ [1, 2, 4, 8]) : (vlintEncodeN v n).length = n := by
  simp only [List.mem_cons, List.not_mem_nil, or_false] at wide
  rcases wide with rfl | rfl | rfl | rfl <;> rfl

theorem vlintEncodeLen_le (wide : n ∈ [1, 2, 4, 8]) (encodes : v ≤ vlintMax)
    (fits : vlintEncodeLen v ≤ n) : v < 2 ^ (8 * n - 2) := by
  have most : vlintMax = 2 ^ 62 - 1 := rfl
  simp only [List.mem_cons, List.not_mem_nil, or_false] at wide
  unfold vlintEncodeLen at fits
  rcases wide with rfl | rfl | rfl | rfl
  all_goals split_ifs at fits <;> omega

theorem putLength_spec (buffered : wpacketBuffered pkt = true) (field : sub.lenbytes ≠ 0)
    (wide : VlintWide sub.lenbytes sub.flags)
    (run : (wpacketPutLength sub packlen).run pkt = some ((), mid)) :
    WpacketFits sub.lenbytes sub.flags packlen ∧
      ∃ bytes, bytes.length = sub.lenbytes ∧
        mid = { pkt with data := writeCells pkt.data sub.packetLen bytes } ∧
        bytes = if sub.flags &&& wpacketFlagsQuicVlint = 0 then netBytes sub.lenbytes packlen
          else vlintEncodeN packlen sub.lenbytes := by
  rw [StateT.run, wpacketPutLength, if_neg (by simp [buffered])] at run
  by_cases plain : sub.flags &&& wpacketFlagsQuicVlint = 0
  · rw [if_pos plain, putValue_eq, List.append_nil] at run
    dsimp only at run
    split_ifs at run with whole
    obtain ⟨_, rfl⟩ := mk.inj (Option.some.inj run)
    refine ⟨?_, _, netBytes_length _ _, rfl, (if_pos plain).symm⟩
    intro _
    rw [if_pos plain]
    rw [Nat.shiftRight_eq_div_pow] at whole
    exact (Nat.div_eq_zero_iff.mp whole).resolve_left (Nat.two_pow_pos _).ne'
  · rw [if_neg plain] at run
    have sizes : sub.lenbytes ∈ [1, 2, 4, 8] := by
      cases List.mem_cons.mp (wide plain) with
      | inl zero => exact absurd zero field
      | inr size => exact size
    split at run
    · contradiction
    · rename_i bytes put
      obtain ⟨_, rfl⟩ := mk.inj (Option.some.inj run)
      rw [putQuicValue] at put
      split_ifs at put with large
      obtain rfl := Option.some.inj put
      refine ⟨?_, _, vlintEncodeN_length sizes, rfl, (if_neg plain).symm⟩
      intro _
      rw [if_neg plain]
      intro encodes
      exact vlintEncodeLen_le sizes encodes (Nat.le_of_not_lt large)

theorem readCells_head {rest : List UInt8} (out : readCells mem 0 n = head ++ rest) :
    readCells mem 0 head.length = head := by
  have size := congrArg List.length out
  rw [readCells_length, List.length_append] at size
  rw [size, readCells_split] at out
  exact (List.append_inj out (readCells_length _ _ _)).1

theorem buffered_of_written (ready : WpacketReady pkt) (some : pkt.written ≠ 0) :
    wpacketBuffered pkt = true := by
  have real := ready.buffered
  unfold wpacketBuffered
  cases kind : pkt.buf with
  | null => exact absurd kind real
  | staticbuf => rfl
  | buf mem =>
    have := ready.grown mem kind
    simp only [bne_iff_ne]
    omega

/-- A sub-packet that is closed: its field is filled in, or all of it is given back. -/
theorem close_reaches (ready : WpacketReady pkt) (out : wpacketOut pkt = head ++ (field ++ body))
    (len : field.length = sub.lenbytes) (base : sub.pwritten = head.length + sub.lenbytes)
    (place : sub.lenbytes ≠ 0 → sub.packetLen = head.length)
    (wide : VlintWide sub.lenbytes sub.flags)
    (run : (wpacketInternClose sub parents true).run pkt = some ((), pkt')) :
    WpacketReaches pkt pkt' (head ++ wpacketEnclosed sub.lenbytes sub.flags body) parents ∧
      WpacketFits sub.lenbytes sub.flags body.length := by
  have size := (out_length pkt).symm.trans (congrArg List.length out)
  rw [List.length_append, List.length_append, len] at size
  have fits := ready.fits
  have bound := ready.size
  have packlen : subU64 pkt.written sub.pwritten = body.length := by
    rw [subU64_exact (by omega) (by omega)]
    omega
  have written : subU64 pkt.written sub.lenbytes = pkt.written - sub.lenbytes :=
    subU64_exact (by omega) (by omega)
  cases internClose_cases packlen run with
  | inl abandoned =>
    obtain ⟨empty, flag, rfl⟩ := abandoned
    have back : (if subU64 pkt.curr sub.lenbytes = sub.packetLen then
        subU64 pkt.written sub.lenbytes else pkt.written) = head.length := by
      rw [ready.curr, written]
      by_cases none : sub.lenbytes = 0
      · split_ifs <;> omega
      · rw [if_pos (by rw [place none]; omega)]
        omega
    have back' : (if subU64 pkt.curr sub.lenbytes = sub.packetLen then
        subU64 pkt.curr sub.lenbytes else pkt.curr) = head.length := by
      rw [ready.curr] at back ⊢
      exact back
    have enclosed : wpacketEnclosed sub.lenbytes sub.flags body = [] :=
      if_pos ⟨List.length_eq_zero_iff.mp empty, flag⟩
    rw [enclosed, List.append_nil]
    refine ⟨⟨⟨ready.forward, ready.buffered, ?_, ?_, ready.size, ?_⟩, ?_, rfl,
      wpacketKept_same rfl rfl rfl⟩, ?_⟩
    · simp only [back, back']
    · simp only [back]
      omega
    · intro mem kind
      have grown := ready.grown mem kind
      simp only [back]
      omega
    · simp only [wpacketOut, back]
      exact readCells_head out
    · intro _
      rw [empty]
      split_ifs
      · exact Nat.two_pow_pos _
      · exact fun _ => Nat.two_pow_pos _
  | inr closed =>
    obtain ⟨unabandoned, mid, wrote, rfl⟩ := closed
    have not : ¬ (body = [] ∧ sub.flags &&& wpacketFlagsAbandonOnZeroLength ≠ 0) :=
      fun both => both.2 (unabandoned (List.length_eq_zero_iff.mpr both.1))
    rw [wpacketEnclosed, if_neg not]
    rw [StateT.run, wpacketWriteLength] at wrote
    by_cases plain : sub.lenbytes = 0
    · rw [if_neg (by omega), if_neg (by simp [ready.forward])] at wrote
      obtain ⟨_, rfl⟩ := mk.inj (Option.some.inj wrote)
      have nothing := List.length_eq_zero_iff.mp (len.trans plain)
      rw [if_pos plain]
      refine ⟨⟨{ ready with },
        ?_, rfl, wpacketKept_same rfl rfl rfl⟩, fun some => absurd plain some⟩
      rw [nothing, List.nil_append] at out
      exact out
    · rw [if_pos (by omega)] at wrote
      have buffered := buffered_of_written ready (by omega)
      obtain ⟨small, bytes, same, rfl, is⟩ := putLength_spec buffered plain wide wrote
      have room : sub.packetLen + bytes.length ≤ pkt.maxsize := by
        rw [place plain]
        omega
      obtain ⟨same_, longer, outside⟩ := wpacketKept_write room
      refine ⟨⟨{ ready with },
        ?_, rfl, same_, longer, outside⟩, small⟩
      rw [if_neg plain, ← apply_ite (· ++ body), ← is]
      rw [place plain]
      exact readCells_patch out (same.trans len.symm)

/-- A sub-packet that starts: a field of whatever there is, and the sub-packet on the stack. -/
theorem start_reaches {mem : Bool} {lenbytes : Nat} (ready : WpacketReady pkt)
    (run : (wpacketStartSubPacketLen mem lenbytes).run pkt = some ((), pkt')) :
    ∃ field : List UInt8, field.length = lenbytes ∧
      WpacketReaches pkt pkt' (wpacketOut pkt ++ field)
        (⟨if lenbytes = 0 then 0 else pkt.written, lenbytes, pkt.written + lenbytes, 0⟩ ::
          pkt.subs) := by
  have fits := ready.fits
  have bound := ready.size
  rw [StateT.run, wpacketStartSubPacketLen] at run
  by_cases plain : lenbytes = 0
  · have sum : addU64 pkt.written lenbytes = pkt.written + lenbytes := addU64_exact (by omega)
    rw [sum] at run
    simp only [if_pos plain] at run ⊢
    split_ifs at run
    obtain ⟨_, rfl⟩ := mk.inj (Option.some.inj run)
    exact ⟨[], plain.symm, { ready with }, (List.append_nil _).symm, rfl, wpacketKept_same rfl rfl rfl⟩
  · simp only [if_neg plain] at run ⊢
    split_ifs at run
    split at run
    · contradiction
    · rename_i dest grown allocated
      obtain ⟨_, rfl⟩ := mk.inj (Option.some.inj run)
      have opened : WpacketReady { pkt with
          subs := ⟨pkt.written, lenbytes, addU64 pkt.written lenbytes, 0⟩ :: pkt.subs } :=
        { ready with }
      obtain ⟨_, _, ready', written, data⟩ := allocateBytes_allocated opened allocated
      obtain ⟨⟨maxsize, longer, outside⟩, subs⟩ := allocateBytes_kept opened allocated
      have room := ready'.fits
      rw [written, maxsize] at room
      dsimp only at room
      have sum : addU64 pkt.written lenbytes = pkt.written + lenbytes := addU64_exact (by omega)
      rw [sum] at subs
      refine ⟨readCells grown.data pkt.written lenbytes, readCells_length _ _ _, ready', ?_, subs,
        maxsize, longer, outside⟩
      rw [wpacketOut, written, readCells_split]
      apply congrArg (· ++ _)
      apply List.map_congr_left
      intro i inside
      apply data
      simpa using inside

theorem setFlags_reaches {flags : Nat} (ready : WpacketReady pkt)
    (subs : pkt.subs = sub :: parents) (run : (wpacketSetFlags flags).run pkt = some ((), pkt')) :
    WpacketReaches pkt pkt' (wpacketOut pkt) ({ sub with flags := flags } :: parents) := by
  rw [StateT.run, wpacketSetFlags, subs] at run
  obtain ⟨_, rfl⟩ := mk.inj (Option.some.inj run)
  exact ⟨{ ready with }, rfl, rfl,
    wpacketKept_same rfl rfl rfl⟩

theorem vlintEncodeLen_wide (some : vlintEncodeLen v ≠ 0) : vlintEncodeLen v ∈ [1, 2, 4, 8] := by
  unfold vlintEncodeLen at some ⊢
  split_ifs at some ⊢
  all_goals first | exact absurd rfl some | decide

theorem startQuic_reaches {mem : Bool} {maxLen : Nat} (ready : WpacketReady pkt)
    (run : (wpacketStartQuicSubPacketBound mem maxLen).run pkt = some ((), pkt')) :
    vlintEncodeLen maxLen ≠ 0 ∧
      ∃ field : List UInt8, field.length = vlintEncodeLen maxLen ∧
        WpacketReaches pkt pkt' (wpacketOut pkt ++ field)
          (⟨if vlintEncodeLen maxLen = 0 then 0 else pkt.written, vlintEncodeLen maxLen,
            pkt.written + vlintEncodeLen maxLen, wpacketFlagsQuicVlint⟩ :: pkt.subs) := by
  obtain ⟨_, pkt1, encodes, rest⟩ := runs_bind run
  obtain ⟨some, rfl⟩ := guard_passes encodes
  obtain ⟨_, mid, started, last⟩ := runs_bind rest
  obtain ⟨field, len, ready', out, subs, maxsize, longer, outside⟩ := start_reaches ready started
  obtain ⟨_, rfl⟩ := mk.inj (Option.some.inj last)
  simp only [subs]
  exact ⟨some, field, len, { ready' with }, out, by simp, maxsize, longer, outside⟩

end Ossl
