import OpenSSL.WpacketSub
import Mathlib.Data.Nat.Size

/- How crypto/asn1_dsa.c writes a signature: a SEQUENCE of the two INTEGERs r and s in DER. A
   BIGNUM is the number it stands for. -/
namespace Ossl
open Prod Option Nat List BigEndian Codec RingWindow

def idSequence : Nat := 0x30
def idInteger : Nat := 0x02

def osslEncodeDerLength (contLen : Nat) : WpacketM Unit := do
  guard (contLen ≤ 0xffff)
  if 0xff < contLen then do
    wpacketPutBytes 0x82 1
    wpacketPutBytes contLen 2
  else do
    if 0x7f < contLen then wpacketPutBytes 0x81 1
    wpacketPutBytes contLen 1

/- One octet more than there are whole octets, so that the first bit is clear. -/
def derContLen (n : Nat) : Nat := n.size / 8 + 1

def osslEncodeDerInteger (n : Int) : WpacketM Unit := do
  guard (0 ≤ n)
  let contLen := derContLen n.natAbs
  wpacketStartSubPacketLen true 0
  wpacketPutBytes idInteger 1
  osslEncodeDerLength contLen
  let bnbytes ← wpacketAllocateBytes contLen
  wpacketClose
  guard (bnbytes = none ∨ n.natAbs < 2 ^ (8 * contLen))
  wpacketStore bnbytes (netBytes contLen n.natAbs)

def wpacketIsNullBuf : WpacketM Bool := fun pkt => some (decide (pkt.buf = .null), pkt)

def wpacketGetLength : WpacketM Nat := fun pkt =>
  match pkt.subs with
  | [] => none
  | sub :: _ => some (subU64 pkt.written sub.pwritten, pkt)

def derSigContLen (r s : Int) : WpacketM Nat := do
  osslEncodeDerInteger r
  osslEncodeDerInteger s
  wpacketGetLength

def derSigDummy (r s : Int) : WpacketM Nat := fun pkt =>
  match wpacketInitNull true 0 with
  | none => none
  | some tmppkt =>
    match (do
        let contLen ← derSigContLen r s
        wpacketFinish
        pure contLen : WpacketM Nat).run tmppkt with
    | none => none
    | some (contLen, _) => some (contLen, pkt)

def osslEncodeDerDsaSig (r s : Int) : WpacketM Unit := do
  let isnull ← wpacketIsNullBuf
  wpacketStartSubPacketLen true 0
  let contLen ← if isnull then derSigContLen r s else derSigDummy r s
  wpacketPutBytes idSequence 1
  osslEncodeDerLength contLen
  if isnull = false then do
    osslEncodeDerInteger r
    osslEncodeDerInteger s
  wpacketClose

section Writers

/- A writer without a buffer, or with one that does not grow, has room for n more bytes. -/
structure WpacketRoom (pkt : Wpacket) (n : Nat) : Prop where
  forward : pkt.endfirst = false
  fixed : pkt.buf = .null ∨ pkt.buf = .staticbuf
  curr : pkt.curr = pkt.written
  opened : pkt.subs ≠ []
  room : pkt.written + n ≤ pkt.maxsize
  size : pkt.maxsize < 2 ^ 64

def wpacketAppend (pkt : Wpacket) (bytes : List UInt8) : Wpacket :=
  { pkt with
    data := if pkt.buf = .null then pkt.data else writeCells pkt.data pkt.written bytes,
    curr := pkt.written + bytes.length,
    written := pkt.written + bytes.length }

def wpacketPush (pkt : Wpacket) : Wpacket := { pkt with subs := ⟨0, 0, pkt.written, 0⟩ :: pkt.subs }

theorem writeCells_append (mem : Nat → UInt8) (i : Nat) (xs ys : List UInt8) :
    writeCells (writeCells mem i xs) (i + xs.length) ys = writeCells mem i (xs ++ ys) := by
  funext j
  simp only [writeCells, getD_eq_getElem?_getD, getElem?_append]
  by_cases from_ : i ≤ j
  · by_cases first : j - i < xs.length
    · rw [if_neg (by omega), if_pos from_, if_pos from_, if_pos first]
    · rw [if_pos (by omega), if_pos from_, if_pos from_, if_neg first, Nat.sub_sub,
        getElem?_eq_none (by omega : xs.length ≤ j - i), getD_none]
  · rw [if_neg (by omega), if_neg from_, if_neg from_]

theorem wpacketAppend_append (pkt : Wpacket) (xs ys : List UInt8) :
    wpacketAppend (wpacketAppend pkt xs) ys = wpacketAppend pkt (xs ++ ys) := by
  rw [wpacketAppend, wpacketAppend, wpacketAppend]
  simp only [length_append, add_assoc]
  split_ifs with null
  · rfl
  · rw [writeCells_append]

variable {pkt pkt' : Wpacket} {xs : List UInt8} {n r s : Nat}

theorem wpacketAppend_nil (curr : pkt.curr = pkt.written) : wpacketAppend pkt [] = pkt := by
  cases pkt
  dsimp only at curr
  subst curr
  have same (data : Nat → UInt8) (i : Nat) : writeCells data i [] = data := by
    funext j
    simp [writeCells]
  simp [wpacketAppend, same]

variable {ys : List UInt8} {contLen m size val : Nat}

theorem wpacketAppend_null (null : pkt.buf = .null) (same : xs.length = ys.length) :
    wpacketAppend pkt xs = wpacketAppend pkt ys := by
  rw [wpacketAppend, wpacketAppend, if_pos null, if_pos null, same]

theorem room_append (room : WpacketRoom pkt (xs.length + n)) :
    WpacketRoom (wpacketAppend pkt xs) n := by
  refine { room with curr := rfl, room := ?_ }
  have := room.room
  dsimp only [wpacketAppend]
  omega

theorem room_mono (less : n ≤ m) (room : WpacketRoom pkt m) : WpacketRoom pkt n := by
  refine { room with room := ?_ }
  have := room.room
  omega

theorem room_push (room : WpacketRoom pkt n) : WpacketRoom (wpacketPush pkt) n :=
  { room with opened := cons_ne_nil _ _ }

theorem allocate_room (some_ : n ≠ 0) (room : WpacketRoom pkt n) :
    (wpacketAllocateBytes n).run pkt =
      some (if pkt.buf = .null then none else some pkt.written,
        { pkt with curr := pkt.written + n, written := pkt.written + n }) := by
  obtain ⟨forward, fixed, curr, opened, fits, size⟩ := room
  have reserved : wpacketReserveBytes n pkt =
      some (if pkt.buf = .null then none else some pkt.written, pkt) := by
    have closed : ¬ (pkt.subs.isEmpty = true ∨ n = 0) := by simp [opened, some_]
    rw [wpacketReserveBytes, if_neg closed, subU64_exact (by omega) (by omega), if_neg (by omega)]
    cases fixed with
    | inl null => simp [wpacketGrow, wpacketGetCurr, null]
    | inr static => simp [wpacketGrow, wpacketGetCurr, static, forward, curr]
  have run : (wpacketAllocateBytes n).run pkt =
      some (if pkt.buf = .null then none else some pkt.written,
        { pkt with written := addU64 pkt.written n, curr := addU64 pkt.curr n }) := by
    rw [wpacketAllocateBytes, StateT.run_bind]
    simp only [StateT.run, reserved]
    rfl
  rw [run, curr, addU64_exact (by omega)]

theorem store_room (pkt : Wpacket) (bytes : List UInt8) :
    (wpacketStore (if pkt.buf = .null then none else some pkt.written) bytes).run
      { pkt with curr := pkt.written + bytes.length, written := pkt.written + bytes.length } =
    some ((), wpacketAppend pkt bytes) := by
  rw [wpacketAppend]
  by_cases null : pkt.buf = .null
  · rw [if_pos null, if_pos null]
    rfl
  · rw [if_neg null, if_neg null]
    rfl

theorem fill_room {pkt : Wpacket} {bytes : List UInt8} (some_ : bytes.length ≠ 0)
    (room : WpacketRoom pkt bytes.length) : (wpacketFill bytes.length bytes).run pkt =
      some (if pkt.buf = .null then none else some pkt.written, wpacketAppend pkt bytes) :=
  runs_seq (allocate_room some_ room) (runs_seq (store_room pkt bytes) rfl)

theorem putBytes_room (positive : size ≠ 0) (most : size ≤ 8) (fits : val < 2 ^ (8 * size))
    (room : WpacketRoom pkt size) :
    (wpacketPutBytes val size).run pkt = some ((), wpacketAppend pkt (netBytes size val)) := by
  have len := netBytes_length size val
  have filled := @fill_room pkt (netBytes size val) (by rw [len]; exact positive)
    (by rw [len]; exact room)
  have rest : val >>> (8 * size) = 0 := by
    rw [shiftRight_eq_div_pow, div_eq_of_lt fits]
  rw [len] at filled
  apply runs_seq (guard_runs most pkt)
  rw [putValue_eq, append_nil]
  exact runs_seq filled (guard_runs (.inr rest) _)

theorem start_room (room : WpacketRoom pkt n) :
    (wpacketStartSubPacketLen true 0).run pkt = some ((), wpacketPush pkt) := by
  have within := room.room
  have size := room.size
  simp only [wpacketStartSubPacketLen, StateT.run, room.opened, if_false, lt_irrefl, false_and,
    Bool.true_eq_false, if_true]
  rw [addU64_exact (by omega)]
  rfl

theorem internClose_room {pkt : Wpacket} {w : Nat} {subs : List WpacketSub}
    (plain : subs = [] ∨ pkt.endfirst = false) :
    (wpacketInternClose ⟨0, 0, w, 0⟩ subs true).run pkt = some ((), { pkt with subs }) := by
  have abandons (packlen : Nat) : (wpacketAbandon ⟨0, 0, w, 0⟩ packlen true).run pkt =
      some (⟨0, 0, w, 0⟩, pkt) := by
    simp [wpacketAbandon, StateT.run]
  have lengths (packlen : Nat) :
      (wpacketWriteLength ⟨0, 0, w, 0⟩ subs packlen).run pkt = some ((), pkt) := by
    rcases plain with rfl | forward
    · simp [wpacketWriteLength, StateT.run]
    · simp [wpacketWriteLength, StateT.run, forward]
  apply runs_seq (show wpacketGetTotalWritten.run pkt = some (pkt.written, pkt) from rfl)
  apply runs_seq (guard_runs (by simp) pkt)
  exact runs_seq (abandons _) (runs_seq (lengths _) rfl)

theorem close_room {pkt : Wpacket} {w : Nat} {subs : List WpacketSub} (opened : subs ≠ [])
    (forward : pkt.endfirst = false) (inner : pkt.subs = ⟨0, 0, w, 0⟩ :: subs) :
    wpacketClose.run pkt = some ((), { pkt with subs := subs }) := by
  obtain ⟨parent, parents, rfl⟩ := exists_cons_of_ne_nil opened
  rw [← @internClose_room pkt w _ (.inr forward), StateT.run, wpacketClose, inner]

def derLength (contLen : Nat) : List UInt8 :=
  if 0xff < contLen then netBytes 1 0x82 ++ netBytes 2 contLen
  else if 0x7f < contLen then netBytes 1 0x81 ++ netBytes 1 contLen
  else netBytes 1 contLen

theorem putPair_room {x y : Nat} (positive : m ≠ 0 ∧ n ≠ 0) (most : m ≤ 8 ∧ n ≤ 8)
    (fits : x < 2 ^ (8 * m) ∧ y < 2 ^ (8 * n))
    (room : WpacketRoom pkt (netBytes m x ++ netBytes n y).length) :
    (do wpacketPutBytes x m; wpacketPutBytes y n : WpacketM Unit).run pkt =
      some ((), wpacketAppend pkt (netBytes m x ++ netBytes n y)) := by
  rw [length_append, netBytes_length, netBytes_length] at room
  rw [← wpacketAppend_append]
  apply runs_seq (putBytes_room positive.1 most.1 fits.1 (room_mono (by omega) room))
  exact putBytes_room positive.2 most.2 fits.2 (room_append (by rw [netBytes_length]; exact room))

theorem encodeDerLength_room (supported : contLen ≤ 0xffff)
    (room : WpacketRoom pkt (derLength contLen).length) :
    (osslEncodeDerLength contLen).run pkt = some ((), wpacketAppend pkt (derLength contLen)) := by
  apply runs_seq (guard_runs supported pkt)
  rw [derLength] at room ⊢
  by_cases long : 0xff < contLen
  · rw [if_pos long] at room ⊢
    rw [if_pos long]
    exact putPair_room (by decide) (by decide) ⟨by decide, by omega⟩ room
  · rw [if_neg long] at room ⊢
    rw [if_neg long]
    by_cases middle : 0x7f < contLen
    · rw [if_pos middle] at room ⊢
      rw [if_pos middle]
      exact putPair_room (by decide) (by decide) ⟨by decide, by omega⟩ room
    · rw [if_neg middle] at room ⊢
      rw [if_neg middle]
      rw [netBytes_length] at room
      apply runs_seq (show (pure () : WpacketM Unit).run pkt = some ((), pkt) from rfl)
      exact putBytes_room (by decide) (by decide) (by omega) room

def derSigInteger (n : Nat) : List UInt8 :=
  netBytes 1 idInteger ++ derLength (derContLen n) ++ netBytes (derContLen n) n

theorem derContLen_fits (n : Nat) : n < 2 ^ (8 * derContLen n) := by
  apply lt_of_lt_of_le (lt_size_self n)
  apply Nat.pow_le_pow_right (by decide)
  rw [derContLen]
  omega

theorem encodeDerInteger_room (supported : derContLen n ≤ 0xffff)
    (room : WpacketRoom pkt (derSigInteger n).length) :
    (osslEncodeDerInteger n).run pkt = some ((), wpacketAppend pkt (derSigInteger n)) := by
  simp only [derSigInteger, length_append] at room
  have pushed := room_push room
  have tag : (wpacketPutBytes idInteger 1).run (wpacketPush pkt) =
      some ((), wpacketAppend (wpacketPush pkt) (netBytes 1 idInteger)) :=
    putBytes_room (by decide) (by decide) (by decide)
      (room_mono (by rw [netBytes_length]; omega) pushed)
  have tagged : WpacketRoom (wpacketAppend (wpacketPush pkt) (netBytes 1 idInteger))
      ((derLength (derContLen n)).length + (netBytes (derContLen n) n).length) :=
    room_append (room_mono (by omega) pushed)
  have lengthened := room_append tagged
  rw [wpacketAppend_append, netBytes_length (derContLen n)] at lengthened
  have length := encodeDerLength_room supported (room_mono (by omega) tagged)
  rw [wpacketAppend_append] at length
  have content := allocate_room (succ_ne_zero _) lengthened
  have closed := @close_room { wpacketAppend (wpacketPush pkt)
    (netBytes 1 idInteger ++ derLength (derContLen n)) with
      curr := pkt.written + (netBytes 1 idInteger ++ derLength (derContLen n)).length +
        derContLen n,
      written := pkt.written + (netBytes 1 idInteger ++ derLength (derContLen n)).length +
        derContLen n } pkt.written pkt.subs room.opened room.forward rfl
  apply runs_seq (guard_runs (Int.natCast_nonneg n) pkt)
  apply runs_seq (start_room room)
  apply runs_seq tag
  apply runs_seq length
  apply runs_seq content
  apply runs_seq closed
  apply runs_seq (guard_runs (.inr (derContLen_fits n)) _)
  have stored := store_room (wpacketAppend pkt (netBytes 1 idInteger ++ derLength (derContLen n)))
    (netBytes (derContLen n) n)
  rw [wpacketAppend_append, netBytes_length (derContLen n)] at stored
  exact stored

def derSigContent (r s : Nat) : List UInt8 := derSigInteger r ++ derSigInteger s

def derSig (r s : Nat) : List UInt8 :=
  netBytes 1 idSequence ++ derLength (derSigContent r s).length ++ derSigContent r s

theorem derInteger_supported (supported : (derSigInteger n).length ≤ 0xffff) :
    derContLen n ≤ 0xffff := by
  simp only [derSigInteger, length_append, netBytes_length] at supported
  omega

theorem encodeDerIntegers_room (supported : (derSigContent r s).length ≤ 0xffff)
    (room : WpacketRoom pkt (derSigContent r s).length) :
    (osslEncodeDerInteger r).run pkt = some ((), wpacketAppend pkt (derSigInteger r)) ∧
      (osslEncodeDerInteger s).run (wpacketAppend pkt (derSigInteger r)) =
        some ((), wpacketAppend pkt (derSigContent r s)) := by
  rw [derSigContent, length_append] at supported room
  constructor
  · exact encodeDerInteger_room (derInteger_supported (by omega)) (room_mono (by omega) room)
  · rw [derSigContent, ← wpacketAppend_append]
    exact encodeDerInteger_room (derInteger_supported (by omega)) (room_append room)

theorem derSigContLen_room {pkt : Wpacket} {r s w : Nat} {subs : List WpacketSub}
    (inner : pkt.subs = ⟨0, 0, w, 0⟩ :: subs) (start : w = pkt.written)
    (supported : (derSigContent r s).length ≤ 0xffff)
    (room : WpacketRoom pkt (derSigContent r s).length) :
    (derSigContLen r s).run pkt =
      some ((derSigContent r s).length, wpacketAppend pkt (derSigContent r s)) := by
  obtain ⟨first, second⟩ := encodeDerIntegers_room supported room
  have within := room.room
  have size := room.size
  apply runs_seq first
  apply runs_seq second
  have counted : subU64 (pkt.written + (derSigContent r s).length) w =
      (derSigContent r s).length := by
    rw [subU64_exact (by omega) (by omega), start, Nat.add_sub_cancel_left]
  rw [StateT.run, wpacketGetLength]
  dsimp only [wpacketAppend]
  rw [inner]
  dsimp only
  rw [counted]

theorem initNull_room (small : n < 2 ^ 64) : ∃ pkt, wpacketInitNull true 0 = some pkt ∧
    pkt.buf = .null ∧ pkt.subs = [⟨0, 0, 0, 0⟩] ∧ pkt.written = 0 ∧ WpacketRoom pkt n := by
  refine ⟨⟨.null, fun _ => 0, 0, 0, maxmaxsize 0, [⟨0, 0, 0, 0⟩], false⟩, rfl, rfl, rfl, rfl, rfl,
    .inl rfl, rfl, cons_ne_nil _ _, ?_, by decide⟩
  have top : maxmaxsize 0 = 2 ^ 64 - 1 := by decide
  dsimp only
  omega

theorem finish_room {pkt : Wpacket} {w : Nat} (inner : pkt.subs = [⟨0, 0, w, 0⟩]) :
    wpacketFinish.run pkt = some ((), { pkt with subs := [] }) := by
  rw [← @internClose_room pkt w [] (.inl rfl), StateT.run, wpacketFinish, inner]

/-- The length is calculated without a buffer, and the writer stays as it is. -/
theorem derSigDummy_run (supported : (derSigContent r s).length ≤ 0xffff) (pkt : Wpacket) :
    (derSigDummy r s).run pkt = some ((derSigContent r s).length, pkt) := by
  obtain ⟨tmppkt, init, null, subs, start, room⟩ :=
    initNull_room (n := (derSigContent r s).length) (by omega)
  have counts := derSigContLen_room (w := 0) subs start.symm supported room
  have finished := @finish_room (wpacketAppend tmppkt (derSigContent r s)) 0 subs
  have whole : (do
      let contLen ← derSigContLen r s
      wpacketFinish
      pure contLen : WpacketM Nat).run tmppkt = some ((derSigContent r s).length,
        { wpacketAppend tmppkt (derSigContent r s) with subs := [] }) :=
    runs_seq counts (runs_seq finished rfl)
  rw [StateT.run, derSigDummy, init]
  dsimp only
  rw [whole]

/-- A writer with room gets the signature, with a buffer or without. -/
theorem encodeDerDsaSig_room (supported : (derSigContent r s).length ≤ 0xffff)
    (room : WpacketRoom pkt (derSig r s).length) :
    (osslEncodeDerDsaSig r s).run pkt = some ((), wpacketAppend pkt (derSig r s)) := by
  simp only [derSig, length_append] at room
  have pushed := room_push room
  have tag {before : List UInt8} (left : WpacketRoom (wpacketAppend (wpacketPush pkt) before)
      ((netBytes 1 idSequence).length + (derLength (derSigContent r s).length).length)) :
      (wpacketPutBytes idSequence 1).run (wpacketAppend (wpacketPush pkt) before) =
        some ((), wpacketAppend (wpacketPush pkt) (before ++ netBytes 1 idSequence)) := by
    rw [← wpacketAppend_append]
    exact putBytes_room (by decide) (by decide) (by decide)
      (room_mono (by rw [netBytes_length]; omega) left)
  have length {before : List UInt8} (left : WpacketRoom (wpacketAppend (wpacketPush pkt) before)
      ((netBytes 1 idSequence).length + (derLength (derSigContent r s).length).length)) :
      (osslEncodeDerLength (derSigContent r s).length).run
          (wpacketAppend (wpacketPush pkt) (before ++ netBytes 1 idSequence)) =
        some ((), wpacketAppend (wpacketPush pkt)
          (before ++ netBytes 1 idSequence ++ derLength (derSigContent r s).length)) := by
    rw [← wpacketAppend_append _ (before ++ _), ← wpacketAppend_append _ before]
    exact encodeDerLength_room supported (room_append left)
  have close (bytes : List UInt8) : wpacketClose.run (wpacketAppend (wpacketPush pkt) bytes) =
      some ((), wpacketAppend pkt bytes) :=
    @close_room (wpacketAppend (wpacketPush pkt) bytes) pkt.written pkt.subs room.opened
      room.forward rfl
  cases room.fixed with
  | inl null =>
    have isnull : wpacketIsNullBuf.run pkt = some (true, pkt) := by
      simp [wpacketIsNullBuf, StateT.run, null]
    have counts := @derSigContLen_room (wpacketPush pkt) r s pkt.written pkt.subs rfl rfl supported
      (room_mono (by omega) pushed)
    have left : WpacketRoom (wpacketAppend (wpacketPush pkt) (derSigContent r s))
        ((netBytes 1 idSequence).length + (derLength (derSigContent r s).length).length) :=
      room_append (room_mono (by omega) pushed)
    apply runs_seq isnull
    apply runs_seq (start_room room)
    apply runs_seq counts
    apply runs_seq (tag left)
    apply runs_seq (length left)
    show wpacketClose.run _ = _
    rw [close]
    -- without a buffer the order of the parts makes no difference
    have same : (derSigContent r s ++ netBytes 1 idSequence ++
        derLength (derSigContent r s).length).length = (derSig r s).length := by
      simp only [derSig, length_append]
      omega
    rw [wpacketAppend_null null same]
  | inr static =>
    have isnull : wpacketIsNullBuf.run pkt = some (false, pkt) := by
      simp [wpacketIsNullBuf, StateT.run, static]
    have left : WpacketRoom (wpacketAppend (wpacketPush pkt) [])
        ((netBytes 1 idSequence).length + (derLength (derSigContent r s).length).length) :=
      room_append (room_mono (by simp only [length_nil]; omega) pushed)
    have body : WpacketRoom (wpacketAppend (wpacketPush pkt)
        (netBytes 1 idSequence ++ derLength (derSigContent r s).length))
        (derSigContent r s).length :=
      room_append (room_mono (by rw [length_append]) pushed)
    have empty := wpacketAppend_nil pushed.curr
    obtain ⟨first, second⟩ := encodeDerIntegers_room supported body
    rw [wpacketAppend_append, wpacketAppend_append] at second
    rw [wpacketAppend_append] at first
    have putTag := tag left
    have putLength := length left
    rw [empty] at putTag
    rw [nil_append] at putTag putLength
    apply runs_seq isnull
    apply runs_seq (start_room room)
    apply runs_seq (derSigDummy_run supported _)
    apply runs_seq putTag
    apply runs_seq putLength
    show (osslEncodeDerInteger r >>= fun _ => osslEncodeDerInteger s >>= fun _ =>
      wpacketClose).run _ = _
    apply runs_seq first
    apply runs_seq second
    exact close _

/-- A step that leaves the writer with these bytes more, in the same sub-packets. -/
structure WpacketPuts (pkt pkt' : Wpacket) (bytes : List UInt8) : Prop where
  ready : WpacketReady pkt'
  out : wpacketOut pkt' = wpacketOut pkt ++ bytes
  subs : pkt'.subs = pkt.subs

theorem puts_trans {a b c : Wpacket} (first : WpacketPuts a b xs) (second : WpacketPuts b c ys) :
    WpacketPuts a c (xs ++ ys) :=
  ⟨second.ready, by rw [second.out, first.out, append_assoc], second.subs.trans first.subs⟩

theorem putBytes_puts (ready : WpacketReady pkt)
    (run : (wpacketPutBytes val size).run pkt = some ((), pkt')) :
    WpacketPuts pkt pkt' (netBytes size val) := by
  have reaches := putBytes_reaches ready run
  exact { reaches with }

theorem encodeDerLength_puts (ready : WpacketReady pkt)
    (run : (osslEncodeDerLength contLen).run pkt = some ((), pkt')) :
    WpacketPuts pkt pkt' (derLength contLen) := by
  obtain ⟨_, start, supported, rest⟩ := runs_bind run
  obtain ⟨_, rfl⟩ := guard_passes supported
  rw [derLength]
  split_ifs at rest ⊢ with long middle
  · obtain ⟨_, mid, first, second⟩ := runs_bind rest
    have put := putBytes_puts ready first
    exact puts_trans put (putBytes_puts put.ready second)
  · obtain ⟨_, mid, first, second⟩ := runs_bind rest
    have put := putBytes_puts ready first
    exact puts_trans put (putBytes_puts put.ready second)
  · exact putBytes_puts ready rest

theorem push_ready (ready : WpacketReady pkt) : WpacketReady (wpacketPush pkt) :=
  { ready with }

theorem start_ready (ready : WpacketReady pkt)
    (run : (wpacketStartSubPacketLen true 0).run pkt = some ((), pkt')) :
    pkt.subs ≠ [] ∧ pkt' = wpacketPush pkt := by
  have within := ready.fits
  have size := ready.size
  by_cases opened : pkt.subs = []
  · simp [wpacketStartSubPacketLen, StateT.run, opened] at run
  · simp only [wpacketStartSubPacketLen, StateT.run, opened, if_false, lt_irrefl, false_and,
      Bool.true_eq_false, if_true] at run
    rw [addU64_exact (by omega)] at run
    exact ⟨opened, (mk.inj (some.inj run)).2.symm⟩

theorem stored_later {mid : Wpacket} {bytes : List UInt8}
    (written : mid.written = pkt.written + bytes.length)
    (data : ∀ i < pkt.written, mid.data i = pkt.data i) :
    wpacketOut { mid with data := writeCells mid.data pkt.written bytes } =
      wpacketOut pkt ++ bytes := by
  have old : readCells mid.data 0 pkt.written = readCells pkt.data 0 pkt.written := by
    apply map_congr_left
    intro i inside
    rw [zero_add]
    exact data i (mem_range.mp inside)
  simp only [wpacketOut, written]
  rw [readCells_write, old]

theorem encodeDerInteger_puts (ready : WpacketReady pkt)
    (run : (osslEncodeDerInteger n).run pkt = some ((), pkt')) :
    WpacketPuts pkt pkt' (derSigInteger n) := by
  obtain ⟨_, _, positive, afterSign⟩ := runs_bind run
  obtain ⟨_, rfl⟩ := guard_passes positive
  obtain ⟨_, pushed, starts, afterStart⟩ := runs_bind afterSign
  obtain ⟨opened, rfl⟩ := start_ready ready starts
  obtain ⟨_, tagged, tags, afterTag⟩ := runs_bind afterStart
  have tag := putBytes_puts (push_ready ready) tags
  obtain ⟨_, lengthened, lengths, afterLength⟩ := runs_bind afterTag
  have head := puts_trans tag (encodeDerLength_puts tag.ready lengths)
  obtain ⟨dest, allocated, allocates, afterContent⟩ := runs_bind afterLength
  obtain ⟨isDest, _, ready', written, data⟩ := allocateBytes_allocated head.ready allocates
  have inner := (allocateBytes_kept head.ready allocates).2.trans head.subs
  obtain ⟨_, closed, closes, afterClose⟩ := runs_bind afterContent
  rw [close_room opened ready'.forward inner] at closes
  obtain ⟨_, rfl⟩ := mk.inj (some.inj closes)
  obtain ⟨_, _, fits, stores⟩ := runs_bind afterClose
  obtain ⟨_, rfl⟩ := guard_passes fits
  rw [isDest] at stores
  obtain ⟨_, rfl⟩ := mk.inj (some.inj stores)
  have content : (netBytes (derContLen n) n).length = derContLen n := netBytes_length _ _
  rw [Int.natAbs_natCast, ← content] at written
  have out := stored_later written data
  rw [head.out] at out
  refine ⟨{ ready' with },
    ?_, rfl⟩
  rw [derSigInteger, ← append_assoc]
  exact out

/-- A writer with a buffer that takes the signature has its bytes. -/
theorem encodeDerDsaSig_puts (ready : WpacketReady pkt)
    (supported : (derSigContent r s).length ≤ 0xffff)
    (run : (osslEncodeDerDsaSig r s).run pkt = some ((), pkt')) :
    WpacketPuts pkt pkt' (derSig r s) := by
  have isnull : wpacketIsNullBuf.run pkt = some (false, pkt) := by
    simp [wpacketIsNullBuf, StateT.run, ready.buffered]
  obtain ⟨isnull', same, asked, afterAsked⟩ := runs_bind run
  obtain ⟨rfl, rfl⟩ := mk.inj (some.inj (isnull.symm.trans asked))
  obtain ⟨_, pushed, starts, afterStart⟩ := runs_bind afterAsked
  obtain ⟨opened, rfl⟩ := start_ready ready starts
  obtain ⟨contLen, counted, counts, afterCount⟩ := runs_bind afterStart
  have dummy : (derSigDummy r s).run (wpacketPush pkt) = some (contLen, counted) := counts
  rw [derSigDummy_run supported] at dummy
  obtain ⟨rfl, rfl⟩ := mk.inj (some.inj dummy)
  obtain ⟨_, tagged, tags, afterTag⟩ := runs_bind afterCount
  have tag := putBytes_puts (push_ready ready) tags
  obtain ⟨_, lengthened, lengths, afterLength⟩ := runs_bind afterTag
  have head := puts_trans tag (encodeDerLength_puts tag.ready lengths)
  have integers : (osslEncodeDerInteger r >>= fun _ => osslEncodeDerInteger s >>= fun _ =>
      wpacketClose).run lengthened = some ((), pkt') := afterLength
  obtain ⟨_, first, putsR, afterR⟩ := runs_bind integers
  have one := encodeDerInteger_puts head.ready putsR
  obtain ⟨_, second, putsS, closes⟩ := runs_bind afterR
  have both := puts_trans one (encodeDerInteger_puts one.ready putsS)
  have whole := puts_trans head both
  rw [close_room opened whole.ready.forward whole.subs] at closes
  obtain ⟨_, rfl⟩ := mk.inj (some.inj closes)
  have done_ := whole.ready
  exact ⟨{ done_ with },
    whole.out, rfl⟩

end Writers

end Ossl
