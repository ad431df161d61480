import OpenSSL.Lib.RingWindow
import OpenSSL.Word

/- The byte ring buffer of include/internal/ring_buf.h. A pointer into it is the index of a cell.
   Bytes from the cull tail up to the head are live; a write may pass the head and leave a hole
   behind it. -/
namespace Ossl
open Nat List RingWindow

structure RingBuf where
  start : Nat → UInt8
  alloc : Nat
  headOffset : Nat
  ctailOffset : Nat

def maxOffset : Nat := 2 ^ 62

def ringBufInit : RingBuf := ⟨fun _ => 0, 0, 0, 0⟩

def ringBufUsed (r : RingBuf) : Nat := subU64 r.headOffset r.ctailOffset

def ringBufAvail (r : RingBuf) : Nat := subU64 r.alloc (ringBufUsed r)

def ringBufWriteRounds : Nat → RingBuf → Nat → List UInt8 → RingBuf
  | 0, r, _, _ => r
  | i + 1, r, logicalOffset, buf =>
    if buf.length = 0 then r
    else
      let idx := logicalOffset % r.alloc
      let l := min (r.alloc - idx) buf.length
      ringBufWriteRounds i
        { r with
          start := writeCells r.start idx (buf.take l)
          headOffset := max r.headOffset (addU64 logicalOffset l) }
        (addU64 logicalOffset l) (buf.drop l)

def ringBufWriteAt (r : RingBuf) (logicalOffset : Nat) (buf : List UInt8) : Bool × RingBuf :=
  let avail := ringBufAvail r
  let bottom := safeAddU64 logicalOffset buf.length
  let top := safeAddU64 r.headOffset avail
  let grown := safeAddU64 r.headOffset buf.length
  if logicalOffset < r.ctailOffset ∨ top.1 < bottom.1 ∨ maxOffset < grown.1 ∨
      bottom.2 ∨ top.2 ∨ grown.2 then (false, r)
  else (true, ringBufWriteRounds 2 r logicalOffset buf)

def ringBufPushLen (r : RingBuf) (bufLen : Nat) : Nat :=
  min (min bufLen (ringBufAvail r)) (subU64 maxOffset r.headOffset)

/- The loop of ring_buf_push, with the number of bytes it pushes. Every round
   but the last pushes a byte, so one round more than there are bytes is enough. -/
def ringBufPushRounds : Nat → RingBuf → List UInt8 → Nat × RingBuf
  | 0, r, _ => (0, r)
  | i + 1, r, buf =>
    let bufLen := ringBufPushLen r buf.length
    if bufLen = 0 then (0, r)
    else
      let idx := r.headOffset % r.alloc
      let l := min (r.alloc - idx) bufLen
      let later := ringBufPushRounds i
        { r with
          start := writeCells r.start idx (buf.take l)
          headOffset := addU64 r.headOffset l }
        ((buf.take bufLen).drop l)
      (l + later.1, later.2)

def ringBufPush (r : RingBuf) (buf : List UInt8) : Nat × RingBuf :=
  ringBufPushRounds (buf.length + 1) r buf

def ringBufGetPtr (r : RingBuf) (logicalOffset : Nat) : Option (Nat × Nat) :=
  if r.headOffset ≤ logicalOffset ∨ logicalOffset < r.ctailOffset then none
  else
    let idx := logicalOffset % r.alloc
    some (idx, r.alloc - idx)

def ringBufGetBufAt (r : RingBuf) (logicalOffset : Nat) : Option (Nat × Nat) :=
  if r.headOffset < logicalOffset ∨ logicalOffset < r.ctailOffset then none
  else if r.alloc = 0 then some (0, 0)
  else
    let idx := logicalOffset % r.alloc
    some (idx, min (subU64 r.headOffset logicalOffset) (r.alloc - idx))

def cleanseCells (mem : Nat → UInt8) (idx len : Nat) : Nat → UInt8 :=
  writeCells mem idx (replicate len 0)

def ringBufCleanse (r : RingBuf) (stop : Nat) : Nat → UInt8 :=
  let idx := r.ctailOffset % r.alloc
  let l := subU64 (min (addU64 stop 1) r.headOffset) r.ctailOffset
  if r.alloc - idx < l then
    cleanseCells (cleanseCells r.start idx (r.alloc - idx)) 0 (l - (r.alloc - idx))
  else cleanseCells r.start idx l

def ringBufCpopRange (r : RingBuf) (start stop : Nat) (cleanse : Bool) : RingBuf :=
  if r.ctailOffset < start ∨ maxOffset ≤ stop then r
  else
    { r with
      start := if cleanse ∧ 0 < r.alloc ∧ r.ctailOffset < stop then ringBufCleanse r stop else r.start
      ctailOffset := addU64 stop 1
      -- unpushed data may be culled
      headOffset := max r.headOffset (addU64 stop 1) }

def ringBufCopyRounds : Nat → RingBuf → RingBuf → Nat → Option RingBuf
  | 0, _, _, _ => none
  | i + 1, r, rnew, copied =>
    match ringBufGetBufAt r (addU64 r.ctailOffset copied) with
    | none => none
    | some (src, srcLen) =>
      if srcLen = 0 then some rnew
      else
        let pushed := ringBufPush rnew (readCells r.start src srcLen)
        if pushed.1 ≠ srcLen then none
        else ringBufCopyRounds i r pushed.2 (copied + srcLen)

/- mem tells whether the allocation succeeds. The wiping of the old buffer before
   it is freed leaves no trace here. -/
def ringBufResize (mem : Bool) (r : RingBuf) (numBytes : Nat) : Bool × RingBuf :=
  if numBytes = r.alloc then (true, r)
  else if numBytes < ringBufUsed r then (false, r)
  else if mem = false then (false, r)
  else
    let base := subU64 r.headOffset (ringBufUsed r)
    match ringBufCopyRounds (ringBufUsed r + 1) r ⟨fun _ => 0, numBytes, base, base⟩ 0 with
    | none => (false, r)
    | some rnew => (true, { rnew with ctailOffset := r.ctailOffset })

structure RingOk (r : RingBuf) : Prop where
  ordered : r.ctailOffset ≤ r.headOffset
  fits : r.headOffset ≤ r.ctailOffset + r.alloc
  headBound : r.headOffset < 2 ^ 64
  allocBound : r.alloc < 2 ^ 64

/-- The offsets that have a cell of their own. -/
def RingBuf.Window (r : RingBuf) (x : Nat) : Prop := r.ctailOffset ≤ x ∧ x < r.ctailOffset + r.alloc

theorem ringBufInit_ok : RingOk ringBufInit := by
  constructor <;> simp [ringBufInit]

variable {r : RingBuf} {stream : Nat → UInt8} {P : Set Nat}

theorem ringBufUsed_eq (ok : RingOk r) : ringBufUsed r = r.headOffset - r.ctailOffset :=
  subU64_exact ok.headBound ok.ordered

theorem ringBufAvail_eq (ok : RingOk r) :
    ringBufAvail r = r.alloc - (r.headOffset - r.ctailOffset) := by
  have := ok.fits
  rw [ringBufAvail, ringBufUsed_eq ok, subU64_exact ok.allocBound (by omega)]

/-- What a write of the bytes at the offset does to the buffer. -/
structure RingWrote (r r' : RingBuf) (off : Nat) (bytes : List UInt8) : Prop where
  ok : RingOk r'
  alloc : r'.alloc = r.alloc
  ctail : r'.ctailOffset = r.ctailOffset
  head : r'.headOffset = if bytes.length = 0 then r.headOffset
    else max r.headOffset (off + bytes.length)
  holds : ∀ (stream : Nat → UInt8) (P : Set Nat), (∀ x ∈ P, r.Window x) →
    Holds r.alloc r.start stream P → Carries stream off bytes →
    Holds r'.alloc r'.start stream (P ∪ Set.Ico off (off + bytes.length))

theorem ringWrote_nothing (ok : RingOk r) (off : Nat) : RingWrote r r off [] :=
  ⟨ok, rfl, rfl, by simp, fun _ _ _ holds _ => by simpa using holds⟩

variable {off stop : Nat}

theorem ringWrote_chunk (ok : RingOk r) (bytes : List UInt8) (low : r.ctailOffset ≤ off)
    (high : off + bytes.length ≤ r.ctailOffset + r.alloc) (bound : off + bytes.length < 2 ^ 64)
    (some : bytes.length ≠ 0) (room : off % r.alloc + bytes.length ≤ r.alloc) : RingWrote r
      { r with
        start := writeCells r.start (off % r.alloc) bytes
        headOffset := max r.headOffset (off + bytes.length) } off bytes := by
  have fits := ok.fits
  have headBound := ok.headBound
  refine ⟨⟨?_, ?_, ?_, ok.allocBound⟩, rfl, rfl, by simp [some], ?_⟩
  · simp only; omega
  · simp only; omega
  · simp only; omega
  · intro stream P window holds carries
    exact holds_write room low high window holds carries

theorem ringWrote_trans {s t : RingBuf} {mid : Nat} {xs ys : List UInt8}
    (first : RingWrote r s off xs) (second : RingWrote s t mid ys) (meet : mid = off + xs.length)
    (low : r.ctailOffset ≤ off) (high : off + xs.length ≤ r.ctailOffset + r.alloc)
    (some : xs.length ≠ 0) : RingWrote r t off (xs ++ ys) := by
  subst meet
  refine ⟨second.ok, second.alloc.trans first.alloc, second.ctail.trans first.ctail, ?_, ?_⟩
  · rw [second.head, first.head, if_neg some]
    simp only [length_append]
    split_ifs <;> omega
  · intro stream P window holds carries
    obtain ⟨left, right⟩ := carries_append.mp carries
    have inner := first.holds stream P window holds left
    refine holds_mono ?_ (second.holds stream _ ?_ inner right)
    · intro x hx
      simp only [Set.mem_union, Set.mem_Ico, length_append] at hx ⊢
      rcases hx with hx | hx
      · exact .inl (.inl hx)
      · omega
    · rintro x (hx | hx)
      · simpa only [RingBuf.Window, first.ctail, first.alloc] using window x hx
      · simp only [RingBuf.Window, first.ctail, first.alloc]
        simp only [Set.mem_Ico] at hx
        omega

theorem next_first_cell {alloc : Nat} (off : Nat) (positive : 0 < alloc) :
    (off + (alloc - off % alloc)) % alloc = 0 := by
  have idx := mod_lt off positive
  have split := div_add_mod off alloc
  have total : off + (alloc - off % alloc) = alloc * (off / alloc + 1) := by
    rw [Nat.mul_add]; omega
  rw [total, mul_mod_right]

theorem ringBufWriteRounds_wrote (ok : RingOk r) (off : Nat) (buf : List UInt8)
    (low : r.ctailOffset ≤ off) (high : off + buf.length ≤ r.ctailOffset + r.alloc)
    (bound : off + buf.length < 2 ^ 64) {rounds : Nat}
    (enough : buf.length = 0 ∨ buf.length ≤ r.alloc - off % r.alloc ∧ 1 ≤ rounds ∨
      buf.length ≤ r.alloc ∧ 2 ≤ rounds) :
    RingWrote r (ringBufWriteRounds rounds r off buf) off buf := by
  induction rounds generalizing r off buf with
  | zero =>
    have empty : buf = [] := length_eq_zero_iff.mp (by omega)
    exact empty ▸ ringWrote_nothing ok off
  | succ i ih =>
    rw [ringBufWriteRounds]
    split
    · rename_i empty
      rw [length_eq_zero_iff.mp empty]
      exact ringWrote_nothing ok off
    · rename_i some
      have positive : 0 < r.alloc := by have := ok.fits; have := ok.ordered; omega
      have idx := mod_lt off positive
      have wraps := next_first_cell off positive
      simp only
      generalize hl : min (r.alloc - off % r.alloc) buf.length = l
      have len : (buf.take l).length = l := by rw [length_take]; omega
      have rest : (buf.drop l).length = buf.length - l := length_drop
      rw [addU64_exact (by omega)]
      have chunk := ringWrote_chunk ok (buf.take l) low (by omega) (by omega) (by omega) (by omega)
      rw [len] at chunk
      have later := ih chunk.ok (off + l) (buf.drop l)
        (by rw [chunk.ctail]; omega) (by rw [chunk.ctail, chunk.alloc]; omega) (by omega) (by
          rw [chunk.alloc, rest]
          by_cases fits : buf.length ≤ r.alloc - off % r.alloc
          · omega
          · have full : l = r.alloc - off % r.alloc := by omega
            rw [full, wraps]; omega)
      have both := ringWrote_trans chunk later (by omega) low (by omega) (by omega)
      rwa [take_append_drop] at both

/-- A write that succeeds lies inside the window; one that fails changes nothing. -/
theorem ringBufWriteAt_wrote (ok : RingOk r) (off : Nat) (buf : List UInt8) :
    ringBufWriteAt r off buf = (false, r) ∨
      ∃ r', ringBufWriteAt r off buf = (true, r') ∧ RingWrote r r' off buf ∧
        r.ctailOffset ≤ off ∧ off + buf.length ≤ r.ctailOffset + r.alloc := by
  have fits := ok.fits
  rw [ringBufWriteAt]
  split
  · exact .inl rfl
  · rename_i passes
    simp only [safeAddU64, ringBufAvail_eq ok, not_or, decide_eq_true_eq] at passes
    obtain ⟨low, high, _, noWrap, topFits, _⟩ := passes
    rw [addU64_exact (by omega), addU64_exact (by omega)] at high
    have inside : off + buf.length ≤ r.ctailOffset + r.alloc := by omega
    exact .inr ⟨_, rfl, ringBufWriteRounds_wrote ok off buf (by omega) inside (by omega) (by omega),
      by omega, inside⟩

theorem ringBufPushLen_eq (ok : RingOk r) (quic : r.headOffset ≤ maxOffset) (n : Nat) :
    ringBufPushLen r n =
      min (min n (r.ctailOffset + r.alloc - r.headOffset)) (maxOffset - r.headOffset) := by
  have ordered := ok.ordered
  have avail : r.alloc - (r.headOffset - r.ctailOffset) =
      r.ctailOffset + r.alloc - r.headOffset := by omega
  rw [ringBufPushLen, ringBufAvail_eq ok, subU64_exact (by decide) quic, avail]

theorem ringBufPushRounds_wrote (ok : RingOk r) (quic : r.headOffset ≤ maxOffset)
    (buf : List UInt8) {rounds : Nat} (enough : buf.length < rounds) :
    (ringBufPushRounds rounds r buf).1 = ringBufPushLen r buf.length ∧
      RingWrote r (ringBufPushRounds rounds r buf).2 r.headOffset
        (buf.take (ringBufPushLen r buf.length)) := by
  induction rounds generalizing r buf with
  | zero => omega
  | succ i ih =>
    have ordered := ok.ordered
    have fits := ok.fits
    have limit : maxOffset < 2 ^ 64 := by decide
    have eq := ringBufPushLen_eq ok quic buf.length
    rw [ringBufPushRounds]
    simp only
    generalize hn : ringBufPushLen r buf.length = n at eq ⊢
    obtain ⟨given, room, below⟩ : n ≤ buf.length ∧
        r.headOffset + n ≤ r.ctailOffset + r.alloc ∧ r.headOffset + n ≤ maxOffset := by omega
    by_cases none : n = 0
    · rw [if_pos none, none, take_zero]
      exact ⟨rfl, ringWrote_nothing ok _⟩
    · rw [if_neg none]
      have positive : 0 < r.alloc := by omega
      have idx := mod_lt r.headOffset positive
      generalize hl : min (r.alloc - r.headOffset % r.alloc) n = l
      obtain ⟨least, some_, inside⟩ : l ≤ n ∧ 0 < l ∧ r.headOffset % r.alloc + l ≤ r.alloc := by
        omega
      have len : (buf.take l).length = l := by rw [length_take]; omega
      have rest : ((buf.take n).drop l).length = n - l := by
        rw [length_drop, length_take]; omega
      rw [addU64_exact (by omega)]
      have chunk := ringWrote_chunk ok (buf.take l) ordered (by omega) (by omega)
        (by omega) (by omega)
      rw [len, max_eq_right (by omega : r.headOffset ≤ r.headOffset + l)] at chunk
      have later := ih chunk.ok (by simp only; omega) ((buf.take n).drop l) (by omega)
      have remaining := ringBufPushLen_eq chunk.ok (by simp only; omega) (n - l)
      simp only at remaining
      have exactly : ringBufPushLen { r with
          start := writeCells r.start (r.headOffset % r.alloc) (buf.take l)
          headOffset := r.headOffset + l } ((buf.take n).drop l).length = n - l := by
        rw [rest, remaining]; omega
      have whole : ((buf.take n).drop l).take (n - l) = (buf.take n).drop l :=
        take_of_length_le (by omega)
      rw [exactly, whole] at later
      refine ⟨by rw [later.1]; omega, ?_⟩
      have both := ringWrote_trans chunk later.2 (by simp only; omega) ordered (by omega) (by omega)
      have joined : buf.take l ++ (buf.take n).drop l = buf.take n := by
        rw [drop_take, ← take_add]
        congr 1; omega
      rwa [joined] at both

theorem ringBufPush_wrote (ok : RingOk r) (quic : r.headOffset ≤ maxOffset) (buf : List UInt8) :
    (ringBufPush r buf).1 = ringBufPushLen r buf.length ∧
      RingWrote r (ringBufPush r buf).2 r.headOffset (buf.take (ringBufPushLen r buf.length)) :=
  ringBufPushRounds_wrote ok quic buf (lt_succ_self _)

theorem ring_read_carries (holds : Holds r.alloc r.start stream P) (off len : Nat)
    (room : off % r.alloc + len ≤ r.alloc) (sub : ∀ x, off ≤ x → x < off + len → x ∈ P) :
    Carries stream off (readCells r.start (off % r.alloc) len) :=
  readCells_carries holds room sub

structure RingCulled (r r' : RingBuf) (tail : Nat) : Prop where
  ok : RingOk r'
  alloc : r'.alloc = r.alloc
  ctail : r'.ctailOffset = tail
  head : r'.headOffset = max r.headOffset tail
  holds : ∀ {stream : Nat → UInt8} {P : Set Nat}, (∀ x ∈ P, r.Window x ∧ tail ≤ x) →
    Holds r.alloc r.start stream P → Holds r'.alloc r'.start stream P

theorem holds_cleanse {cap lo : Nat} (off len : Nat) {mem : Nat → UInt8}
    (room : off % cap + len ≤ cap) (low : lo ≤ off) (high : off + len ≤ lo + cap)
    (window : ∀ x ∈ P, lo ≤ x ∧ x < lo + cap) (later : ∀ x ∈ P, off + len ≤ x)
    (holds : Holds cap mem stream P) : Holds cap (cleanseCells mem (off % cap) len) stream P := by
  refine holds_untouched (by simpa using room) low (by simpa using high) window ?_ holds
  intro x hx
  exact .inr (by simpa using later x hx)

theorem ringBufCleanse_holds (ok : RingOk r) (positive : 0 < r.alloc)
    (past : r.ctailOffset ≤ stop) (bound : stop + 1 < 2 ^ 64)
    (window : ∀ x ∈ P, r.Window x ∧ stop + 1 ≤ x) (holds : Holds r.alloc r.start stream P) :
    Holds r.alloc (ringBufCleanse r stop) stream P := by
  have ordered := ok.ordered
  have fits := ok.fits
  have idx := mod_lt r.ctailOffset positive
  have inside : ∀ x ∈ P, r.ctailOffset ≤ x ∧ x < r.ctailOffset + r.alloc :=
    fun x hx => (window x hx).1
  rw [ringBufCleanse, addU64_exact bound, subU64_exact (by omega) (by omega)]
  generalize hl : min (stop + 1) r.headOffset - r.ctailOffset = l
  have later : ∀ x ∈ P, r.ctailOffset + l ≤ x := by
    intro x hx; have := (window x hx).2; omega
  split
  · rename_i wraps
    have first := holds_cleanse r.ctailOffset (r.alloc - r.ctailOffset % r.alloc) (by omega)
      (le_refl r.ctailOffset) (by omega) inside
      (fun x hx => by have := later x hx; omega) holds
    have second := holds_cleanse (r.ctailOffset + (r.alloc - r.ctailOffset % r.alloc))
      (l - (r.alloc - r.ctailOffset % r.alloc))
      (by rw [next_first_cell _ positive]; omega) (by omega : r.ctailOffset ≤ _) (by omega) inside
      (fun x hx => by have := later x hx; omega) first
    rwa [next_first_cell _ positive] at second
  · exact holds_cleanse _ _ (by omega) (le_refl _) (by omega) inside later holds

theorem ringBufCpopRange_culled (ok : RingOk r) {start : Nat} (cleanse : Bool)
    (low : start ≤ r.ctailOffset) (past : r.ctailOffset ≤ stop + 1) (quic : stop < maxOffset) :
    RingCulled r (ringBufCpopRange r start stop cleanse) (stop + 1) := by
  have fits := ok.fits
  have headBound := ok.headBound
  have limit : maxOffset < 2 ^ 64 - 1 := by decide
  rw [ringBufCpopRange, if_neg (by omega), addU64_exact (by omega)]
  refine ⟨⟨?_, ?_, ?_, ok.allocBound⟩, rfl, rfl, rfl, ?_⟩
  · simp only; omega
  · simp only; omega
  · simp only; omega
  · intro stream P window holds
    split
    · rename_i wipes
      exact ringBufCleanse_holds ok wipes.2.1 (by omega) (by omega) window holds
    · exact holds

/-- What a change of the size does to the buffer: the live bytes stay. -/
structure RingResized (r r' : RingBuf) (numBytes : Nat) : Prop where
  ok : RingOk r'
  alloc : r'.alloc = numBytes
  ctail : r'.ctailOffset = r.ctailOffset
  head : r'.headOffset = r.headOffset
  holds : ∀ {stream : Nat → UInt8} {P : Set Nat},
    (∀ x ∈ P, r.ctailOffset ≤ x ∧ x < r.headOffset) →
    Holds r.alloc r.start stream P → Holds r'.alloc r'.start stream P

/- The loop has copied the first live bytes to the new buffer. -/
structure RingCopied (r rnew : RingBuf) (copied : Nat) : Prop where
  ok : RingOk rnew
  ctail : rnew.ctailOffset = r.ctailOffset
  head : rnew.headOffset = r.ctailOffset + copied
  holds : ∀ stream : Nat → UInt8,
    Holds r.alloc r.start stream (Set.Ico r.ctailOffset r.headOffset) →
    Holds rnew.alloc rnew.start stream (Set.Ico r.ctailOffset (r.ctailOffset + copied))

theorem ringBufCopyRounds_resized {rnew : RingBuf} (ok : RingOk r)
    (quic : r.headOffset ≤ maxOffset) (rounds : Nat) {copied : Nat}
    (state : RingCopied r rnew copied) (big : r.headOffset ≤ r.ctailOffset + rnew.alloc)
    (part : r.ctailOffset + copied ≤ r.headOffset)
    (enough : r.headOffset < r.ctailOffset + copied + rounds) :
    ∃ t, ringBufCopyRounds rounds r rnew copied = some t ∧
      RingCopied r t (r.headOffset - r.ctailOffset) ∧ t.alloc = rnew.alloc := by
  induction rounds generalizing rnew copied with
  | zero => omega
  | succ i ih =>
    have headBound := ok.headBound
    have fits := ok.fits
    have done : r.headOffset = r.ctailOffset + copied →
        RingCopied r rnew (r.headOffset - r.ctailOffset) := by
      intro all
      have same : r.headOffset - r.ctailOffset = copied := by omega
      exact same ▸ state
    rw [ringBufCopyRounds, addU64_exact (by omega), ringBufGetBufAt, if_neg (by omega)]
    by_cases empty : r.alloc = 0
    · rw [if_pos empty]
      exact ⟨rnew, rfl, done (by omega), rfl⟩
    · rw [if_neg empty, subU64_exact headBound part]
      have positive : 0 < r.alloc := by omega
      have idx := mod_lt (r.ctailOffset + copied) positive
      simp only
      generalize hn : min (r.headOffset - (r.ctailOffset + copied))
        (r.alloc - (r.ctailOffset + copied) % r.alloc) = n
      by_cases last : n = 0
      · rw [if_pos last]
        exact ⟨rnew, rfl, done (by omega), rfl⟩
      · rw [if_neg last]
        obtain ⟨within, cell⟩ : r.ctailOffset + copied + n ≤ r.headOffset ∧
            (r.ctailOffset + copied) % r.alloc + n ≤ r.alloc := by omega
        generalize hbytes : readCells r.start ((r.ctailOffset + copied) % r.alloc) n = bytes
        have len : bytes.length = n := by rw [← hbytes, readCells_length]
        have quicNew : rnew.headOffset ≤ maxOffset := by rw [state.head]; omega
        obtain ⟨count, wrote⟩ := ringBufPush_wrote state.ok quicNew bytes
        have all : ringBufPushLen rnew bytes.length = n := by
          rw [ringBufPushLen_eq state.ok quicNew, len, state.ctail, state.head]; omega
        rw [all] at count wrote
        rw [take_of_length_le (by omega)] at wrote
        rw [if_neg (by omega)]
        have next : RingCopied r (ringBufPush rnew bytes).2 (copied + n) := by
          refine ⟨wrote.ok, wrote.ctail.trans state.ctail, ?_, ?_⟩
          · rw [wrote.head, len, if_neg last, state.head]; omega
          · intro stream whole
            have carries : Carries stream rnew.headOffset bytes := by
              rw [state.head, ← hbytes]
              refine ring_read_carries whole _ _ (by omega) ?_
              intro x low high
              exact ⟨by omega, by omega⟩
            have grown := wrote.holds stream _ ?_ (state.holds stream whole) carries
            · refine holds_mono ?_ grown
              intro x hx
              simp only [Set.mem_union, Set.mem_Ico, state.head, len] at hx ⊢
              omega
            · intro x hx
              simp only [Set.mem_Ico] at hx
              simp only [RingBuf.Window, state.ctail]
              omega
        obtain ⟨t, run, final, same⟩ := ih next (by rw [wrote.alloc]; exact big) (by omega) (by omega)
        exact ⟨t, run, final, same.trans wrote.alloc⟩

theorem ringBufResize_resized (ok : RingOk r) (quic : r.headOffset ≤ maxOffset) (mem : Bool)
    {numBytes : Nat} (bound : numBytes < 2 ^ 64) : ringBufResize mem r numBytes = (false, r) ∨
      ∃ r', ringBufResize mem r numBytes = (true, r') ∧ RingResized r r' numBytes := by
  have ordered := ok.ordered
  have headBound := ok.headBound
  rw [ringBufResize, ringBufUsed_eq ok]
  split_ifs with same small none
  · exact .inr ⟨r, rfl, ok, same.symm, rfl, rfl, fun _ holds => holds⟩
  · exact .inl rfl
  · exact .inl rfl
  · have base : subU64 r.headOffset (r.headOffset - r.ctailOffset) = r.ctailOffset := by
      rw [subU64_exact headBound (by omega)]; omega
    have start : RingCopied r ⟨fun _ => 0, numBytes, r.ctailOffset, r.ctailOffset⟩ 0 := by
      refine ⟨⟨le_refl _, by simp, by simp only; omega, bound⟩, rfl, rfl, ?_⟩
      intro stream _ x hx
      simp at hx
    obtain ⟨t, run, copied, alloc⟩ := ringBufCopyRounds_resized ok quic
      (r.headOffset - r.ctailOffset + 1) start (by simp only; omega) (by omega) (by omega)
    have head : t.headOffset = r.headOffset := by rw [copied.head]; omega
    rw [base]
    simp only [run]
    refine .inr ⟨_, rfl, ⟨⟨?_, ?_, ?_, ?_⟩, alloc, rfl, head, ?_⟩⟩
    · simp only [head]; exact ordered
    · simp only [head, alloc]; omega
    · simp only [head]; exact headBound
    · simp only [alloc]; exact bound
    · intro stream P live holds
      -- the loop copies every live byte, so read the stream off the old cells
      have copy := copied.holds (fun x => r.start (x % r.alloc)) (fun _ _ => rfl)
      intro x hx
      have here := live x hx
      rw [← holds x hx]
      exact copy x ⟨here.1, by omega⟩

end Ossl
