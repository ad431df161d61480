import Mathlib.Data.List.Basic
import OpenSSL.Lib.BigEndian

/- Key wrapping of wrap128.c, over memory: the input and the output may overlap. The block cipher is
   a parameter. -/
namespace Ossl
open BigEndian List

structure Memory where
  byte : Nat → UInt8
  written : Nat → Bool

def readMem (m : Memory) (p n : Nat) : List UInt8 := (range n).map fun k => m.byte (p + k)

def writeMem (m : Memory) (p : Nat) (bytes : List UInt8) : Memory where
  byte k := if p ≤ k ∧ k < p + bytes.length then bytes.getD (k - p) 0 else m.byte k
  written k := m.written k || decide (p ≤ k ∧ k < p + bytes.length)

abbrev Block128 := List UInt8 → List UInt8

abbrev WrapState := List UInt8 × List UInt8

def defaultIv : List UInt8 := replicate 8 0xA6

def defaultAiv : List UInt8 := [0xA6, 0x59, 0x59, 0xA6]

def crypto128WrapMax : Nat := 2 ^ 31

def xorCounter (t : Nat) (a : List UInt8) : List UInt8 :=
  let high :=
    if t > 0xff then [UInt8.ofNat (t >>> 24), UInt8.ofNat (t >>> 16), UInt8.ofNat (t >>> 8)]
    else [0, 0, 0]
  zipWith (· ^^^ ·) a ([0, 0, 0, 0] ++ high ++ [UInt8.ofNat t])

def cryptHalf (before after : List UInt8 → List UInt8) (block : Block128)
    (s : WrapState) (i : Nat) : WrapState :=
  let b := block (before s.1 ++ (s.2.drop i).take 8)
  (after (b.take 8), s.2.take i ++ (b.drop 8 ++ s.2.drop (i + 8)))

def wrapStep (block : Block128) (s : WrapState) (it : Nat × Nat) :
    WrapState :=
  cryptHalf id (xorCounter it.2) block s it.1

def unwrapStep (block : Block128) (s : WrapState) (it : Nat × Nat) :
    WrapState :=
  cryptHalf (xorCounter it.2) id block s it.1

def halves (n : Nat) : List Nat := (range n).map (8 * ·)

def wrapSteps (n : Nat) : List (Nat × Nat) :=
  (replicate 6 (halves n)).flatten.zip (range' 1 (6 * n))

def unwrapSteps (n : Nat) : List (Nat × Nat) :=
  (replicate 6 (halves n).reverse).flatten.zip (range' 1 (6 * n)).reverse

def crypto128Wrap (block : Block128) (iv : Option (List UInt8)) (m : Memory)
    (out inp inlen : Nat) : Nat × Memory :=
  if inlen % 8 ≠ 0 ∨ inlen < 16 ∨ inlen > crypto128WrapMax then (0, m)
  else
    let s := (wrapSteps (inlen / 8)).foldl (wrapStep block) (iv.getD defaultIv, readMem m inp inlen)
    (inlen + 8, writeMem (writeMem m (out + 8) s.2) out s.1)

/- With the register that is left. A length under 8 wraps to one above the limit. -/
def crypto128UnwrapRaw (block : Block128) (m : Memory) (out inp inlen : Nat) :
    Nat × List UInt8 × Memory :=
  if inlen < 8 then (0, [], m)
  else
    let len := inlen - 8
    if len % 8 ≠ 0 ∨ len < 16 ∨ len > crypto128WrapMax then (0, [], m)
    else
      let s := (unwrapSteps (len / 8)).foldl (unwrapStep block)
        (readMem m inp 8, readMem m (inp + 8) len)
      (len, s.1, writeMem m out s.2)

def crypto128Unwrap (block : Block128) (iv : Option (List UInt8)) (m : Memory)
    (out inp inlen : Nat) : Nat × Memory :=
  let (ret, gotIv, m) := crypto128UnwrapRaw block m out inp inlen
  if ret = 0 then (0, m)
  else if gotIv ≠ iv.getD defaultIv then (0, writeMem m out (replicate ret 0))
  else (ret, m)

def crypto128WrapPad (block : Block128) (icv : Option (List UInt8))
    (m : Memory) (out inp inlen : Nat) : Nat × Memory :=
  let blocksPadded := (inlen + 7) / 8
  let paddedLen := blocksPadded * 8
  let paddingLen := paddedLen - inlen
  if inlen = 0 ∨ inlen ≥ crypto128WrapMax then (0, m)
  else
    let aiv := icv.getD defaultAiv ++ netBytes 4 inlen
    if paddedLen = 8 then
      let m := writeMem m (out + 8) (readMem m inp inlen)
      let m := writeMem m out aiv
      let m := writeMem m (out + 8 + inlen) (replicate paddingLen 0)
      (16, writeMem m out (block (readMem m out 16)))
    else
      let m := writeMem m out (readMem m inp inlen)
      let m := writeMem m (out + inlen) (replicate paddingLen 0)
      crypto128Wrap block (some aiv) m out out paddedLen

def padUnwrapped (block : Block128) (m : Memory) (out inp inlen : Nat) :
    Bool × List UInt8 × Memory :=
  if inlen = 16 then
    let buff := block (readMem m inp 16)
    (true, buff.take 8, writeMem m out (buff.drop 8))
  else
    let (ret, aiv, m) := crypto128UnwrapRaw block m out inp inlen
    (decide (ret = inlen - 8), aiv, m)

def unwrapPadRefuses (inlen : Nat) : Prop := inlen % 8 ≠ 0 ∨ inlen < 16 ∨ inlen ≥ crypto128WrapMax

instance (inlen : Nat) : Decidable (unwrapPadRefuses inlen) := by
  unfold unwrapPadRefuses
  infer_instance

def padChecks (icv : Option (List UInt8)) (aiv : List UInt8) (m : Memory) (out inlen : Nat) :
    Prop :=
  let n := inlen / 8 - 1
  let ptextLen := netValue (aiv.drop 4)
  let paddingLen := inlen - 8 - ptextLen
  aiv.take 4 = icv.getD defaultAiv ∧ ¬(8 * (n - 1) ≥ ptextLen ∨ ptextLen > 8 * n) ∧
    readMem m (out + ptextLen) paddingLen = replicate paddingLen 0

instance (icv : Option (List UInt8)) (aiv : List UInt8) (m : Memory) (out inlen : Nat) :
    Decidable (padChecks icv aiv m out inlen) := by
  unfold padChecks
  infer_instance

/- Whatever check fails, the output is erased as far as the input was long. -/
def crypto128UnwrapPad (block : Block128) (icv : Option (List UInt8))
    (m : Memory) (out inp inlen : Nat) : Nat × Memory :=
  if unwrapPadRefuses inlen then (0, m)
  else
    let (whole, aiv, m) := padUnwrapped block m out inp inlen
    if whole ∧ padChecks icv aiv m out inlen then (netValue (aiv.drop 4), m)
    else (0, writeMem m out (replicate inlen 0))

section
variable {m : Memory} {p q n i : Nat} {bytes : List UInt8}

theorem readMem_length : (readMem m p n).length = n := by simp [readMem]

theorem readMem_append (m : Memory) (p a b : Nat) :
    readMem m p (a + b) = readMem m p a ++ readMem m (p + a) b := by
  simp [readMem, range_add, Function.comp_def, add_assoc]

theorem readMem_write (whole : n = bytes.length) : readMem (writeMem m p bytes) p n = bytes := by
  subst whole
  apply ext_getElem readMem_length
  intro k _ inside
  simp [readMem, writeMem, inside]

theorem readMem_apart (apart : q + n ≤ p ∨ p + bytes.length ≤ q) :
    readMem (writeMem m p bytes) q n = readMem m q n := by
  apply map_congr_left
  intro k inside
  have := mem_range.mp inside
  exact if_neg (by omega)

theorem readMem_pieces {first second : List UInt8} {a b : Nat} (isA : first.length = a)
    (isB : second.length = b) :
    readMem (writeMem (writeMem m (p + a) second) p first) p (b + a) = first ++ second := by
  subst isA isB
  rw [add_comm second.length, readMem_append, readMem_write rfl,
    readMem_apart (.inr (le_refl _)), readMem_write rfl]

theorem readMem_joined {first second : List UInt8} {a b : Nat} (isA : first.length = a)
    (isB : second.length = b) :
    readMem (writeMem (writeMem m p first) (p + a) second) p (a + b) = first ++ second := by
  subst isA isB
  rw [readMem_append, readMem_apart (.inl (le_refl _)), readMem_write rfl, readMem_write rfl]

theorem xorCounter_length (t : Nat) {a : List UInt8} (whole : a.length = 8) :
    (xorCounter t a).length = 8 := by
  unfold xorCounter
  split <;> simp [whole]

theorem xorCounter_undo (t : Nat) {a : List UInt8} (whole : a.length = 8) :
    xorCounter t (xorCounter t a) = a := by
  have twice (b : List UInt8) (same : b.length = 8) :
      zipWith (· ^^^ ·) (zipWith (· ^^^ ·) a b) b = a := by
    apply ext_getElem
    · simp [whole, same]
    · intro k _ _
      simp [UInt8.xor_assoc]
  unfold xorCounter
  split <;> exact twice _ rfl

variable {before after undoBefore undoAfter block inverse : List UInt8 → List UInt8}
  {s : WrapState}

theorem cryptHalf_sizes (kept : ∀ b : List UInt8, b.length = 16 → (block b).length = 16)
    (sizeB : ∀ a : List UInt8, a.length = 8 → (before a).length = 8)
    (sizeA : ∀ a : List UInt8, a.length = 8 → (after a).length = 8) (whole : s.1.length = 8)
    (inside : i + 8 ≤ s.2.length) :
    (cryptHalf before after block s i).1.length = 8 ∧
      (cryptHalf before after block s i).2.length = s.2.length := by
  have size := kept (before s.1 ++ (s.2.drop i).take 8) (by simp [sizeB _ whole]; omega)
  refine ⟨sizeA _ (by simp [size]), ?_⟩
  simp [cryptHalf, size]
  omega

theorem cryptHalf_undo (kept : ∀ b : List UInt8, b.length = 16 → (block b).length = 16)
    (undo : ∀ b : List UInt8, b.length = 16 → inverse (block b) = b)
    (sizeB : ∀ a : List UInt8, a.length = 8 → (before a).length = 8)
    (undoB : ∀ a : List UInt8, a.length = 8 → undoBefore (before a) = a)
    (undoA : ∀ a : List UInt8, a.length = 8 → undoAfter (after a) = a) (whole : s.1.length = 8)
    (inside : i + 8 ≤ s.2.length) :
    cryptHalf undoAfter undoBefore inverse (cryptHalf before after block s i) i = s := by
  obtain ⟨a, r⟩ := s
  have size : (before a ++ (r.drop i).take 8).length = 16 := by
    simp [sizeB _ whole] at inside ⊢
    omega
  have back := undo _ size
  have sizeX := kept _ size
  have at_ : (r.take i).length = i := by
    simp at inside ⊢
    omega
  unfold cryptHalf
  dsimp only
  generalize block (before a ++ (r.drop i).take 8) = b at *
  rw [undoA _ (by simp [sizeX]), drop_left' at_, take_left' (by simp [sizeX]), take_append_drop,
    back, take_left' (sizeB _ whole), undoB _ whole, drop_left' (sizeB _ whole), take_left' at_,
    ← drop_drop, drop_left' at_, drop_left' (by simp [sizeX]), ← drop_drop, take_append_drop,
    take_append_drop]

end

theorem foldl_undone {σ ρ : Type} {f g : σ → ρ → σ} {inv : σ → Prop} {l : List ρ}
    (step : ∀ s x, x ∈ l → inv s → inv (f s x) ∧ g (f s x) x = s) {s : σ} (start : inv s) :
    inv (l.foldl f s) ∧ l.reverse.foldl g (l.foldl f s) = s := by
  induction l generalizing s with
  | nil => exact ⟨start, rfl⟩
  | cons x l ih =>
    have here := step s x mem_cons_self start
    have rest := ih (fun s y inside => step s y (mem_cons_of_mem x inside)) here.1
    refine ⟨rest.1, ?_⟩
    rw [reverse_cons, foldl_append, foldl_cons, foldl_cons, rest.2]
    exact here.2

theorem unwrapSteps_eq (n : Nat) : unwrapSteps n = (wrapSteps n).reverse := by
  have same : (replicate 6 (halves n)).flatten.length = (range' 1 (6 * n)).length := by
    simp [halves]
    omega
  unfold wrapSteps unwrapSteps
  rw [zip, reverse_zipWith same, reverse_flatten]
  simp

theorem step_inside {n : Nat} {it : Nat × Nat} (member : it ∈ wrapSteps n) :
    it.1 + 8 ≤ 8 * n := by
  have := of_mem_zip member
  simp [halves] at this
  omega

def Halves (n : Nat) (s : WrapState) : Prop := s.1.length = 8 ∧ s.2.length = 8 * n

structure CipherPair (block inverse : Block128) : Prop where
  size : ∀ b : List UInt8, b.length = 16 → (block b).length = 16
  undo : ∀ b : List UInt8, b.length = 16 → inverse (block b) = b

theorem id_pair : CipherPair id id := ⟨fun _ is => is, fun _ _ => rfl⟩

section
variable {block inverse : Block128} {s : WrapState} {n : Nat}

theorem wrap_undone (pair : CipherPair block inverse) (start : Halves n s) :
    Halves n ((wrapSteps n).foldl (wrapStep block) s) ∧
      (unwrapSteps n).foldl (unwrapStep inverse) ((wrapSteps n).foldl (wrapStep block) s) = s := by
  rw [unwrapSteps_eq]
  refine foldl_undone ?_ start
  rintro s ⟨i, t⟩ member ⟨whole, size⟩
  have inside := step_inside member
  rw [← size] at inside
  have sizes := cryptHalf_sizes pair.size (fun _ is => is) (fun _ is => xorCounter_length t is)
    whole inside
  exact ⟨⟨sizes.1, sizes.2.trans size⟩, cryptHalf_undo pair.size pair.undo (fun _ is => is)
    (fun _ _ => rfl) (fun _ is => xorCounter_undo t is) whole inside⟩

theorem unwrap_undone (pair : CipherPair inverse block) (start : Halves n s) :
    Halves n ((unwrapSteps n).foldl (unwrapStep inverse) s) ∧
      (wrapSteps n).foldl (wrapStep block) ((unwrapSteps n).foldl (unwrapStep inverse) s) = s := by
  rw [unwrapSteps_eq]
  have undone := foldl_undone (l := (wrapSteps n).reverse) (g := wrapStep block)
    (f := unwrapStep inverse) ?_ start
  · rwa [reverse_reverse] at undone
  rintro s ⟨i, t⟩ member ⟨whole, size⟩
  have inside := step_inside (mem_reverse.mp member)
  rw [← size] at inside
  have sizes := cryptHalf_sizes pair.size (fun _ is => xorCounter_length t is) (fun _ is => is)
    whole inside
  exact ⟨⟨sizes.1, sizes.2.trans size⟩, cryptHalf_undo pair.size pair.undo
    (fun _ is => xorCounter_length t is) (fun _ is => xorCounter_undo t is) (fun _ _ => rfl) whole
    inside⟩

def wrapHalves (block : Block128) (n : Nat) (s : WrapState) :
    WrapState :=
  if n = 1 then ((block (s.1 ++ s.2)).take 8, (block (s.1 ++ s.2)).drop 8)
  else (wrapSteps n).foldl (wrapStep block) s

def unwrapHalves (block : Block128) (n : Nat) (s : WrapState) :
    WrapState :=
  if n = 1 then ((block (s.1 ++ s.2)).take 8, (block (s.1 ++ s.2)).drop 8)
  else (unwrapSteps n).foldl (unwrapStep block) s

theorem block_undone (pair : CipherPair block inverse) (start : Halves 1 s) :
    Halves 1 ((block (s.1 ++ s.2)).take 8, (block (s.1 ++ s.2)).drop 8) ∧
      ((inverse ((block (s.1 ++ s.2)).take 8 ++ (block (s.1 ++ s.2)).drop 8)).take 8,
        (inverse ((block (s.1 ++ s.2)).take 8 ++ (block (s.1 ++ s.2)).drop 8)).drop 8) = s := by
  have whole : (s.1 ++ s.2).length = 16 := by rw [length_append, start.1, start.2]
  rw [take_append_drop, pair.undo _ whole, take_left' start.1, drop_left' start.1]
  refine ⟨⟨?_, ?_⟩, rfl⟩ <;> simp [pair.size _ whole]

theorem wrapHalves_undone (pair : CipherPair block inverse) (start : Halves n s) :
    Halves n (wrapHalves block n s) ∧ unwrapHalves inverse n (wrapHalves block n s) = s := by
  unfold wrapHalves unwrapHalves
  by_cases one : n = 1
  · subst one
    exact block_undone pair start
  · rw [if_neg one, if_neg one]
    exact wrap_undone pair start

theorem unwrapHalves_undone (pair : CipherPair inverse block) (start : Halves n s) :
    Halves n (unwrapHalves inverse n s) ∧ wrapHalves block n (unwrapHalves inverse n s) = s := by
  unfold wrapHalves unwrapHalves
  by_cases one : n = 1
  · subst one
    exact block_undone pair start
  · rw [if_neg one, if_neg one]
    exact unwrap_undone pair start

end

section
variable {enc dec : Block128} {m m2 : Memory} {iv : Option (List UInt8)} {n : Nat}

def halvesAt (m : Memory) (p n : Nat) : WrapState := (readMem m p 8, readMem m (p + 8) (8 * n))

theorem halvesAt_halves (m : Memory) (p n : Nat) : Halves n (halvesAt m p n) :=
  ⟨readMem_length, readMem_length⟩

theorem read_halvesAt (m : Memory) (p n : Nat) :
    readMem m p (8 * n + 8) = (halvesAt m p n).1 ++ (halvesAt m p n).2 := by
  rw [add_comm, readMem_append]
  rfl

theorem wrap_reads (pair : CipherPair enc dec) (register : (iv.getD defaultIv).length = 8)
    (some_ : 2 ≤ n) (room : 8 * n ≤ crypto128WrapMax) (m : Memory) (out inp : Nat) :
    (crypto128Wrap enc iv m out inp (8 * n)).1 = 8 * n + 8 ∧
      readMem (crypto128Wrap enc iv m out inp (8 * n)).2 out (8 * n + 8) =
        (wrapHalves enc n (iv.getD defaultIv, readMem m inp (8 * n))).1 ++
          (wrapHalves enc n (iv.getD defaultIv, readMem m inp (8 * n))).2 := by
  have sizes := (wrapHalves_undone pair (s := (iv.getD defaultIv, readMem m inp (8 * n)))
    ⟨register, readMem_length⟩).1
  unfold wrapHalves at sizes ⊢
  rw [if_neg (by omega)] at sizes ⊢
  rw [crypto128Wrap, if_neg (by omega), Nat.mul_div_cancel_left n (by decide)]
  refine ⟨rfl, ?_⟩
  exact readMem_pieces sizes.1 sizes.2

theorem raw_reads (some_ : 2 ≤ n) (room : 8 * n ≤ crypto128WrapMax) (m : Memory)
    (out inp : Nat) : crypto128UnwrapRaw dec m out inp (8 * n + 8) =
      (8 * n, (unwrapHalves dec n (halvesAt m inp n)).1,
        writeMem m out (unwrapHalves dec n (halvesAt m inp n)).2) := by
  unfold unwrapHalves
  rw [if_neg (by omega), crypto128UnwrapRaw, if_neg (by omega), Nat.add_sub_cancel,
    if_neg (by omega), Nat.mul_div_cancel_left n (by decide)]
  rfl

/- What wrap_pad wraps, if it does not refuse. -/
def paddedHalves (icv : Option (List UInt8)) (plain : List UInt8) : WrapState :=
  (icv.getD defaultAiv ++ netBytes 4 plain.length,
    plain ++ replicate ((plain.length + 7) / 8 * 8 - plain.length) 0)

theorem paddedHalves_whole {icv : Option (List UInt8)}
    (register : (icv.getD defaultAiv).length = 4) (plain : List UInt8) :
    Halves ((plain.length + 7) / 8) (paddedHalves icv plain) := by
  refine ⟨by simp [paddedHalves, register], ?_⟩
  simp only [paddedHalves, length_append, length_replicate]
  omega

theorem wrapPad_reads (pair : CipherPair enc dec) {icv : Option (List UInt8)}
    (register : (icv.getD defaultAiv).length = 4) {len : Nat} (some_ : 0 < len)
    (room : len < crypto128WrapMax) (count : (len + 7) / 8 = n) (m : Memory) (out inp : Nat)
    {s : WrapState}
    (is : s = wrapHalves enc n (paddedHalves icv (readMem m inp len))) :
    Halves n (paddedHalves icv (readMem m inp len)) ∧
      (crypto128WrapPad enc icv m out inp len).1 = 8 * n + 8 ∧
      readMem (crypto128WrapPad enc icv m out inp len).2 out (8 * n + 8) = s.1 ++ s.2 := by
  have size : (readMem m inp len).length = len := readMem_length
  have padding : (replicate (n * 8 - len) (0 : UInt8)).length = n * 8 - len := length_replicate
  have header : (icv.getD defaultAiv ++ netBytes 4 len).length = 8 := by simp [register]
  have halves_ : paddedHalves icv (readMem m inp len) = (icv.getD defaultAiv ++ netBytes 4 len,
      readMem m inp len ++ replicate (n * 8 - len) 0) := by
    rw [paddedHalves, size, count]
  have whole : Halves n (paddedHalves icv (readMem m inp len)) := by
    have whole := paddedHalves_whole register (readMem m inp len)
    rwa [size, count] at whole
  refine ⟨whole, ?_⟩
  have sizes := (wrapHalves_undone pair whole).1
  have joined : 8 * n = len + (n * 8 - len) := by omega
  have short : len < 2 ^ 31 := room
  rw [← is] at sizes
  rw [crypto128WrapPad, if_neg (by omega), count]
  dsimp only
  by_cases one : n = 1
  · have data : readMem (writeMem (writeMem (writeMem m (out + 8) (readMem m inp len)) out
        (icv.getD defaultAiv ++ netBytes 4 len)) (out + 8 + len) (replicate (n * 8 - len) 0)) out
          16 = icv.getD defaultAiv ++ netBytes 4 len ++
            (readMem m inp len ++ replicate (n * 8 - len) 0) := by
      rw [show 16 = 8 + (len + (n * 8 - len)) by omega, readMem_append, readMem_append _ (out + 8),
        readMem_apart (.inl (by omega)), readMem_write header.symm,
        readMem_apart (.inl (le_refl _)), readMem_apart (.inr (by omega)),
        readMem_write size.symm, readMem_write padding.symm]
    have block : s.1 ++ s.2 = enc (icv.getD defaultAiv ++ netBytes 4 len ++
        (readMem m inp len ++ replicate (n * 8 - len) 0)) := by
      rw [is, wrapHalves, if_pos one, take_append_drop, halves_]
    rw [if_pos (by omega), data, ← block]
    exact ⟨by omega, readMem_write (by rw [length_append, sizes.1, sizes.2]; omega)⟩
  · have data : readMem (writeMem (writeMem m out (readMem m inp len)) (out + len)
        (replicate (n * 8 - len) 0)) out (8 * n) =
          readMem m inp len ++ replicate (n * 8 - len) 0 := by
      rw [joined]
      exact readMem_joined size padding
    have wrote := @wrap_reads _ _ (some (icv.getD defaultAiv ++ netBytes 4 len)) _ pair header
      (by omega : 2 ≤ n) (show 8 * n ≤ 2 ^ 31 by omega)
      (writeMem (writeMem m out (readMem m inp len)) (out + len) (replicate (n * 8 - len) 0)) out out
    rw [data, Option.getD_some, ← halves_, ← is, mul_comm 8] at wrote
    rw [if_neg (by omega), mul_comm 8]
    exact wrote

/- What unwrap_pad has before its checks. -/
theorem padUnwrapped_eq (some_ : 1 ≤ n) (room : 8 * n + 8 < crypto128WrapMax) (m : Memory)
    (out inp : Nat) : padUnwrapped dec m out inp (8 * n + 8) =
      (true, (unwrapHalves dec n (halvesAt m inp n)).1,
        writeMem m out (unwrapHalves dec n (halvesAt m inp n)).2) := by
  unfold padUnwrapped
  by_cases one : n = 1
  · subst one
    rw [if_pos rfl, unwrapHalves, if_pos rfl, ← read_halvesAt]
  · rw [if_neg (by omega), raw_reads (by omega) (by omega)]
    simp

theorem pad_accepts_iff {inlen : Nat} :
    ¬unwrapPadRefuses inlen ↔ ∃ n, 1 ≤ n ∧ inlen = 8 * n + 8 ∧ 8 * n + 8 < crypto128WrapMax := by
  unfold unwrapPadRefuses
  constructor
  · intro accepts
    exact ⟨inlen / 8 - 1, by omega, by omega, by omega⟩
  · rintro ⟨n, some_, rfl, room⟩
    omega

/- Where the erased output ends decides whether something after the output was written. -/
theorem unwrapPad_written_iff (pair : CipherPair dec enc) (fresh : ∀ k, m.written k = false)
    (icv : Option (List UInt8)) (out inp inlen : Nat) :
    (∀ k, (crypto128UnwrapPad dec icv m out inp inlen).2.written k = true →
      out ≤ k ∧ k < out + (inlen - 8)) ↔ unwrapPadRefuses inlen ∨
        padChecks icv (padUnwrapped dec m out inp inlen).2.1
          (padUnwrapped dec m out inp inlen).2.2 out inlen := by
  unfold crypto128UnwrapPad
  by_cases refused : unwrapPadRefuses inlen
  · simp [refused, fresh]
  obtain ⟨n, some_, rfl, room⟩ := pad_accepts_iff.mp refused
  have size := (unwrapHalves_undone pair (halvesAt_halves m inp n)).1.2
  rw [if_neg refused, padUnwrapped_eq some_ room]
  by_cases checked : padChecks icv (unwrapHalves dec n (halvesAt m inp n)).1
      (writeMem m out (unwrapHalves dec n (halvesAt m inp n)).2) out (8 * n + 8)
  · simp only [checked, and_self, if_true, or_true, iff_true]
    simp [writeMem, fresh, size]
  · simp only [checked, refused, and_false, if_false, or_self, iff_false, not_forall]
    exact ⟨out + 8 * n, by simp [writeMem], by omega⟩

end

def wrapResult (enc : Block128) (iv input : List UInt8) : List UInt8 :=
  let len := input.length
  if len % 8 ≠ 0 ∨ len < 16 ∨ len > crypto128WrapMax then []
  else
    let s := wrapHalves enc (len / 8) (iv, input)
    s.1 ++ s.2

def unwrapResult (dec : Block128) (iv input : List UInt8) : List UInt8 :=
  let len := input.length - 8
  if input.length < 8 ∨ len % 8 ≠ 0 ∨ len < 16 ∨ len > crypto128WrapMax then []
  else
    let s := unwrapHalves dec (len / 8) (input.take 8, input.drop 8)
    if s.1 = iv then s.2 else []

def wrapPadResult (enc : Block128) (icv : Option (List UInt8))
    (input : List UInt8) : List UInt8 :=
  if input.length = 0 ∨ input.length ≥ crypto128WrapMax then []
  else
    let s := wrapHalves enc ((input.length + 7) / 8) (paddedHalves icv input)
    s.1 ++ s.2

def unwrapPadResult (dec : Block128) (icv : Option (List UInt8))
    (input : List UInt8) : List UInt8 :=
  if unwrapPadRefuses input.length then []
  else
    let s := unwrapHalves dec (input.length / 8 - 1) (input.take 8, input.drop 8)
    let plain := s.2.take (netValue (s.1.drop 4))
    if paddedHalves icv plain = s then plain else []

def Computes (f : Memory → Nat → Nat → Nat → Nat × Memory) (result : List UInt8 → List UInt8) :
    Prop :=
  ∀ m out inp len, (f m out inp len).1 = (result (readMem m inp len)).length ∧
    readMem (f m out inp len).2 out (f m out inp len).1 = result (readMem m inp len)

section
variable {enc dec : Block128} {iv : Option (List UInt8)}

theorem wrap_computes (pair : CipherPair enc dec) (register : (iv.getD defaultIv).length = 8) :
    Computes (crypto128Wrap enc iv) (wrapResult enc (iv.getD defaultIv)) := by
  intro m out inp len
  rw [wrapResult, readMem_length]
  split
  case isTrue refused => simp [crypto128Wrap, refused, readMem]
  case isFalse accepted =>
    obtain ⟨n, rfl⟩ : ∃ n, len = 8 * n := ⟨len / 8, by omega⟩
    have reads := wrap_reads pair register (n := n) (by omega) (by omega) m out inp
    rw [Nat.mul_div_cancel_left n (by decide), reads.1, reads.2]
    refine ⟨?_, rfl⟩
    rw [← reads.2, readMem_length]

theorem unwrap_computes (pair : CipherPair dec enc) :
    Computes (crypto128Unwrap dec iv) (unwrapResult dec (iv.getD defaultIv)) := by
  intro m out inp len
  rw [unwrapResult, readMem_length]
  split
  case isTrue refused =>
    have raw : crypto128UnwrapRaw dec m out inp len = (0, [], m) := by
      unfold crypto128UnwrapRaw
      split
      · rfl
      · exact if_pos (by omega)
    simp [crypto128Unwrap, raw, readMem]
  case isFalse accepted =>
    obtain ⟨n, rfl⟩ : ∃ n, len = 8 * n + 8 := ⟨len / 8 - 1, by omega⟩
    have size := (unwrapHalves_undone pair (halvesAt_halves m inp n)).1
    rw [Nat.add_sub_cancel, Nat.mul_div_cancel_left n (by decide), read_halvesAt,
      take_left' (halvesAt_halves m inp n).1, drop_left' (halvesAt_halves m inp n).1,
      crypto128Unwrap, raw_reads (by omega) (by omega)]
    dsimp only
    rw [if_neg (by omega)]
    by_cases same : (unwrapHalves dec n (halvesAt m inp n)).1 = iv.getD defaultIv
    · rw [if_neg (not_not_intro same), if_pos same]
      exact ⟨size.2.symm, readMem_write size.2.symm⟩
    · rw [if_pos same, if_neg same]
      exact ⟨rfl, rfl⟩

variable {icv : Option (List UInt8)} {n : Nat} {plain : List UInt8}

theorem paddedHalves_eq {s : WrapState} (start : Halves n s) (is : paddedHalves icv plain = s) :
    (plain.length + 7) / 8 = n ∧ s.2.take plain.length = plain := by
  subst is
  have size := start.2
  unfold paddedHalves at size ⊢
  rw [length_append, length_replicate] at size
  exact ⟨by omega, take_left' rfl⟩

theorem halves_split {input : List UInt8} (size : input.length = 8 * n + 8) :
    Halves n (input.take 8, input.drop 8) :=
  ⟨by rw [length_take]; omega, by rw [length_drop]; omega⟩

theorem split_append {s : WrapState} (start : Halves n s) :
    (s.1 ++ s.2).length = 8 * n + 8 ∧ ((s.1 ++ s.2).take 8, (s.1 ++ s.2).drop 8) = s := by
  rw [length_append, start.1, start.2, take_left' start.1, drop_left' start.1]
  exact ⟨add_comm _ _, rfl⟩

theorem unwrap_wrapped (pair : CipherPair enc dec) {iv : List UInt8} (register : iv.length = 8)
    (some_ : 2 ≤ n) (room : 8 * n ≤ crypto128WrapMax)
    (size : plain.length = 8 * n) :
    unwrapResult dec iv (wrapResult enc iv plain) = plain := by
  obtain ⟨start, back⟩ := wrapHalves_undone pair (s := (iv, plain)) ⟨register, size⟩
  rw [wrapResult, size, if_neg (by omega), Nat.mul_div_cancel_left n (by decide)]
  obtain ⟨length, parts⟩ := split_append start
  rw [unwrapResult]
  rw [length, Nat.add_sub_cancel, if_neg (by omega), Nat.mul_div_cancel_left n (by decide), parts,
    back, if_pos rfl]

theorem wrap_unwrapped (pair : CipherPair dec enc) {iv cipher : List UInt8}
    (accepted : unwrapResult dec iv cipher ≠ []) :
    wrapResult enc iv (unwrapResult dec iv cipher) = cipher := by
  unfold unwrapResult at accepted ⊢
  dsimp only at accepted ⊢
  split at accepted
  · contradiction
  case isFalse refused =>
  obtain ⟨n, size⟩ : ∃ n, cipher.length = 8 * n + 8 := ⟨cipher.length / 8 - 1, by omega⟩
  obtain ⟨start, back⟩ := unwrapHalves_undone pair (halves_split size)
  have index : (cipher.length - 8) / 8 = n := by omega
  rw [if_neg refused]
  rw [index] at accepted ⊢
  generalize unwrapHalves dec n (cipher.take 8, cipher.drop 8) = s at *
  split at accepted
  case isFalse => contradiction
  case isTrue same =>
    rw [if_pos same, wrapResult, start.2, if_neg (by omega), Nat.mul_div_cancel_left n (by decide),
      ← same, back, take_append_drop]

variable (prefix_ : (icv.getD defaultAiv).length = 4)
include prefix_

theorem wrapPad_computes (pair : CipherPair enc dec) :
    Computes (crypto128WrapPad enc icv) (wrapPadResult enc icv) := by
  intro m out inp len
  rw [wrapPadResult, readMem_length]
  split
  case isTrue refused => simp [crypto128WrapPad, refused, readMem]
  case isFalse accepted =>
    obtain ⟨_, value, reads⟩ :=
      wrapPad_reads pair prefix_ (by omega : 0 < len) (by omega) rfl m out inp rfl
    rw [value, reads]
    refine ⟨?_, rfl⟩
    rw [← reads, readMem_length]

theorem wrapPad_length (pair : CipherPair enc dec) (m : Memory) (out inp len : Nat) :
    (crypto128WrapPad enc icv m out inp len).1 =
      if len = 0 ∨ len ≥ crypto128WrapMax then 0 else 8 * ((len + 7) / 8) + 8 := by
  split
  · rw [crypto128WrapPad, if_pos ‹_›]
  · exact (wrapPad_reads pair prefix_ (by omega) (by omega) rfl m out inp rfl).2.1

theorem padChecks_iff {s : WrapState} (start : Halves n s) (some_ : 1 ≤ n)
    (room : 8 * n + 8 < crypto128WrapMax) (m : Memory) (out : Nat) :
    padChecks icv s.1 (writeMem m out s.2) out (8 * n + 8) ↔
      paddedHalves icv (s.2.take (netValue (s.1.drop 4))) = s := by
  obtain ⟨a, r⟩ := s
  obtain ⟨sizeA, sizeR⟩ := start
  have short : 8 * n + 8 < 2 ^ 31 := room
  have index : (8 * n + 8) / 8 - 1 = n := by omega
  unfold padChecks
  dsimp only at sizeA sizeR ⊢
  rw [index, Nat.add_sub_cancel]
  have stored (inside : netValue (a.drop 4) ≤ 8 * n) :
      readMem (writeMem m out r) (out + netValue (a.drop 4)) (8 * n - netValue (a.drop 4)) =
        r.drop (netValue (a.drop 4)) := by
    have whole := readMem_write (m := m) (p := out) sizeR.symm
    rw [← Nat.add_sub_cancel' inside, readMem_append] at whole
    conv_rhs => rw [← whole, drop_left' readMem_length]
  constructor
  · rintro ⟨first, range_, padded⟩
    rw [stored (by omega)] at padded
    have count : (r.take (netValue (a.drop 4))).length = netValue (a.drop 4) := by
      rw [length_take]
      omega
    have field : netBytes 4 (netValue (a.drop 4)) = a.drop 4 := by
      have exact_ := netBytes_netValue (a.drop 4)
      rwa [length_drop, sizeA] at exact_
    have shape : (netValue (a.drop 4) + 7) / 8 * 8 = 8 * n := by omega
    rw [paddedHalves, count, field, ← first, shape, ← padded, take_append_drop, take_append_drop]
  · intro is
    have count := (paddedHalves_eq ⟨sizeA, sizeR⟩ is).1
    obtain ⟨isA, isR⟩ := Prod.mk.inj is
    have field : netValue (a.drop 4) = (r.take (netValue (a.drop 4))).length := by
      conv_lhs => rw [← isA, drop_left' prefix_, netValue_netBytes]
      exact Nat.mod_eq_of_lt (by omega)
    rw [← field] at count isR
    refine ⟨by rw [← isA, take_left' prefix_], by omega, ?_⟩
    rw [stored (by omega)]
    conv_lhs => rw [← isR, drop_left' field.symm]
    congr 1
    omega

theorem unwrapPad_computes (pair : CipherPair dec enc) :
    Computes (crypto128UnwrapPad dec icv) (unwrapPadResult dec icv) := by
  intro m out inp len
  rw [unwrapPadResult, readMem_length, crypto128UnwrapPad]
  by_cases refused : unwrapPadRefuses len
  · simp [refused, readMem]
  obtain ⟨n, some_, rfl, room⟩ := pad_accepts_iff.mp refused
  have whole := halvesAt_halves m inp n
  have start := (unwrapHalves_undone pair whole).1
  have index : (8 * n + 8) / 8 - 1 = n := by omega
  rw [if_neg refused, if_neg refused, padUnwrapped_eq some_ room, index, read_halvesAt,
    take_left' whole.1, drop_left' whole.1]
  simp only [padChecks_iff prefix_ start some_ room, true_and, Prod.mk.eta]
  generalize unwrapHalves dec n (halvesAt m inp n) = s at *
  by_cases checked : paddedHalves icv (s.2.take (netValue (s.1.drop 4))) = s
  · have inside := (padChecks_iff prefix_ start some_ room m out).mpr checked
    have range_ : netValue (s.1.drop 4) ≤ 8 * n := by
      have := inside.2.1
      omega
    have count : (s.2.take (netValue (s.1.drop 4))).length = netValue (s.1.drop 4) := by
      rw [length_take, start.2, min_eq_left range_]
    have read := readMem_write (m := m) (p := out) start.2.symm
    rw [← Nat.add_sub_cancel' range_, readMem_append] at read
    rw [if_pos checked, if_pos checked]
    refine ⟨count.symm, ?_⟩
    conv_rhs => rw [← read, take_left' readMem_length]
  · simp [checked, readMem]

theorem padded_back (short : plain.length < 2 ^ 32) :
    (paddedHalves icv plain).2.take (netValue ((paddedHalves icv plain).1.drop 4)) = plain := by
  have field : netValue ((paddedHalves icv plain).1.drop 4) = plain.length := by
    rw [paddedHalves, drop_left' prefix_, netValue_netBytes]
    exact Nat.mod_eq_of_lt short
  rw [field]
  exact take_left' rfl

variable (pair : CipherPair enc dec) (other : CipherPair dec enc)
include pair other

theorem wrapPadResult_iff {plain cipher : List UInt8} (size : cipher.length = 8 * n + 8) (some_ : 1 ≤ n)
    (room : 8 * n + 8 < crypto128WrapMax) : wrapPadResult enc icv plain = cipher ↔
      paddedHalves icv plain = unwrapHalves dec n (cipher.take 8, cipher.drop 8) := by
  obtain ⟨start, back⟩ := unwrapHalves_undone other (halves_split size)
  constructor
  · rintro rfl
    obtain ⟨whole, undone⟩ := wrapHalves_undone pair (paddedHalves_whole prefix_ plain)
    obtain ⟨length, parts⟩ := split_append whole
    rw [wrapPadResult] at size ⊢
    split at size
    case isTrue => contradiction
    case isFalse accepted =>
      rw [length] at size
      obtain rfl : (plain.length + 7) / 8 = n := by omega
      rw [if_neg accepted, parts, undone]
  · intro same
    have count := (paddedHalves_eq start same).1
    rw [wrapPadResult, if_neg (by omega), count, same, back, take_append_drop]

theorem unwrapPad_wrapped (some_ : 1 ≤ plain.length)
    (room : plain.length ≤ crypto128WrapMax - 16) :
    unwrapPadResult dec icv (wrapPadResult enc icv plain) = plain := by
  have limit : crypto128WrapMax = 2 ^ 31 := rfl
  have size : (wrapPadResult enc icv plain).length = 8 * ((plain.length + 7) / 8) + 8 := by
    rw [wrapPadResult, if_neg (by omega)]
    exact (split_append (wrapHalves_undone pair (paddedHalves_whole prefix_ plain)).1).1
  have same := (wrapPadResult_iff prefix_ pair other size (by omega) (by omega)).mp rfl
  rw [unwrapPadResult]
  dsimp only
  rw [size, if_neg (pad_accepts_iff.mpr ⟨_, by omega, rfl, by omega⟩), Nat.add_div_right _ (by decide),
    Nat.mul_div_cancel_left _ (by decide), Nat.succ_sub_one, ← same, padded_back prefix_ (by omega),
    if_pos rfl]

theorem wrapPad_unwrapped {cipher : List UInt8} (accepted : unwrapPadResult dec icv cipher ≠ []) :
    wrapPadResult enc icv (unwrapPadResult dec icv cipher) = cipher := by
  unfold unwrapPadResult at accepted ⊢
  dsimp only at accepted ⊢
  split at accepted
  · contradiction
  case isFalse refused =>
  obtain ⟨n, some_, size, room⟩ := pad_accepts_iff.mp refused
  have index : (8 * n + 8) / 8 - 1 = n := by omega
  rw [if_neg refused]
  rw [size, index] at accepted ⊢
  split at accepted
  case isFalse => contradiction
  case isTrue same =>
    rw [if_pos same]
    exact (wrapPadResult_iff prefix_ pair other size some_ room).mpr same

/- Wrapping and unwrapping are inverse, as functions of the bytes at the input wherever that and the
   output are. -/
theorem key_wrap_bijection (register : (iv.getD defaultIv).length = 8) :
    (Computes (crypto128Wrap enc iv) (wrapResult enc (iv.getD defaultIv)) ∧
      Computes (crypto128Unwrap dec iv) (unwrapResult dec (iv.getD defaultIv)) ∧
      Computes (crypto128WrapPad enc icv) (wrapPadResult enc icv) ∧
      Computes (crypto128UnwrapPad dec icv) (unwrapPadResult dec icv)) ∧
    (∀ plain, 8 ∣ plain.length → 16 ≤ plain.length → plain.length ≤ 2 ^ 31 →
      unwrapResult dec (iv.getD defaultIv) (wrapResult enc (iv.getD defaultIv) plain) = plain) ∧
    (∀ cipher, unwrapResult dec (iv.getD defaultIv) cipher ≠ [] →
      wrapResult enc (iv.getD defaultIv) (unwrapResult dec (iv.getD defaultIv) cipher) = cipher) ∧
    (∀ plain, 1 ≤ plain.length → plain.length ≤ 2 ^ 31 - 16 →
      unwrapPadResult dec icv (wrapPadResult enc icv plain) = plain) ∧
    ∀ cipher, unwrapPadResult dec icv cipher ≠ [] →
      wrapPadResult enc icv (unwrapPadResult dec icv cipher) = cipher := by
  refine ⟨⟨wrap_computes pair register, unwrap_computes other, wrapPad_computes prefix_ pair,
    unwrapPad_computes prefix_ other⟩, ?_, fun _ => wrap_unwrapped other,
    fun _ => unwrapPad_wrapped prefix_ pair other,
    fun _ => wrapPad_unwrapped prefix_ pair other⟩
  rintro plain ⟨n, size⟩ some_ room
  exact unwrap_wrapped pair register (by omega) (by rw [← size]; exact room) size

omit pair other prefix_ in
theorem key_wrap_bijection_id :
    unwrapPadResult id none (wrapPadResult id none [1, 2, 3]) = [1, 2, 3] :=
  (@key_wrap_bijection id id none none rfl id_pair id_pair rfl).2.2.2.1 [1, 2, 3] (by decide)
    (by decide)

/- The checks pass for what was wrapped, and for nothing else. -/
theorem padChecks_wrapped (some_ : 1 ≤ n) (room : 8 * n + 8 < crypto128WrapMax) (m : Memory) (out inp : Nat) :
    padChecks icv (padUnwrapped dec m out inp (8 * n + 8)).2.1
        (padUnwrapped dec m out inp (8 * n + 8)).2.2 out (8 * n + 8) ↔
      ∃ plain, wrapPadResult enc icv plain = readMem m inp (8 * n + 8) := by
  have whole := halvesAt_halves m inp n
  have start := (unwrapHalves_undone other whole).1
  have limit : crypto128WrapMax = 2 ^ 31 := rfl
  simp only [wrapPadResult_iff prefix_ pair other readMem_length some_ room]
  rw [padUnwrapped_eq some_ room, padChecks_iff prefix_ start some_ room, read_halvesAt,
    (split_append whole).2]
  constructor
  · exact fun same => ⟨_, same⟩
  · rintro ⟨plain, same⟩
    have count := (paddedHalves_eq start same).1
    rw [← same, padded_back prefix_ (by omega)]

/- The limits agree but for the last plaintexts, and nothing is written after the output when the
   input is refused for its length or was wrapped. -/
theorem pad_limits_agree_iff {m : Memory} (fresh : ∀ k, m.written k = false) (out inp len inlen : Nat) :
    ((crypto128WrapPad enc icv m out inp len).1 ≠ 0 →
        ¬unwrapPadRefuses (crypto128WrapPad enc icv m out inp len).1) ∧
      (∀ k, (crypto128UnwrapPad dec icv m out inp inlen).2.written k = true →
        out ≤ k ∧ k < out + (inlen - 8)) ↔
    ¬(2 ^ 31 - 16 < len ∧ len < 2 ^ 31) ∧ (unwrapPadRefuses inlen ∨
      ∃ plain, wrapPadResult enc icv plain = readMem m inp inlen) := by
  rw [unwrapPad_written_iff other fresh, wrapPad_length prefix_ pair]
  apply and_congr
  · unfold unwrapPadRefuses crypto128WrapMax
    split <;> omega
  · apply or_congr_right'
    intro accepted
    obtain ⟨n, some_, rfl, room⟩ := pad_accepts_iff.mp accepted
    exact padChecks_wrapped prefix_ pair other some_ room m out inp

end

def zeroMemory : Memory := ⟨fun _ => 0, fun _ => false⟩

theorem pad_limits_agree_short : (crypto128WrapPad id none zeroMemory 0 0 5).1 = 16 ∧
    ¬unwrapPadRefuses (crypto128WrapPad id none zeroMemory 0 0 5).1 := by
  have length : (crypto128WrapPad id none zeroMemory 0 0 5).1 = 16 :=
    wrapPad_length rfl id_pair _ _ _ _
  exact ⟨length, ((pad_limits_agree_iff rfl id_pair id_pair (fun _ => rfl) 0 0 5 7).mpr
    ⟨by decide, .inl (by decide)⟩).1 (by rw [length]; decide)⟩

theorem pad_limits_differ : ((crypto128WrapPad id none zeroMemory 0 0 (2 ^ 31 - 15)).1 ≠ 0 ∧
    unwrapPadRefuses (crypto128WrapPad id none zeroMemory 0 0 (2 ^ 31 - 15)).1) ∧
      (crypto128UnwrapPad id none zeroMemory 0 16 16).2.written 8 = true := by
  rw [wrapPad_length rfl id_pair]
  decide

end Ossl
