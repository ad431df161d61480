import Mathlib.Data.Int.ConditionallyCompleteOrder
import Mathlib.Data.Int.ModEq
import Mathlib.Tactic.Linarith
import OpenSSL.Quic.AckmHistory

/- The packet numbers of ssl/quic/quic_wire_pkt.c, cut to their low bytes. The
   decoder computes in signed 64-bit integers. -/
namespace Ossl
open BigEndian

def numUnacked (pn largestAcked : Nat) : Nat :=
  if largestAcked = quicPnInvalid then addU64 pn 1 else subU64 pn largestAcked

def determinePnLen (pn largestAcked : Nat) : Nat :=
  if numUnacked pn largestAcked ≤ 1 <<< 7 then 1
  else if numUnacked pn largestAcked ≤ 1 <<< 15 then 2
  else if numUnacked pn largestAcked ≤ 1 <<< 23 then 3
  else 4

def encodePktHdrPn (pn encPnLen : Nat) : Option (List UInt8) :=
  if 1 ≤ encPnLen ∧ encPnLen ≤ 4 then some (netBytes encPnLen pn) else none

def decodePktHdrPn (encPn : List UInt8) (encPnLen largestPn : Nat) : Option Nat :=
  if 1 ≤ encPnLen ∧ encPnLen ≤ 4 then
    let truncatedPn := BitVec.ofNat 64 (netValue (encPn.take encPnLen))
    let expectedPn := BitVec.ofNat 64 largestPn + 1
    let pnWin := (1 : BitVec 64) <<< (encPnLen * 8)
    let pnHwin := pnWin.sdiv 2
    let pnMask := pnWin - 1
    let candidatePn := (expectedPn &&& ~~~pnMask) ||| truncatedPn
    if candidatePn.sle (expectedPn - pnHwin) && candidatePn.slt ((1 : BitVec 64) <<< 62 - pnWin) then
      some (candidatePn + pnWin).toNat
    else if (expectedPn + pnHwin).slt candidatePn && pnWin.sle candidatePn then
      some (candidatePn - pnWin).toNat
    else some candidatePn.toNat
  else none

def nearestPn (expected half truncated : Nat) : Nat :=
  let candidate := 2 * half * (expected / (2 * half)) + truncated
  if candidate + half ≤ expected ∧ candidate + 2 * half < 2 ^ 62 then candidate + 2 * half
  else if expected + half < candidate ∧ 2 * half ≤ candidate then candidate - 2 * half
  else candidate

variable {t : Nat} {m x : Int} {encPn : List UInt8}

theorem replace_low_bits {e k : Nat} (room : k < 64) (bound : e < 2 ^ 64) (small : t < 2 ^ k) :
    ((BitVec.ofNat 64 e &&& ~~~((1 : BitVec 64) <<< k - 1)) ||| BitVec.ofNat 64 t).toNat =
      2 ^ k * (e / 2 ^ k) + t := by
  have mask : ((1 : BitVec 64) <<< k - 1) = BitVec.ofNat 64 (2 ^ k - 1) := by
    apply BitVec.eq_of_toNat_eq
    have one : (1 : BitVec 64).toNat = 1 := rfl
    rw [BitVec.toNat_sub, BitVec.toNat_shiftLeft, BitVec.toNat_ofNat, one, Nat.one_shiftLeft]
    omega
  apply Nat.eq_of_testBit_eq
  intro i
  rw [Nat.testBit_two_pow_mul_add _ small, mask, BitVec.toNat_or, BitVec.toNat_and,
    Nat.testBit_or, Nat.testBit_and, BitVec.testBit_toNat, BitVec.testBit_toNat,
    BitVec.testBit_toNat, BitVec.getLsbD_not, BitVec.getLsbD_ofNat, BitVec.getLsbD_ofNat,
    BitVec.getLsbD_ofNat, Nat.testBit_two_pow_sub_one, Nat.testBit_div_two_pow]
  by_cases low : i < k
  · simp [low, lt_trans low room]
  · have outside : t.testBit i = false :=
      Nat.testBit_lt_two_pow (lt_of_lt_of_le small (Nat.pow_le_pow_right (by decide) (by omega)))
    by_cases inside : i < 64
    · simp [low, inside, outside, Nat.sub_add_cancel (not_lt.mp low)]
    · have above : e.testBit i = false :=
        Nat.testBit_lt_two_pow
          (lt_of_lt_of_le bound (Nat.pow_le_pow_right (by decide) (by omega)))
      simp [low, inside, above, Nat.sub_add_cancel (not_lt.mp low)]

/- Signed and unsigned readings agree far from the sign bit. -/
variable {largestPn n pn : Nat}

theorem toInt_small {x : BitVec 64} (value : x.toNat = n) (small : n < 2 ^ 63) : x.toInt = n := by
  rw [BitVec.toInt_eq_toNat_of_lt (by omega), value]

theorem bmod_small (low : -2 ^ 63 ≤ x) (high : x < 2 ^ 63) : x.bmod (2 ^ 64) = x :=
  Int.bmod_eq_of_le (by omega) (by omega)

theorem decodePktHdrPn_eq (least : 1 ≤ n) (most : n ≤ 4) (len : encPn.length = n)
    (bound : largestPn < 2 ^ 62) : decodePktHdrPn encPn n largestPn =
      some (nearestPn (largestPn + 1) (2 ^ (8 * n - 1)) (netValue encPn)) := by
  have small := netValue_lt encPn
  rw [len] at small
  have win : ((1 : BitVec 64) <<< (n * 8)).toNat = 2 ^ (8 * n) ∧
      (((1 : BitVec 64) <<< (n * 8)).sdiv 2).toNat = 2 ^ (8 * n - 1) ∧
      2 ^ (8 * n) = 2 * 2 ^ (8 * n - 1) ∧ 2 ^ (8 * n) ≤ 2 ^ 32 := by
    obtain rfl | rfl | rfl | rfl : n = 1 ∨ n = 2 ∨ n = 3 ∨ n = 4 := by omega
    all_goals decide
  obtain ⟨winNat, hwinNat, double, small32⟩ := win
  have expected : BitVec.ofNat 64 largestPn + 1 = BitVec.ofNat 64 (largestPn + 1) :=
    (BitVec.ofNat_add largestPn 1).symm
  have expectedInt : (BitVec.ofNat 64 (largestPn + 1)).toInt = (largestPn + 1 : Nat) :=
    toInt_small (by rw [BitVec.toNat_ofNat]; omega) (by omega)
  have candidate := replace_low_bits (e := largestPn + 1) (k := n * 8) (by omega) (by omega)
    (mul_comm 8 n ▸ small)
  rw [mul_comm n 8, double] at candidate
  rw [double] at winNat small small32
  unfold decodePktHdrPn nearestPn
  rw [if_pos ⟨least, most⟩, List.take_of_length_le (by omega)]
  dsimp only
  rw [mul_comm n 8] at winNat hwinNat ⊢
  rw [expected]
  generalize 2 ^ (8 * n - 1) = half at *
  generalize (1 : BitVec 64) <<< (8 * n) = pnWin at *
  generalize pnWin.sdiv 2 = pnHwin at *
  generalize netValue encPn = t at *
  have part := Nat.mul_div_le (largestPn + 1) (2 * half)
  generalize 2 * half * ((largestPn + 1) / (2 * half)) = high at *
  generalize (BitVec.ofNat 64 (largestPn + 1) &&& ~~~(pnWin - 1)) ||| BitVec.ofNat 64 t = c at *
  have cInt := toInt_small candidate (by omega)
  have winInt := toInt_small winNat (by omega)
  have hwinInt := toInt_small hwinNat (by omega)
  have top : ((1 : BitVec 64) <<< 62).toInt = 2 ^ 62 := by decide
  have below : c.sle (BitVec.ofNat 64 (largestPn + 1) - pnHwin) = true ↔
      high + t + half ≤ largestPn + 1 := by
    rw [BitVec.sle_iff_toInt_le, BitVec.toInt_sub, cInt, expectedInt, hwinInt, bmod_small]
    all_goals omega
  have inside : c.slt ((1 : BitVec 64) <<< 62 - pnWin) = true ↔ high + t + 2 * half < 2 ^ 62 := by
    rw [BitVec.slt_iff_toInt_lt, BitVec.toInt_sub, cInt, top, winInt, bmod_small]
    all_goals omega
  have above : (BitVec.ofNat 64 (largestPn + 1) + pnHwin).slt c = true ↔
      largestPn + 1 + half < high + t := by
    rw [BitVec.slt_iff_toInt_lt, BitVec.toInt_add, cInt, expectedInt, hwinInt, bmod_small]
    all_goals omega
  have room : pnWin.sle c = true ↔ 2 * half ≤ high + t := by
    rw [BitVec.sle_iff_toInt_le, cInt, winInt]
    omega
  simp only [Bool.and_eq_true, below, inside, above, room, apply_ite some]
  split
  · rw [BitVec.toNat_add, candidate, winNat, Nat.mod_eq_of_lt (by omega)]
  · split
    · rename_i wrapped
      rw [BitVec.toNat_sub_of_le (BitVec.le_def.mpr (by omega)), candidate, winNat]
    · rw [candidate]

def pnWindow (largestPn n : Nat) : Set Int :=
  Set.Ioc (largestPn + 1 - 2 ^ (8 * n - 1)) (largestPn + 1 + 2 ^ (8 * n - 1))

theorem window_unique {low y : Int} (hx : x ∈ Set.Ioc low (low + m))
    (hy : y ∈ Set.Ioc low (low + m)) (same : x ≡ y [ZMOD m]) : x = y := by
  obtain ⟨k, step⟩ := same.symm.dvd
  obtain ⟨lowX, highX⟩ := hx
  obtain ⟨lowY, highY⟩ := hy
  rcases lt_trichotomy k 0 with neg | zero | pos
  · nlinarith
  · rw [zero, mul_zero] at step
    omega
  · nlinarith

theorem window_inhabited (pos : 0 < m) (low t : Int) :
    ∃ x, x ∈ Set.Ioc low (low + m) ∧ x ≡ t [ZMOD m] := by
  refine ⟨low + 1 + (t - low - 1) % m, ⟨?_, ?_⟩, ?_⟩
  · have := Int.emod_nonneg (t - low - 1) pos.ne'
    omega
  · have := Int.emod_lt_of_pos (t - low - 1) pos
    omega
  · have residue := (Int.mod_modEq (t - low - 1) m).add_left (low + 1)
    rwa [show low + 1 + (t - low - 1) = t by omega] at residue

/-- The decoder's choice is the number of the window, if that is a packet number. -/
theorem nearestPn_spec {expected half : Nat} (small : t < 2 * half) (bound : pn < 2 ^ 62)
    (low : expected < pn + half) (high : pn ≤ expected + half)
    (same : (pn : Int) ≡ t [ZMOD (2 * half : Nat)]) : nearestPn expected half t = pn := by
  have part := Nat.div_add_mod expected (2 * half)
  have rest := Nat.mod_lt expected (by omega : 2 * half > 0)
  have base : ((2 * half * (expected / (2 * half)) + t : Nat) : Int) ≡ pn [ZMOD (2 * half : Nat)] := by
    refine Int.ModEq.trans ?_ same.symm
    exact Int.modEq_iff_dvd.mpr ⟨-(expected / (2 * half) : Nat), by push_cast; linarith⟩
  unfold nearestPn
  generalize 2 * half * (expected / (2 * half)) = cut at *
  obtain ⟨k, step⟩ := base.dvd
  -- the multiple of the window between the candidate and the number
  have least : -1 ≤ k := by
    by_contra less
    have : ((2 * half : Nat) : Int) * k ≤ (2 * half : Nat) * (-2) :=
      Int.mul_le_mul_of_nonneg_left (by omega) (by omega)
    omega
  have most : k ≤ 1 := by
    by_contra more
    have : ((2 * half : Nat) : Int) * 2 ≤ (2 * half : Nat) * k :=
      Int.mul_le_mul_of_nonneg_left (by omega) (by omega)
    omega
  obtain rfl | rfl | rfl : k = -1 ∨ k = 0 ∨ k = 1 := by omega
  · rw [if_neg (by omega), if_pos (by omega)]
    omega
  · rw [if_neg (by omega), if_neg (by omega)]
    omega
  · rw [if_pos (by omega)]
    omega

/-- A number of the window is decoded from its residue. -/
theorem decodePktHdrPn_window (least : 1 ≤ n) (most : n ≤ 4) (len : encPn.length = n)
    (largest : largestPn < 2 ^ 62) (bound : pn < 2 ^ 62)
    (inside : (pn : Int) ∈ pnWindow largestPn n)
    (same : (pn : Int) ≡ netValue encPn [ZMOD 2 ^ (8 * n)]) :
    decodePktHdrPn encPn n largestPn = some pn := by
  have small := netValue_lt encPn
  have double : 2 ^ (8 * n) = 2 * 2 ^ (8 * n - 1) := by
    rw [← pow_succ', Nat.sub_add_cancel (by omega)]
  obtain ⟨low, high⟩ := inside
  rw [len, double] at small
  have cast : ((2 : Int) ^ (8 * n)) = (2 * 2 ^ (8 * n - 1) : Nat) := by
    rw [← double]
    rfl
  rw [cast] at same
  rw [decodePktHdrPn_eq least most len largest]
  congr 1
  apply nearestPn_spec small bound _ _ same
  · zify
    omega
  · zify
    omega

/-- The sender's choice of a length puts the number in the receiver's window. -/
theorem determinePnLen_window {largestAcked : Nat} (bound : pn < 2 ^ 62)
    (acked : largestAcked = quicPnInvalid ∨ largestAcked < pn)
    (near : numUnacked pn largestAcked ≤ 2 ^ 31)
    (ahead : largestAcked ≠ quicPnInvalid → largestAcked ≤ largestPn) :
    let n := determinePnLen pn largestAcked
    1 ≤ n ∧ n ≤ 4 ∧ pn ≤ largestPn + 2 ^ (8 * n - 1) := by
  intro n
  have gap : pn ≤ largestPn + numUnacked pn largestAcked := by
    unfold numUnacked
    split
    · rw [addU64_exact (by omega)]
      omega
    · rename_i valid
      rw [subU64_exact (by omega) (acked.resolve_left valid).le]
      omega
  have range : n = 1 ∧ numUnacked pn largestAcked ≤ 2 ^ 7 ∨
      n = 2 ∧ numUnacked pn largestAcked ≤ 2 ^ 15 ∨
      n = 3 ∧ numUnacked pn largestAcked ≤ 2 ^ 23 ∨ n = 4 := by
    simp only [n, determinePnLen, Nat.one_shiftLeft]
    split_ifs <;> simp [*]
  clear_value n
  rcases range with ⟨rfl, less⟩ | ⟨rfl, less⟩ | ⟨rfl, less⟩ | rfl
  all_goals
    refine ⟨by decide, by decide, ?_⟩
    omega

/-- Inside the window the compression of packet numbers loses nothing: whatever the
    sender's and the receiver's reference numbers, and for bytes of any length. -/
theorem pn_compression_lossless :
    (∀ pn largestAcked largestPn : Nat, pn < 2 ^ 62 →
      largestAcked = quicPnInvalid ∨ largestAcked < pn → numUnacked pn largestAcked ≤ 2 ^ 31 →
      (largestAcked ≠ quicPnInvalid → largestAcked ≤ largestPn) → largestPn < pn →
        ∃ encPn, encodePktHdrPn pn (determinePnLen pn largestAcked) = some encPn ∧
          decodePktHdrPn encPn (determinePnLen pn largestAcked) largestPn = some pn) ∧
    (∀ (n : Nat) (encPn : List UInt8) (largestPn : Nat), 1 ≤ n → n ≤ 4 → encPn.length = n →
      largestPn < 2 ^ 62 →
        (∃! x, x ∈ pnWindow largestPn n ∧ x ≡ netValue encPn [ZMOD 2 ^ (8 * n)]) ∧
        ∀ pn : Nat, pn < 2 ^ 62 → (pn : Int) ∈ pnWindow largestPn n →
          (pn : Int) ≡ netValue encPn [ZMOD 2 ^ (8 * n)] →
          decodePktHdrPn encPn n largestPn = some pn) := by
  constructor
  · intro pn largestAcked largestPn bound acked near ahead behind
    obtain ⟨least, most, high⟩ := determinePnLen_window bound acked near ahead
    generalize determinePnLen pn largestAcked = n at *
    refine ⟨netBytes n pn, if_pos ⟨least, most⟩, ?_⟩
    apply decodePktHdrPn_window least most (netBytes_length n pn) (by omega) bound
    · have pos := Nat.two_pow_pos (8 * n - 1)
      zify at high pos
      constructor
      · omega
      · omega
    · rw [netValue_netBytes]
      exact (Int.mod_modEq _ _).symm
  · intro n encPn largestPn least most len largest
    refine ⟨?_, fun pn bound => decodePktHdrPn_window least most len largest bound⟩
    have double : (2 : Int) ^ (8 * n) = 2 * 2 ^ (8 * n - 1) := by
      rw [← pow_succ', Nat.sub_add_cancel (by omega)]
    have window : pnWindow largestPn n = Set.Ioc ((largestPn : Int) + 1 - 2 ^ (8 * n - 1))
        (largestPn + 1 - 2 ^ (8 * n - 1) + 2 ^ (8 * n)) := by
      unfold pnWindow
      congr 1
      omega
    rw [window]
    have pos : (0 : Int) < 2 ^ (8 * n) := pow_pos (by decide) (8 * n)
    obtain ⟨x, inside, same⟩ := window_inhabited pos
      ((largestPn : Int) + 1 - 2 ^ (8 * n - 1)) (netValue encPn)
    refine ⟨x, ⟨inside, same⟩, ?_⟩
    rintro y ⟨insideY, sameY⟩
    exact window_unique insideY inside (sameY.trans same.symm)

/- The last number that two bytes can carry over a gap. -/
theorem pn_compression_lossless_edge :
    ∃ encPn, encodePktHdrPn 40000 (determinePnLen 40000 7232) = some encPn ∧
      decodePktHdrPn encPn (determinePnLen 40000 7232) 7232 = some 40000 :=
  pn_compression_lossless.1 40000 7232 7232 (by decide) (by decide) (by decide) (by decide)
    (by decide)

end Ossl
