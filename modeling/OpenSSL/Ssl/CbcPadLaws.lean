import Mathlib.Data.Int.ModEq
import Mathlib.Data.Nat.Bitwise
import OpenSSL.Ssl.CbcPad

/- The masks remove what a plain reading of the padding removes. -/
namespace Ossl
open Option UInt64 List

section Padding

theorem low_ones (x : UInt64) : x &&& 0xff = 0xff ↔ ∀ i < 8, x.toNat.testBit i = true := by
  have byte : (0xff : UInt64).toNat = 2 ^ 8 - 1 := rfl
  constructor
  · intro all i low
    have same := congrArg (fun y : UInt64 => y.toNat.testBit i) all
    simpa only [UInt64.toNat_and, byte, Nat.testBit_and, Nat.testBit_two_pow_sub_one, low,
      decide_true, Bool.and_true] using same
  · intro bits
    apply UInt64.toNat_inj.mp
    rw [UInt64.toNat_and, byte]
    apply Nat.eq_of_testBit_eq
    intro i
    rw [Nat.testBit_and, Nat.testBit_two_pow_sub_one]
    by_cases low : i < 8
    · rw [bits i low, Bool.true_and]
    · simp [low]

theorem low_cleared (good t : UInt64) (small : t.toNat < 256) :
    (good &&& ~~~t) &&& 0xff = 0xff ↔ good &&& 0xff = 0xff ∧ t = 0 := by
  have flipped (i : Nat) (low : i < 8) : (~~~t).toNat.testBit i = !t.toNat.testBit i := by
    have bits := Nat.testBit_two_pow_sub_succ t.toNat_lt i
    rw [show decide (i < 64) = true by simp; omega, Bool.true_and] at bits
    rw [← bits, toNat_not]
    congr 1
    rw [UInt64.size]
    omega
  have zero : t = 0 ↔ ∀ i < 8, t.toNat.testBit i = false := by
    constructor
    · rintro rfl i _
      simp
    · intro clear
      apply UInt64.toNat_inj.mp
      apply Nat.eq_of_testBit_eq
      intro i
      by_cases low : i < 8
      · rw [clear i low]
        simp
      · have big : 256 ≤ 2 ^ i := Nat.pow_le_pow_right (n := 2) (by decide) (by omega : 8 ≤ i)
        rw [Nat.testBit_lt_two_pow (by omega)]
        simp
  rw [low_ones, low_ones, zero]
  simp only [UInt64.toNat_and, Nat.testBit_and, Bool.and_eq_true]
  constructor
  · intro all
    refine ⟨fun i low => (all i low).1, fun i low => ?_⟩
    have := (all i low).2
    rwa [flipped i low, Bool.not_eq_true'] at this
  · rintro ⟨ones_, clear⟩ i low
    refine ⟨ones_ i low, ?_⟩
    rw [flipped i low, clear i low]
    rfl

theorem xor_zero_iff (a b : UInt64) : a ^^^ b = 0 ↔ a = b := by
  constructor
  · intro zero
    have := congrArg (· ^^^ b) zero
    simpa [UInt64.xor_assoc] using this
  · rintro rfl
    exact UInt64.xor_self

variable {recdata : List UInt8} {reclen p : UInt64}

theorem padCheck_low (small : p.toNat < 256) (good : UInt64) {i : Nat} (index : i < 2 ^ 64) :
    padCheck recdata reclen p good i &&& 0xff = 0xff ↔
      good &&& 0xff = 0xff ∧
        (i ≤ p.toNat → p = (recByte recdata (reclen - 1 - ofNat i)).toUInt64) := by
  have le : ofNat i ≤ p ↔ i ≤ p.toNat := by
    rw [le_iff_toNat_le, toNat_ofNat', Nat.mod_eq_of_lt index]
  unfold padCheck
  dsimp only
  generalize recByte recdata (reclen - 1 - ofNat i) = b
  have byte := b.toNat_lt
  have wide : b.toUInt64.toNat = b.toNat := UInt8.toNat_toUInt64 b
  have xor_small : (p ^^^ b.toUInt64).toNat < 2 ^ 8 := by
    rw [UInt64.toNat_xor]
    exact Nat.xor_lt_two_pow small (by omega)
  rw [constantTimeGe8S, geS_eq]
  unfold ones
  by_cases padded : i ≤ p.toNat
  · rw [if_pos (le.mpr padded)]
    have mask : (((0 : UInt64) - 1).toUInt8.toUInt64) = 0xff := by decide
    rw [mask, low_cleared _ _ (by
      rw [UInt64.toNat_and]
      exact lt_of_le_of_lt and_le_right xor_small)]
    have kept : (0xff : UInt64) &&& (p ^^^ b.toUInt64) = p ^^^ b.toUInt64 := by
      apply UInt64.toNat_inj.mp
      rw [UInt64.toNat_and, Nat.and_comm]
      exact Nat.and_two_pow_sub_one_of_lt_two_pow xor_small
    rw [kept, xor_zero_iff]
    simp [padded]
  · rw [if_neg (mt le.mp padded)]
    have mask : ((0 : UInt64).toUInt8.toUInt64) = 0 := by decide
    rw [mask, UInt64.zero_and, low_cleared _ _ (by decide)]
    simp [padded]

theorem padChecks_low (small : p.toNat < 256) (good : UInt64) {is : List Nat}
    (index : ∀ i ∈ is, i < 2 ^ 64) :
    is.foldl (padCheck recdata reclen p) good &&& 0xff = 0xff ↔
      good &&& 0xff = 0xff ∧ ∀ i ∈ is, i ≤ p.toNat →
        p = (recByte recdata (reclen - 1 - ofNat i)).toUInt64 := by
  induction is generalizing good with
  | nil => simp
  | cons i is ih =>
    rw [foldl_cons, ih _ (fun k mem => index k (mem_cons_of_mem i mem)),
      padCheck_low small good (index i mem_cons_self)]
    simp [and_assoc]

end Padding

section Scan

structure Scanned (recdata : List UInt8) (start mac0 m i : Nat) (s : MacScan) : Prop where
  inMac : s.inMac = ones (mac0 < i ∧ i ≤ mac0 + m)
  rotateOffset : s.rotateOffset.toNat = if mac0 < i then (mac0 - start) % m else 0
  j : s.j.toNat = (i - start) % m
  rotated : ∀ k < m, s.rotatedMac ((mac0 - start + k) % m) =
    if mac0 + k < i then recdata.getD (mac0 + k) 0 else 0

variable {recdata : List UInt8} {start mac0 m i : Nat} {macStart macEnd macSize : UInt64}
  {s : MacScan}

/-- The next position of a buffer that wraps around. -/
theorem wrapped (some_ : 0 < m) (small : m ≤ 64) (isSize : macSize.toNat = m) {j : UInt64}
    {k : Nat} (is : j.toNat = k % m) :
    (j + 1 &&& constantTimeLtS (j + 1) macSize).toNat = (k + 1) % m := by
  have less : k % m < m := Nat.mod_lt k some_
  have next : (j + 1).toNat = k % m + 1 := by
    rw [UInt64.toNat_add, is]
    change (k % m + 1) % 2 ^ 64 = _
    omega
  rw [ltS_eq, and_ones_eq, Nat.add_mod]
  by_cases inside : k % m + 1 < m
  · rw [if_pos (by rw [lt_iff_toNat_lt, next, isSize]; exact inside), next]
    by_cases one : m = 1
    · omega
    · rw [Nat.mod_eq_of_lt (by omega : 1 < m), Nat.mod_eq_of_lt inside]
  · rw [if_neg (by rw [lt_iff_toNat_lt, next, isSize]; exact inside)]
    have full : k % m + 1 = m := by omega
    by_cases one : m = 1
    · change 0 = _
      rw [one]
      omega
    · rw [Nat.mod_eq_of_lt (by omega : 1 < m), full, Nat.mod_self]
      rfl

theorem turned_inj {o k l : Nat} (lessK : k < m) (lessL : l < m)
    (same : (o + k) % m = (o + l) % m) : k = l := by
  have modEq : k % m = l % m := Nat.ModEq.add_left_cancel' o same
  rwa [Nat.mod_eq_of_lt lessK, Nat.mod_eq_of_lt lessL] at modEq

theorem macScan_step (some_ : 0 < m) (small : m ≤ 64) (isSize : macSize.toNat = m)
    (isStart : macStart.toNat = mac0) (isEnd : macEnd.toNat = mac0 + m) (from_ : start ≤ mac0)
    (index : i < 2 ^ 64) (reached : start ≤ i) (scanned : Scanned recdata start mac0 m i s) :
    Scanned recdata start mac0 m (i + 1) (macScan recdata macStart macEnd macSize s i) := by
  have isI : (ofNat i).toNat = i := by rw [toNat_ofNat', Nat.mod_eq_of_lt index]
  have started : ofNat i = macStart ↔ i = mac0 := by
    rw [← UInt64.toNat_inj, isI, isStart]
  have ended : ofNat i < macEnd ↔ i < mac0 + m := by
    rw [lt_iff_toNat_lt, isI, isEnd]
  have inMac : (s.inMac ||| constantTimeEqS (ofNat i) macStart) &&&
      constantTimeLtS (ofNat i) macEnd = ones (mac0 < i + 1 ∧ i + 1 ≤ mac0 + m) := by
    rw [eqS_eq, ltS_eq, and_ones_eq, scanned.inMac]
    unfold ones
    simp only [started, ended]
    by_cases first : i = mac0
    · by_cases last : i < mac0 + m
      · rw [if_pos first, if_pos last, if_neg (by omega), if_pos (by omega)]
        decide
      · omega
    · by_cases last : i < mac0 + m
      · rw [if_neg first, if_pos last, UInt64.or_zero]
        by_cases past : mac0 < i
        · rw [if_pos (by omega), if_pos (by omega)]
        · rw [if_neg (by omega), if_neg (by omega)]
      · rw [if_neg last, if_neg (by omega)]
  constructor
  · exact inMac
  · change (s.rotateOffset ||| (s.j &&& constantTimeEqS (ofNat i) macStart)).toNat = _
    rw [eqS_eq, and_ones_eq, UInt64.toNat_or]
    have before := scanned.rotateOffset
    by_cases first : i = mac0
    · rw [if_pos (started.mpr first), before, if_neg (by omega), Nat.zero_or, scanned.j,
        if_pos (by omega), first]
    · rw [if_neg (mt started.mp first), before]
      change _ ||| 0 = _
      rw [Nat.or_zero]
      by_cases past : mac0 < i
      · rw [if_pos past, if_pos (by omega)]
      · rw [if_neg past, if_neg (by omega)]
  · have := wrapped some_ small isSize scanned.j
    rwa [show i - start + 1 = i + 1 - start by omega] at this
  · intro k less
    change Function.update s.rotatedMac s.j.toNat _ _ = _
    rw [inMac, and_ones_eq]
    have held := scanned.rotated k less
    by_cases here : i = mac0 + k
    · have same : (mac0 - start + k) % m = s.j.toNat := by
        rw [scanned.j]
        congr 1
        omega
      rw [same] at held ⊢
      rw [Function.update_self, held, if_neg (by omega), if_pos (by omega), if_pos (by omega),
        recByte, isI, here]
      simp
    · by_cases inside : mac0 < i + 1 ∧ i + 1 ≤ mac0 + m
      · have other : (mac0 - start + k) % m ≠ s.j.toNat := by
          intro same
          rw [scanned.j, show i - start = mac0 - start + (i - mac0) by omega] at same
          have := turned_inj less (by omega) same
          omega
        rw [Function.update_of_ne other, held]
        by_cases past : mac0 + k < i
        · rw [if_pos past, if_pos (by omega)]
        · rw [if_neg past, if_neg (by omega)]
      · rw [if_neg inside]
        have kept : Function.update s.rotatedMac s.j.toNat
            (s.rotatedMac s.j.toNat ||| (0 : UInt64).toUInt8) = s.rotatedMac := by
          rw [show (0 : UInt64).toUInt8 = 0 from rfl, UInt8.or_zero]
          exact Function.update_eq_self _ _
        rw [kept, held]
        by_cases past : mac0 + k < i
        · rw [if_pos past, if_pos (by omega)]
        · rw [if_neg past, if_neg (by omega)]

theorem macScans_run (some_ : 0 < m) (small : m ≤ 64) (isSize : macSize.toNat = m)
    (isStart : macStart.toNat = mac0) (isEnd : macEnd.toNat = mac0 + m) (from_ : start ≤ mac0)
    {n : Nat} (index : i + n ≤ 2 ^ 64) (reached : start ≤ i)
    (scanned : Scanned recdata start mac0 m i s) :
    Scanned recdata start mac0 m (i + n)
      ((range' i n).foldl (macScan recdata macStart macEnd macSize) s) := by
  induction n generalizing i s with
  | zero => exact scanned
  | succ n ih =>
    rw [range'_succ, foldl_cons, show i + (n + 1) = i + 1 + n by omega]
    exact ih (by omega) (by omega)
      (macScan_step some_ small isSize isStart isEnd from_ (by omega) reached scanned)

end Scan

section Rotation
variable {rot rand : MacBuf} {m : Nat} {macSize : UInt64}

theorem select8_ones (a b : UInt8) : constantTimeSelect8 255 a b = a := by
  have all : 255#8 &&& a.toBitVec = a.toBitVec := BitVec.allOnes_and
  apply UInt8.toBitVec_inj.mp
  simp [constantTimeSelect8, all]

theorem select8_none (a b : UInt8) : constantTimeSelect8 0 a b = b := by
  apply UInt8.toBitVec_inj.mp
  simp [constantTimeSelect8]

theorem half_offset : ∀ o < 64, (ofNat o &&& ~~~32 = ofNat o ∧
      constantTimeEq8 (ofNat o &&& ~~~32).toUInt32 (ofNat o).toUInt32 = 255) ∨
    (ofNat o ||| 32 = ofNat o ∧
      constantTimeEq8 (ofNat o &&& ~~~32).toUInt32 (ofNat o).toUInt32 = 0) := by
  decide +kernel

theorem macByte_eq (c : Prop) [Decidable c] {o : UInt64} (small : o.toNat < 64) (i : Nat) :
    macByte rot rand (ones c) o i = if c then rot o.toNat else rand i := by
  have read : constantTimeSelect8 (constantTimeEq8 (o &&& ~~~32).toUInt32 o.toUInt32)
      (rot (o &&& ~~~32).toNat) (rot (o ||| 32).toNat) = rot o.toNat := by
    have halves := half_offset o.toNat small
    rw [UInt64.ofNat_toNat] at halves
    rcases halves with ⟨same, mask⟩ | ⟨same, mask⟩
    · rw [mask, select8_ones, same]
    · rw [mask, select8_none, same]
  unfold macByte
  dsimp only
  rw [read]
  unfold ones
  by_cases yes : c
  · rw [if_pos yes, if_pos yes]
    exact select8_ones _ _
  · rw [if_neg yes, if_neg yes]
    exact select8_none _ _

theorem macRotate_eq (some_ : 0 < m) (small : m ≤ 64) (isSize : macSize.toNat = m) (c : Prop)
    [Decidable c] {first : Nat} (n i : Nat) {o : UInt64} (is : o.toNat = (first + i) % m) :
    macRotate rot rand (ones c) macSize n i o = (range' i n).map fun i =>
      if c then rot ((first + i) % m) else rand i := by
  induction n generalizing i o with
  | zero => rfl
  | succ n ih =>
    have less : o.toNat < m := by
      rw [is]
      exact Nat.mod_lt _ some_
    rw [macRotate, macByte_eq c (by omega), range'_succ, map_cons, is,
      ih (i + 1) (wrapped some_ small isSize is)]

end Rotation

section Answer
variable {recdata : List UInt8} {blockSize macSize : UInt64} {rand stack : MacBuf}

theorem ones_congr {p q : Prop} [Decidable p] [Decidable q] (iff : p ↔ q) : ones p = ones q := by
  simp only [ones, iff]

theorem copyMac_empty (none_ : macSize.toNat = 0) (reclen origreclen good : UInt64) :
    ssl3CbcCopyMac reclen origreclen recdata blockSize macSize good (some rand) stack =
      if good = 0 then none else some (reclen, none) := by
  have zero : macSize = 0 := UInt64.toNat_inj.mp none_
  have allowed : origreclen ≥ macSize ∧ macSize ≤ evpMaxMdSize := by
    constructor
    · change macSize ≤ origreclen
      rw [le_iff_toNat_le, none_]
      exact Nat.zero_le _
    · rw [le_iff_toNat_le, none_]
      exact Nat.zero_le _
  rw [ssl3CbcCopyMac]
  rw [if_neg (not_not_intro allowed), if_pos zero]

theorem copyMac_large (large : 64 < macSize.toNat) (reclen origreclen good : UInt64) :
    ssl3CbcCopyMac reclen origreclen recdata blockSize macSize good (some rand) stack = none := by
  have most : ¬macSize ≤ evpMaxMdSize := by
    rw [le_iff_toNat_le]
    exact not_le.mpr large
  rw [ssl3CbcCopyMac]
  exact if_pos fun both => most both.2

variable {reclen : UInt64} {m : Nat}

/-- The MAC is found wherever it ends in the last bytes, and a random one stands for it. -/
theorem copyMac_copies {origreclen : UInt64} (isSize : macSize.toNat = m) (some_ : 0 < m)
    (small : m ≤ 64) (isOrig : origreclen.toNat = recdata.length) (room : m ≤ reclen.toNat)
    (within : reclen.toNat ≤ recdata.length) (near : recdata.length ≤ reclen.toNat + 256)
    (blocks : blockSize ≠ 1) (c : Prop) [Decidable c] :
    ssl3CbcCopyMac reclen origreclen recdata blockSize macSize (ones c) (some rand) stack =
      some (reclen - macSize, some ((range m).map fun i =>
        if c then recdata.getD (reclen.toNat - m + i) 0 else rand i)) := by
  have wordO := origreclen.toNat_lt
  have allowed : origreclen ≥ macSize ∧ macSize ≤ evpMaxMdSize := by
    constructor
    · change macSize ≤ origreclen
      rw [le_iff_toNat_le]
      omega
    · rw [le_iff_toNat_le, isSize]
      exact small
  have nonzero : macSize ≠ 0 := by
    rintro rfl
    change 0 = m at isSize
    omega
  have isStart : (reclen - macSize).toNat = reclen.toNat - m := by
    rw [UInt64.toNat_sub, isSize]
    omega
  have overheads : (macSize + 255 + 1).toNat = m + 256 := by
    rw [UInt64.toNat_add, UInt64.toNat_add, isSize]
    change ((m + 255) % 2 ^ 64 + 1) % 2 ^ 64 = _
    omega
  generalize isScan : (if origreclen > macSize + 255 + 1 then origreclen - (macSize + 255 + 1)
    else 0) = scanStart
  have start : scanStart.toNat = recdata.length - (m + 256) := by
    rw [← isScan]
    by_cases more : origreclen > macSize + 255 + 1
    · rw [if_pos more, UInt64.toNat_sub, overheads]
      have := lt_iff_toNat_lt.mp more
      omega
    · rw [if_neg more]
      have := mt lt_iff_toNat_lt.mpr more
      change 0 = _
      omega
  have begun : Scanned recdata scanStart.toNat (reclen.toNat - m) m scanStart.toNat
      ⟨0, 0, 0, fun x => if x < macSize.toNat then 0 else stack x⟩ := by
    constructor
    · rw [ones, if_neg (by omega)]
    · rw [if_neg (by omega)]
      rfl
    · rw [Nat.sub_self, Nat.zero_mod]
      rfl
    · intro k _
      dsimp only
      rw [if_pos (by rw [isSize]; exact Nat.mod_lt _ some_), if_neg (by omega)]
  have scanned := macScans_run some_ small isSize isStart
    (show reclen.toNat = reclen.toNat - m + m by omega) (by omega)
    (n := origreclen.toNat - scanStart.toNat) (by omega) (le_refl _) begun
  rw [ssl3CbcCopyMac]
  dsimp only
  rw [if_neg (not_not_intro allowed), if_neg nonzero, if_neg blocks, isScan]
  generalize (range' scanStart.toNat (origreclen.toNat - scanStart.toNat)).foldl _ _ = s at *
  rw [show scanStart.toNat + (origreclen.toNat - scanStart.toNat) = recdata.length by omega]
    at scanned
  have offset : s.rotateOffset.toNat = (reclen.toNat - m - scanStart.toNat + 0) % m := by
    rw [scanned.rotateOffset, if_pos (by omega), add_zero]
  rw [isSize, macRotate_eq some_ small isSize c m 0 offset, range_eq_range']
  refine congrArg (fun bytes => some (reclen - macSize, some bytes)) (map_congr_left ?_)
  intro i member
  have less : i < m := by simpa using member
  have read := scanned.rotated i less
  rw [if_pos (by omega)] at read
  rw [read]

/-- Every mask together says what a plain look at the padding says. -/
theorem padding_good (fits : recdata.length < 2 ^ 64) (room : m + 1 ≤ recdata.length) {p : UInt64}
    (isLen : reclen.toNat = recdata.length)
    (isPad : p.toNat = (recdata.getD (recdata.length - 1) 0).toNat) {toCheck : Nat}
    (checked : toCheck = min 256 recdata.length) {c : Prop} [Decidable c]
    (long : c ↔ m + p.toNat + 1 ≤ recdata.length) :
    0xff = (range toCheck).foldl (padCheck recdata reclen p) (ones c) &&& 0xff ↔
      PaddingGood recdata m := by
  have byte := (recdata.getD (recdata.length - 1) 0).toNat_lt
  have low : ones c &&& 0xff = 0xff ↔ c := by
    unfold ones
    by_cases yes : c
    · rw [if_pos yes]
      exact iff_of_true (by decide) yes
    · rw [if_neg yes]
      exact iff_of_false (by decide) yes
  have at_i (i : Nat) (less : i < toCheck) :
      p = (recByte recdata (reclen - 1 - ofNat i)).toUInt64 ↔
        (recdata.getD (recdata.length - 1 - i) 0).toNat = p.toNat := by
    have index : (reclen - 1 - ofNat i).toNat = recdata.length - 1 - i := by
      have one : (1 : UInt64).toNat = 1 := rfl
      rw [UInt64.toNat_sub, UInt64.toNat_sub, toNat_ofNat', isLen, one]
      omega
    rw [recByte, index, ← UInt64.toNat_inj, UInt8.toNat_toUInt64, eq_comm]
  rw [eq_comm, padChecks_low (by omega) _ (by
    intro i member
    have := mem_range.mp member
    omega), low, long]
  unfold PaddingGood
  rw [← isPad]
  constructor
  · rintro ⟨enough, same⟩
    refine ⟨enough, fun b member => ?_⟩
    obtain ⟨k, less, rfl⟩ := getElem_of_mem member
    rw [length_drop] at less
    have found := (at_i (p.toNat - k) (by omega)).mp
      (same (p.toNat - k) (mem_range.mpr (by omega)) (by omega))
    rw [getD_eq_getElem _ _ (by omega)] at found
    have index : recdata.length - (p.toNat + 1) + k = recdata.length - 1 - (p.toNat - k) := by
      omega
    rw [getElem_drop]
    simp only [index]
    exact found
  · rintro ⟨enough, same⟩
    refine ⟨enough, fun i member padded => ?_⟩
    have less := mem_range.mp member
    rw [at_i i less]
    apply same
    rw [getD_eq_getElem _ _ (by omega)]
    have inside : p.toNat - i < (recdata.drop (recdata.length - (p.toNat + 1))).length := by
      rw [length_drop]
      omega
    have found := getElem_mem inside
    rw [getElem_drop] at found
    convert found using 2
    omega

theorem taken_bytes {start : Nat} (inside : start + m ≤ recdata.length) :
    ((range m).map fun i => recdata.getD (start + i) 0) = (recdata.drop start).take m := by
  apply ext_getElem
  · simp
    omega
  · intro i _ less
    simp only [length_take, length_drop] at less
    simp only [getElem_map, getElem_range, getElem_take, getElem_drop]
    exact getD_eq_getElem _ _ (by omega)

theorem blocks_iff : blockSize.toNat = 1 ↔ blockSize = 1 := by
  rw [← UInt64.toNat_inj]
  rfl

/-- Without blocks the MAC is where the record ends. -/
theorem copyMac_plain (isLen : reclen.toNat = recdata.length) (small : macSize.toNat ≤ 64)
    (room : macSize.toNat ≤ recdata.length) :
    (ssl3CbcCopyMac reclen reclen recdata 1 macSize (0 - 1) (some rand) stack).map
        (fun removed => (removed.1.toNat, removed.2)) =
      some (recdata.length - macSize.toNat, if macSize.toNat = 0 then none
        else some ((recdata.drop (recdata.length - macSize.toNat)).take macSize.toNat)) := by
  have allowed : reclen ≥ macSize ∧ macSize ≤ evpMaxMdSize := by
    constructor
    · change macSize ≤ reclen
      rw [le_iff_toNat_le, isLen]
      exact room
    · rw [le_iff_toNat_le]
      exact small
  have zero : macSize.toNat = 0 ↔ macSize = 0 := by
    rw [← UInt64.toNat_inj]
    rfl
  rw [ssl3CbcCopyMac]
  rw [if_neg (not_not_intro allowed)]
  by_cases none_ : macSize = 0
  · rw [if_pos none_, if_neg (by decide), if_pos (zero.mpr none_), zero.mpr none_, Nat.sub_zero,
      ← isLen]
    rfl
  · have left : (reclen - macSize).toNat = recdata.length - macSize.toNat := by
      have word := reclen.toNat_lt
      rw [UInt64.toNat_sub]
      omega
    rw [if_neg none_, if_pos rfl, if_neg (mt zero.mp none_), left, map_some, left]

/-- With blocks, the padding that is good goes, and the MAC in front of it with it. -/
theorem copyMac_padded (fits : recdata.length < 2 ^ 64) (isLen : reclen.toNat = recdata.length)
    (blocks : blockSize ≠ 1) (small : macSize.toNat ≤ 64)
    (room : macSize.toNat + 1 ≤ recdata.length) :
    let paddingLength := (recByte recdata (reclen - 1)).toUInt64
    let good := constantTimeEqS 0xff
      ((range (if 256 > reclen then reclen else 256).toNat).foldl
        (padCheck recdata reclen paddingLength)
        (constantTimeGeS reclen (1 + macSize + paddingLength)) &&& 0xff)
    (ssl3CbcCopyMac (reclen - (good &&& (paddingLength + 1))) reclen recdata blockSize macSize good
        (some rand) stack).map (fun removed => (removed.1.toNat, removed.2)) =
      let p := (recdata.getD (recdata.length - 1) 0).toNat
      let left := recdata.length - p - 1 - macSize.toNat
      if PaddingGood recdata macSize.toNat then
        some (left, if macSize.toNat = 0 then none
          else some ((recdata.drop left).take macSize.toNat))
      else if macSize.toNat = 0 then none
      else some (recdata.length - macSize.toNat, some ((range macSize.toNat).map rand)) := by
  intro paddingLength good
  have last : (reclen - 1).toNat = recdata.length - 1 := by
    rw [UInt64.toNat_sub, isLen]
    change (2 ^ 64 - 1 + recdata.length) % 2 ^ 64 = _
    omega
  have isPad : paddingLength.toNat = (recdata.getD (recdata.length - 1) 0).toNat := by
    rw [UInt8.toNat_toUInt64, recByte, last]
  have byte := (recdata.getD (recdata.length - 1) 0).toNat_lt
  have checked : (if 256 > reclen then reclen else 256).toNat = min 256 recdata.length := by
    by_cases fewer : 256 > reclen
    · rw [if_pos fewer, isLen]
      have : reclen.toNat < 256 := lt_iff_toNat_lt.mp fewer
      omega
    · rw [if_neg fewer]
      have : ¬reclen.toNat < 256 := fun less => fewer (lt_iff_toNat_lt.mpr less)
      change 256 = _
      omega
  have long : 1 + macSize + paddingLength ≤ reclen ↔
      macSize.toNat + paddingLength.toNat + 1 ≤ recdata.length := by
    have sum : (1 + macSize + paddingLength).toNat = macSize.toNat + paddingLength.toNat + 1 := by
      rw [UInt64.toNat_add, UInt64.toNat_add]
      change ((1 + macSize.toNat) % 2 ^ 64 + paddingLength.toNat) % 2 ^ 64 = _
      omega
    rw [le_iff_toNat_le, sum, isLen]
  have isGood : good = ones (PaddingGood recdata macSize.toNat) := by
    change constantTimeEqS _ _ = _
    rw [geS_eq, eqS_eq]
    exact ones_congr (padding_good fits room isLen isPad checked long)
  rw [isGood, ones_and_eq]
  dsimp only
  generalize paddingLength = q at *
  rw [← isPad] at byte ⊢
  have enough (padded : PaddingGood recdata macSize.toNat) :
      macSize.toNat + q.toNat + 1 ≤ recdata.length := by
    rw [isPad]
    exact padded.1
  have next : (q + 1).toNat = q.toNat + 1 := by
    rw [UInt64.toNat_add]
    change (q.toNat + 1) % 2 ^ 64 = _
    omega
  have left : (reclen - if PaddingGood recdata macSize.toNat then q + 1 else 0).toNat =
      if PaddingGood recdata macSize.toNat then recdata.length - q.toNat - 1
        else recdata.length := by
    by_cases padded : PaddingGood recdata macSize.toNat
    · have := enough padded
      rw [if_pos padded, if_pos padded, UInt64.toNat_sub, next, isLen]
      omega
    · rw [if_neg padded, if_neg padded, UInt64.sub_zero, isLen]
  generalize (reclen - if PaddingGood recdata macSize.toNat then q + 1 else 0) = kept at *
  by_cases none_ : macSize.toNat = 0
  · rw [copyMac_empty none_]
    by_cases padded : PaddingGood recdata macSize.toNat
    · rw [if_pos padded] at left
      rw [if_neg (by rw [ones, if_pos padded]; decide), map_some, left, if_pos padded,
        if_pos none_, none_, Nat.sub_zero]
    · rw [if_pos (by rw [ones, if_neg padded]), if_neg padded, if_pos none_]
      rfl
  · have keeps : macSize.toNat ≤ kept.toNat ∧ kept.toNat ≤ recdata.length ∧
        recdata.length ≤ kept.toNat + 256 := by
      by_cases padded : PaddingGood recdata macSize.toNat
      · have := enough padded
        rw [if_pos padded] at left
        omega
      · rw [if_neg padded] at left
        omega
    have shorter : (kept - macSize).toNat = kept.toNat - macSize.toNat := by
      rw [UInt64.toNat_sub]
      omega
    rw [copyMac_copies rfl (Nat.pos_of_ne_zero none_) small isLen keeps.1 keeps.2.1 keeps.2.2
        blocks, map_some, shorter, if_neg none_, if_neg none_]
    by_cases padded : PaddingGood recdata macSize.toNat
    · have := enough padded
      rw [if_pos padded] at left
      rw [if_pos padded, left]
      simp only [if_pos padded]
      rw [taken_bytes (by omega)]
    · rw [if_neg padded] at left
      rw [if_neg padded, left]
      simp only [if_neg padded]

end Answer

/-- Whatever the record holds, the masks leave what the plain way leaves. -/
theorem cbc_unpadding_plain {recdata : List UInt8} (fits : recdata.length < 2 ^ 64)
    (blockSize macSize : UInt64) (randmac stack : MacBuf) :
    (tls1CbcRemovePaddingAndMac (ofNat recdata.length) (ofNat recdata.length) recdata
        blockSize macSize false (some randmac) stack).map
        (fun removed => (removed.1.toNat, removed.2)) =
      removePlainly recdata blockSize.toNat macSize.toNat randmac := by
  have isLen : (ofNat recdata.length).toNat = recdata.length := by
    rw [toNat_ofNat', Nat.mod_eq_of_lt fits]
  generalize ofNat recdata.length = reclen at *
  unfold removePlainly
  by_cases large : 64 < macSize.toNat
  · rw [if_pos large, tls1CbcRemovePaddingAndMac]
    simp only [copyMac_large large, Bool.false_eq_true, if_false, ite_self, map_none]
  · rw [if_neg large]
    have small : macSize.toNat ≤ 64 := by omega
    by_cases single : blockSize = 1
    · rw [if_pos (blocks_iff.mpr single), tls1CbcRemovePaddingAndMac, single]
      rw [if_pos rfl, UInt64.zero_add, if_neg (not_not_intro rfl)]
      have exceeds : macSize > reclen ↔ recdata.length < macSize.toNat := by
        rw [← isLen]
        exact lt_iff_toNat_lt
      by_cases short : recdata.length < macSize.toNat
      · rw [if_pos short, if_pos (exceeds.mpr short)]
        rfl
      · rw [if_neg short, if_neg (mt exceeds.mp short)]
        exact copyMac_plain isLen small (by omega)
    · rw [if_neg (mt blocks_iff.mp single), tls1CbcRemovePaddingAndMac]
      rw [if_neg single, if_pos single]
      have overhead : (1 + macSize).toNat = macSize.toNat + 1 := by
        rw [UInt64.toNat_add]
        change (1 + macSize.toNat) % 2 ^ 64 = _
        omega
      have exceeds : 1 + macSize > reclen ↔ recdata.length < macSize.toNat + 1 := by
        rw [← isLen, ← overhead]
        exact lt_iff_toNat_lt
      by_cases short : recdata.length < macSize.toNat + 1
      · rw [if_pos short, if_pos (exceeds.mpr short)]
        rfl
      · rw [if_neg short, if_neg (mt exceeds.mp short), if_neg Bool.false_ne_true]
        exact copyMac_padded fits isLen single small (by omega)

theorem cbc_unpadding_plain_short : (tls1CbcRemovePaddingAndMac 4 4 [9, 8, 1, 1] 4 1 false
      (some fun _ => 5) fun _ => 0).map (fun removed => (removed.1.toNat, removed.2)) =
    removePlainly [9, 8, 1, 1] 4 1 fun _ => 5 :=
  @cbc_unpadding_plain [9, 8, 1, 1] (by decide) 4 1 (fun _ => 5) fun _ => 0

/-- A record too short for the MAC gets no random one: it is refused. -/
theorem short_record_refused :
    ¬∀ (recdata : List UInt8) (macSize : UInt64) (randmac stack : MacBuf),
      recdata.length % 16 = 0 → ¬PaddingGood recdata macSize.toNat →
        ∃ reclen, tls1CbcRemovePaddingAndMac (ofNat recdata.length)
          (ofNat recdata.length) recdata 16 macSize false (some randmac) stack =
            some (reclen, some ((List.range macSize.toNat).map randmac)) := by
  intro claimed
  obtain ⟨reclen, is⟩ := claimed (replicate 16 0) 20 (fun _ => 0) (fun _ => 0)
    (by decide) (by decide)
  rw [tls1CbcRemovePaddingAndMac] at is
  rw [if_pos (by decide)] at is
  contradiction

end Ossl
