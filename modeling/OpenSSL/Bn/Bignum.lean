import Mathlib.Data.List.GetD
import Mathlib.Data.Nat.Size
import OpenSSL.Lib.Digits

/- Big numbers as words with a sign. -/
namespace Ossl
open Nat List

/-- All allocated words, of which the first top ones are in use. -/
structure Bignum where
  d : List UInt64
  top : Nat
  neg : Bool
  fits : top ≤ d.length

abbrev wordsValue (words : List UInt64) : Nat := Digits.value (2 ^ 64) UInt64.toNat words

namespace Bignum

def words (a : Bignum) : List UInt64 := a.d.take a.top

def magnitude (a : Bignum) : Nat := wordsValue a.words

def value (a : Bignum) : Int := if a.neg then -(a.magnitude : Int) else a.magnitude

end Bignum

/- What a debug build asserts about a number without a fixed top. -/
def bnCheckTop (a : Bignum) : Prop :=
  a.top = 0 ∧ a.neg = false ∨ 0 < a.top ∧ a.d.getD (a.top - 1) 0 ≠ 0

instance (a : Bignum) : Decidable (bnCheckTop a) := inferInstanceAs (Decidable (_ ∨ _))

def bnNew : Bignum := { d := [], top := 0, neg := false, fits := Nat.le_refl 0 }

def bnExpanded (a : Bignum) (words : Nat) : Bignum :=
  if words > a.d.length then
    { d := a.d.take a.top ++ replicate (words - a.top) 0, top := a.top, neg := a.neg
      fits := by have := a.fits; simp; omega }
  else a

def bnMaxWords : Nat := (2 ^ 31 - 1) / (4 * 64)

/- bn_expand_internal refuses more words than this. -/
def bnWexpand (a : Bignum) (words : Nat) : Option Bignum :=
  if words > a.d.length ∧ words > bnMaxWords then none else some (bnExpanded a words)

/- The words are allocated already, or not too many to allocate. -/
def Room (a : Bignum) (words : Nat) : Prop := words ≤ a.d.length ∨ words ≤ bnMaxWords

def bnSetWords (a : Bignum) (words : List UInt64) (neg : Bool) : Bignum :=
  { d := words ++ a.d.drop words.length, top := words.length, neg := neg, fits := by simp }

def correctedTop (d : List UInt64) : Nat → Nat
  | 0 => 0
  | top + 1 => if d.getD top 0 ≠ 0 then top + 1 else correctedTop d top

variable (a : Bignum) (d : List UInt64)

theorem correctedTop_le (top : Nat) : correctedTop d top ≤ top := by
  induction top with
  | zero => exact le_refl 0
  | succ top ih =>
    unfold correctedTop
    split
    · exact le_refl _
    · omega

def bnCorrectTop (a : Bignum) : Bignum :=
  let top := correctedTop a.d a.top
  { d := a.d, top := top, neg := if top = 0 then false else a.neg
    fits := Nat.le_trans (correctedTop_le a.d a.top) a.fits }

def bnNumBitsHalf (half : UInt64) (s : UInt64 × Nat) : UInt64 × Nat :=
  let x := s.1 >>> half
  let mask := (0 : UInt64) - x
  let mask := (0 : UInt64) - (mask >>> 63)
  (s.1 ^^^ ((x ^^^ s.1) &&& mask), s.2 + (half &&& mask).toNat)

def bnNumBitsWord (l : UInt64) : Nat :=
  let bits := if l ≠ 0 then 1 else 0
  let s := bnNumBitsHalf 32 (l, bits)
  let s := bnNumBitsHalf 16 s
  let s := bnNumBitsHalf 8 s
  let s := bnNumBitsHalf 4 s
  let s := bnNumBitsHalf 2 s
  (bnNumBitsHalf 1 s).2

def bnNumBits (a : Bignum) : Nat :=
  if a.top = 0 then 0 else (a.top - 1) * 64 + bnNumBitsWord (a.d.getD (a.top - 1) 0)

def Bignum.bnNumBytes (a : Bignum) : Nat := (bnNumBits a + 7) / 8

theorem wordsValue_lt (words : List UInt64) : wordsValue words < (2 ^ 64) ^ words.length :=
  Digits.value_lt UInt64.toNat_lt words

namespace Bignum

@[simp] theorem words_length (a : Bignum) : a.words.length = a.top := by
  rw [words, length_take, Nat.min_eq_left a.fits]

theorem magnitude_lt (a : Bignum) : a.magnitude < (2 ^ 64) ^ a.top := by
  have := wordsValue_lt a.words
  rwa [words_length] at this

theorem word_get (a : Bignum) {k : Nat} (used : k < a.top) :
    (a.d.getD k 0).toNat = a.magnitude / (2 ^ 64) ^ k % 2 ^ 64 := by
  have stored : k < a.d.length := lt_of_lt_of_le used a.fits
  have at_k := Digits.digit_get UInt64.toNat_lt a.words k (by simpa using used)
  rw [magnitude, wordsValue, ← at_k, getD_eq_getElem _ _ stored]
  simp [words]

theorem magnitude_split (a : Bignum) (used : 0 < a.top) :
    (a.d.getD (a.top - 1) 0).toNat * (2 ^ 64) ^ (a.top - 1) ≤ a.magnitude ∧
      a.magnitude < ((a.d.getD (a.top - 1) 0).toNat + 1) * (2 ^ 64) ^ (a.top - 1) := by
  have last := a.word_get (k := a.top - 1) (by omega)
  have below := a.magnitude_lt
  have pos : 0 < (2 ^ 64) ^ (a.top - 1) := Nat.pow_pos (by decide)
  have top : (2 ^ 64) ^ a.top = 2 ^ 64 * (2 ^ 64) ^ (a.top - 1) := by
    rw [← Nat.pow_succ', succ_eq_add_one, Nat.sub_add_cancel used]
  rw [mod_eq_of_lt] at last
  · rw [last]
    constructor
    · exact div_mul_le_self _ _
    · exact lt_mul_of_div_lt (lt_succ_self _) pos
  · rw [div_lt_iff_lt_mul pos, ← top]
    exact below

variable {a : Bignum}

theorem magnitude_top_zero (empty : a.top = 0) : a.magnitude = 0 := by
  rw [magnitude, words, empty, take_zero, wordsValue, Digits.value_nil]

theorem magnitude_pos (used : 0 < a.top) (nonzero : a.d.getD (a.top - 1) 0 ≠ 0) :
    0 < a.magnitude := by
  have least := (a.magnitude_split used).1
  have word : 0 < (a.d.getD (a.top - 1) 0).toNat := by
    apply pos_of_ne_zero
    intro zero
    exact nonzero (UInt64.toNat_inj.mp zero)
  exact Nat.lt_of_lt_of_le (Nat.mul_pos word (Nat.pow_pos (by decide))) least

theorem neg_nonzero (checked : bnCheckTop a) (neg : a.neg = true) : 0 < a.magnitude := by
  rcases checked with ⟨_, plain⟩ | ⟨used, nonzero⟩
  · rw [neg] at plain
    nomatch plain
  · exact magnitude_pos used nonzero

end Bignum

@[simp] theorem bnSetWords_words (a : Bignum) (words : List UInt64) (neg : Bool) :
    (bnSetWords a words neg).words = words := by
  simp [bnSetWords, Bignum.words]

theorem room_expands {a : Bignum} {n : Nat} (room : Room a n) : ¬ bnWexpand a n = none := by
  unfold Room at room
  rw [bnWexpand, if_neg (by omega)]
  exact Option.some_ne_none _

theorem bnExpanded_words (n : Nat) : (bnExpanded a n).words = a.words := by
  have fits := a.fits
  unfold bnExpanded
  split
  · simp [Bignum.words, min_eq_left fits]
  · rfl

theorem le_bnExpanded (n : Nat) : n ≤ (bnExpanded a n).d.length := by
  have fits := a.fits
  unfold bnExpanded
  split
  · simp; omega
  · omega

theorem correctedTop_value (top : Nat) :
    wordsValue (d.take (correctedTop d top)) = wordsValue (d.take top) := by
  induction top with
  | zero => rfl
  | succ top ih =>
    unfold correctedTop
    by_cases zero : d.getD top 0 ≠ 0
    · rw [if_pos zero]
    · rw [if_neg zero, ih]
      by_cases stored : top < d.length
      · rw [getD_eq_getElem _ _ stored, not_not] at zero
        rw [take_succ_eq_append_getElem stored, wordsValue, wordsValue, Digits.value_concat, zero]
        simp
      · rw [take_of_length_le (by omega), take_of_length_le (by omega)]

theorem correctedTop_get (top : Nat) :
    correctedTop d top = 0 ∨ d.getD (correctedTop d top - 1) 0 ≠ 0 := by
  induction top with
  | zero => exact .inl rfl
  | succ top ih =>
    unfold correctedTop
    by_cases nonzero : d.getD top 0 ≠ 0
    · rw [if_pos nonzero]
      exact .inr nonzero
    · rw [if_neg nonzero]
      exact ih

theorem bnCorrectTop_checked : bnCheckTop (bnCorrectTop a) := by
  by_cases zero : correctedTop a.d a.top = 0
  · apply Or.inl
    exact ⟨zero, by simp [bnCorrectTop, zero]⟩
  · apply Or.inr
    exact ⟨pos_of_ne_zero zero, (correctedTop_get a.d a.top).resolve_left zero⟩

theorem bnCorrectTop_magnitude : (bnCorrectTop a).magnitude = a.magnitude :=
  correctedTop_value a.d a.top

theorem bnCorrectTop_value : (bnCorrectTop a).value = a.value := by
  have same := bnCorrectTop_magnitude a
  rw [Bignum.value, Bignum.value, same]
  by_cases zero : correctedTop a.d a.top = 0
  · have none_ : a.magnitude = 0 := by
      rw [← same]
      exact Bignum.magnitude_top_zero zero
    simp [none_]
  · simp [bnCorrectTop, zero]

theorem half_mask {x : UInt64} (low : x.toNat < 2 ^ 63) :
    (0 : UInt64) - (((0 : UInt64) - x) >>> 63) = if x = 0 then 0 else 0 - 1 := by
  by_cases zero : x = 0
  · rw [if_pos zero, zero]
    decide
  · rw [if_neg zero]
    have pos : 0 < x.toNat := by
      apply pos_of_ne_zero
      intro is
      exact zero (UInt64.toNat_inj.mp is)
    have top : ((0 : UInt64) - x) >>> 63 = 1 := by
      apply UInt64.toNat_inj.mp
      rw [UInt64.toNat_shiftRight, UInt64.toNat_sub, shiftRight_eq_div_pow]
      simp
      omega
    rw [top]

/-- A halving keeps the upper part when there is one. -/
theorem bnNumBitsHalf_spec (half : UInt64) (l : UInt64) (bits : Nat) (small : half.toNat < 64)
    (some_ : 1 ≤ half.toNat) :
    bnNumBitsHalf half (l, bits) =
      if l.toNat < 2 ^ half.toNat then (l, bits) else (l >>> half, bits + half.toNat) := by
  have word := l.toNat_lt
  have shifted : (l >>> half).toNat = l.toNat / 2 ^ half.toNat := by
    rw [UInt64.toNat_shiftRight, mod_eq_of_lt small, shiftRight_eq_div_pow]
  have low : (l >>> half).toNat < 2 ^ 63 := by
    rw [shifted]
    calc l.toNat / 2 ^ half.toNat
        ≤ l.toNat / 2 ^ 1 := div_le_div_left (Nat.pow_le_pow_right (by decide) some_) (by decide)
      _ < 2 ^ 63 := by omega
  have zero : l >>> half = 0 ↔ l.toNat < 2 ^ half.toNat := by
    rw [← UInt64.toNat_inj, shifted, UInt64.toNat_zero, Nat.div_eq_zero_iff]
    have pos : 0 < 2 ^ half.toNat := Nat.pow_pos (by decide)
    omega
  rw [bnNumBitsHalf]
  rw [half_mask low]
  by_cases none_ : l >>> half = 0
  · rw [if_pos none_, if_pos (zero.mp none_)]
    simp
  · rw [if_neg none_, if_neg (mt zero.mpr none_)]
    have ones (y : UInt64) : y &&& (0 - 1) = y := by
      apply UInt64.toBitVec_inj.mp
      simp
    rw [ones, ones, UInt64.xor_comm (l >>> half) l, ← UInt64.xor_assoc, UInt64.xor_self,
      UInt64.zero_xor]

/-- What is left of a word is the word over the bits already counted. -/
theorem halved (half : UInt64) {l : UInt64} {s : UInt64 × Nat} (small : half.toNat < 64)
    (some_ : 1 ≤ half.toNat) (counted : 1 ≤ s.2) (left : s.1.toNat = l.toNat / 2 ^ (s.2 - 1))
    (low : s.1.toNat < 2 ^ (2 * half.toNat)) (nonzero : s.1.toNat ≠ 0) :
    1 ≤ (bnNumBitsHalf half s).2 ∧
      (bnNumBitsHalf half s).1.toNat = l.toNat / 2 ^ ((bnNumBitsHalf half s).2 - 1) ∧
      (bnNumBitsHalf half s).1.toNat < 2 ^ half.toNat ∧ (bnNumBitsHalf half s).1.toNat ≠ 0 := by
  rw [bnNumBitsHalf_spec half s.1 s.2 small some_]
  by_cases under : s.1.toNat < 2 ^ half.toNat
  · rw [if_pos under]
    exact ⟨counted, left, under, nonzero⟩
  · rw [if_neg under]
    have shifted : (s.1 >>> half).toNat = s.1.toNat / 2 ^ half.toNat := by
      rw [UInt64.toNat_shiftRight, mod_eq_of_lt small, shiftRight_eq_div_pow]
    have pos : 0 < 2 ^ half.toNat := Nat.pow_pos (by decide)
    rw [shifted]
    refine ⟨by omega, ?_, ?_, ?_⟩
    · rw [left, Nat.div_div_eq_div_mul, ← pow_add]
      congr 2
      omega
    · rw [div_lt_iff_lt_mul pos, ← pow_add]
      convert low using 2
      omega
    · have := Nat.div_pos (Nat.le_of_not_lt under) pos
      omega

/-- The search finds the size of the word. -/
theorem bnNumBitsWord_eq (l : UInt64) : bnNumBitsWord l = size l.toNat := by
  by_cases zero : l = 0
  · rw [zero]
    decide +kernel
  · have nonzero : l.toNat ≠ 0 := by
      intro is
      exact zero (UInt64.toNat_inj.mp is)
    have word := l.toNat_lt
    have start : ((l, 1) : UInt64 × Nat).1.toNat = l.toNat / 2 ^ (((l, 1) : UInt64 × Nat).2 - 1) := by
      simp
    obtain ⟨a1, a2, a3, a4⟩ := halved 32 (by decide) (by decide) (le_refl 1) start word nonzero
    obtain ⟨b1, b2, b3, b4⟩ := halved 16 (by decide) (by decide) a1 a2 a3 a4
    obtain ⟨c1, c2, c3, c4⟩ := halved 8 (by decide) (by decide) b1 b2 b3 b4
    obtain ⟨d1, d2, d3, d4⟩ := halved 4 (by decide) (by decide) c1 c2 c3 c4
    obtain ⟨e1, e2, e3, e4⟩ := halved 2 (by decide) (by decide) d1 d2 d3 d4
    obtain ⟨f1, f2, f3, f4⟩ := halved 1 (by decide) (by decide) e1 e2 e3 e4
    have whole : bnNumBitsWord l = (bnNumBitsHalf 1 (bnNumBitsHalf 2 (bnNumBitsHalf 4
        (bnNumBitsHalf 8 (bnNumBitsHalf 16 (bnNumBitsHalf 32 (l, 1))))))).2 := by
      rw [bnNumBitsWord, if_pos zero]
    rw [whole]
    generalize bnNumBitsHalf 1 _ = s at *
    have one : l.toNat / 2 ^ (s.2 - 1) = 1 := by
      rw [← f2]
      have : s.1.toNat < 2 := f3
      omega
    have pos : 0 < 2 ^ (s.2 - 1) := Nat.pow_pos (by decide)
    have double : 2 ^ s.2 = 2 * 2 ^ (s.2 - 1) := by
      rw [← Nat.pow_succ', succ_eq_add_one, Nat.sub_add_cancel f1]
    apply le_antisymm
    · have : s.2 - 1 < size l.toNat := by
        rw [lt_size]
        exact (one_le_div_iff pos).mp (le_of_eq one.symm)
      omega
    · rw [size_le, double]
      exact (div_lt_iff_lt_mul pos).mp (by omega)

end Ossl
