import Mathlib.Data.Int.Bitwise
import Mathlib.Data.Int.ModEq
import Mathlib.Tactic.IntervalCases
import OpenSSL.MlDsa.Encoders

/- Rounding and hints, as in crypto/ml_dsa/ml_dsa_key_compress.c. -/
namespace Ossl
open Nat

def mlDsaGamma2QMinus1Div32 : Nat := (mlDsaQ - 1) / 32

def mlDsaGamma2QMinus1Div88 : Nat := (mlDsaQ - 1) / 88

def int32 (x : Int) : Int := x.bmod (2 ^ 32)

def power2Round (r : Nat) : Nat × Nat :=
  let r1 := r >>> 13
  let r0 := r - r1 <<< 13
  if 2 ^ 12 < r0 then (r1 + 1, modSub r0 (2 ^ 13)) else (r1, r0)

def highBitsProduct32 (r : Nat) : Int := ((r + 127) % 2 ^ 32 / 2 ^ 7 : Nat) * 1025 + 2 ^ 21

def highBitsProduct88 (r : Nat) : Int := ((r + 127) % 2 ^ 32 / 2 ^ 7 : Nat) * 11275 + 2 ^ 23

def highBits (r gamma2 : Nat) : Nat :=
  if gamma2 = mlDsaGamma2QMinus1Div32 then
    ((int32 (highBitsProduct32 r) >>> (22 : Nat)).land 15).toNat
  else
    let r1 := int32 (highBitsProduct88 r) >>> (24 : Nat)
    (r1.xor ((int32 (43 - r1) >>> (31 : Nat)).land r1)).toNat

def decompose (r gamma2 : Nat) : Nat × Int :=
  let r1 := highBits r gamma2
  let r0 := int32 (r - r1 * 2 * gamma2)
  (r1, int32 (r0 - (int32 ((mlDsaQ - 1) / 2 - r0) >>> (31 : Nat)).land mlDsaQ))

def makeHint (ct0 cs2 gamma2 w : Nat) : Bool :=
  let rPlusZ := modSub w cs2
  let r := reduceOnce ((rPlusZ + ct0) % 2 ^ 32)
  highBits r gamma2 != highBits rPlusZ gamma2

def useHint (hint : Bool) (r gamma2 : Nat) : Nat :=
  let (r1, r0) := decompose r gamma2
  if hint = false then r1
  else if gamma2 = (mlDsaQ - 1) / 32 then
    if 0 < r0 then (r1 + 1) &&& 15 else (r1 + (2 ^ 32 - 1)) % 2 ^ 32 &&& 15
  else if 0 < r0 then (if r1 = 43 then 0 else r1 + 1)
  else if r1 = 0 then 43
  else r1 - 1

theorem int32_eq {x : Int} (least : -2 ^ 31 ≤ x) (most : x < 2 ^ 31) : int32 x = x := by
  unfold int32 Int.bmod
  dsimp only
  split <;> omega

theorem sign_mask {x : Int} (least : -2 ^ 31 ≤ x) (most : x < 2 ^ 31) (n : Nat) :
    (x >>> (31 : Nat)).land n = if x < 0 then (n : Int) else 0 := by
  rw [Int.shiftRight_eq_div_pow]
  split
  · rw [show x / ((2 ^ 31 : Nat) : Int) = -1 by omega]
    exact congrArg Int.ofNat (eq_of_testBit_eq fun i => by simp [testBit_ldiff])
  · rw [show x / ((2 ^ 31 : Nat) : Int) = 0 by omega]
    exact congrArg Int.ofNat (zero_and n)

variable {a c gamma2 r : Nat}

theorem products_fit (small : r < mlDsaQ) :
    (0 ≤ highBitsProduct32 r ∧ highBitsProduct32 r < 2 ^ 31) ∧
      0 ≤ highBitsProduct88 r ∧ highBitsProduct88 r < 2 ^ 31 := by
  unfold mlDsaQ at small
  unfold highBitsProduct32 highBitsProduct88
  omega

/-- The high bits count the intervals below r, and the last one is the first. -/
theorem highBits_div32 (small : r < 8380417) : highBits r 261888 =
    if (r + 261887) / 523776 = 16 then 0 else (r + 261887) / 523776 := by
  obtain ⟨⟨least, most⟩, _⟩ := products_fit small
  have few : (r + 261887) / 523776 ≤ 16 := by omega
  have blocks : (r + 261887) / 523776 = ((r + 127) / 128 + 2045) / 4092 := by omega
  have inside : (r + 127) % 2 ^ 32 / 2 ^ 7 = (r + 127) / 128 := by omega
  have same : highBitsProduct32 r / 4194304 = ((r + 261887) / 523776 : Nat) := by
    rw [blocks] at few ⊢
    rw [highBitsProduct32, inside]
    generalize (r + 127) / 128 = c at few ⊢
    omega
  rw [highBits, if_pos (by decide), int32_eq (by omega) most, Int.shiftRight_eq_div_pow]
  change ((highBitsProduct32 r / 4194304).land 15).toNat = _
  rw [same]
  generalize (r + 261887) / 523776 = k at few
  interval_cases k <;> rfl

theorem highBits_div88 (small : r < 8380417) : highBits r 95232 =
    if (r + 95231) / 190464 = 44 then 0 else (r + 95231) / 190464 := by
  obtain ⟨_, least, most⟩ := products_fit small
  have few : (r + 95231) / 190464 ≤ 44 := by omega
  have blocks : (r + 95231) / 190464 = ((r + 127) / 128 + 743) / 1488 := by omega
  have inside : (r + 127) % 2 ^ 32 / 2 ^ 7 = (r + 127) / 128 := by omega
  have same : highBitsProduct88 r / 16777216 = ((r + 95231) / 190464 : Nat) := by
    rw [blocks] at few ⊢
    rw [highBitsProduct88, inside]
    generalize (r + 127) / 128 = c at few ⊢
    omega
  have shifted : highBitsProduct88 r >>> (24 : Nat) = ((r + 95231) / 190464 : Nat) := by
    rw [Int.shiftRight_eq_div_pow]
    exact same
  rw [highBits, if_neg (by decide), int32_eq (by omega) most]
  dsimp only
  rw [shifted]
  generalize (r + 95231) / 190464 = k at few
  rw [int32_eq (by omega) (by omega), sign_mask (by omega) (by omega)]
  interval_cases k <;> rfl

theorem decompose_eq (small : r < 8380417) (fits : highBits r gamma2 * 2 * gamma2 < 2 ^ 24) :
    decompose r gamma2 =
      (highBits r gamma2, if 4190208 < (r : Int) - highBits r gamma2 * 2 * gamma2
        then (r : Int) - highBits r gamma2 * 2 * gamma2 - 8380417
        else (r : Int) - highBits r gamma2 * 2 * gamma2) := by
  have cast : (highBits r gamma2 : Int) * 2 * gamma2 = (highBits r gamma2 * 2 * gamma2 : Nat) := by
    rfl
  rw [decompose, cast]
  generalize highBits r gamma2 * 2 * gamma2 = k at fits
  have half : ((mlDsaQ : Int) - 1) / 2 = 4190208 := rfl
  rw [half, @int32_eq (r - k) (by omega) (by omega), @int32_eq (4190208 - (r - k)) (by omega)
    (by omega), sign_mask (by omega) (by omega)]
  split
  · rw [if_pos (by omega), int32_eq (by unfold mlDsaQ; omega) (by unfold mlDsaQ; omega)]
    rfl
  · rw [if_neg (by omega), sub_zero, int32_eq (by omega) (by omega)]

theorem useHint_parts {r1 : Nat} {r0 : Int} (parts : decompose r gamma2 = (r1, r0)) (hint : Bool) :
    useHint hint r gamma2 = if hint = false then r1
      else if gamma2 = (mlDsaQ - 1) / 32 then
        if 0 < r0 then (r1 + 1) &&& 15 else (r1 + (2 ^ 32 - 1)) % 2 ^ 32 &&& 15
      else if 0 < r0 then (if r1 = 43 then 0 else r1 + 1)
      else if r1 = 0 then 43
      else r1 - 1 := by
  rw [useHint, parts]

theorem and_fifteen (n : Nat) : n &&& 15 = n % 16 := and_two_pow_sub_one_eq_mod n 4

theorem decompose_div32 (small : r < 8380417) :
    decompose r 261888 = (highBits r 261888, if 8118528 < r then (r : Int) - 8380417
      else (r : Int) - highBits r 261888 * 523776) := by
  have bits := highBits_div32 small
  have few : highBits r 261888 ≤ 15 := by
    rw [bits]
    split <;> omega
  have fits : highBits r 261888 * 2 * 261888 < 2 ^ 24 := by omega
  rw [decompose_eq small fits]
  refine Prod.ext rfl ?_
  rw [bits]
  split_ifs <;> omega

theorem decompose_div88 (small : r < 8380417) :
    decompose r 95232 = (highBits r 95232, if 8285184 < r then (r : Int) - 8380417
      else (r : Int) - highBits r 95232 * 190464) := by
  have bits := highBits_div88 small
  have few : highBits r 95232 ≤ 43 := by
    rw [bits]
    split <;> omega
  have fits : highBits r 95232 * 2 * 95232 < 2 ^ 24 := by omega
  rw [decompose_eq small fits]
  refine Prod.ext rfl ?_
  rw [bits]
  split_ifs <;> omega

/-- Where the hint says that r is not in the interval of a, it is in the one next to it, with r0
    on the side of a. -/
theorem hint_steps {g full top last : Nat} {wide : Int}
    (gamma : g = 261887 ∧ full = 523776 ∧ wide = 523776 ∧ top = 16 ∧ last = 8118528 ∨
      g = 95231 ∧ full = 190464 ∧ wide = 190464 ∧ top = 44 ∧ last = 8285184) (small : a < 8380417)
    (less : r < 8380417) (centred : c ≤ g + 1 ∨ 8380417 - (g + 1) ≤ c ∧ c < 8380417)
    (sum : r = a + c ∨ r + 8380417 = a + c)
    (differ : ¬(if (r + g) / full = top then 0 else (r + g) / full) =
      if (a + g) / full = top then 0 else (a + g) / full) :
    (a + g) / full = (r + g) / full + 1 ∧ (r + g) / full ≠ top ∧ ¬last < r ∧
        (0 : Int) < r - ((r + g) / full : Nat) * wide ∨
      (r + g) / full = (a + g) / full + 1 ∧ (a + g) / full < top ∧
        ¬(0 : Int) < if last < r then (r : Int) - 8380417
          else r - ((if (r + g) / full = top then 0 else (r + g) / full : Nat) : Int) * wide := by
  have low : ¬((r + g) / full = top ∧ (a + g) / full = 0) := fun both =>
    differ (by rw [both.1, both.2]; simp)
  have high : ¬((r + g) / full = 0 ∧ (a + g) / full = top) := fun both =>
    differ (by rw [both.1, both.2]; simp)
  have apart : (r + g) / full ≠ (a + g) / full := fun is => differ (by rw [is])
  have near : r < a ∧ a ≤ r + (g + 1) ∨ a < r ∧ r ≤ a + (g + 1) := by
    rcases gamma with ⟨rfl, rfl, rfl, rfl, rfl⟩ | ⟨rfl, rfl, rfl, rfl, rfl⟩ <;>
      rcases sum with plain | wrapped <;> rcases centred with few | many <;> omega
  rcases near with ⟨up, near⟩ | ⟨down, near⟩
  · refine .inl ?_
    rcases gamma with ⟨rfl, rfl, rfl, rfl, rfl⟩ | ⟨rfl, rfl, rfl, rfl, rfl⟩ <;>
      exact ⟨by omega, by omega, by omega, by omega⟩
  · refine .inr ?_
    rcases gamma with ⟨rfl, rfl, rfl, rfl, rfl⟩ | ⟨rfl, rfl, rfl, rfl, rfl⟩ <;>
      refine ⟨by omega, by omega, ?_⟩ <;> split_ifs <;> omega

theorem hint_div32 (small : a < 8380417)
    (centred : c ≤ 261888 ∨ 8380417 - 261888 ≤ c ∧ c < 8380417) :
    useHint (highBits ((a + c) % 8380417) 261888 != highBits a 261888)
      ((a + c) % 8380417) 261888 = highBits a 261888 := by
  generalize sum : (a + c) % 8380417 = r
  have less : r < 8380417 := by omega
  have bitsR := highBits_div32 less
  have bitsA := highBits_div32 small
  rw [useHint_parts (decompose_div32 less)]
  by_cases same : highBits r 261888 = highBits a 261888
  · simp [same]
  · rw [if_neg (by simpa using same), if_pos (by decide), and_fifteen, and_fifteen, bitsR, bitsA]
    rw [bitsR, bitsA] at same
    rcases hint_steps (.inl ⟨rfl, rfl, rfl, rfl, rfl⟩) small less centred (by omega) same with
      ⟨next, inside, low, more⟩ | ⟨next, below, less⟩
    · rw [next, if_neg low, if_neg inside, if_pos more]
      split_ifs <;> omega
    · rw [if_neg less, if_neg below.ne, next]
      split_ifs <;> omega

theorem hint_div88 (small : a < 8380417) (centred : c ≤ 95232 ∨ 8380417 - 95232 ≤ c ∧ c < 8380417) :
    useHint (highBits ((a + c) % 8380417) 95232 != highBits a 95232)
      ((a + c) % 8380417) 95232 = highBits a 95232 := by
  generalize sum : (a + c) % 8380417 = r
  have less : r < 8380417 := by omega
  have bitsR := highBits_div88 less
  have bitsA := highBits_div88 small
  rw [useHint_parts (decompose_div88 less)]
  by_cases same : highBits r 95232 = highBits a 95232
  · simp [same]
  · rw [if_neg (by simpa using same), if_neg (by decide), bitsR, bitsA]
    rw [bitsR, bitsA] at same
    rcases hint_steps (.inr ⟨rfl, rfl, rfl, rfl, rfl⟩) small less centred (by omega) same with
      ⟨next, inside, low, more⟩ | ⟨next, below, less⟩
    · rw [next, if_neg low, if_neg inside, if_pos more]
      by_cases last : (r + 95231) / 190464 = 43
      · rw [if_pos last, last, if_pos rfl]
      · rw [if_neg last, if_neg fun top => last (succ.inj top)]
    · rw [if_neg less, if_neg below.ne, next]
      by_cases last : (a + 95231) / 190464 + 1 = 44
      · rw [if_pos last, if_pos rfl]
        omega
      · rw [if_neg last, if_neg (succ_ne_zero _), Nat.add_sub_cancel]

theorem modSub_eq {b : Nat} (a_small : a < mlDsaQ) (b_small : b < mlDsaQ) :
    modSub a b = (a + (mlDsaQ - b)) % mlDsaQ := by
  unfold modSub reduceOnce mlDsaQ at *
  split <;> omega

theorem makeHint_eq {ct0 cs2 w : Nat} (w_small : w < mlDsaQ) (cs2_small : cs2 < mlDsaQ)
    (ct0_small : ct0 < mlDsaQ) : makeHint ct0 cs2 gamma2 w =
      (highBits (((w + (mlDsaQ - cs2)) % mlDsaQ + ct0) % mlDsaQ) gamma2 !=
        highBits ((w + (mlDsaQ - cs2)) % mlDsaQ) gamma2) := by
  have once : reduceOnce (((w + (mlDsaQ - cs2)) % mlDsaQ + ct0) % 2 ^ 32) =
      ((w + (mlDsaQ - cs2)) % mlDsaQ + ct0) % mlDsaQ := by
    unfold reduceOnce mlDsaQ at *
    split <;> omega
  rw [makeHint, modSub_eq w_small cs2_small, once]

theorem power2Round_spec (small : r < mlDsaQ) : (power2Round r).1 < 2 ^ 10 ∧
    ((power2Round r).1 * 2 ^ 13 + (power2Round r).2) % mlDsaQ = r ∧
    ((power2Round r).2 ≤ 2 ^ 12 ∨ mlDsaQ - 2 ^ 12 < (power2Round r).2 ∧
      (power2Round r).2 < mlDsaQ) := by
  have parts : r >>> 13 = r / 8192 ∧ (r / 8192) <<< 13 = r / 8192 * 8192 :=
    ⟨shiftRight_eq_div_pow r 13, shiftLeft_eq _ 13⟩
  unfold power2Round modSub reduceOnce mlDsaQ at *
  dsimp only
  rw [parts.1, parts.2]
  split_ifs <;> omega

/-- r is r1 * 2 * gamma2 + r0, where r0 is centred but for the last numbers. -/
def DecomposeExact (gamma2 r : Nat) : Prop :=
  (decompose r gamma2).1 < (mlDsaQ - 1) / (2 * gamma2) ∧
    (decompose r gamma2).1 * (2 * gamma2) + (decompose r gamma2).2 ≡ r [ZMOD mlDsaQ] ∧
    (decompose r gamma2).2 ≤ gamma2 ∧
    (-(gamma2 : Int) < (decompose r gamma2).2 ∨
      (decompose r gamma2).1 = 0 ∧ (decompose r gamma2).2 = -gamma2)

theorem decompose_exact
    (gamma : gamma2 = mlDsaGamma2QMinus1Div32 ∨ gamma2 = mlDsaGamma2QMinus1Div88)
    (small : r < mlDsaQ) : DecomposeExact gamma2 r := by
  rcases gamma with rfl | rfl
  · have bits := highBits_div32 small
    change (decompose r 261888).1 < 16 ∧ ((decompose r 261888).1 * 523776 +
      (decompose r 261888).2) % 8380417 = (r : Int) % 8380417 ∧
      (decompose r 261888).2 ≤ 261888 ∧ (-261888 < (decompose r 261888).2 ∨
        (decompose r 261888).1 = 0 ∧ (decompose r 261888).2 = -261888)
    rw [decompose_div32 small, bits]
    unfold mlDsaQ at small
    split_ifs <;> omega
  · have bits := highBits_div88 small
    change (decompose r 95232).1 < 44 ∧ ((decompose r 95232).1 * 190464 +
      (decompose r 95232).2) % 8380417 = (r : Int) % 8380417 ∧
      (decompose r 95232).2 ≤ 95232 ∧ (-95232 < (decompose r 95232).2 ∨
        (decompose r 95232).1 = 0 ∧ (decompose r 95232).2 = -95232)
    rw [decompose_div88 small, bits]
    unfold mlDsaQ at small
    split_ifs <;> omega

/-- The hint law, with the rounding of the numbers it rests on. -/
theorem ml_dsa_hints {gamma2 : Nat}
    (gamma : gamma2 = mlDsaGamma2QMinus1Div32 ∨ gamma2 = mlDsaGamma2QMinus1Div88) :
    (∀ w < mlDsaQ, ∀ cs2 < mlDsaQ, ∀ ct0 < mlDsaQ, ct0 ≤ gamma2 ∨ mlDsaQ - gamma2 ≤ ct0 →
      useHint (makeHint ct0 cs2 gamma2 w) ((w + (mlDsaQ - cs2) + ct0) % mlDsaQ) gamma2 =
        highBits ((w + (mlDsaQ - cs2)) % mlDsaQ) gamma2) ∧
    ∀ r < mlDsaQ, DecomposeExact gamma2 r ∧
      ((power2Round r).1 < 2 ^ 10 ∧ ((power2Round r).1 * 2 ^ 13 + (power2Round r).2) % mlDsaQ = r ∧
        ((power2Round r).2 ≤ 2 ^ 12 ∨ mlDsaQ - 2 ^ 12 < (power2Round r).2 ∧
          (power2Round r).2 < mlDsaQ)) ∧
      (0 ≤ highBitsProduct32 r ∧ highBitsProduct32 r < 2 ^ 31) ∧
      0 ≤ highBitsProduct88 r ∧ highBitsProduct88 r < 2 ^ 31 := by
  refine ⟨fun w w_small cs2 cs2_small ct0 ct0_small centred => ?_, fun r small =>
    ⟨decompose_exact gamma small, power2Round_spec small, products_fit small⟩⟩
  have less : (w + (mlDsaQ - cs2)) % mlDsaQ < mlDsaQ := mod_lt _ (by decide)
  have gamma32 : mlDsaGamma2QMinus1Div32 = 261888 := rfl
  have gamma88 : mlDsaGamma2QMinus1Div88 = 95232 := rfl
  rw [makeHint_eq w_small cs2_small ct0_small, ← mod_add_mod (w + (mlDsaQ - cs2))]
  rw [gamma32, gamma88] at gamma
  rcases gamma with rfl | rfl
  · exact hint_div32 less (centred.imp_right fun high => ⟨high, ct0_small⟩)
  · exact hint_div88 less (centred.imp_right fun high => ⟨high, ct0_small⟩)

theorem ml_dsa_hints_one :
    useHint (makeHint 1 0 mlDsaGamma2QMinus1Div88 95232)
      ((95232 + (mlDsaQ - 0) + 1) % mlDsaQ) mlDsaGamma2QMinus1Div88 =
      highBits ((95232 + (mlDsaQ - 0)) % mlDsaQ) mlDsaGamma2QMinus1Div88 :=
  (ml_dsa_hints (.inr rfl)).1 95232 (by decide) 0 (by decide) 1 (by decide) (by decide)

end Ossl
