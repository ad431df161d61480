import Mathlib.Tactic.LinearCombination
import Mathlib.Tactic.Ring
import OpenSSL.Bn.Values

/- The windowed non-adjacent form of bn_intern.c, on the values of BIGNUMs. A mask that is one less
   than a power of two is a remainder here. -/
namespace Ossl
open BnValue

/- The digit for a window, positive near the top of the scalar. -/
def wnafDigit (w len j : Nat) (window : Int) : Int :=
  if window % 2 = 1 then
    if window / 2 ^ w % 2 = 1 then
      if j + w + 1 ≥ len then window % 2 ^ w else window - 2 ^ (w + 1)
    else window
  else 0

def wnafLoop (scalar sign : Int) (w len : Nat) : Nat → Nat → Int → Option (List Int)
  | limit, j, window =>
    if window ≠ 0 ∨ j + w + 1 < len then
      match limit with
      | 0 => none
      | limit + 1 =>
        let digit := wnafDigit w len j window
        let left := window - digit
        if window % 2 = 1 ∧ (digit ≤ -2 ^ w ∨ digit ≥ 2 ^ w ∨ digit % 2 = 0) then none
        else if window % 2 = 1 ∧ left ≠ 0 ∧ left ≠ 2 ^ (w + 1) ∧ left ≠ 2 ^ w then none
        else
          let next := left / 2 + 2 ^ w * (if isBitSet scalar (j + 1 + w) then 1 else 0)
          if next > 2 ^ (w + 1) then none
          else (wnafLoop scalar sign w len limit (j + 1) next).map (sign * digit :: ·)
    else if j > len + 1 then none
    else some []

def bnComputeWnaf (scalar : Int) (w : Nat) : Option (List Int) :=
  if scalar = 0 then some [0]
  else if w = 0 ∨ w > 7 then none
  else
    let len := numBits scalar
    let sign := if scalar < 0 then -1 else 1
    wnafLoop scalar sign w len (len + 2) 0 (lsw scalar % 2 ^ (w + 1))

def wnafValue : List Int → Int
  | [] => 0
  | digit :: rest => digit + 2 * wnafValue rest

/- What follows a digit that is not zero. -/
def Clear (w : Nat) (rest : List Int) : Prop :=
  ∀ i, rest.getD i 0 ≠ 0 → w ≤ i ∨ i + 1 = rest.length ∧ w ≤ i + 1

def Spaced (w : Nat) : List Int → Prop
  | [] => True
  | digit :: rest => (digit ≠ 0 → Clear w rest) ∧ Spaced w rest

section
variable {w len j : Nat} {window : Int}

/- What a step takes from the window. -/
theorem wnafDigit_spec (some_ : 1 ≤ w) (low : 0 ≤ window) (high : window ≤ 2 * 2 ^ w) :
    let digit := wnafDigit w len j window
    (window % 2 = 0 ∧ digit = 0) ∨
      (window % 2 = 1 ∧ digit % 2 = 1 ∧ -2 ^ w < digit ∧ digit < 2 ^ w ∧
        (window = digit ∨ window = digit + 2 * 2 ^ w ∧ j + w + 1 < len ∨
          window = digit + 2 ^ w ∧ 0 < digit ∧ len ≤ j + w + 1)) := by
  have even : (2 : Int) ^ w % 2 = 0 := by
    obtain ⟨k, rfl⟩ := Nat.exists_eq_add_of_le' some_
    rw [pow_succ]
    omega
  have pos : (0 : Int) < 2 ^ w := Int.pow_pos (by decide)
  have parts := Int.mul_ediv_add_emod window (2 ^ w)
  have rest := Int.emod_nonneg window pos.ne'
  have less := Int.emod_lt_of_pos window pos
  have quotient := Int.ediv_nonneg low pos.le
  have most : window / 2 ^ w ≤ 2 := by
    apply Int.ediv_le_of_le_mul pos
    omega
  unfold wnafDigit
  rw [pow_succ]
  generalize (2 : Int) ^ w = bit at *
  generalize window / bit = q at *
  generalize window % bit = r at *
  have cases_ : q = 0 ∨ q = 1 ∨ q = 2 := by omega
  rcases cases_ with rfl | rfl | rfl <;> simp at parts ⊢ <;> split_ifs <;> omega

end

structure WnafTail (scalar sign : Int) (w len j : Nat) (window : Int) (ds : List Int) : Prop where
  value : wnafValue ds = sign * (window + 2 * 2 ^ w * (scalar.natAbs / 2 ^ (j + w + 1) : Nat))
  length : ds.length + j ≤ len + 1
  digits : ∀ d ∈ ds, d = 0 ∨ d % 2 = 1 ∧ -2 ^ w < d ∧ d < 2 ^ w
  spaced : Spaced w ds
  zeros : ∀ k ≤ w, (2 : Int) ^ k ∣ window → ∀ i < k, ds.getD i 0 = 0
  ends : window = 0 → len ≤ j + w + 1 → ds = []
  power : ∀ k, window = 2 ^ k → len ≤ j + w + 1 → ds.length = k + 1

section
variable {scalar sign window : Int} {w len j : Nat}

theorem wnafTail_nil (end_ : window = 0) (past : len ≤ j + w + 1) (small : j ≤ len + 1)
    (size : scalar.natAbs < 2 ^ len) : WnafTail scalar sign w len j window [] := by
  subst end_
  have none_ : scalar.natAbs / 2 ^ (j + w + 1) = 0 :=
    Nat.div_eq_of_lt (lt_of_lt_of_le size (Nat.pow_le_pow_right (by decide) past))
  constructor
  · rw [none_]
    simp [wnafValue]
  · simpa using small
  · simp
  · trivial
  · simp
  · intro _ _
    rfl
  · intro k is
    exact absurd is (Int.pow_pos (by decide)).ne

/- A digit before the others, with the window that follows it. -/
theorem wnafTail_cons (some_ : 1 ≤ w) (low : 0 ≤ window) (high : window ≤ 2 * 2 ^ w)
    (goes : window ≠ 0 ∨ j + w + 1 < len) (unit : sign = 1 ∨ sign = -1)
    (size : scalar.natAbs < 2 ^ len) {b : Nat}
    (bit : scalar.natAbs / 2 ^ (j + w + 1) = 2 * (scalar.natAbs / 2 ^ (j + 1 + w + 1)) + b)
    {next : Int} {ds : List Int}
    (is : next = (window - wnafDigit w len j window) / 2 + 2 ^ w * b)
    (rest : WnafTail scalar sign w len (j + 1) next ds) :
    WnafTail scalar sign w len j window (sign * wnafDigit w len j window :: ds) := by
  have digit := @wnafDigit_spec w len j window some_ low high
  generalize wnafDigit w len j window = d at *
  have past (tail : len ≤ j + w + 1) : b = 0 := by
    have none_ : scalar.natAbs / 2 ^ (j + w + 1) = 0 :=
      Nat.div_eq_of_lt (lt_of_lt_of_le size (Nat.pow_le_pow_right (by decide) tail))
    omega
  have half : 2 * ((window - d) / 2) = window - d := by
    rcases digit with ⟨even, rfl⟩ | ⟨odd, odd_, _⟩ <;> omega
  constructor
  · rw [wnafValue, rest.value, is, bit]
    push_cast
    linear_combination sign * half
  · rw [List.length_cons]
    have := rest.length
    omega
  · intro e member
    rcases List.mem_cons.mp member with rfl | later
    · rcases digit with ⟨_, rfl⟩ | ⟨_, odd, least, most, _⟩
      · exact .inl (mul_zero sign)
      · rcases unit with rfl | rfl <;> omega
    · exact rest.digits e later
  · refine ⟨fun nonzero => ?_, rest.spaced⟩
    have clear (divides : (2 : Int) ^ w ∣ next) : Clear w ds := by
      intro i some_
      refine .inl (Nat.le_of_not_lt fun inside => ?_)
      exact some_ (rest.zeros w (le_refl w) divides i inside)
    rcases digit with ⟨_, rfl⟩ | ⟨_, _, _, _, same | ⟨same, _⟩ | ⟨same, _, tail⟩⟩
    · exact absurd (mul_zero sign) nonzero
    · rw [is, same, sub_self, Int.zero_ediv, zero_add] at clear
      exact clear (dvd_mul_right _ _)
    · rw [is, same, add_sub_cancel_left, Int.mul_ediv_cancel_left _ (by decide)] at clear
      exact clear (Int.dvd_add (dvd_refl _) (dvd_mul_right _ _))
    · obtain ⟨v, rfl⟩ := Nat.exists_eq_add_of_le' some_
      have next_ : next = 2 ^ v := by
        rw [is, same, past tail, add_sub_cancel_left, pow_succ, Int.mul_ediv_cancel _ (by decide)]
        simp
      have count := rest.power v next_ (by omega)
      intro i some_
      refine .inr (by_contra fun none_ => some_ ?_)
      by_cases inside : i < v
      · exact rest.zeros v (by omega) (by rw [next_]) i inside
      · rw [List.getD_eq_getElem?_getD, List.getElem?_eq_none (by omega)]
        rfl
  · intro k small divides i inside
    cases k with
    | zero => exact absurd inside (Nat.not_lt_zero i)
    | succ k =>
      obtain ⟨c, power⟩ := divides
      rw [pow_succ, mul_assoc, mul_left_comm] at power
      rcases digit with ⟨_, rfl⟩ | ⟨odd, _⟩
      · cases i with
        | zero => exact mul_zero sign
        | succ i =>
          refine rest.zeros k (by omega) ?_ i (by omega)
          rw [is, sub_zero, power, Int.mul_ediv_cancel_left _ (by decide)]
          exact Int.dvd_add (dvd_mul_right _ _) ((pow_dvd_pow 2 (by omega)).mul_right _)
      · omega
  · intro zero tail
    omega
  · intro k power tail
    have rest_ := rest.power
    rw [is, past tail, Nat.cast_zero, mul_zero, add_zero] at rest_
    rw [List.length_cons]
    cases k with
    | zero =>
      have ends := rest.ends
      rw [is, past tail, Nat.cast_zero, mul_zero, add_zero] at ends
      rw [ends (by omega) (by omega)]
      rfl
    | succ k =>
      rw [pow_succ] at power
      rw [rest_ k (by omega) (by omega)]

theorem bit_taken (j w : Nat) : scalar.natAbs / 2 ^ (j + w + 1) =
    2 * (scalar.natAbs / 2 ^ (j + 1 + w + 1)) + if isBitSet scalar (j + 1 + w) then 1 else 0 := by
  have next : scalar.natAbs / 2 ^ (j + 1 + w + 1) = scalar.natAbs / 2 ^ (j + 1 + w) / 2 := by
    rw [pow_succ, Nat.div_div_eq_div_mul]
  have index : j + w + 1 = j + 1 + w := by omega
  rw [next, index]
  split
  case isTrue set_ =>
    have := (isBitSet_iff _ _).mp set_
    omega
  case isFalse clear =>
    rw [isBitSet_iff] at clear
    omega

/- What follows a step is in range again. -/
theorem wnaf_next (some_ : 1 ≤ w) (low : 0 ≤ window) (high : window ≤ 2 * 2 ^ w) {b : Nat}
    (small : b ≤ 1) (past : len ≤ j + w + 1 → b = 0) (room : 2 ^ j * window ≤ 2 ^ len)
    {next : Int} (is : next = (window - wnafDigit w len j window) / 2 + 2 ^ w * b) :
    0 ≤ next ∧ next ≤ 2 * 2 ^ w ∧ 2 ^ (j + 1) * next ≤ 2 ^ len := by
  have digit := @wnafDigit_spec w len j window some_ low high
  generalize wnafDigit w len j window = d at *
  have place : (0 : Int) < 2 ^ j := Int.pow_pos (by decide)
  have bounds : 0 ≤ next ∧ next ≤ 2 * 2 ^ w := by
    rcases Nat.le_one_iff_eq_zero_or_eq_one.mp small with rfl | rfl
    · rw [is, Nat.cast_zero, mul_zero]
      omega
    · rw [is, Nat.cast_one, mul_one]
      omega
  refine ⟨bounds.1, bounds.2, ?_⟩
  rw [pow_succ, mul_assoc]
  by_cases tail : len ≤ j + w + 1
  · have less : 2 * next ≤ window := by
      rw [is, past tail, Nat.cast_zero, mul_zero]
      omega
    exact (mul_le_mul_of_nonneg_left less place.le).trans room
  · obtain ⟨k, more⟩ := Nat.exists_eq_add_of_lt (Nat.lt_of_not_le tail)
    have least : (1 : Int) ≤ 2 ^ k := Int.pow_pos (by decide)
    calc (2 : Int) ^ j * (2 * next)
        ≤ 2 ^ j * (2 * (2 * 2 ^ w)) := mul_le_mul_of_nonneg_left (by omega) place.le
      _ ≤ 2 ^ j * (2 * (2 * 2 ^ w)) * 2 ^ k :=
        le_mul_of_one_le_right (mul_nonneg place.le (by omega)) least
      _ = 2 ^ len := by
        rw [more]
        ring

/- The loop stops in time, without an error. -/
theorem wnafLoop_spec (some_ : 1 ≤ w) (unit : sign = 1 ∨ sign = -1)
    (size : scalar.natAbs < 2 ^ len) {limit : Nat} (count : limit + j = len + 2)
    (inside : j ≤ len + 1) (low : 0 ≤ window) (high : window ≤ 2 * 2 ^ w)
    (room : 2 ^ j * window ≤ 2 ^ len) :
    ∃ ds, wnafLoop scalar sign w len limit j window = some ds ∧
      WnafTail scalar sign w len j window ds := by
  induction limit generalizing j window with
  | zero => omega
  | succ limit ih =>
    unfold wnafLoop
    by_cases goes : window ≠ 0 ∨ j + w + 1 < len
    · have before : j ≤ len := by
        by_cases zero : window = 0
        · omega
        · have least : (2 : Int) ^ j ≤ 2 ^ j * window :=
            le_mul_of_one_le_right (Int.pow_pos (by decide)).le (by omega)
          exact (Nat.pow_le_pow_iff_right (a := 2) (by decide)).mp (by exact_mod_cast least.trans room)
      have bit := @bit_taken scalar j w
      have past (tail : len ≤ j + w + 1) :
          (if isBitSet scalar (j + 1 + w) then 1 else 0) = 0 := by
        have := Nat.div_eq_of_lt (lt_of_lt_of_le size (Nat.pow_le_pow_right (by decide) tail))
        omega
      have flag : (if isBitSet scalar (j + 1 + w) then 1 else 0) ≤ 1 := by split <;> decide
      have cast : (if isBitSet scalar (j + 1 + w) then 1 else 0 : Int) =
          ((if isBitSet scalar (j + 1 + w) then 1 else 0 : Nat) : Int) := by split <;> rfl
      have twice : (2 : Int) ^ (w + 1) = 2 * 2 ^ w := by rw [pow_succ, mul_comm]
      have digit := @wnafDigit_spec w len j window some_ low high
      rw [if_pos goes]
      dsimp only
      rw [cast, twice]
      generalize (if isBitSet scalar (j + 1 + w) then 1 else 0) = b at *
      obtain ⟨nonneg, most, fits⟩ := wnaf_next some_ low high flag past room rfl
      obtain ⟨ds, rest, tail⟩ := ih (by omega) (by omega) nonneg most fits
      rw [if_neg (by omega), if_neg (by omega), if_neg (by omega), rest]
      exact ⟨_, rfl, wnafTail_cons some_ low high goes unit size bit rfl tail⟩
    · rw [if_neg goes, if_neg (by omega)]
      exact ⟨[], rfl, wnafTail_nil (by omega) (by omega) inside size⟩

end

/- Any two digits that are not zero, the later one perhaps the last. -/
theorem spaced_apart {w : Nat} {ds : List Int} (spaced : Spaced w ds) {i k : Nat} (less : i < k)
    (first : ds.getD i 0 ≠ 0) (second : ds.getD k 0 ≠ 0) :
    w + 1 ≤ k - i ∨ k + 1 = ds.length ∧ w ≤ k - i := by
  induction ds generalizing i k with
  | nil => exact absurd rfl first
  | cons d ds ih =>
    obtain ⟨k, rfl⟩ : ∃ k', k = k' + 1 := ⟨k - 1, by omega⟩
    rw [List.length_cons]
    cases i with
    | zero =>
      have := spaced.1 first k second
      omega
    | succ i =>
      have := ih spaced.2 (Nat.lt_of_succ_lt_succ less) first second
      omega

theorem compute_wnaf_represents {w : Nat} (some_ : 1 ≤ w) (most : w ≤ 7) (scalar : Int) :
    ∃ ds, bnComputeWnaf scalar w = some ds ∧ ds.length ≤ numBits scalar + 1 ∧
      wnafValue ds = scalar ∧ (∀ d ∈ ds, d = 0 ∨ d % 2 = 1 ∧ -2 ^ w < d ∧ d < 2 ^ w) ∧
      ∀ i k, i < k → ds.getD i 0 ≠ 0 → ds.getD k 0 ≠ 0 →
        w + 1 ≤ k - i ∨ k + 1 = ds.length ∧ w ≤ k - i := by
  unfold bnComputeWnaf
  by_cases zero : scalar = 0
  · subst zero
    refine ⟨[0], rfl, by decide, rfl, by simp, fun i k less _ second => ?_⟩
    obtain ⟨k, rfl⟩ : ∃ k', k = k' + 1 := ⟨k - 1, by omega⟩
    exact absurd rfl second
  rw [if_neg zero, if_neg (by omega)]
  dsimp only
  have size : scalar.natAbs < 2 ^ numBits scalar := Nat.lt_size_self _
  have unit : (if scalar < 0 then -1 else 1 : Int) = 1 ∨
      (if scalar < 0 then -1 else 1 : Int) = -1 := by
    split
    · exact .inr rfl
    · exact .inl rfl
  have signed : (if scalar < 0 then -1 else 1 : Int) * scalar.natAbs = scalar := by
    split <;> omega
  have window : (lsw scalar : Int) % 2 ^ (w + 1) = (scalar.natAbs % 2 ^ (w + 1) : Nat) := by
    have divides : 2 ^ (w + 1) ∣ 2 ^ 64 := Nat.pow_dvd_pow 2 (by omega)
    rw [lsw, Int.natCast_mod, Int.natCast_mod]
    push_cast
    exact Int.emod_emod_of_dvd _ (by exact_mod_cast divides)
  have parts := Nat.mod_add_div scalar.natAbs (2 ^ (w + 1))
  have less := Nat.mod_lt scalar.natAbs (Nat.two_pow_pos (w + 1))
  have below : scalar.natAbs % 2 ^ (w + 1) ≤ scalar.natAbs := Nat.mod_le _ _
  generalize (if scalar < 0 then -1 else 1 : Int) = sign at *
  rw [window]
  obtain ⟨ds, is, tail⟩ := wnafLoop_spec some_ unit size (j := 0) rfl (Nat.zero_le _)
    (Int.natCast_nonneg (scalar.natAbs % 2 ^ (w + 1)))
    (by rw [← mul_comm, ← pow_succ]; exact_mod_cast less.le)
    (by rw [pow_zero, one_mul]; exact_mod_cast (below.trans size.le))
  refine ⟨ds, is, tail.length, ?_, tail.digits, fun i k => spaced_apart tail.spaced⟩
  rw [tail.value, Nat.zero_add]
  conv_rhs => rw [← signed, ← parts]
  push_cast
  ring

theorem compute_wnaf_represents_seven : ∃ ds, bnComputeWnaf 7 1 = some ds ∧ wnafValue ds = 7 :=
  have ⟨ds, is, _, value, _⟩ := compute_wnaf_represents (Nat.le_refl 1) (by decide) 7
  ⟨ds, is, value⟩

end Ossl
