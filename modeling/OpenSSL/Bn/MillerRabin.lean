import Mathlib.FieldTheory.Finite.Basic
import OpenSSL.Bn.Kronecker

/- The Miller-Rabin test of crypto/bn/bn_prime.c. -/
namespace Ossl
open BnValue Rounds Int

inductive PrimeTest
  | composite
  | compositeWithFactor
  | compositeNotPowerOfPrime
  | probablyPrime
  deriving DecidableEq

def mrMinChecks (bits : Nat) : Int := if bits > 2048 then 128 else 64

def mrComposite (w : Int) (enhanced : Bool) (x : Int) : PrimeTest :=
  if enhanced then
    if (x - 1).gcd w = 1 then .compositeNotPowerOfPrime else .compositeWithFactor
  else .composite

/- The squarings of the loop over j. On the left is a jump, to the label outer_loop or to
   composite with x. -/
def mrSquares (w : Int) : Nat → Int → Option Int ⊕ Int
  | 0, z => .inr z
  | left + 1, x =>
    let z := modMul x x w
    if z = w - 1 then .inl none
    else if z = 1 then .inl (some x)
    else mrSquares w left z

def mrBase (w m : Int) (a : Nat) (enhanced : Bool) (b : Int) : Option PrimeTest :=
  if enhanced ∧ b.gcd w ≠ 1 then some .compositeWithFactor
  else
    let z := modExp b m.natAbs w
    if z = 1 ∨ z = w - 1 then none
    else
      match mrSquares w (a - 1) z with
      | .inl none => none
      | .inl (some x) => some (mrComposite w enhanced x)
      | .inr x =>
        let z := modMul x x w
        some (mrComposite w enhanced (if z = 1 then x else z))

def mrBases (w m : Int) (a : Nat) (enhanced : Bool) (rand : Nat → Nat) (cb : Nat → Bool) :
    Nat → Nat → Option PrimeTest
  | 0, _ => some .probablyPrime
  | left + 1, i =>
    match mrBase w m a enhanced (rand i + 2) with
    | some status => some status
    | none => if cb i then mrBases w m a enhanced rand cb left (i + 1) else none

def millerRabinIsPrime (w iterations : Int) (rand : Nat → Nat) (cb : Nat → Bool)
    (enhanced : Bool) : Option PrimeTest :=
  if isOdd w = false then none
  else if w - 3 ≤ 0 then none
  else
    match rounds (bitRound (w - 1)) (numBits (w - 1)) 1 with
    | none => none
    | some a =>
      let iterations := if iterations = 0 then mrMinChecks (numBits w) else iterations
      mrBases w (rshift (w - 1) a) a enhanced rand cb iterations.toNat 0

def PrimeTest.Holds (w : Int) : PrimeTest → Prop
  | .composite => ¬w.natAbs.Prime
  | .compositeWithFactor => ∃ d : Nat, 1 < d ∧ d < w.natAbs ∧ d ∣ w.natAbs
  | .compositeNotPowerOfPrime => ¬w.natAbs.Prime ∧ ∀ p k : Nat, p.Prime → w.natAbs ≠ p ^ k
  | .probablyPrime => True

variable {w b : Int}

theorem factor_not_prime {d : Nat} (more : 1 < d) (less : d < w.natAbs) (divides : d ∣ w.natAbs) :
    ¬w.natAbs.Prime := by
  intro prime
  rcases (Nat.dvd_prime prime).mp divides with one | whole <;> omega

variable {m x : Int} {enhanced : Bool} {a : Nat} {status : PrimeTest}

theorem gcd_factor (pos : 0 < x) (below : x < w) (common : x.gcd w ≠ 1) :
    1 < x.gcd w ∧ x.gcd w < w.natAbs ∧ x.gcd w ∣ w.natAbs := by
  have some_ : 0 < x.gcd w := gcd_pos_of_ne_zero_left _ pos.ne'
  have small : (x.gcd w : Int) ≤ x := Int.le_of_dvd pos (Int.gcd_dvd_left _ _)
  exact ⟨by omega, by omega, Int.natCast_dvd.mp (Int.gcd_dvd_right _ _)⟩

/-- A square root of one other than one and minus one gives a factor. -/
theorem root_verdict (nonneg : 0 ≤ x) (below : x < w) (one : x ≠ 1) (minus : x ≠ w - 1)
    (square : x * x % w = 1) (enhanced : Bool) : (mrComposite w enhanced x).Holds w := by
  have pos : 1 < x := by
    have : x ≠ 0 := by
      rintro rfl
      simp at square
    omega
  have divides : w ∣ (x - 1) * (x + 1) := by
    have := emod_add_mul_ediv (x * x) w
    exact ⟨x * x / w, by linear_combination -this + square⟩
  have common : (x - 1).gcd w ≠ 1 := by
    intro coprime
    have := le_of_dvd (by omega) (dvd_of_dvd_mul_right_of_gcd_one divides
      ((gcd_comm _ _).trans coprime))
    omega
  obtain ⟨more, less, factor⟩ := gcd_factor (by omega) (by omega) common
  cases enhanced with
  | true =>
    rw [mrComposite, if_pos rfl, if_neg common]
    exact ⟨_, more, less, factor⟩
  | false => exact factor_not_prime more less factor

/-- Fermat's theorem, for a modulus that is a power of a prime. -/
theorem fermat_power {p k : Nat} (prime : p.Prime) (power : w.natAbs = p ^ k) (large : 3 < w)
    (coprime : b.gcd w = 1) : (p : Int) ∣ b ^ (w - 1).natAbs % w - 1 ∧ (p : Int) ∣ w := by
  have : Fact p.Prime := ⟨prime⟩
  have nonzero : k ≠ 0 := by
    rintro rfl
    rw [pow_zero] at power
    omega
  have divides : (p : Int) ∣ w := by
    rw [natCast_dvd, power]
    exact dvd_pow_self p nonzero
  have unit : (b : ZMod p) ≠ 0 := by
    intro zero
    have both := dvd_coe_gcd ((ZMod.intCast_zmod_eq_zero_iff_dvd b p).mp zero) divides
    rw [coprime] at both
    exact prime.one_lt.ne' (by exact_mod_cast eq_one_of_dvd_one (by omega) both)
  have exponent : (w - 1).natAbs = p ^ k - 1 ^ k := by
    rw [one_pow, ← power]
    omega
  refine ⟨?_, divides⟩
  obtain ⟨e, times⟩ := Nat.sub_dvd_pow_sub_pow p 1 k
  have reduced : ((b ^ (w - 1).natAbs % w : Int) : ZMod p) = (b : ZMod p) ^ (w - 1).natAbs := by
    rw [← cast_pow]
    exact (ZMod.intCast_eq_intCast_iff_dvd_sub _ _ _).mpr (divides.trans (dvd_self_sub_emod))
  rw [← ZMod.intCast_zmod_eq_zero_iff_dvd, cast_sub, reduced, exponent, times, pow_mul,
    ZMod.pow_card_sub_one_eq_one unit, one_pow, cast_one, sub_self]

/-- A power that Fermat's theorem does not have for a prime, and what its divisor says. -/
theorem power_verdict (large : 3 < w) (pos : 0 < b) (below : b < w)
    (coprime : enhanced = true → b.gcd w = 1) (other : b ^ (w - 1).natAbs % w ≠ 1) :
    (mrComposite w enhanced (b ^ (w - 1).natAbs % w)).Holds w := by
  generalize is : b ^ (w - 1).natAbs % w = x at other ⊢
  have nonneg : 0 ≤ x := is ▸ emod_nonneg _ (by omega)
  have less : x < w := is ▸ emod_lt_of_pos _ (by omega)
  cases enhanced with
  | false =>
    intro prime
    have unit : b.gcd w = 1 := by
      by_contra common
      obtain ⟨more, factor, divides⟩ := gcd_factor pos below common
      exact factor_not_prime more factor divides prime
    obtain ⟨divides, _⟩ := fermat_power prime (pow_one _).symm large unit
    rw [is] at divides
    have := eq_zero_of_abs_lt_dvd divides (by rw [abs_lt]; omega)
    omega
  | true =>
    have unit := coprime rfl
    rw [mrComposite, if_pos rfl]
    split
    case isTrue one =>
      have power (p k : Nat) (prime : p.Prime) : w.natAbs ≠ p ^ k := by
        intro same
        obtain ⟨low, high⟩ := fermat_power prime same large unit
        have both := dvd_coe_gcd (is ▸ low) high
        rw [one] at both
        exact prime.one_lt.ne' (by exact_mod_cast eq_one_of_dvd_one (by omega) both)
      exact ⟨fun prime => power _ 1 prime (pow_one _).symm, power⟩
    case isFalse common =>
      have some_ : x ≠ 0 := by
        rintro rfl
        have divides := dvd_of_emod_eq_zero is
        have := isCoprime_iff_gcd_eq_one.mpr unit
        have := (this.pow_left.isUnit_of_dvd' divides (dvd_refl w))
        have := isUnit_iff.mp this
        omega
      obtain ⟨more, factor, divides⟩ := gcd_factor (by omega) (by omega) common
      exact ⟨_, more, factor, divides⟩

/-- The squarings stop at a root of one, or give a power of the base. -/
theorem mrSquares_spec (large : 3 < w) (left : Nat) {e : Nat} {z x : Int} (is : z = b ^ e % w)
    (one : z ≠ 1) (minus : z ≠ w - 1) :
    (mrSquares w left z = .inl (some x) → 0 ≤ x ∧ x < w ∧ x ≠ 1 ∧ x ≠ w - 1 ∧ x * x % w = 1) ∧
    (mrSquares w left z = .inr x → x ≠ 1 ∧ x ≠ w - 1 ∧ x = b ^ (2 ^ left * e) % w) := by
  induction left generalizing e z with
  | zero =>
    refine ⟨nofun, fun run => ?_⟩
    obtain rfl := Sum.inr.inj run
    exact ⟨one, minus, by rwa [pow_zero, one_mul]⟩
  | succ left ih =>
    have square : modMul z z w = b ^ (2 * e) % w := by
      rw [modMul, nnmod_eq (by omega), is, ← mul_emod, ← pow_add, two_mul]
    have nonneg : 0 ≤ z := is ▸ emod_nonneg _ (by omega)
    have less : z < w := is ▸ emod_lt_of_pos _ (by omega)
    rw [mrSquares]
    by_cases last : modMul z z w = w - 1
    · rw [if_pos last]
      exact ⟨nofun, nofun⟩
    · rw [if_neg last]
      by_cases root : modMul z z w = 1
      · rw [if_pos root]
        refine ⟨fun run => ?_, nofun⟩
        obtain rfl := Option.some.inj (Sum.inl.inj run)
        rw [modMul, nnmod_eq (by omega)] at root
        exact ⟨nonneg, less, one, minus, root⟩
      · rw [if_neg root, pow_succ, mul_assoc]
        exact ih square root last

theorem mrBase_holds (large : 3 < w) (split_ : w - 1 = 2 ^ a * m) (twos : 0 < a) (pos : 0 < b)
    (below : b < w) (run : mrBase w m a enhanced b = some status) : status.Holds w := by
  unfold mrBase at run
  split at run
  case isTrue common =>
    cases run
    obtain ⟨more, factor, divides⟩ := gcd_factor pos below common.2
    exact ⟨_, more, factor, divides⟩
  case isFalse free =>
    have coprime : enhanced = true → b.gcd w = 1 := by tauto
    dsimp only at run
    split at run
    case isTrue => contradiction
    case isFalse other =>
      rw [not_or] at other
      have spec := fun x => @mrSquares_spec w b large (a - 1) m.natAbs _ x rfl other.1 other.2
      split at run
      case h_1 => contradiction
      case h_2 x there =>
        cases run
        obtain ⟨nonneg, less, one, minus, square⟩ := (spec x).1 there
        exact root_verdict nonneg less one minus square enhanced
      case h_3 x there =>
        cases run
        obtain ⟨one, minus, power⟩ := (spec x).2 there
        have square : modMul x x w = b ^ (w - 1).natAbs % w := by
          have whole : (w - 1).natAbs = 2 ^ (a - 1) * m.natAbs + 2 ^ (a - 1) * m.natAbs := by
            rw [split_, natAbs_mul, natAbs_pow, ← add_mul, ← two_mul, ← pow_succ',
              Nat.sub_add_cancel twos]
            rfl
          rw [modMul, nnmod_eq (by omega), power, ← mul_emod, ← pow_add, whole]
        by_cases root : modMul x x w = 1
        · rw [if_pos root]
          rw [modMul, nnmod_eq (by omega)] at root
          exact root_verdict (power ▸ emod_nonneg _ (by omega))
            (power ▸ emod_lt_of_pos _ (by omega)) one minus root enhanced
        · rw [if_neg root, square]
          rw [square] at root
          exact power_verdict large pos below coprime root

theorem mrBases_hold (large : 3 < w) (split_ : w - 1 = 2 ^ a * m) (twos : 0 < a)
    {rand : Nat → Nat} (drawn : ∀ i, (rand i : Int) < w - 3) {cb : Nat → Bool} {left i : Nat}
    (run : mrBases w m a enhanced rand cb left i = some status) : status.Holds w := by
  induction left generalizing i with
  | zero =>
    cases run
    trivial
  | succ left ih =>
    have := drawn i
    rw [mrBases] at run
    split at run
    case h_1 there =>
      cases run
      exact mrBase_holds large split_ twos (by omega) (by omega) there
    case h_2 =>
      split at run
      case isTrue => exact ih run
      case isFalse => contradiction

/-- The verdicts of the test hold, and for a prime it finds nothing against it. -/
theorem miller_rabin_sound (odd : w % 2 = 1) (large : 3 < w) (iterations : Int)
    {rand : Nat → Nat} (drawn : ∀ i, (rand i : Int) < w - 3) (cb : Nat → Bool) {enhanced : Bool}
    {status : PrimeTest}
    (run : millerRabinIsPrime w iterations rand cb enhanced = some status) :
    status.Holds w ∧ (w.natAbs.Prime → status = .probablyPrime) := by
  have holds : status.Holds w := by
    unfold millerRabinIsPrime at run
    rw [if_neg (by simpa [isOdd_false] using odd), if_neg (by omega)] at run
    obtain ⟨a, found, whole, oddPart⟩ := @lowestBit_spec (w - 1) (by omega)
    have clear : isBitSet (w - 1) 0 = false := by
      rw [Bool.eq_false_iff, ne_eq, isBitSet_iff]
      omega
    rw [lowestBit, rounds, bitRound, clear] at found
    have twos : a ≠ 0 := by
      rintro rfl
      rw [pow_zero, one_mul] at whole
      omega
    change rounds (bitRound (w - 1)) (numBits (w - 1)) 1 = some a at found
    rw [found] at run
    exact mrBases_hold large whole (Nat.pos_of_ne_zero twos) drawn run
  refine ⟨holds, fun prime => ?_⟩
  cases status with
  | composite => exact absurd prime holds
  | compositeWithFactor =>
    obtain ⟨d, more, less, divides⟩ := holds
    exact absurd prime (factor_not_prime more less divides)
  | compositeNotPowerOfPrime => exact absurd prime holds.1
  | probablyPrime => rfl

theorem miller_rabin_sound_fifteen : PrimeTest.Holds 15 .compositeWithFactor :=
  (@miller_rabin_sound 15 (by decide) (by decide) 1 (fun _ => 2) (fun _ => by decide)
    (fun _ => true) true .compositeWithFactor (by decide)).1

end Ossl
