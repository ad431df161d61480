import Mathlib.NumberTheory.LegendreSymbol.JacobiSymbol

/- The Kronecker symbol: the Jacobi symbol for every integer below. -/
namespace KroneckerSymbol
open Nat List ZMod

def overTwo (a : Int) : Int := if a % 2 = 0 then 0 else if a % 8 = 1 ∨ a % 8 = 7 then 1 else -1

def overPrime (a : Int) (p : Nat) : Int := if p = 2 then overTwo a else jacobiSym a p

def overSign (a b : Int) : Int := if b < 0 ∧ a < 0 then -1 else 1

def kroneckerSym (a b : Int) : Int :=
  if b = 0 then if a.natAbs = 1 then 1 else 0
  else overSign a b * (b.natAbs.primeFactorsList.map (overPrime a)).prod

theorem overTwo_eq (a : Int) : overTwo a = χ₈ a := (χ₈_int_eq_if_mod_eight a).symm

variable {a : Int}

theorem overTwo_odd (odd : a % 2 = 1) : overTwo a = 1 ∨ overTwo a = -1 := by
  unfold overTwo
  rw [if_neg (by omega)]
  split
  · exact .inl rfl
  · exact .inr rfl

theorem overTwo_pow (odd : a % 2 = 1) (i : Nat) :
    overTwo a ^ i = if i % 2 = 1 then overTwo a else 1 := by
  have square : overTwo a ^ 2 = 1 := by
    cases overTwo_odd odd with
    | inl one => rw [one]; rfl
    | inr minus => rw [minus]; rfl
  have split_ : i = 2 * (i / 2) + i % 2 := by omega
  rw [split_, pow_add, pow_mul, square, one_pow, one_mul, ← split_]
  have bit := mod_two_eq_zero_or_one i
  cases bit with
  | inl even => rw [even, pow_zero, if_neg (by omega)]
  | inr odd_ => rw [odd_, pow_one, if_pos (by omega)]

/-- Over an odd number the product is the Jacobi symbol. -/
theorem prod_odd (a : Int) {m : Nat} (odd : m % 2 = 1) :
    (m.primeFactorsList.map (overPrime a)).prod = jacobiSym a m := by
  have same : m.primeFactorsList.map (overPrime a) = m.primeFactorsList.map (jacobiSym a) := by
    refine map_congr_left fun p mem => ?_
    have other : p ≠ 2 := by
      rintro rfl
      have := dvd_of_mem_primeFactorsList mem
      omega
    rw [overPrime, if_neg other]
  have factors : ∀ p ∈ m.primeFactorsList, p ≠ 0 :=
    fun p mem => (prime_of_mem_primeFactorsList mem).ne_zero
  rw [same, ← jacobiSym.list_prod_right factors, prod_primeFactorsList (by omega)]

/-- The symbol over a power of two times an odd number. -/
theorem kroneckerSym_split (a : Int) {b : Int} {i m : Nat} (shape : b.natAbs = 2 ^ i * m)
    (odd : m % 2 = 1) :
    kroneckerSym a b = overSign a b * (overTwo a ^ i * jacobiSym a m) := by
  have some_ : m ≠ 0 := by omega
  have nonzero : b ≠ 0 := by
    intro zero
    rw [zero] at shape
    have : 0 < 2 ^ i := by positivity
    have := mul_pos this (pos_of_ne_zero some_)
    omega
  have factors := perm_primeFactorsList_mul (pow_ne_zero i (by decide : (2 : Nat) ≠ 0)) some_
  rw [kroneckerSym, if_neg nonzero, shape, (factors.map (overPrime a)).prod_eq, map_append,
    prod_append, prod_odd a odd, prime_two.primeFactorsList_pow, map_replicate,
    prod_replicate, overPrime, if_pos rfl]

theorem kroneckerSym_prime (a : Int) (p : Nat) [prime : Fact p.Prime] (other : p ≠ 2) :
    kroneckerSym a p = legendreSym p a := by
  have odd : p % 2 = 1 := prime.out.eq_two_or_odd.resolve_left other
  have sign_ : overSign a p = 1 := if_neg (by omega)
  rw [kroneckerSym_split a (i := 0) (m := p) (by simp) odd, sign_, pow_zero, one_mul, one_mul,
    jacobiSym.legendreSym.to_jacobiSym]

theorem trichotomy_mul {x y : Int} (x_is : x = 0 ∨ x = 1 ∨ x = -1)
    (y_is : y = 0 ∨ y = 1 ∨ y = -1) : x * y = 0 ∨ x * y = 1 ∨ x * y = -1 := by
  rcases x_is with zero | one | minus
  · exact .inl (by rw [zero, zero_mul])
  · rwa [one, one_mul]
  · rw [minus, neg_one_mul]
    omega

theorem overPrime_trichotomy (a : Int) (p : Nat) :
    overPrime a p = 0 ∨ overPrime a p = 1 ∨ overPrime a p = -1 := by
  unfold overPrime
  split
  · unfold overTwo
    split
    · exact .inl rfl
    · split
      · exact .inr (.inl rfl)
      · exact .inr (.inr rfl)
  · exact jacobiSym.trichotomy a p

theorem trichotomy (a b : Int) :
    kroneckerSym a b = 0 ∨ kroneckerSym a b = 1 ∨ kroneckerSym a b = -1 := by
  have product : ∀ primes : List Nat, (primes.map (overPrime a)).prod = 0 ∨
      (primes.map (overPrime a)).prod = 1 ∨ (primes.map (overPrime a)).prod = -1 := by
    intro primes
    induction primes with
    | nil => exact .inr (.inl rfl)
    | cons p rest ih =>
      rw [map_cons, prod_cons]
      exact trichotomy_mul (overPrime_trichotomy a p) ih
  unfold kroneckerSym
  split
  · split
    · exact .inr (.inl rfl)
    · exact .inl rfl
  · refine trichotomy_mul ?_ (product _)
    unfold overSign
    split
    · exact .inr (.inr rfl)
    · exact .inr (.inl rfl)

/-- Reciprocity for an odd number of any sign over a positive one. -/
theorem reciprocity {b : Nat} (a_odd : a % 2 = 1) (b_odd : b % 2 = 1) : jacobiSym a b =
      (if a % 4 = 3 ∧ b % 4 = 3 then -1 else 1) * jacobiSym b a.natAbs := by
  have b_odd' : Odd b := odd_iff.mpr b_odd
  cases Int.natAbs_eq a with
  | inl same =>
    have swap := @jacobiSym.quadratic_reciprocity_if a.natAbs b (by omega) b_odd
    rw [← same] at swap
    rw [← swap]
    by_cases both : a % 4 = 3 ∧ b % 4 = 3
    · rw [if_pos both, if_pos (by omega), neg_one_mul]
    · rw [if_neg both, if_neg (by omega), one_mul]
  | inr minus =>
    have swap := @jacobiSym.quadratic_reciprocity_if a.natAbs b (by omega) b_odd
    have negated := jacobiSym.neg (a.natAbs : Int) b_odd'
    rw [← minus, χ₄_nat_eq_if_mod_four, if_neg (by omega)] at negated
    rw [negated, ← swap]
    by_cases b_three : b % 4 = 3
    · by_cases a_three : a % 4 = 3
      · rw [if_neg (by omega), if_neg (by omega), if_pos ⟨a_three, b_three⟩]
      · rw [if_neg (by omega), if_pos (by omega), if_neg (by omega)]
        ring
    · rw [if_pos (by omega), if_neg (by omega), if_neg (by omega)]

end KroneckerSymbol
