import OpenSSL.Bn.Values
import OpenSSL.Lib.KroneckerSymbol
import OpenSSL.Lib.Rounds
import Mathlib.Data.Nat.Bitwise

/- The Kronecker symbol of crypto/bn/bn_kron.c. -/
namespace Ossl
open Nat BnValue Rounds KroneckerSymbol Int

def kroneckerTab (i : Nat) : Int := [0, 1, 0, -1, 0, -1, 0, 1].getD i 0

def bitRound (x : Int) (i : Nat) : Nat ⊕ Nat := if isBitSet x i then .inl i else .inr (i + 1)

def lowestBit (x : Int) : Option Nat := rounds (bitRound x) (numBits x + 1) 0

structure KroneckerState where
  A : Int
  B : Int
  ret : Int
  deriving DecidableEq

def kroneckerRound (s : KroneckerState) : Option Int ⊕ KroneckerState :=
  if s.A = 0 then .inl (some (if s.B = 1 then s.ret else 0))
  else
    match lowestBit s.A with
    | none => .inl none
    | some i =>
      let A := rshift s.A i
      let ret := if i % 2 = 1 then s.ret * kroneckerTab (lsw s.B &&& 7) else s.ret
      let word := if A < 0 then 2 ^ 64 - 1 - lsw A else lsw A
      let ret := if word &&& lsw s.B &&& 2 ≠ 0 then -ret else ret
      .inr { A := nnmod s.B A, B := A.natAbs, ret := ret }

def bnKronecker (a b : Int) : Option Int :=
  if b = 0 then some (if absIsWord a 1 then 1 else 0)
  else if isOdd a = false ∧ isOdd b = false then some 0
  else
    match lowestBit b with
    | none => none
    | some i =>
      let B := rshift b i
      let ret := if i % 2 = 1 then kroneckerTab (lsw a &&& 7) else 1
      let ret := if B < 0 ∧ a < 0 then -ret else ret
      (rounds kroneckerRound (a.natAbs + 1) { A := a, B := B.natAbs, ret := ret }).join

theorem tab_eq {x : Int} (odd : x % 2 = 1) : kroneckerTab (lsw x &&& 7) = overTwo x := by
  have index : lsw x &&& 7 = x.natAbs % 8 := by
    have low := and_two_pow_sub_one_eq_mod (lsw x) 3
    rw [show (7 : Nat) = 2 ^ 3 - 1 from rfl, low, lsw]
    omega
  have cases_ : x.natAbs % 8 = 1 ∨ x.natAbs % 8 = 3 ∨ x.natAbs % 8 = 5 ∨ x.natAbs % 8 = 7 := by
    omega
  rw [index, overTwo, if_neg (by omega)]
  rcases cases_ with one | three | five | seven
  · rw [one, if_pos (by omega)]
    rfl
  · rw [three, if_neg (by omega)]
    rfl
  · rw [five, if_neg (by omega)]
    rfl
  · rw [seven, if_pos (by omega)]
    rfl

theorem bit_one_iff (x y : Nat) : x &&& y &&& 2 ≠ 0 ↔ x / 2 % 2 = 1 ∧ y / 2 % 2 = 1 := by
  have bit := and_two_pow (x &&& y) 1
  rw [pow_one] at bit
  rw [bit, testBit_and, testBit_eq_decide_div_mod_eq, testBit_eq_decide_div_mod_eq,
    pow_one, ← Bool.decide_and]
  by_cases both : x / 2 % 2 = 1 ∧ y / 2 % 2 = 1
  · simp [both]
  · simp [both]

/-- The search ends with the number of twos in a number. -/
theorem lowestBit_spec {x : Int} (nonzero : x ≠ 0) :
    ∃ i, lowestBit x = some i ∧ x = 2 ^ i * rshift x i ∧ rshift x i % 2 = 1 := by
  have ended : ∃ i, rounds (bitRound x) (numBits x + 1) 0 = some i ∧
      (2 ^ i ∣ x.natAbs ∧ x.natAbs / 2 ^ i % 2 = 1) := by
    refine rounds_total (fun i => 2 ^ i ∣ x.natAbs) (fun i => numBits x - i) ?_ ?_ (by simp)
      (by omega)
    · intro i r divides ends
      unfold bitRound at ends
      by_cases bit : isBitSet x i
      · rw [if_pos bit] at ends
        cases ends
        exact ⟨divides, (isBitSet_iff x i).mp bit⟩
      · rw [if_neg bit] at ends
        contradiction
    · intro i j divides goes
      unfold bitRound at goes
      by_cases bit : isBitSet x i
      · rw [if_pos bit] at goes
        contradiction
      · rw [if_neg bit] at goes
        cases goes
        have bits : i < numBits x := lt_size.mpr (le_of_dvd (by omega) divides)
        obtain ⟨q, shape⟩ := divides
        have even : q % 2 = 0 := by
          rw [isBitSet_iff, shape, Nat.mul_div_cancel_left _ (by positivity)] at bit
          omega
        refine ⟨⟨q / 2, ?_⟩, by omega⟩
        rw [shape, pow_succ, mul_assoc, Nat.mul_div_cancel' (dvd_of_mod_eq_zero even)]
  obtain ⟨i, done, divides, odd⟩ := ended
  have signed : (2 : Int) ^ i ∣ x := by
    rw [← natAbs_dvd_natAbs, natAbs_pow]
    exact divides
  obtain ⟨q, shape⟩ := signed
  have shifted : rshift x i = q := by
    rw [rshift, shape]
    exact mul_tdiv_cancel_left q (by positivity)
  have size : x.natAbs / 2 ^ i = q.natAbs := by
    rw [shape, natAbs_mul, natAbs_pow]
    exact Nat.mul_div_cancel_left _ (by positivity)
  exact ⟨i, done, by rw [shifted, ← shape], by rw [shifted]; omega⟩

structure KroneckerKeeps (value : Int) (s : KroneckerState) : Prop where
  pos : 0 < s.B
  odd : s.B % 2 = 1
  value_ : s.ret * jacobiSym s.A s.B.natAbs = value

variable {s : KroneckerState} {A B : Int}

theorem kroneckerRound_ends {value : Int} {r : Option Int} (keeps : KroneckerKeeps value s)
    (ends : kroneckerRound s = .inl r) : r = some value := by
  unfold kroneckerRound at ends
  by_cases zero : s.A = 0
  · rw [if_pos zero] at ends
    have last := keeps.value_
    have pos := keeps.pos
    rw [zero] at last
    rw [← Sum.inl.inj ends]
    by_cases one : s.B = 1
    · rw [one, natAbs_one, jacobiSym.one_right, mul_one] at last
      rw [if_pos one, last]
    · rw [jacobiSym.zero_left (by omega), mul_zero] at last
      rw [if_neg one, last]
  · rw [if_neg zero] at ends
    obtain ⟨i, found, -⟩ := lowestBit_spec zero
    rw [found] at ends
    contradiction

theorem reciprocity_bits (A_odd : A % 2 = 1) (B_pos : 0 < B) (B_odd : B % 2 = 1) :
    (if A < 0 then 2 ^ 64 - 1 - lsw A else lsw A) &&& lsw B &&& 2 ≠ 0 ↔
      A % 4 = 3 ∧ B.natAbs % 4 = 3 := by
  rw [bit_one_iff, lsw, lsw]
  by_cases neg : A < 0
  · rw [if_pos neg]
    omega
  · rw [if_neg neg]
    omega

theorem kroneckerRound_goes {value : Int} {t : KroneckerState} (keeps : KroneckerKeeps value s)
    (goes : kroneckerRound s = .inr t) : KroneckerKeeps value t ∧ t.A.natAbs < s.A.natAbs := by
  unfold kroneckerRound at goes
  by_cases zero : s.A = 0
  · rw [if_pos zero] at goes
    contradiction
  · rw [if_neg zero] at goes
    obtain ⟨i, found, shape, odd⟩ := lowestBit_spec zero
    rw [found] at goes
    simp only [Sum.inr.injEq] at goes
    generalize A_is : rshift s.A i = A at goes shape odd
    have pos := keeps.pos
    have nonzero : A ≠ 0 := by omega
    have B_odd : s.B.natAbs % 2 = 1 := by have := keeps.odd; omega
    have B_cast : (s.B.natAbs : Int) = s.B := by omega
    have A_le : A.natAbs ≤ s.A.natAbs := by
      rw [shape, natAbs_mul, natAbs_pow]
      exact Nat.le_mul_of_pos_left _ (by positivity)
    have below := nnmod_lt nonzero s.B
    have low := nnmod_nonneg nonzero s.B
    -- the powers of two
    have twos : jacobiSym s.A s.B.natAbs =
        (if i % 2 = 1 then overTwo s.B else 1) * jacobiSym A s.B.natAbs := by
      have two : jacobiSym 2 s.B.natAbs = overTwo s.B := by
        rw [jacobiSym.at_two (odd_iff.mpr B_odd), overTwo_eq]
        conv_rhs => rw [← B_cast]
        rfl
      rw [shape, jacobiSym.mul_left, jacobiSym.pow_left, two, overTwo_pow keeps.odd]
    have turned : jacobiSym (nnmod s.B A) A.natAbs = jacobiSym s.B.natAbs A.natAbs := by
      rw [nnmod_eq nonzero, jacobiSym.mod_left (s.B.natAbs : Int), B_cast,
        natCast_natAbs, emod_abs]
    subst goes
    refine ⟨⟨by simp only; omega, by simp only; omega, ?_⟩, by simp only; omega⟩
    rw [← keeps.value_, twos, reciprocity odd B_odd, ← turned]
    simp only [natAbs_natCast, tab_eq keeps.odd]
    have factor : (if i % 2 = 1 then s.ret * overTwo s.B else s.ret) =
        s.ret * (if i % 2 = 1 then overTwo s.B else 1) := by
      rw [mul_ite, mul_one]
    simp only [factor]
    generalize (if i % 2 = 1 then overTwo s.B else 1) = c
    by_cases swap : A % 4 = 3 ∧ s.B.natAbs % 4 = 3
    · rw [if_pos ((reciprocity_bits odd pos keeps.odd).mpr swap), if_pos swap]
      ring
    · rw [if_neg fun bits => swap ((reciprocity_bits odd pos keeps.odd).mp bits), if_neg swap]
      ring

theorem kronecker_loop (pos : 0 < B) (odd : B % 2 = 1) (ret : Int) :
    rounds kroneckerRound (A.natAbs + 1) ⟨A, B, ret⟩ =
      some (some (ret * jacobiSym A B.natAbs)) := by
  have start : KroneckerKeeps (ret * jacobiSym A B.natAbs) ⟨A, B, ret⟩ := ⟨pos, odd, rfl⟩
  obtain ⟨r, done, value⟩ := rounds_total (KroneckerKeeps (ret * jacobiSym A B.natAbs))
    (fun s => s.A.natAbs) (fun s r keeps ends => kroneckerRound_ends keeps ends)
    (fun s t keeps goes => kroneckerRound_goes keeps goes) start (lt_succ_self _)
  rw [done, value]

theorem bnKronecker_eq (a b : Int) : bnKronecker a b = some (kroneckerSym a b) := by
  unfold bnKronecker
  by_cases zero : b = 0
  · rw [if_pos zero, kroneckerSym, if_pos zero]
    simp [absIsWord]
  · rw [if_neg zero]
    obtain ⟨i, found, shape, odd⟩ := lowestBit_spec zero
    generalize B_is : rshift b i = B at shape odd
    have size : b.natAbs = 2 ^ i * B.natAbs := by rw [shape, natAbs_mul, natAbs_pow]; rfl
    have symbol := kroneckerSym_split a size (by omega)
    by_cases both : isOdd a = false ∧ isOdd b = false
    · rw [if_pos both]
      rw [isOdd_false, isOdd_false] at both
      have twos : i ≠ 0 := by
        rintro rfl
        omega
      rw [symbol, overTwo, if_pos both.1, zero_pow twos, zero_mul, mul_zero]
    · rw [if_neg both, found]
      simp only [B_is]
      have sign_ : B < 0 ↔ b < 0 := by
        rw [shape]
        have := pow_pos (show (0 : Int) < 2 by decide) i
        constructor
        · intro neg
          exact mul_neg_of_pos_of_neg this neg
        · intro neg
          by_contra not_
          have := mul_nonneg this.le (not_lt.mp not_)
          omega
      rw [kronecker_loop (by omega) (by omega), Option.join_some, symbol, natAbs_natCast]
      have twos : (if i % 2 = 1 then kroneckerTab (lsw a &&& 7) else 1) = overTwo a ^ i := by
        by_cases a_odd : a % 2 = 1
        · rw [tab_eq a_odd, overTwo_pow a_odd]
        · -- then b is odd
          have none_ : i = 0 := by
            rw [isOdd_false, isOdd_false] at both
            by_contra some_
            obtain ⟨j, rfl⟩ := exists_eq_succ_of_ne_zero some_
            rw [pow_succ, mul_comm _ (2 : Int), mul_assoc] at shape
            omega
          rw [none_, pow_zero, if_neg (by decide)]
      rw [twos, overSign, Option.some.injEq]
      simp only [sign_]
      by_cases both_neg : b < 0 ∧ a < 0
      · rw [if_pos both_neg, if_pos both_neg]
        ring
      · rw [if_neg both_neg, if_neg both_neg]
        ring

/-- The function ends for all numbers with the Kronecker symbol, one of three
    values, and over an odd prime with the symbol of Legendre. -/
theorem kronecker_spec (a b : Int) :
    bnKronecker a b = some (kroneckerSym a b) ∧
      (kroneckerSym a b = 0 ∨ kroneckerSym a b = 1 ∨ kroneckerSym a b = -1) ∧
      ∀ (p : Nat) [Fact p.Prime], p ≠ 2 → bnKronecker a p = some (legendreSym p a) := by
  refine ⟨bnKronecker_eq a b, trichotomy a b, fun p _ other => ?_⟩
  rw [bnKronecker_eq, kroneckerSym_prime a p other]

end Ossl
