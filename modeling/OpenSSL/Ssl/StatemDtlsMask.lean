import OpenSSL.Ssl.StatemDtls
import Mathlib.Data.List.Range

/- The reassembly bitmask: which octets of a message have come. -/
namespace Ossl
open Bool Nat ByteMask

theorem shift_three (n : Nat) : n >>> 3 = n / 8 := shiftRight_eq_div_pow n 3

theorem and_seven (n : Nat) : n &&& 7 = n % 8 := and_two_pow_sub_one_eq_mod n 3

theorem markRounds_length (rounds ii : Nat) (bitmask : List UInt8) :
    (markRounds rounds ii bitmask).length = bitmask.length := by
  induction rounds generalizing ii bitmask with
  | zero => rfl
  | succ rounds ih => rw [markRounds, ih, orAt_length]

theorem fillRounds_length (rounds ii : Nat) (bitmask : List UInt8) :
    (fillRounds rounds ii bitmask).length = bitmask.length := by
  induction rounds generalizing ii bitmask with
  | zero => rfl
  | succ rounds ih => rw [fillRounds, ih, List.length_set]

theorem mark_length (bitmask : List UInt8) (start stop : Nat) :
    (rsmblyBitmaskMark bitmask start stop).length = bitmask.length := by
  rw [rsmblyBitmaskMark]
  by_cases short : stop - start ≤ 8
  · rw [if_pos short, markRounds_length]
  · rw [if_neg short, orAt_length, fillRounds_length, orAt_length]

theorem one_shifted : ∀ k < 8, ∀ b < 8,
    ((1 : UInt8) <<< UInt8.ofNat k).toNat.testBit b = decide (b = k) := by decide

theorem startValues_bit : ∀ k < 8, ∀ b < 8,
    (bitmaskStartValues.getD k 0).toNat.testBit b = decide (k ≤ b) := by decide

theorem endValues_bit : ∀ k < 8, ∀ b < 8,
    (bitmaskEndValues.getD k 0).toNat.testBit b = decide (k = 0 ∨ b < k) := by decide

theorem full_bit : ∀ b < 8, (0xff : UInt8).toNat.testBit b = true := by decide

variable {bitmask : List UInt8}

theorem markRounds_bit {rounds ii : Nat} (within : ii + rounds ≤ 8 * bitmask.length) (i : Nat) :
    bit (markRounds rounds ii bitmask) i =
      (bit bitmask i || decide (ii ≤ i ∧ i < ii + rounds)) := by
  induction rounds generalizing ii bitmask with
  | zero =>
    have empty : ¬ (ii ≤ i ∧ i < ii + 0) := by omega
    rw [markRounds, decide_eq_false empty, Bool.or_false]
  | succ rounds ih =>
    have here : ii / 8 < bitmask.length := by omega
    rw [markRounds, ih (by rw [orAt_length]; omega), shift_three, and_seven, bit_orAt here,
      one_shifted _ (mod_lt _ (by decide)) _ (mod_lt _ (by decide)), Bool.or_assoc]
    congr 1
    rw [← decide_and, ← decide_or]
    apply decide_eq_decide.mpr
    omega

theorem fillRounds_bit {rounds ii : Nat} (within : ii + rounds ≤ bitmask.length) (i : Nat) :
    bit (fillRounds rounds ii bitmask) i =
      (bit bitmask i || decide (8 * ii ≤ i ∧ i < 8 * (ii + rounds))) := by
  induction rounds generalizing ii bitmask with
  | zero =>
    have empty : ¬ (8 * ii ≤ i ∧ i < 8 * (ii + 0)) := by omega
    rw [fillRounds, decide_eq_false empty, Bool.or_false]
  | succ rounds ih =>
    rw [fillRounds, ih (by rw [List.length_set]; omega), bit_set (by omega)]
    by_cases same : i / 8 = ii
    · have inside : 8 * ii ≤ i ∧ i < 8 * (ii + (rounds + 1)) := by omega
      rw [if_pos same, full_bit _ (mod_lt _ (by decide)), decide_eq_true inside, Bool.true_or,
        Bool.or_true]
    · rw [if_neg same]
      congr 1
      apply decide_eq_decide.mpr
      omega

/-- The macro marks the bits of the fragment and no others. -/
theorem mark_bit {start stop : Nat} (some_ : start < stop) (within : stop ≤ 8 * bitmask.length)
    (i : Nat) : bit (rsmblyBitmaskMark bitmask start stop) i =
      (bit bitmask i || decide (start ≤ i ∧ i < stop)) := by
  rw [rsmblyBitmaskMark]
  by_cases short : stop - start ≤ 8
  · have whole : start + (stop - start) = stop := by omega
    rw [if_pos short, markRounds_bit (by omega), whole]
  · -- the first octet from the start on, then whole octets, then the last one
    have first : start / 8 < bitmask.length := by omega
    have last : (stop - 1) / 8 < bitmask.length := by omega
    have rounds : start / 8 + 1 + ((stop - 1) / 8 - (start / 8 + 1)) = (stop - 1) / 8 := by omega
    have lastIn : (stop - 1) / 8 <
        (fillRounds ((stop - 1) / 8 - (start / 8 + 1)) (start / 8 + 1)
          (orAt bitmask (start / 8) (bitmaskStartValues.getD (start % 8) 0))).length := by
      rw [fillRounds_length, orAt_length]
      exact last
    rw [if_neg short]
    simp only [shift_three, and_seven]
    rw [bit_orAt lastIn, fillRounds_bit (by rw [orAt_length, rounds]; omega), rounds,
      bit_orAt first, startValues_bit _ (mod_lt _ (by decide)) _ (mod_lt _ (by decide)),
      endValues_bit _ (mod_lt _ (by decide)) _ (mod_lt _ (by decide)),
      Bool.or_assoc, Bool.or_assoc]
    congr 1
    rw [← decide_and, ← decide_and, ← decide_or, ← decide_or]
    apply decide_eq_decide.mpr
    omega

theorem octetsFull_bits (bitmask : List UInt8) (n : Nat) :
    octetsFull bitmask n = true ↔ ∀ i < 8 * n, bit bitmask i = true := by
  induction n with
  | zero => exact iff_of_true rfl fun i bad => absurd bad (not_lt_zero i)
  | succ n ih =>
    rw [octetsFull]
    by_cases full : bitmask.getD n 0 = 0xff
    · rw [if_neg (not_not.mpr full), ih]
      constructor
      · intro before i less
        by_cases low : i < 8 * n
        · exact before i low
        · have place : i = 8 * n + (i - 8 * n) := by omega
          rw [place, bit_octet bitmask n (by omega), full]
          exact full_bit _ (by omega)
      · exact fun all i less => all i (by omega)
    · rw [if_pos full]
      refine iff_of_false false_ne_true ?_
      intro all
      apply full
      apply byte_eq
      intro b low
      rw [← bit_octet bitmask n low, all _ (by omega), full_bit b low]

/-- The test says that all the bits of the message are marked. -/
theorem isComplete_bits {msgLen : Nat} (some_ : 0 < msgLen)
    (inside : ∀ i, bit bitmask i = true → i < msgLen) :
    rsmblyBitmaskIsComplete bitmask msgLen = true ↔ ∀ i < msgLen, bit bitmask i = true := by
  have last : bitmask.getD ((msgLen - 1) / 8) 0 = bitmaskEndValues.getD (msgLen % 8) 0 ↔
      ∀ i, 8 * ((msgLen - 1) / 8) ≤ i → i < msgLen → bit bitmask i = true := by
    constructor
    · intro same i low high
      have place : i = 8 * ((msgLen - 1) / 8) + (i - 8 * ((msgLen - 1) / 8)) := by omega
      rw [place, bit_octet bitmask _ (by omega), same,
        endValues_bit _ (mod_lt _ (by decide)) _ (by omega), decide_eq_true_iff]
      omega
    · intro marked
      apply byte_eq
      intro b low
      rw [← bit_octet bitmask _ low, endValues_bit _ (mod_lt _ (by decide)) b low]
      by_cases part : 8 * ((msgLen - 1) / 8) + b < msgLen
      · rw [marked _ (le_add_right _ b) part, eq_comm, decide_eq_true_iff]
        omega
      · have off := mt (inside _) part
        rw [not_eq_true] at off
        rw [off, eq_comm, decide_eq_false_iff_not]
        omega
  rw [rsmblyBitmaskIsComplete, shift_three, and_seven]
  by_cases same : bitmask.getD ((msgLen - 1) / 8) 0 = bitmaskEndValues.getD (msgLen % 8) 0
  · rw [if_neg (not_not.mpr same), octetsFull_bits]
    constructor
    · intro before i less
      by_cases low : i < 8 * ((msgLen - 1) / 8)
      · exact before i low
      · exact last.mp same i (not_lt.mp low) less
    · exact fun all i less => all i (by omega)
  · rw [if_pos same]
    exact iff_of_false false_ne_true fun all => same (last.mpr fun i _ high => all i high)

end Ossl
