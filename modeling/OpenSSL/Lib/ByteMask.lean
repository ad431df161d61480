import Mathlib.Data.Nat.Bitwise
import Mathlib.Data.List.Basic

/- Sets of numbers as strings of octets, the low bits first. -/
namespace ByteMask

def bit (mask : List UInt8) (i : Nat) : Bool := (mask.getD (i / 8) 0).toNat.testBit (i % 8)

def orAt (mask : List UInt8) (j : Nat) (v : UInt8) : List UInt8 := mask.set j (mask.getD j 0 ||| v)

@[simp] theorem orAt_length (mask : List UInt8) (j : Nat) (v : UInt8) :
    (orAt mask j v).length = mask.length := List.length_set

theorem testBit_high (b : UInt8) {i : Nat} (high : 8 ≤ i) : b.toNat.testBit i = false :=
  Nat.testBit_lt_two_pow (lt_of_lt_of_le b.toNat_lt (Nat.pow_le_pow_right (by decide) high))

theorem byte_eq {x y : UInt8} (same : ∀ i < 8, x.toNat.testBit i = y.toNat.testBit i) : x = y := by
  apply UInt8.toNat_inj.mp
  apply Nat.eq_of_testBit_eq
  intro i
  by_cases low : i < 8
  · exact same i low
  · rw [testBit_high x (not_lt.mp low), testBit_high y (not_lt.mp low)]

variable {j : Nat}

theorem getD_set (mask : List UInt8) (within : j < mask.length) (v : UInt8) (k : Nat) :
    (mask.set j v).getD k 0 = if k = j then v else mask.getD k 0 := by
  rw [List.getD_eq_getElem?_getD, List.getD_eq_getElem?_getD]
  by_cases same : k = j
  · rw [if_pos same, same, List.getElem?_set_self within, Option.getD_some]
  · rw [if_neg same, List.getElem?_set_ne fun bad => same bad.symm]

variable {mask : List UInt8}

/-- Setting an octet gives its bits their values. -/
theorem bit_set (within : j < mask.length) (v : UInt8) (i : Nat) :
    bit (mask.set j v) i = if i / 8 = j then v.toNat.testBit (i % 8) else bit mask i := by
  rw [bit, getD_set mask within]
  by_cases same : i / 8 = j
  · rw [if_pos same, if_pos same]
  · rw [if_neg same, if_neg same, bit]

theorem bit_orAt (within : j < mask.length) (v : UInt8) (i : Nat) :
    bit (orAt mask j v) i = (bit mask i || (decide (i / 8 = j) && v.toNat.testBit (i % 8))) := by
  rw [orAt, bit_set within]
  by_cases same : i / 8 = j
  · rw [if_pos same, UInt8.toNat_or, Nat.testBit_or, decide_eq_true same, Bool.true_and, bit, same]
  · rw [if_neg same, decide_eq_false same, Bool.false_and, Bool.or_false]

theorem bit_octet (mask : List UInt8) (j : Nat) {b : Nat} (low : b < 8) :
    bit mask (8 * j + b) = (mask.getD j 0).toNat.testBit b := by
  have octet : (8 * j + b) / 8 = j := by omega
  have place : (8 * j + b) % 8 = b := by omega
  rw [bit, octet, place]

theorem bit_zeros (n i : Nat) : bit (List.replicate n 0) i = false := by
  have zero : (List.replicate n (0 : UInt8)).getD (i / 8) 0 = 0 := by
    rw [List.getD_eq_getElem?_getD, List.getElem?_replicate]
    split <;> rfl
  rw [bit, zero]
  exact Nat.zero_testBit _

end ByteMask
