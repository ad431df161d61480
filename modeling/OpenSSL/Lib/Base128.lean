import Mathlib.Data.Nat.Digits.Lemmas
import OpenSSL.Lib.BigEndian

/- Numbers in base 128, the highest digit first, with a bit in every octet but the last
   that says that another one follows. -/
namespace Base128
open Nat BigEndian

/- How often a number can be shifted by k bits before nothing of it is left. -/
def shiftCount (k : Nat) : Nat → Nat → Nat
  | 0, _ => 0
  | fuel + 1, n => if 0 < n then shiftCount k fuel (n >>> k) + 1 else 0

theorem shiftCount_eq {k fuel n : Nat} (some : 0 < k) (enough : n < 2 ^ fuel) :
    shiftCount k fuel n = (digits (2 ^ k) n).length := by
  have base : 1 < 2 ^ k := Nat.one_lt_two_pow (by omega)
  induction fuel generalizing n with
  | zero =>
    obtain rfl : n = 0 := by omega
    simp [shiftCount]
  | succ fuel ih =>
    rw [shiftCount]
    by_cases pos : 0 < n
    · have halved : n / 2 ^ k ≤ n / 2 := div_le_div_left base (by decide)
      rw [if_pos pos, shiftRight_eq_div_pow, ih (by omega), digits_def' base pos, List.length_cons]
    · obtain rfl : n = 0 := by omega
      simp

def more (v : Nat) : List UInt8 := (Nat.digits 128 v).reverse.map (fun d => UInt8.ofNat (d + 128))

def encode (v : Nat) : List UInt8 := more (v / 128) ++ [UInt8.ofNat (v % 128)]

def follows (octet : UInt8) : Bool := decide (128 ≤ octet.toNat)

@[simp] theorem more_zero : more 0 = [] := by simp [more]

variable {v : Nat}

theorem more_pos (pos : 0 < v) : more v = more (v / 128) ++ [UInt8.ofNat (v % 128 + 128)] := by
  rw [more, digits_def' (by decide) pos]
  simp [more]

theorem more_length (v : Nat) : (more v).length = (digits 128 v).length := by simp [more]

theorem encode_length (pos : 0 < v) : (encode v).length = (Nat.digits 128 v).length := by
  rw [encode, List.length_append, more_length, digits_def' (by decide : 1 < 128) pos]
  rfl

variable {d : Nat}

theorem octet_more (small : d < 128) : (UInt8.ofNat (d + 128)).toNat = d + 128 := by
  rw [UInt8.toNat_ofNat', mod_eq_of_lt (by omega)]

theorem octet_last (small : d < 128) : (UInt8.ofNat d).toNat = d := by
  rw [UInt8.toNat_ofNat', mod_eq_of_lt (by omega)]

theorem follows_more (small : d < 128) : follows (UInt8.ofNat (d + 128)) = true := by
  rw [follows, octet_more small]
  exact decide_eq_true (le_add_left _ _)

theorem follows_last (small : d < 128) : follows (UInt8.ofNat d) = false := by
  rw [follows, octet_last small]
  exact decide_eq_false (not_le.mpr small)

/-- The top bit of an octet and the other ones, as the masks read them. -/
theorem octet_masks (octet : UInt8) :
    (octet.toNat &&& 0x80 ≠ 0 ↔ follows octet = true) ∧ octet.toNat &&& 0x7f = octet.toNat % 128 := by
  have byte := octet.toNat_lt
  constructor
  · have bit := and_two_pow octet.toNat 7
    rw [show (2 ^ 7 : Nat) = 0x80 from rfl] at bit
    have top : octet.toNat.testBit 7 = decide (128 ≤ octet.toNat) := by
      rw [testBit_eq_decide_div_mod_eq]
      congr 1
      exact propext (by omega)
    rw [bit, top, follows]
    by_cases high : 128 ≤ octet.toNat
    · simp [high]
    · simp [high]
  · exact and_two_pow_sub_one_eq_mod _ 7

/-- One more digit of a value that is being read. -/
theorem read_digit (len : Nat) (octet : UInt8) :
    (len <<< 7) ||| (octet.toNat &&& 0x7f) = len * 128 + octet.toNat % 128 := by
  rw [(octet_masks octet).2]
  exact shifted_or (mod_lt _ (by decide)) len

/-- A reader that takes digit after digit comes through the octets of a number to the ones
    behind them with the number read. -/
theorem read_more {Out : Type*} (next : List UInt8 → Nat → Nat → Out) {top : Nat}
    (takes : ∀ octet rest n len, follows octet = true → len * 128 + octet.toNat % 128 ≤ top →
      next (octet :: rest) (n + 1) len = next rest n (len * 128 + octet.toNat % 128))
    (v : Nat) (small : v ≤ top) (rest : List UInt8) (n : Nat) :
    next (more v ++ rest) (n + (more v).length) 0 = next rest n v := by
  induction v using Nat.strongRecOn generalizing rest n with
  | ind v ih =>
    by_cases pos : 0 < v
    · have low : v % 128 < 128 := mod_lt _ (by decide)
      have whole : v / 128 * 128 + v % 128 = v := div_add_mod' v 128
      have digit : (UInt8.ofNat (v % 128 + 128)).toNat % 128 = v % 128 := by
        rw [octet_more low]
        omega
      have taken := takes (UInt8.ofNat (v % 128 + 128)) rest n (v / 128) (follows_more low)
        (by rw [digit, whole]; exact small)
      have above := ih (v / 128) (by omega) (by omega) (UInt8.ofNat (v % 128 + 128) :: rest) (n + 1)
      rw [digit, whole] at taken
      rw [more_pos pos, List.append_assoc, List.length_append, List.length_singleton,
        List.singleton_append, add_comm (more (v / 128)).length 1, ← add_assoc, above, taken]
    · obtain rfl : v = 0 := by omega
      simp

end Base128
