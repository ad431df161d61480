import Mathlib.Data.Nat.Bitwise

/- Numbers as bytes in network order. -/
namespace BigEndian
open Nat

def netBytes : Nat → Nat → List UInt8
  | 0, _ => []
  | n + 1, v => UInt8.ofNat (v >>> (8 * n)) :: netBytes n v

def netValue : List UInt8 → Nat
  | [] => 0
  | b :: rest => (b.toNat <<< (8 * rest.length)) ||| netValue rest

@[simp] theorem netBytes_length (n v : Nat) : (netBytes n v).length = n := by
  induction n with
  | zero => rfl
  | succ n ih => simp [netBytes, ih]

theorem shifted_or {low i : Nat} (small : low < 2 ^ i) (high : Nat) :
    (high <<< i) ||| low = high * 2 ^ i + low := by
  rw [shiftLeft_eq, mul_comm high, two_pow_add_eq_or_of_lt small]

theorem netValue_lt (bytes : List UInt8) : netValue bytes < 2 ^ (8 * bytes.length) := by
  induction bytes with
  | nil => decide
  | cons b rest ih =>
    have byte := b.toNat_lt
    rw [netValue, shifted_or ih, List.length_cons, mul_succ, pow_add]
    generalize 2 ^ (8 * rest.length) = w at ih ⊢
    calc b.toNat * w + netValue rest
        < (b.toNat + 1) * w := by rw [add_mul, one_mul]; omega
      _ ≤ 2 ^ 8 * w := mul_le_mul_right _ (by omega)
      _ = w * 2 ^ 8 := mul_comm _ _

theorem netValue_cons (b : UInt8) (rest : List UInt8) :
    netValue (b :: rest) = b.toNat * 2 ^ (8 * rest.length) + netValue rest :=
  shifted_or (netValue_lt rest) _

theorem netValue_netBytes (n v : Nat) : netValue (netBytes n v) = v % 2 ^ (8 * n) := by
  induction n with
  | zero => simp [netBytes, netValue, mod_one]
  | succ n ih =>
    rw [netBytes, netValue_cons, netBytes_length, ih, UInt8.toNat_ofNat', shiftRight_eq_div_pow,
      mul_succ, pow_add, mod_mul, mul_comm, add_comm]

theorem netValue_concat (bytes : List UInt8) (last : UInt8) :
    netValue (bytes ++ [last]) = netValue bytes * 256 + last.toNat := by
  induction bytes with
  | nil => simp [netValue]
  | cons b bytes ih =>
    rw [List.cons_append, netValue_cons, netValue_cons, ih, List.length_append,
      List.length_singleton, mul_succ, Nat.pow_add, Nat.add_mul, ← Nat.mul_assoc, Nat.add_assoc]

theorem netValue_inj {a b : List UInt8} (same : a.length = b.length)
    (value : netValue a = netValue b) : a = b := by
  induction a generalizing b with
  | nil => exact (List.length_eq_zero_iff.mp same.symm).symm
  | cons x a ih =>
    cases b with
    | nil => simp at same
    | cons y b =>
      have lengths : a.length = b.length := by simpa using same
      have below := netValue_lt a
      have above := netValue_lt b
      have pos : 0 < 2 ^ (8 * b.length) := Nat.pow_pos (by decide)
      rw [netValue_cons, netValue_cons, lengths] at value
      rw [lengths] at below
      generalize 2 ^ (8 * b.length) = w at *
      have tops : x.toNat = y.toNat := by
        have first : (x.toNat * w + netValue a) / w = x.toNat := by
          rw [mul_comm, mul_add_div pos, div_eq_of_lt below, add_zero]
        have second : (y.toNat * w + netValue b) / w = y.toNat := by
          rw [mul_comm, mul_add_div pos, div_eq_of_lt above, add_zero]
        rw [← first, value, second]
      rw [tops] at value
      rw [UInt8.toNat_inj.mp tops, ih lengths (add_left_cancel value)]

theorem netBytes_netValue (bytes : List UInt8) : netBytes bytes.length (netValue bytes) = bytes := by
  apply netValue_inj (netBytes_length _ _)
  rw [netValue_netBytes, mod_eq_of_lt (netValue_lt bytes)]

end BigEndian
