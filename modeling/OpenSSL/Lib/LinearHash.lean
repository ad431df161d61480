import Mathlib.Data.Nat.ModEq
import Mathlib.Tactic.Common

/- The addresses of linear hashing: pmax + p buckets, of which the first p were split already. -/
namespace LinearHash
open Nat

def address (pmax p hash : Nat) : Nat := if hash % pmax < p then hash % (2 * pmax) else hash % pmax

variable {pmax p : Nat}

theorem mod_double (some : 0 < pmax) (hash : Nat) :
    hash % (2 * pmax) = hash % pmax ∨ hash % (2 * pmax) = hash % pmax + pmax := by
  have less := mod_lt hash (by omega : 0 < 2 * pmax)
  have same : hash % (2 * pmax) % pmax = hash % pmax := mod_mul_left_mod hash 2 pmax
  by_cases low : hash % (2 * pmax) < pmax
  · rw [mod_eq_of_lt low] at same
    exact .inl same
  · have down : (hash % (2 * pmax) - pmax) % pmax = hash % (2 * pmax) - pmax :=
      mod_eq_of_lt (by omega)
    rw [mod_eq_sub_mod (by omega), down] at same
    exact .inr (by omega)

theorem address_lt (inside : p < pmax) (hash : Nat) : address pmax p hash < pmax + p := by
  have either := mod_double (by omega : 0 < pmax) hash
  have less := mod_lt hash (by omega : 0 < pmax)
  rw [address]
  split_ifs <;> omega

/-- What is in the bucket that is next goes to one of two buckets. -/
theorem address_self (inside : p < pmax) {hash : Nat} (here : address pmax p hash = p) :
    hash % (2 * pmax) = p ∨ hash % (2 * pmax) = p + pmax := by
  have either := mod_double (by omega : 0 < pmax) hash
  rw [address] at here
  split_ifs at here <;> omega

/-- A table that was split as far as it goes is one of twice the size. -/
theorem address_double (some : 0 < pmax) (hash : Nat) :
    address (2 * pmax) 0 hash = address pmax pmax hash := by
  rw [address, address, if_neg (not_lt_zero _), if_pos (mod_lt _ some)]

/-- One more bucket: the addresses of the bucket that is split are told apart. -/
theorem address_split (inside : p < pmax) (hash : Nat) :
    address pmax (p + 1) hash =
      if address pmax p hash = p then hash % (2 * pmax) else address pmax p hash := by
  rw [address, address]
  split_ifs <;> omega

/-- One bucket less: the addresses of the last one become those of the one it was split from. -/
theorem address_merge (inside : p < pmax) (hash : Nat) :
    address pmax p hash =
      if address pmax (p + 1) hash = pmax + p then p else address pmax (p + 1) hash := by
  have either := mod_double (by omega : 0 < pmax) hash
  have less := mod_lt hash (by omega : 0 < pmax)
  rw [address, address]
  split_ifs <;> omega

end LinearHash
