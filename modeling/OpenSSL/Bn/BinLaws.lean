import OpenSSL.Bn.Bin

/- Signed bytes and the numbers they stand for. -/
namespace Ossl
open UInt64 Nat List BigEndian LittleEndian

/-- The bytes as they stand, or the other way round, with the most significant one first. -/
def Endianness.ordered (e : Endianness) (bytes : List UInt8) : List UInt8 :=
  if e = .little then bytes.reverse else bytes

variable (k : Nat) (xor : UInt8) (n : Nat) (ret : Bignum)

variable {a : Bignum}

theorem skipped (bytes : List UInt8) :
    bytes = replicate (bytes.length - (bytes.dropWhile (· == xor)).length) xor ++
      bytes.dropWhile (· == xor) := by
  induction bytes with
  | nil => rfl
  | cons byte bytes ih =>
    by_cases same : byte = xor
    · rw [dropWhile_cons_of_pos (by simpa using same)]
      have shorter := (dropWhile_suffix (l := bytes) (· == xor)).length_le
      rw [length_cons, succ_sub shorter, replicate_succ, cons_append, ← ih, same]
    · rw [dropWhile_cons_of_neg (by simpa using same)]
      simp

variable {kept s : List UInt8} {b : Bignum}

end Ossl
