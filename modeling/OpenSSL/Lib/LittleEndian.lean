import OpenSSL.Lib.Digits
import OpenSSL.Lib.Twos

/- Numbers as bytes, the least significant first, and their negation on the way. -/
namespace LittleEndian
open Nat BigEndian

abbrev value (bytes : List UInt8) : Nat := Digits.value 256 UInt8.toNat bytes

/-- Each byte is complemented or not, and the carry goes through. -/
def flipped (xor : UInt8) : UInt8 → List UInt8 → List UInt8
  | _, [] => []
  | carry, byte :: bytes =>
    let out := (byte ^^^ xor) + carry
    out :: flipped xor (if byte ^^^ xor > out then 1 else 0) bytes

def carried (xor : UInt8) : UInt8 → List UInt8 → UInt8
  | carry, [] => carry
  | carry, byte :: bytes =>
    let out := (byte ^^^ xor) + carry
    carried xor (if byte ^^^ xor > out then 1 else 0) bytes

/-- The n low bytes of a number. -/
def bytesOf : Nat → Nat → List UInt8
  | 0, _ => []
  | n + 1, v => UInt8.ofNat v :: bytesOf n (v / 256)

@[simp] theorem bytesOf_length (n v : Nat) : (bytesOf n v).length = n := by
  induction n generalizing v with
  | zero => rfl
  | succ n ih => simp [bytesOf, ih]

theorem value_bytesOf (n v : Nat) : value (bytesOf n v) = v % 256 ^ n := by
  induction n generalizing v with
  | zero => simp [bytesOf, mod_one]
  | succ n ih =>
    have wider : 256 ^ (n + 1) = 256 * 256 ^ n := pow_succ'
    rw [bytesOf, value, Digits.value_cons, ← value, ih, UInt8.toNat_ofNat', wider, mod_mul]

theorem value_inj {a b : List UInt8} (same : a.length = b.length) (equal : value a = value b) :
    a = b :=
  Digits.value_inj UInt8.toNat_lt (fun _ _ => UInt8.toNat_inj.mp) same equal

theorem value_lt (bytes : List UInt8) : value bytes < 256 ^ bytes.length :=
  Digits.value_lt UInt8.toNat_lt bytes

end LittleEndian
