import Mathlib.Tactic.Ring
import Mathlib.Tactic.Basic

/- Hashing by blocks: a state takes in one block after the other, the last of which end in the
   length. -/
namespace MerkleDamgard
open Nat List

structure Scheme (S : Type) where
  init : S
  compress : S → List UInt8 → S
  digest : S → List UInt8
  block : Nat
  lengthSize : Nat
  encode : Nat → List UInt8
  some_ : 0 < block
  encoded : ∀ bits, (encode bits).length = lengthSize

variable {S : Type} (h : Scheme S)

def Scheme.blockAt (bytes : List UInt8) (i : Nat) : List UInt8 :=
  (bytes.drop (i * h.block)).take h.block

def Scheme.absorb (bytes : List UInt8) (i n : Nat) (s : S) : S :=
  (range' i n).foldl (fun s i => h.compress s (h.blockAt bytes i)) s

def Scheme.zeros (length : Nat) : Nat := (h.block - (length + 1 + h.lengthSize) % h.block) % h.block

def Scheme.padding (length : Nat) : List UInt8 :=
  0x80 :: (replicate (h.zeros length) 0 ++ h.encode (8 * length))

def Scheme.hash (message : List UInt8) : List UInt8 :=
  let padded := message ++ h.padding message.length
  h.digest (h.absorb padded 0 (padded.length / h.block) h.init)

def Scheme.keyBlock (key : List UInt8) (mask : UInt8) : List UInt8 :=
  (key ++ replicate (h.block - key.length) 0).map (· ^^^ mask)

def Scheme.hmac (key message : List UInt8) : List UInt8 :=
  h.hash (h.keyBlock key 0x5c ++ h.hash (h.keyBlock key 0x36 ++ message))

theorem absorb_add (bytes : List UInt8) (i m n : Nat) (s : S) :
    h.absorb bytes i (m + n) s = h.absorb bytes (i + m) n (h.absorb bytes i m s) := by
  simp only [Scheme.absorb, ← foldl_append]
  congr 1
  exact range'_append_1.symm

theorem absorb_succ (bytes : List UInt8) (i n : Nat) (s : S) :
    h.absorb bytes i (n + 1) s = h.absorb bytes (i + 1) n (h.compress s (h.blockAt bytes i)) := by
  simp [Scheme.absorb, range'_succ]

theorem absorb_block {front rest : List UInt8} (whole : front.length = h.block) (n : Nat) (s : S) :
    h.absorb (front ++ rest) 0 (n + 1) s = h.absorb rest 0 n (h.compress s front) := by
  have first : h.blockAt (front ++ rest) 0 = front := by
    rw [Scheme.blockAt, zero_mul, drop_zero, ← whole, take_left]
  have later (k : Nat) : h.blockAt (front ++ rest) (k + 1) = h.blockAt rest k := by
    have place : (k + 1) * h.block = front.length + k * h.block := by
      rw [whole]
      ring
    rw [Scheme.blockAt, place, drop_append, drop_of_length_le (by omega), nil_append,
      Nat.add_sub_cancel_left]
    rfl
  rw [absorb_succ, first]
  have shift (i : Nat) (t : S) : h.absorb (front ++ rest) (i + 1) n t = h.absorb rest i n t := by
    induction n generalizing i t with
    | zero => rfl
    | succ n ih => rw [absorb_succ, absorb_succ, later, ih]
  exact shift 0 _

/-- The padding ends a block, the one that the last byte of the length falls into. -/
theorem ends_block (length : Nat) :
    length + (h.padding length).length = ((length + h.lengthSize) / h.block + 1) * h.block := by
  have some_ := h.some_
  simp only [Scheme.padding, length_cons, length_append, length_replicate, h.encoded, Scheme.zeros]
  have split := div_add_mod (length + h.lengthSize) h.block
  have less := mod_lt (length + h.lengthSize) some_
  rw [show length + 1 + h.lengthSize = length + h.lengthSize + 1 by omega]
  rw [add_mul, one_mul, mul_comm (_ / _)]
  generalize h.block * ((length + h.lengthSize) / h.block) = q at *
  rw [add_mod]
  generalize (length + h.lengthSize) % h.block = m at *
  by_cases last : m + 1 = h.block
  · have zero : (m + 1 % h.block) % h.block = 0 := by
      rw [add_mod_mod, last, mod_self]
    rw [zero, Nat.sub_zero, mod_self]
    omega
  · have kept : (m + 1 % h.block) % h.block = m + 1 := by
      rw [add_mod_mod, mod_eq_of_lt (by omega)]
    rw [kept, mod_eq_of_lt (by omega)]
    omega

end MerkleDamgard
