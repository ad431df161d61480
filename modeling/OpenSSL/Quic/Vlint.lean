import OpenSSL.Lib.BigEndian

/- The variable-length integers of crypto/quic_vlint.c. The top two bits of the
   first byte tell how many bytes there are. -/
namespace Ossl
open Nat List BigEndian

def vlintMax : Nat := 2 ^ 62 - 1

def vlintEncodeLen (v : Nat) : Nat :=
  if v < 64 then 1
  else if v < 16384 then 2
  else if v < 1073741824 then 4
  else if v ≤ vlintMax then 8
  else 0

def vlintEncodeN (v n : Nat) : List UInt8 :=
  if n = 1 then [UInt8.ofNat v]
  else if n = 2 then UInt8.ofNat (0x40 ||| ((v >>> 8) &&& 0x3F)) :: netBytes 1 v
  else if n = 4 then UInt8.ofNat (0x80 ||| ((v >>> 24) &&& 0x3F)) :: netBytes 3 v
  else UInt8.ofNat (0xC0 ||| ((v >>> 56) &&& 0x3F)) :: netBytes 7 v

def vlintEncode (v : Nat) : List UInt8 := vlintEncodeN v (vlintEncodeLen v)

def vlintDecodeLen (firstByte : UInt8) : Nat := 1 <<< ((firstByte.toNat &&& 0xC0) >>> 6)

def vlintDecodeUnchecked (buf : List UInt8) : Nat :=
  let firstByte := buf.headD 0
  let sz := vlintDecodeLen firstByte
  ((firstByte.toNat &&& 0x3F) <<< (8 * (sz - 1))) ||| netValue ((buf.drop 1).take (sz - 1))

theorem firstByte_fields {tag low : Nat} (four : tag < 4) (small : low < 2 ^ 6) :
    vlintDecodeLen (UInt8.ofNat (tag * 2 ^ 6 + low)) = 2 ^ tag ∧
      (UInt8.ofNat (tag * 2 ^ 6 + low)).toNat &&& 0x3F = low := by
  have byte : (UInt8.ofNat (tag * 2 ^ 6 + low)).toNat = tag * 2 ^ 6 + low := by
    rw [UInt8.toNat_ofNat', mod_eq_of_lt (by omega)]
  have top : (tag * 2 ^ 6 + low) >>> 6 = tag := by rw [shiftRight_eq_div_pow]; omega
  constructor
  · rw [vlintDecodeLen, byte, shiftRight_and_distrib, top, one_shiftLeft]
    rw [show (0xC0 >>> 6 : Nat) = 2 ^ 2 - 1 from rfl, and_two_pow_sub_one_eq_mod,
      mod_eq_of_lt (by omega)]
  · rw [byte, show (0x3F : Nat) = 2 ^ 6 - 1 from rfl, and_two_pow_sub_one_eq_mod]
    omega

variable {v : Nat}

theorem tagged_decodes {tag n : Nat} (four : tag < 4) (size : 2 ^ tag = n + 1)
    (fits : v < 2 ^ (6 + 8 * n)) (first : UInt8)
    (tagged : first = UInt8.ofNat ((tag <<< 6) ||| ((v >>> (8 * n)) &&& 0x3F)))
    (rest : List UInt8) :
    vlintDecodeLen first = n + 1 ∧ vlintDecodeUnchecked (first :: netBytes n v ++ rest) = v := by
  have low : v >>> (8 * n) < 2 ^ 6 := by
    rw [shiftRight_eq_div_pow]
    exact Nat.div_lt_of_lt_mul (by rw [← pow_add, add_comm]; exact fits)
  rw [show (0x3F : Nat) = 2 ^ 6 - 1 from rfl, and_two_pow_sub_one_eq_mod, mod_eq_of_lt low,
    shifted_or low] at tagged
  obtain ⟨len, masked⟩ := firstByte_fields four low
  rw [← tagged] at len masked
  have body : ((first :: netBytes n v ++ rest).drop 1).take n = netBytes n v := by
    rw [cons_append, drop_one, tail_cons,
      take_append_of_le_length (by simp), take_of_length_le (by simp)]
  rw [size] at len
  refine ⟨len, ?_⟩
  rw [vlintDecodeUnchecked, cons_append, headD_cons, ← cons_append]
  simp only [len, Nat.add_sub_cancel, body]
  have small := netValue_lt (netBytes n v)
  rw [netBytes_length] at small
  rw [masked, shifted_or small, netValue_netBytes, shiftRight_eq_div_pow]
  exact div_add_mod' v _

theorem vlintEncodeLen_pos : vlintEncodeLen v ≠ 0 ↔ v ≤ vlintMax := by
  unfold vlintEncodeLen vlintMax
  split_ifs <;> omega

theorem vlint_decodes (fits : v ≤ vlintMax) (rest : List UInt8) :
    (vlintEncode v).length = vlintEncodeLen v ∧
      vlintDecodeLen ((vlintEncode v ++ rest).headD 0) = vlintEncodeLen v ∧
      vlintDecodeUnchecked (vlintEncode v ++ rest) = v := by
  have bound : v ≤ 2 ^ 62 - 1 := fits
  rw [vlintEncode]
  by_cases one : v < 64
  · have len : vlintEncodeLen v = 1 := if_pos one
    have same : v = (0 <<< 6) ||| ((v >>> (8 * 0)) &&& 0x3F) := by
      rw [show (0x3F : Nat) = 2 ^ 6 - 1 from rfl, and_two_pow_sub_one_eq_mod]
      simp; omega
    have both := tagged_decodes (by decide : 0 < 4) rfl (by omega : v < 2 ^ (6 + 8 * 0))
      (UInt8.ofNat v) (by rw [← same]) rest
    rw [len]
    exact ⟨rfl, both⟩
  by_cases two : v < 16384
  · have len : vlintEncodeLen v = 2 := by rw [vlintEncodeLen, if_neg one, if_pos two]
    rw [len]
    exact ⟨rfl, tagged_decodes (by decide : 1 < 4) rfl (by omega : v < 2 ^ (6 + 8 * 1)) _ rfl rest⟩
  by_cases four : v < 1073741824
  · have len : vlintEncodeLen v = 4 := by
      rw [vlintEncodeLen, if_neg one, if_neg two, if_pos four]
    rw [len]
    exact ⟨rfl, tagged_decodes (by decide : 2 < 4) rfl (by omega : v < 2 ^ (6 + 8 * 3)) _ rfl rest⟩
  · have len : vlintEncodeLen v = 8 := by
      rw [vlintEncodeLen, if_neg one, if_neg two, if_neg four, if_pos fits]
    rw [len]
    exact ⟨rfl, tagged_decodes (by decide : 3 < 4) rfl (by omega : v < 2 ^ (6 + 8 * 7)) _ rfl rest⟩

end Ossl
