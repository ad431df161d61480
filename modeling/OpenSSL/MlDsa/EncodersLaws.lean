import OpenSSL.MlDsa.Encoders

/- The two packings of coefficients are bijections onto their bytes. -/
namespace Ossl
open Nat List LittleEndian Codec

variable {a b i v z0 z1 z2 z3 : Nat} {b3 inp : List UInt8}

theorem or_shl32 (low : a < 2 ^ i) (inside : i ≤ 32) :
    a ||| shl32 b i = a + b % 2 ^ (32 - i) * 2 ^ i := by
  have width : 2 ^ 32 = 2 ^ (32 - i) * 2 ^ i := by rw [← pow_add]; congr 1; omega
  have shifted : shl32 b i = b % 2 ^ (32 - i) * 2 ^ i := by
    rw [shl32, shiftLeft_eq, width, mul_mod_mul_right]
  rw [shifted, Nat.or_comm, mul_comm, ← two_pow_add_eq_or_of_lt low, add_comm]

theorem or_shl (low : a < 2 ^ i) : a ||| b <<< i = a + b * 2 ^ i := by
  rw [shiftLeft_eq, Nat.or_comm, mul_comm, ← two_pow_add_eq_or_of_lt low, add_comm]

/-- A coefficient of z: in (-gamma1, gamma1] mod q. -/
def InGamma (gamma1 c : Nat) : Prop := c ≤ gamma1 ∨ (mlDsaQ - gamma1 < c ∧ c < mlDsaQ)

variable {gamma1 n : Nat} {b1 b2 : List UInt8}

theorem modSub_code {c : Nat} (positive : 0 < gamma1) (small : 2 * gamma1 ≤ mlDsaQ)
    (inside : InGamma gamma1 c) :
    modSub gamma1 c < 2 * gamma1 ∧ modSub gamma1 (modSub gamma1 c) = c := by
  unfold InGamma modSub reduceOnce at *
  unfold mlDsaQ at *
  constructor
  · split <;> omega
  · split <;> split <;> omega

theorem modSub_coeff (small : 2 * gamma1 ≤ mlDsaQ) (code : v < 2 * gamma1) :
    InGamma gamma1 (modSub gamma1 v) ∧ modSub gamma1 (modSub gamma1 v) = v := by
  unfold InGamma modSub reduceOnce at *
  unfold mlDsaQ at *
  constructor
  · split <;> omega
  · split <;> split <;> omega

/-- Four coefficients and the bytes of their group are in one to one correspondence. -/
structure GroupCodec (gamma1 size : Nat) (encode : Nat → Nat → Nat → Nat → List UInt8)
    (decode : List UInt8 → List Nat) : Prop where
  length : ∀ c0 c1 c2 c3, (encode c0 c1 c2 c3).length = size
  decodes : ∀ c0 c1 c2 c3, InGamma gamma1 c0 → InGamma gamma1 c1 → InGamma gamma1 c2 →
    InGamma gamma1 c3 → decode (encode c0 c1 c2 c3) = [c0, c1, c2, c3]
  encodes : ∀ inp, inp.length = size → ∃ c0 c1 c2 c3, decode inp = [c0, c1, c2, c3] ∧
    (InGamma gamma1 c0 ∧ InGamma gamma1 c1 ∧ InGamma gamma1 c2 ∧ InGamma gamma1 c3) ∧
    encode c0 c1 c2 c3 = inp

theorem bytesOf_value (length : inp.length = n) (same : v = value inp) : bytesOf n v = inp := by
  apply value_inj (by rw [bytesOf_length, length])
  rw [value_bytesOf, same, ← length, mod_eq_of_lt (value_lt inp)]

theorem words_parts (b3 : List UInt8) (first : b1.length = 4) (second : b2.length = 4)
    (third : b3.length = n) :
    (b1 ++ (b2 ++ b3)).take 4 = b1 ∧ ((b1 ++ (b2 ++ b3)).drop 4).take 4 = b2 ∧
      ((b1 ++ (b2 ++ b3)).drop 8).take n = b3 := by
  refine ⟨take_left' first, ?_, ?_⟩
  · rw [drop_left' first, take_left' second]
  · rw [← append_assoc, drop_left' (by simp [first, second]), take_of_length_le (by omega)]

theorem words_split (length : inp.length = 8 + n) :
    ∃ b1 b2 b3, inp = b1 ++ (b2 ++ b3) ∧ b1.length = 4 ∧ b2.length = 4 ∧ b3.length = n := by
  refine ⟨inp.take 4, (inp.drop 4).take 4, (inp.drop 4).drop 4, ?_, ?_, ?_, ?_⟩
  · rw [take_append_drop, take_append_drop]
  · exact length_take_of_le (by omega)
  · exact length_take_of_le (by simp; omega)
  · simp
    omega

/-- Four codes and the values of the three words of their group are in one to one
    correspondence. -/
structure WordCodec (bound last : Nat) (w0 w1 w2 : Nat → Nat → Nat → Nat → Nat)
    (u0 u1 u2 u3 : Nat → Nat → Nat → Nat) : Prop where
  small : ∀ z0 z1 z2 z3, z0 < bound → z1 < bound → z2 < bound → z3 < bound →
    w0 z0 z1 z2 z3 < 256 ^ 4 ∧ w1 z0 z1 z2 z3 < 256 ^ 4 ∧ w2 z0 z1 z2 z3 < 256 ^ last
  unpacks : ∀ z0 z1 z2 z3, z0 < bound → z1 < bound → z2 < bound → z3 < bound →
    u0 (w0 z0 z1 z2 z3) (w1 z0 z1 z2 z3) (w2 z0 z1 z2 z3) = z0 ∧
    u1 (w0 z0 z1 z2 z3) (w1 z0 z1 z2 z3) (w2 z0 z1 z2 z3) = z1 ∧
    u2 (w0 z0 z1 z2 z3) (w1 z0 z1 z2 z3) (w2 z0 z1 z2 z3) = z2 ∧
    u3 (w0 z0 z1 z2 z3) (w1 z0 z1 z2 z3) (w2 z0 z1 z2 z3) = z3
  codes : ∀ a b c, a < 256 ^ 4 → b < 256 ^ 4 → c < 256 ^ last →
    u0 a b c < bound ∧ u1 a b c < bound ∧ u2 a b c < bound ∧ u3 a b c < bound
  packs : ∀ a b c, a < 256 ^ 4 → b < 256 ^ 4 → c < 256 ^ last →
    w0 (u0 a b c) (u1 a b c) (u2 a b c) (u3 a b c) = a ∧
    w1 (u0 a b c) (u1 a b c) (u2 a b c) (u3 a b c) = b ∧
    w2 (u0 a b c) (u1 a b c) (u2 a b c) (u3 a b c) = c

/-- Groups whose words are in one to one correspondence with their codes are a codec. -/
theorem group_of_words {last : Nat} {w0 w1 w2 : Nat → Nat → Nat → Nat → Nat}
    {u0 u1 u2 u3 : Nat → Nat → Nat → Nat} {encode : Nat → Nat → Nat → Nat → List UInt8}
    {decode : List UInt8 → List Nat} (positive : 0 < gamma1) (small : 2 * gamma1 ≤ mlDsaQ)
    (words : WordCodec (2 * gamma1) last w0 w1 w2 u0 u1 u2 u3)
    (length : ∀ c0 c1 c2 c3, (encode c0 c1 c2 c3).length = 8 + last)
    (writes : ∀ c0 c1 c2 c3 z0 z1 z2 z3, modSub gamma1 c0 = z0 → modSub gamma1 c1 = z1 →
      modSub gamma1 c2 = z2 → modSub gamma1 c3 = z3 → z0 < 2 * gamma1 → z1 < 2 * gamma1 →
      z2 < 2 * gamma1 → encode c0 c1 c2 c3 = bytesOf 4 (w0 z0 z1 z2 z3) ++
        (bytesOf 4 (w1 z0 z1 z2 z3) ++ bytesOf last (w2 z0 z1 z2 z3)))
    (reads : ∀ b1 b2 b3 : List UInt8, b1.length = 4 → b2.length = 4 → b3.length = last →
      decode (b1 ++ (b2 ++ b3)) = [modSub gamma1 (u0 (value b1) (value b2) (value b3)),
        modSub gamma1 (u1 (value b1) (value b2) (value b3)),
        modSub gamma1 (u2 (value b1) (value b2) (value b3)),
        modSub gamma1 (u3 (value b1) (value b2) (value b3))]) :
    GroupCodec gamma1 (8 + last) encode decode := by
  refine ⟨length, ?_, ?_⟩
  · intro c0 c1 c2 c3 in0 in1 in2 in3
    obtain ⟨code0, back0⟩ := modSub_code positive small in0
    obtain ⟨code1, back1⟩ := modSub_code positive small in1
    obtain ⟨code2, back2⟩ := modSub_code positive small in2
    obtain ⟨code3, back3⟩ := modSub_code positive small in3
    obtain ⟨lt0, lt1, lt2⟩ := words.small _ _ _ _ code0 code1 code2 code3
    obtain ⟨word0, word1, word2, word3⟩ := words.unpacks _ _ _ _ code0 code1 code2 code3
    rw [writes c0 c1 c2 c3 _ _ _ _ rfl rfl rfl rfl code0 code1 code2,
      reads _ _ _ (bytesOf_length 4 _) (bytesOf_length 4 _) (bytesOf_length last _)]
    simp only [value_bytesOf]
    rw [mod_eq_of_lt lt0, mod_eq_of_lt lt1, mod_eq_of_lt lt2, word0, word1, word2,
      word3, back0, back1, back2, back3]
  · intro inp inpLength
    obtain ⟨b1, b2, b3, rfl, first, second, third⟩ := words_split inpLength
    have lt1 := value_lt b1
    have lt2 := value_lt b2
    have lt3 := value_lt b3
    rw [first] at lt1
    rw [second] at lt2
    rw [third] at lt3
    obtain ⟨code0, code1, code2, code3⟩ := words.codes _ _ _ lt1 lt2 lt3
    obtain ⟨word0, word1, word2⟩ := words.packs _ _ _ lt1 lt2 lt3
    obtain ⟨in0, back0⟩ := modSub_coeff small code0
    obtain ⟨in1, back1⟩ := modSub_coeff small code1
    obtain ⟨in2, back2⟩ := modSub_coeff small code2
    obtain ⟨in3, back3⟩ := modSub_coeff small code3
    refine ⟨_, _, _, _, reads b1 b2 b3 first second third, ⟨in0, in1, in2, in3⟩, ?_⟩
    rw [writes _ _ _ _ _ _ _ _ back0 back1 back2 back3 code0 code1 code2, word0, word1, word2,
      bytesOf_value first rfl, bytesOf_value second rfl, bytesOf_value third rfl]

theorem encodeGroup19_words (c0 c1 c2 c3 : Nat) (code0 : modSub (2 ^ 19) c0 = z0)
    (code1 : modSub (2 ^ 19) c1 = z1) (code2 : modSub (2 ^ 19) c2 = z2)
    (code3 : modSub (2 ^ 19) c3 = z3) (in0 : z0 < 2 ^ 20) (in1 : z1 < 2 ^ 20) (in2 : z2 < 2 ^ 20) :
    encodeGroup19 c0 c1 c2 c3 = bytesOf 4 (z0 + z1 % 2 ^ 12 * 2 ^ 20) ++
      (bytesOf 4 (z1 / 2 ^ 12 + z2 * 2 ^ 8 + z3 % 2 ^ 4 * 2 ^ 28) ++ bytesOf 2 (z3 / 2 ^ 4)) := by
  unfold encodeGroup19
  dsimp only
  rw [code0, code1, code2, code3, or_shl32 in0 (by decide), shiftRight_eq_div_pow,
    or_shl32 (by omega : z1 / 2 ^ 12 < 2 ^ 8) (by decide),
    mod_eq_of_lt (by omega : z2 < 2 ^ (32 - 8)),
    or_shl32 (by omega : z1 / 2 ^ 12 + z2 * 2 ^ 8 < 2 ^ 28) (by decide),
    shiftRight_eq_div_pow]

theorem decodeGroup19_words (first : b1.length = 4) (second : b2.length = 4)
    (third : b3.length = 2) : decodeGroup19 (b1 ++ (b2 ++ b3)) =
      [modSub (2 ^ 19) (value b1 % 2 ^ 20),
        modSub (2 ^ 19) (value b1 / 2 ^ 20 + value b2 % 2 ^ 8 * 2 ^ 12),
        modSub (2 ^ 19) (value b2 / 2 ^ 8 % 2 ^ 20),
        modSub (2 ^ 19) (value b2 / 2 ^ 28 + value b3 * 2 ^ 4)] := by
  obtain ⟨part1, part2, part3⟩ := words_parts b3 first second third
  have lt1 := value_lt b1
  have lt2 := value_lt b2
  rw [first] at lt1
  rw [second] at lt2
  have byte : value b2 &&& 0xff = value b2 % 2 ^ 8 := and_two_pow_sub_one_eq_mod _ 8
  unfold decodeGroup19
  dsimp only
  rw [part1, part2, part3, and_two_pow_sub_one_eq_mod, and_two_pow_sub_one_eq_mod, byte,
    shiftRight_eq_div_pow, shiftRight_eq_div_pow, shiftRight_eq_div_pow,
    or_shl32 (by omega : value b1 / 2 ^ 20 < 2 ^ 12) (by decide),
    or_shl (by omega : value b2 / 2 ^ 28 < 2 ^ 4),
    mod_eq_of_lt (by omega : value b2 % 2 ^ 8 < 2 ^ (32 - 12))]

theorem words19 : WordCodec (2 * 2 ^ 19) 2
    (fun z0 z1 _ _ => z0 + z1 % 2 ^ 12 * 2 ^ 20)
    (fun _ z1 z2 z3 => z1 / 2 ^ 12 + z2 * 2 ^ 8 + z3 % 2 ^ 4 * 2 ^ 28)
    (fun _ _ _ z3 => z3 / 2 ^ 4) (fun a _ _ => a % 2 ^ 20)
    (fun a b _ => a / 2 ^ 20 + b % 2 ^ 8 * 2 ^ 12) (fun _ b _ => b / 2 ^ 8 % 2 ^ 20)
    (fun _ b c => b / 2 ^ 28 + c * 2 ^ 4) := by
  refine ⟨?_, ?_, ?_, ?_⟩
  · intro z0 z1 z2 z3 in0 in1 in2 in3
    refine ⟨?_, ?_, ?_⟩ <;> omega
  · intro z0 z1 z2 z3 in0 in1 in2 in3
    refine ⟨?_, ?_, ?_, ?_⟩ <;> omega
  · intro a b c in0 in1 in2
    refine ⟨?_, ?_, ?_, ?_⟩ <;> omega
  · intro a b c in0 in1 in2
    refine ⟨?_, ?_, ?_⟩ <;> omega

theorem group19 : GroupCodec (2 ^ 19) 10 encodeGroup19 decodeGroup19 :=
  group_of_words (by decide) (by decide) words19 (fun c0 c1 c2 c3 => by simp [encodeGroup19])
    (fun _ _ _ _ _ _ _ _ code0 code1 code2 code3 in0 in1 in2 =>
      encodeGroup19_words _ _ _ _ code0 code1 code2 code3 (by omega) (by omega) (by omega))
    (fun _ _ _ => decodeGroup19_words)

theorem encodeGroup17_words (c0 c1 c2 c3 : Nat) (code0 : modSub (2 ^ 17) c0 = z0)
    (code1 : modSub (2 ^ 17) c1 = z1) (code2 : modSub (2 ^ 17) c2 = z2)
    (code3 : modSub (2 ^ 17) c3 = z3) (in0 : z0 < 2 ^ 18) (in1 : z1 < 2 ^ 18) (in2 : z2 < 2 ^ 18) :
    encodeGroup17 c0 c1 c2 c3 = bytesOf 4 (z0 + z1 % 2 ^ 14 * 2 ^ 18) ++
      (bytesOf 4 (z1 / 2 ^ 14 + z2 * 2 ^ 4 + z3 % 2 ^ 10 * 2 ^ 22) ++ bytesOf 1 (z3 / 2 ^ 10)) := by
  unfold encodeGroup17
  dsimp only
  rw [code0, code1, code2, code3, or_shl32 in0 (by decide), shiftRight_eq_div_pow,
    or_shl32 (by omega : z1 / 2 ^ 14 < 2 ^ 4) (by decide),
    mod_eq_of_lt (by omega : z2 < 2 ^ (32 - 4)),
    or_shl32 (by omega : z1 / 2 ^ 14 + z2 * 2 ^ 4 < 2 ^ 22) (by decide),
    shiftRight_eq_div_pow]

theorem decodeGroup17_words (first : b1.length = 4) (second : b2.length = 4)
    (third : b3.length = 1) : decodeGroup17 (b1 ++ (b2 ++ b3)) =
      [modSub (2 ^ 17) (value b1 % 2 ^ 18),
        modSub (2 ^ 17) (value b1 / 2 ^ 18 + value b2 % 2 ^ 4 * 2 ^ 14),
        modSub (2 ^ 17) (value b2 / 2 ^ 4 % 2 ^ 18),
        modSub (2 ^ 17) (value b2 / 2 ^ 22 + value b3 * 2 ^ 10)] := by
  obtain ⟨part1, part2, part3⟩ := words_parts b3 first second third
  have lt1 := value_lt b1
  have lt2 := value_lt b2
  have lt3 := value_lt b3
  rw [first] at lt1
  rw [second] at lt2
  rw [third] at lt3
  have byte : value b2 &&& 0xf = value b2 % 2 ^ 4 := and_two_pow_sub_one_eq_mod _ 4
  unfold decodeGroup17
  dsimp only
  rw [part1, part2, part3, and_two_pow_sub_one_eq_mod, and_two_pow_sub_one_eq_mod, byte,
    shiftRight_eq_div_pow, shiftRight_eq_div_pow, shiftRight_eq_div_pow,
    or_shl32 (by omega : value b1 / 2 ^ 18 < 2 ^ 14) (by decide),
    or_shl32 (by omega : value b2 / 2 ^ 22 < 2 ^ 10) (by decide),
    mod_eq_of_lt (by omega : value b2 % 2 ^ 4 < 2 ^ (32 - 14)),
    mod_eq_of_lt (by omega : value b3 < 2 ^ (32 - 10))]

theorem words17 : WordCodec (2 * 2 ^ 17) 1
    (fun z0 z1 _ _ => z0 + z1 % 2 ^ 14 * 2 ^ 18)
    (fun _ z1 z2 z3 => z1 / 2 ^ 14 + z2 * 2 ^ 4 + z3 % 2 ^ 10 * 2 ^ 22)
    (fun _ _ _ z3 => z3 / 2 ^ 10) (fun a _ _ => a % 2 ^ 18)
    (fun a b _ => a / 2 ^ 18 + b % 2 ^ 4 * 2 ^ 14) (fun _ b _ => b / 2 ^ 4 % 2 ^ 18)
    (fun _ b c => b / 2 ^ 22 + c * 2 ^ 10) := by
  refine ⟨?_, ?_, ?_, ?_⟩
  · intro z0 z1 z2 z3 in0 in1 in2 in3
    refine ⟨?_, ?_, ?_⟩ <;> omega
  · intro z0 z1 z2 z3 in0 in1 in2 in3
    refine ⟨?_, ?_, ?_, ?_⟩ <;> omega
  · intro a b c in0 in1 in2
    refine ⟨?_, ?_, ?_, ?_⟩ <;> omega
  · intro a b c in0 in1 in2
    refine ⟨?_, ?_, ?_⟩ <;> omega

theorem group17 : GroupCodec (2 ^ 17) 9 encodeGroup17 decodeGroup17 :=
  group_of_words (by decide) (by decide) words17 (fun c0 c1 c2 c3 => by simp [encodeGroup17])
    (fun _ _ _ _ _ _ _ _ code0 code1 code2 code3 in0 in1 in2 =>
      encodeGroup17_words _ _ _ _ code0 code1 code2 code3 (by omega) (by omega) (by omega))
    (fun _ _ _ => decodeGroup17_words)

end Ossl
