import OpenSSL.Asn1.DsaSigWrite
import OpenSSL.Packet
import Mathlib.Tactic.Ring

/- How crypto/asn1_dsa.c reads a signature. -/
namespace Ossl
open Prod Nat List BigEndian Codec

section Reading

def packetGetSubPacket (len : Nat) : PacketM Packet := packetGetBytes len

def packetGetNet2 : PacketM Nat := fun pkt =>
  if pkt.length < 2 then none else some (netValue (pkt.take 2), pkt.drop 2)

def packetGetLengthPrefixed1 : PacketM Packet := do
  let length ← packetGet1
  packetGetBytes length

def packetGetLengthPrefixed2 : PacketM Packet := do
  let length ← packetGetNet2
  packetGetBytes length

def osslDecodeDerLength : PacketM Packet := do
  let byte ← packetGet1
  if byte < 0x80 then packetGetSubPacket byte
  else if byte = 0x81 then packetGetLengthPrefixed1
  else if byte = 0x82 then packetGetLengthPrefixed2
  else failure

/- A look ahead at the first octets: positive, and with no octet too many. -/
def derIntegerPeek : PacketM Unit := do
  let tmp ← packetGet1
  guard (tmp &&& 0x80 = 0)
  let remaining ← packetRemaining
  if 0 < remaining ∧ tmp = 0 then do
    let tmp ← packetGet1
    guard (tmp &&& 0x80 ≠ 0)

def osslDecodeDerInteger : PacketM Nat := do
  let tag ← packetGet1
  guard (tag = idInteger)
  let contpkt ← osslDecodeDerLength
  guard ((derIntegerPeek.run contpkt).isSome = true)
  pure (netValue contpkt)

def osslDecodeDerDsaSig (input : List UInt8) : Option (Nat × Nat × Nat) := do
  guard (input.length ≤ maxU64 / 2)
  let (contpkt, pkt) ← (do
    let tag ← packetGet1
    guard (tag = idSequence)
    osslDecodeDerLength : PacketM Packet).run input
  let ((r, s), rest) ← (do
    let r ← osslDecodeDerInteger
    let s ← osslDecodeDerInteger
    pure (r, s) : PacketM (Nat × Nat)).run contpkt
  guard (rest.length = 0)
  some (r, s, input.length - pkt.length)

/-- A length in one of the forms that are read. -/
inductive LengthField : Nat → List UInt8 → Prop
  | short {n : Nat} (small : n < 0x80) : LengthField n (netBytes 1 n)
  | one {n : Nat} (small : n < 0x100) : LengthField n (netBytes 1 0x81 ++ netBytes 1 n)
  | two {n : Nat} (small : n < 0x10000) : LengthField n (netBytes 1 0x82 ++ netBytes 2 n)

variable {input rest : Packet} {n : Nat}

theorem reader_bind {α γ : Type} {p : PacketM α} {f : α → PacketM γ} {y : γ} :
    (p >>= f).run input = some (y, rest) ↔
      ∃ x mid, p.run input = some (x, mid) ∧ (f x).run mid = some (y, rest) := by
  rw [StateT.run_bind]
  constructor
  · intro run
    obtain ⟨⟨x, mid⟩, first, later⟩ := Option.bind_eq_some_iff.mp run
    exact ⟨x, mid, first, later⟩
  · intro run
    obtain ⟨x, mid, first, later⟩ := run
    exact Option.bind_eq_some_iff.mpr ⟨(x, mid), first, later⟩

theorem reader_guard {c : Prop} [Decidable c] {x : Unit} :
    (guard c : PacketM Unit).run input = some (x, rest) ↔ c ∧ rest = input := by
  by_cases holds : c
  · rw [guard, if_pos holds, and_iff_right holds]
    exact ⟨fun run => (mk.inj (Option.some.inj run)).2.symm, fun is => by rw [is]; rfl⟩
  · rw [guard, if_neg holds]
    exact iff_of_false nofun fun bad => holds bad.1

theorem reader_get1 :
    packetGet1.run input = some (n, rest) ↔ n < 0x100 ∧ input = netBytes 1 n ++ rest := by
  cases input with
  | nil => exact iff_of_false nofun fun bad => nomatch bad.2
  | cons b tail =>
    have byte : netBytes 1 b.toNat = [b] := by simp [netBytes]
    constructor
    · intro run
      obtain ⟨rfl, rfl⟩ := mk.inj (Option.some.inj run)
      exact ⟨b.toNat_lt, by rw [byte]; rfl⟩
    · intro is
      obtain ⟨small, is⟩ := is
      obtain ⟨rfl, rfl⟩ := cons.inj is
      have value : (UInt8.ofNat n).toNat = n := by
        rw [UInt8.toNat_ofNat', mod_eq_of_lt small]
      simp only [packetGet1, StateT.run, shiftRight_zero, mul_zero, value]

theorem reader_bytes {bytes : Packet} : (packetGetBytes n).run input = some (bytes, rest) ↔
      bytes.length = n ∧ input = bytes ++ rest := by
  rw [StateT.run, packetGetBytes]
  constructor
  · intro run
    split_ifs at run with short
    obtain ⟨rfl, rfl⟩ := mk.inj (Option.some.inj run)
    exact ⟨length_take_of_le (by omega), (take_append_drop n input).symm⟩
  · intro is
    obtain ⟨len, rfl⟩ := is
    rw [if_neg (by rw [length_append]; omega), take_left' len, drop_left' len]

theorem reader_net2 :
    packetGetNet2.run input = some (n, rest) ↔ n < 0x10000 ∧ input = netBytes 2 n ++ rest := by
  have read : packetGetNet2.run input = ((packetGetBytes 2).run input).map
      fun x => (netValue x.1, x.2) := by
    rw [StateT.run, StateT.run, packetGetNet2, packetGetBytes]
    split_ifs <;> rfl
  rw [read, Option.map_eq_some_iff]
  constructor
  · intro found
    obtain ⟨⟨bytes, tail⟩, run, is⟩ := found
    obtain ⟨len, whole⟩ := reader_bytes.mp run
    obtain ⟨rfl, rfl⟩ := mk.inj is
    have small := netValue_lt bytes
    rw [len] at small
    have again := netBytes_netValue bytes
    rw [len] at again
    exact ⟨small, by rw [again]; exact whole⟩
  · intro is
    refine ⟨(netBytes 2 n, rest), reader_bytes.mpr ⟨netBytes_length 2 n, is.2⟩, ?_⟩
    rw [netValue_netBytes, mod_eq_of_lt (show n < 2 ^ (8 * 2) from is.1)]

theorem decodeDerLength_iff {sub : Packet} : osslDecodeDerLength.run input = some (sub, rest) ↔
      ∃ field, LengthField sub.length field ∧ input = field ++ sub ++ rest := by
  rw [osslDecodeDerLength, reader_bind]
  constructor
  · intro found
    obtain ⟨byte, mid, first, later⟩ := found
    obtain ⟨_, rfl⟩ := reader_get1.mp first
    split_ifs at later with short one two
    · obtain ⟨rfl, rfl⟩ := reader_bytes.mp later
      exact ⟨_, .short short, (append_assoc _ _ _).symm⟩
    · obtain ⟨length, mid', field, content⟩ := reader_bind.mp later
      obtain ⟨small, rfl⟩ := reader_get1.mp field
      obtain ⟨rfl, rfl⟩ := reader_bytes.mp content
      exact ⟨_, .one small, by rw [one]; simp only [append_assoc]⟩
    · obtain ⟨length, mid', field, content⟩ := reader_bind.mp later
      obtain ⟨small, rfl⟩ := reader_net2.mp field
      obtain ⟨rfl, rfl⟩ := reader_bytes.mp content
      exact ⟨_, .two small, by rw [two]; simp only [append_assoc]⟩
    · exact nomatch later
  · intro found
    obtain ⟨field, form, is⟩ := found
    cases form with
    | short small =>
      refine ⟨sub.length, sub ++ rest, reader_get1.mpr ⟨by omega, ?_⟩, ?_⟩
      · rw [is, append_assoc]
      · rw [if_pos small]
        exact reader_bytes.mpr ⟨rfl, rfl⟩
    | one small =>
      refine ⟨0x81, netBytes 1 sub.length ++ (sub ++ rest), reader_get1.mpr ⟨by decide, ?_⟩, ?_⟩
      · rw [is]
        simp only [append_assoc]
      · exact reader_bind.mpr ⟨_, _, reader_get1.mpr ⟨small, rfl⟩, reader_bytes.mpr ⟨rfl, rfl⟩⟩
    | two small =>
      refine ⟨0x82, netBytes 2 sub.length ++ (sub ++ rest), reader_get1.mpr ⟨by decide, ?_⟩, ?_⟩
      · rw [is]
        simp only [append_assoc]
      · exact reader_bind.mpr ⟨_, _, reader_net2.mpr ⟨small, rfl⟩, reader_bytes.mpr ⟨rfl, rfl⟩⟩

end Reading

section Contents

variable {n v : Nat}

theorem highBit_clear (byte : n < 0x100) : n &&& 0x80 = 0 ↔ n < 0x80 := by
  have all : ∀ n < 0x100, n &&& 0x80 = 0 ↔ n < 0x80 := by decide +kernel
  exact all n byte

theorem derContLen_iff {k : Nat} : derContLen v = k ↔
    v < 2 ^ (8 * k - 1) ∧ (k = 1 ∨ 2 ^ (8 * (k - 1) - 1) ≤ v) := by
  rw [← size_le, ← lt_size, derContLen]
  omega

theorem scaled_lt {p x y : Nat} (below : v < p) : x * p + v < y * p ↔ x < y := by
  have positive : 0 < p := by omega
  rw [← div_lt_iff_lt_mul positive, mul_comm, mul_add_div positive,
    div_eq_of_lt below, add_zero]

/-- The octets that the look ahead refuses. -/
theorem derIntegerPeek_octets (b : UInt8) (tail : Packet) :
    (derIntegerPeek.run (b :: tail)).isSome = true ↔
      b.toNat < 0x80 ∧ ∀ c rest, tail = c :: rest → b.toNat = 0 → 0x80 ≤ c.toNat := by
  have first : packetGet1.run (b :: tail) = some (b.toNat, tail) := rfl
  have look : packetRemaining.run tail = some (tail.length, tail) := rfl
  rw [Option.isSome_iff_exists]
  constructor
  · intro accepted
    obtain ⟨⟨_, left⟩, run⟩ := accepted
    obtain ⟨x, mid, is, afterTop⟩ := reader_bind.mp run
    obtain ⟨rfl, rfl⟩ := mk.inj (Option.some.inj (is.symm.trans first))
    obtain ⟨_, mid', tested, afterTest⟩ := reader_bind.mp afterTop
    obtain ⟨positive, rfl⟩ := reader_guard.mp tested
    obtain ⟨n, mid'', looked, afterLook⟩ := reader_bind.mp afterTest
    obtain ⟨rfl, rfl⟩ := mk.inj (Option.some.inj (looked.symm.trans look))
    refine ⟨(highBit_clear b.toNat_lt).mp positive, ?_⟩
    intro c rest split zero
    rw [split, zero, if_pos ⟨by simp, rfl⟩] at afterLook
    obtain ⟨y, mid, next, afterNext⟩ := reader_bind.mp afterLook
    obtain ⟨rfl, rfl⟩ := mk.inj (Option.some.inj next)
    have set_ := (reader_guard.mp afterNext).1
    rw [Ne, highBit_clear c.toNat_lt] at set_
    omega
  · intro fine
    obtain ⟨positive, padding⟩ := fine
    have tested : (guard (b.toNat &&& 0x80 = 0) : PacketM Unit).run tail = some ((), tail) :=
      reader_guard.mpr ⟨(highBit_clear b.toNat_lt).mpr positive, rfl⟩
    have later : ∃ out, (if 0 < tail.length ∧ b.toNat = 0 then
        (packetGet1 >>= fun tmp => guard (tmp &&& 0x80 ≠ 0))
        else pure () : PacketM Unit).run tail = some ((), out) := by
      by_cases zero : 0 < tail.length ∧ b.toNat = 0
      · rw [if_pos zero]
        obtain ⟨c, rest, split⟩ := exists_cons_of_length_pos zero.1
        have large := padding c rest split zero.2
        refine ⟨rest, reader_bind.mpr ⟨c.toNat, rest, ?_, reader_guard.mpr ⟨?_, rfl⟩⟩⟩
        · rw [split]
          rfl
        · rw [Ne, highBit_clear c.toNat_lt]
          omega
      · rw [if_neg zero]
        exact ⟨tail, rfl⟩
    obtain ⟨out, later⟩ := later
    exact ⟨((), out), reader_bind.mpr ⟨_, _, first, reader_bind.mpr ⟨_, _, tested,
      reader_bind.mpr ⟨_, _, look, later⟩⟩⟩⟩

/-- The look ahead accepts a content of the right length for its number. -/
theorem derIntegerPeek_iff (content : Packet) :
    (derIntegerPeek.run content).isSome = true ↔
      content = netBytes (derContLen (netValue content)) (netValue content) := by
  have whole : content = netBytes (derContLen (netValue content)) (netValue content) ↔
      derContLen (netValue content) = content.length := by
    constructor
    · intro is
      have len := congrArg length is
      rw [netBytes_length] at len
      exact len.symm
    · intro is
      rw [is, netBytes_netValue]
  rw [whole]
  cases content with
  | nil => exact iff_of_false nofun (succ_ne_zero _)
  | cons b tail =>
    rw [derIntegerPeek_octets, derContLen_iff, netValue_cons]
    cases tail with
    | nil => simp [netValue]
    | cons c rest =>
      have below := netValue_lt rest
      have smallC := c.toNat_lt
      have value : b.toNat * 2 ^ (8 * (c :: rest).length) + netValue (c :: rest) =
          (b.toNat * 256 + c.toNat) * 2 ^ (8 * rest.length) + netValue rest := by
        rw [netValue_cons, length_cons, mul_succ, pow_add]
        ring
      have most : 2 ^ (8 * (b :: c :: rest).length - 1) = 0x8000 * 2 ^ (8 * rest.length) := by
        rw [show 0x8000 = 2 ^ 15 from rfl, ← pow_add, length_cons, length_cons]
        congr 1
        omega
      have least : 2 ^ (8 * ((b :: c :: rest).length - 1) - 1) = 0x80 * 2 ^ (8 * rest.length) := by
        rw [show 0x80 = 2 ^ 7 from rfl, ← pow_add, length_cons, length_cons]
        congr 1
        omega
      rw [value, most, least, scaled_lt below, ← not_lt, scaled_lt below]
      have padded : (∀ d rest', c :: rest = d :: rest' → b.toNat = 0 → 0x80 ≤ d.toNat) ↔
          (b.toNat = 0 → 0x80 ≤ c.toNat) := by
        constructor
        · exact fun all => all c rest rfl
        · intro one d rest' is
          rw [← (cons.inj is).1]
          exact one
      rw [padded, length_cons, length_cons]
      omega

def derSigIntegerWith (field : List UInt8) (n : Nat) : List UInt8 :=
  netBytes 1 idInteger ++ field ++ netBytes (derContLen n) n

/-- The integers that are read are those with the shortest content. -/
theorem decodeDerInteger_iff {input rest : Packet} :
    osslDecodeDerInteger.run input = some (n, rest) ↔
      ∃ field, LengthField (derContLen n) field ∧ input = derSigIntegerWith field n ++ rest := by
  rw [osslDecodeDerInteger, reader_bind]
  constructor
  · intro found
    obtain ⟨tag, mid, first, afterTag⟩ := found
    obtain ⟨_, tagged, second, afterTest⟩ := reader_bind.mp afterTag
    obtain ⟨sub, left, third, afterLength⟩ := reader_bind.mp afterTest
    obtain ⟨_, checked, fourth, last⟩ := reader_bind.mp afterLength
    obtain ⟨rfl, rfl⟩ := mk.inj (Option.some.inj last)
    obtain ⟨proper, rfl⟩ := reader_guard.mp fourth
    obtain ⟨rfl, rfl⟩ := reader_guard.mp second
    obtain ⟨field, form, rfl⟩ := decodeDerLength_iff.mp third
    obtain ⟨_, rfl⟩ := reader_get1.mp first
    rw [derIntegerPeek_iff] at proper
    have len := congrArg length proper
    rw [netBytes_length] at len
    refine ⟨field, len ▸ form, ?_⟩
    rw [derSigIntegerWith, ← proper]
    simp only [append_assoc]
  · intro found
    obtain ⟨field, form, rfl⟩ := found
    have value : netValue (netBytes (derContLen n) n) = n := by
      rw [netValue_netBytes, mod_eq_of_lt (derContLen_fits n)]
    refine ⟨idInteger, field ++ netBytes (derContLen n) n ++ rest, ?_, ?_⟩
    · apply reader_get1.mpr
      exact ⟨by decide, by rw [derSigIntegerWith]; simp only [append_assoc]⟩
    · apply reader_bind.mpr
      refine ⟨(), _, reader_guard.mpr ⟨rfl, rfl⟩, reader_bind.mpr ⟨netBytes (derContLen n) n, rest,
        ?_, reader_bind.mpr ⟨(), rest, reader_guard.mpr ⟨?_, rfl⟩, ?_⟩⟩⟩
      · exact decodeDerLength_iff.mpr ⟨field, by rw [netBytes_length]; exact form, rfl⟩
      · rw [derIntegerPeek_iff, value]
      · rw [value]
        rfl

end Contents

end Ossl
