import OpenSSL.Lib.Twos
import OpenSSL.Asn1.Asn1Lib

/- The contents of an INTEGER (crypto/asn1/a_int.c). The data of an ASN1_INTEGER are the
   octets of its magnitude; its sign is a bit of its type. -/
namespace Ossl
open Nat List Option Twos BigEndian Base128

def vAsn1Integer : BitVec 32 := 2
def vAsn1Neg : BitVec 32 := 0x100

/- The length is that of the data; there are none behind a null pointer. -/
structure Asn1String where
  type : BitVec 32
  data : Option (List UInt8)
  deriving DecidableEq

def Asn1String.neg (a : Asn1String) : Bool := decide (a.type &&& vAsn1Neg ≠ 0)

def asn1StringSet (str : Asn1String) (data : Option (List UInt8)) (len : Nat) :
    Option Asn1String :=
  if intMax - 1 < len then none
  else
    let from_ := match data with
      | some data => data
      | none => str.data.getD [] ++ replicate len 0
    some { str with data := some (from_.take len) }

def twosRound (pad octet : UInt8) (state : Nat × List UInt8) : Nat × List UInt8 :=
  let carry := state.1 + (octet ^^^ pad).toNat
  (carry >>> 8, UInt8.ofNat carry :: state.2)

def twosComplement (src : List UInt8) (pad : UInt8) : List UInt8 :=
  (src.foldr (twosRound pad) (pad.toNat &&& 1, [])).2

def orOctets (octets : List UInt8) : Nat := octets.foldl (fun pad octet => pad ||| octet.toNat) 0

def i2cPad : List UInt8 → Bool → Nat × UInt8
  | [], _ => (0, 0)
  | first :: rest, neg =>
    let i := first.toNat
    if neg = false ∧ 127 < i then (1, 0)
    else if neg then
      if 128 < i then (1, 0xff)
      else if i = 128 then
        let pb : UInt8 := if orOctets rest ≠ 0 then 0xff else 0
        (pb.toNat &&& 1, pb)
      else (0, 0xff)
    else (0, 0)

def i2cIbuf (b : Option (List UInt8)) (neg : Bool) : Nat × List UInt8 :=
  let b := b.getD []
  if b.isEmpty then (1, [0])
  else
    let padding := i2cPad b neg
    (b.length + padding.1, replicate padding.1 padding.2 ++ twosComplement b padding.2)

def c2iPad (first : UInt8) (others : List UInt8) : Nat :=
  if first = 0 then 1
  else if first = 0xff then if orOctets others ≠ 0 then 1 else 0
  else 0

def c2iIbuf : List UInt8 → Option (Bool × List UInt8)
  | [] => none
  | [first] =>
    let neg := decide (first.toNat &&& 0x80 ≠ 0)
    some (neg, [if neg then (first ^^^ 0xff) + 1 else first])
  | first :: second :: rest =>
    let neg := decide (first.toNat &&& 0x80 ≠ 0)
    let pad := c2iPad first (second :: rest)
    -- the top bits of the first two octets cannot match
    if pad ≠ 0 ∧ neg = decide (second.toNat &&& 0x80 ≠ 0) then none
    else some (neg, twosComplement ((first :: second :: rest).drop pad) (if neg then 0xff else 0))

def osslI2cAsn1Integer (a : Asn1String) : Nat × List UInt8 :=
  let made := i2cIbuf a.data a.neg
  if intMax < made.1 then (0, made.2) else made

def osslC2iAsn1Integer (a : Option Asn1String) (pp : List UInt8) (len : Nat) :
    Option (Asn1String × List UInt8) :=
  match c2iIbuf (pp.take len) with
  | none => none
  | some (neg, octets) =>
    if intMax < octets.length then none
    else
      match asn1StringSet (a.getD ⟨vAsn1Integer, none⟩) none octets.length with
      | none => none
      | some ret =>
        let type := if neg then ret.type ||| vAsn1Neg else ret.type &&& ~~~vAsn1Neg
        some (⟨type, some octets⟩, pp.drop len)

def int64Max : Nat := 2 ^ 63 - 1
def int64Min : Int := -2 ^ 63
def absInt64Min : Nat := 2 ^ 63

def asn1GetUint64 (b : Option (List UInt8)) : Option Nat :=
  if 8 < (b.getD []).length then none
  else b.map (fun b => b.foldl (fun r octet => ((r <<< 8) % 2 ^ 64) ||| octet.toNat) 0)

def putUint64Rounds : Nat → Nat → List UInt8 → List UInt8
  | 0, _, b => b
  | off + 1, r, b =>
    if r >>> 8 = 0 then UInt8.ofNat r :: b
    else putUint64Rounds off (r >>> 8) (UInt8.ofNat r :: b)

def asn1PutUint64 (r : Nat) : List UInt8 := putUint64Rounds 8 r []

def asn1GetInt64 (b : Option (List UInt8)) (neg : Bool) : Option Int :=
  match asn1GetUint64 b with
  | none => none
  | some r =>
    if neg then
      if r ≤ int64Max then some (-r)
      else if r = absInt64Min then some (Int.bmod (0 - r) (2 ^ 64))
      else none
    else if r ≤ int64Max then some r
    else none

def asn1StringGetInt64 (a : Option Asn1String) (itype : BitVec 32) : Option Int :=
  match a with
  | none => none
  | some a => if a.type &&& ~~~vAsn1Neg ≠ itype then none else asn1GetInt64 a.data a.neg

def asn1StringSetInt64 (a : Asn1String) (r : Int) (itype : BitVec 32) : Option Asn1String :=
  if r < 0 then
    let octets := asn1PutUint64 ((0 - r) % 2 ^ 64).toNat
    asn1StringSet { a with type := itype ||| vAsn1Neg } (some octets) octets.length
  else
    let octets := asn1PutUint64 r.toNat
    asn1StringSet { a with type := itype &&& ~~~vAsn1Neg } (some octets) octets.length

def asn1IntegerGetInt64 (a : Option Asn1String) : Option Int := asn1StringGetInt64 a vAsn1Integer

def asn1IntegerSetInt64 (a : Asn1String) (r : Int) : Option Asn1String :=
  asn1StringSetInt64 a r vAsn1Integer

/- Two's complement is the negated number, or the number itself. -/

theorem twosFold (pad : UInt8) (src : List UInt8) :
    let out := src.foldr (twosRound pad) (pad.toNat &&& 1, [])
    out.2.length = src.length ∧
      out.1 * 2 ^ (8 * src.length) + netValue out.2 =
        (pad.toNat &&& 1) + netValue (src.map (· ^^^ pad)) := by
  induction src with
  | nil => simp
  | cons octet src ih =>
    obtain ⟨lengths, sum⟩ := ih
    rw [foldr_cons]
    generalize src.foldr (twosRound pad) (pad.toNat &&& 1, []) = out at lengths sum ⊢
    dsimp only [twosRound]
    constructor
    · rw [length_cons, length_cons, lengths]
    · rw [map_cons, netValue_cons, netValue_cons, length_map, lengths,
        length_cons, step, UInt8.toNat_ofNat', shiftRight_eq_div_pow]
      generalize (octet ^^^ pad).toNat = x
      generalize 2 ^ (8 * src.length) = w at *
      have split : (out.1 + x) / 2 ^ 8 * (256 * w) + (out.1 + x) % 2 ^ 8 * w = (out.1 + x) * w := by
        rw [← mul_assoc, ← add_mul, show (2 : Nat) ^ 8 = 256 from rfl, div_add_mod']
      rw [add_mul] at split
      omega

theorem twosComplement_length (src : List UInt8) (pad : UInt8) :
    (twosComplement src pad).length = src.length := (twosFold pad src).1

theorem twosComplement_plain (src : List UInt8) : twosComplement src 0 = src := by
  obtain ⟨lengths, sum⟩ := twosFold 0 src
  have below := netValue_lt src
  have same : src.map (· ^^^ (0 : UInt8)) = src := by simp
  rw [same] at sum
  apply netValue_inj lengths
  have carry : (src.foldr (twosRound 0) ((0 : UInt8).toNat &&& 1, [])).1 = 0 := by
    by_contra some
    have := mul_le_mul_right (2 ^ (8 * src.length)) (pos_of_ne_zero some)
    simp only [UInt8.toNat_zero, zero_and, zero_add] at sum
    simp only [UInt8.toNat_zero, zero_and] at this
    omega
  rw [carry] at sum
  simpa using sum

theorem twosComplement_negated {src : List UInt8} (pos : 0 < netValue src) :
    netValue (twosComplement src 0xff) + netValue src = 2 ^ (8 * src.length) := by
  obtain ⟨lengths, sum⟩ := twosFold 0xff src
  have flipped := netValue_flip src
  rw [twosComplement]
  generalize src.foldr (twosRound 0xff) ((0xff : UInt8).toNat &&& 1, []) = out at *
  rw [show (0xff : UInt8).toNat &&& 1 = 1 from rfl] at sum
  have carry : out.1 = 0 := by
    by_contra some
    have := mul_le_mul_right (2 ^ (8 * src.length)) (pos_of_ne_zero some)
    omega
  rw [carry] at sum
  omega

theorem orOctets_pos (octets : List UInt8) : orOctets octets ≠ 0 ↔ 0 < netValue octets := by
  have general : ∀ pad, octets.foldl (fun pad octet => pad ||| octet.toNat) pad = 0 ↔
      pad = 0 ∧ netValue octets = 0 := by
    induction octets with
    | nil => simp [netValue]
    | cons octet octets ih =>
      intro pad
      have pos := positive octets.length
      rw [foldl_cons, ih, or_eq_zero_iff, netValue_cons, Nat.add_eq_zero_iff, Nat.mul_eq_zero]
      constructor
      · rintro ⟨⟨first, second⟩, rest⟩
        exact ⟨first, .inl second, rest⟩
      · rintro ⟨first, second | second, rest⟩
        · exact ⟨⟨first, second⟩, rest⟩
        · omega
  rw [orOctets, Ne, general]
  omega

theorem top_bit (octet : UInt8) : octet.toNat &&& 0x80 ≠ 0 ↔ 128 ≤ octet.toNat := by
  rw [(octet_masks octet).1, follows, decide_eq_true_iff]

variable {magnitude : List UInt8}

theorem value_pos {neg : Bool} (canonical : Canonical neg magnitude)
    (negated : neg = true) : 0 < netValue magnitude := by
  apply pos_of_ne_zero
  intro zero
  rw [(canonical_zero canonical zero).2] at negated
  exact Bool.false_ne_true negated

variable {c : List UInt8}

variable {first : UInt8} {b rest : List UInt8} {k : Nat} {a : Asn1String}

/-- The negated number of a magnitude whose top bit is clear, or alone set. -/
theorem negated_plain (width : c.length = rest.length + 1)
    (least : 2 ^ (8 * rest.length) ≤ netValue (first :: rest))
    (most : netValue (first :: rest) ≤ 128 * 2 ^ (8 * rest.length))
    (sum : netValue c + netValue (first :: rest) = 2 ^ (8 * (rest.length + 1))) :
    Minimal c ∧ value c = signed true (first :: rest) := by
  rw [step] at sum
  have meaning : value c = signed true (first :: rest) := by
    cases c with
    | nil => simp at width
    | cons top c =>
      have sign := negative_iff top c
      rw [length_cons, add_right_cancel_iff] at width
      rw [value, if_pos (sign.mpr (by rw [width]; omega)), signed, if_pos rfl, length_cons,
        width, step]
      omega
  refine ⟨?_, meaning⟩
  rw [signed, if_pos rfl] at meaning
  rcases c with _ | ⟨top, _ | ⟨second, c⟩⟩
  · contradiction
  · trivial
  · rw [minimal_iff, meaning]
    simp only [length_cons, add_right_cancel_iff] at width
    rw [← width, step] at least
    omega

/-- The negated number of a magnitude with the top bit and another one set, with an octet
    of ones before it. -/
theorem negated_padded (width : c.length = rest.length + 1)
    (least : 128 * 2 ^ (8 * rest.length) < netValue (first :: rest))
    (sum : netValue c + netValue (first :: rest) = 2 ^ (8 * (rest.length + 1))) :
    Minimal (0xff :: c) ∧ value (0xff :: c) = signed true (first :: rest) := by
  constructor
  · cases c with
    | nil => simp at width
    | cons top c =>
      rw [length_cons, add_right_cancel_iff] at width
      rw [step] at sum
      have clear : ¬ 128 ≤ top.toNat := by
        rw [first_le, width]
        omega
      have nine : firstNine 0xff top = 510 := by
        rw [firstNine, show (0xff : UInt8).toNat = 255 from rfl]
        omega
      show firstNine 0xff top ≠ 0 ∧ firstNine 0xff top ≠ 511
      rw [nine]
      decide
  · rw [step] at sum
    rw [value, show negative (0xff :: c) = true from rfl, if_pos rfl, netValue_cons,
      length_cons, step, width, step, signed, if_pos rfl,
      show (0xff : UInt8).toNat = 255 from rfl]
    omega

theorem i2cIbuf_spec {neg : Bool} (canonical : Canonical neg b) :
    (i2cIbuf (some b) neg).1 = (i2cIbuf (some b) neg).2.length ∧
      (i2cIbuf (some b) neg).1 ≤ b.length + 1 ∧
      Minimal (i2cIbuf (some b) neg).2 ∧ value (i2cIbuf (some b) neg).2 = signed neg b := by
  cases b with
  | nil => exact absurd rfl (canonical_nonempty canonical)
  | cons first rest =>
    have stored : i2cIbuf (some (first :: rest)) neg =
        ((first :: rest).length + (i2cPad (first :: rest) neg).1,
          replicate (i2cPad (first :: rest) neg).1 (i2cPad (first :: rest) neg).2 ++
            twosComplement (first :: rest) (i2cPad (first :: rest) neg).2) := rfl
    have one : (i2cPad (first :: rest) neg).1 ≤ 1 := by
      unfold i2cPad
      dsimp only
      split
      · decide
      · split
        · split
          · decide
          · split
            · exact and_le_right
            · decide
        · decide
    rw [stored]
    refine ⟨?_, Nat.add_le_add_left one _, ?_⟩
    · simp only [length_append, length_replicate, twosComplement_length]
      exact add_comm _ _
    · have byte := first.toNat_lt
      cases neg with
      | false =>
        have plain := twosComplement_plain (first :: rest)
        by_cases high : 127 < first.toNat
        · have padding : i2cPad (first :: rest) false = (1, 0) := by simp [i2cPad, high]
          rw [padding, plain]
          constructor
          · have nine : firstNine 0 first = 1 := by
              rw [firstNine, UInt8.toNat_zero]
              omega
            show firstNine 0 first ≠ 0 ∧ firstNine 0 first ≠ 511
            rw [nine]
            decide
          · show value (0 :: first :: rest) = _
            rw [value, negative, netValue_cons, UInt8.toNat_zero]
            simp [signed]
        · have padding : i2cPad (first :: rest) false = (0, 0) := by simp [i2cPad, high]
          rw [padding, plain]
          constructor
          · cases rest with
            | nil => trivial
            | cons second rest =>
              rcases canonical with ⟨is, _⟩ | ⟨_, _, is, nonzero⟩
              · simp at is
              · obtain ⟨rfl, rfl⟩ := cons_eq_cons.mp is
                have pos := octet_pos nonzero
                have bit := second.toNat_lt
                show firstNine first second ≠ 0 ∧ firstNine first second ≠ 511
                rw [firstNine]
                omega
          · show value (first :: rest) = _
            have clear : ¬ negative (first :: rest) = true := by
              rw [negative, decide_eq_true_iff]
              omega
            rw [value, if_neg clear]
            simp [signed]
      | true =>
        have pos := value_pos canonical rfl
        have sum := twosComplement_negated pos
        have width := twosComplement_length (first :: rest) 0xff
        have tops := first_le first rest 128
        have least : 2 ^ (8 * rest.length) ≤ netValue (first :: rest) := by
          rcases canonical with ⟨_, never⟩ | ⟨_, _, is, nonzero⟩
          · exact absurd never (by decide)
          · obtain ⟨rfl, rfl⟩ := cons_eq_cons.mp is
            have := (first_le first rest 1).mp (octet_pos nonzero)
            omega
        rw [length_cons] at sum width
        by_cases above : 128 < first.toNat
        · have padding : i2cPad (first :: rest) true = (1, 0xff) := by simp [i2cPad, above]
          have next := (first_le first rest 129).mp above
          rw [padding]
          exact negated_padded width (by omega) sum
        · by_cases equal : first.toNat = 128
          · have whole := netValue_cons first rest
            rw [equal] at whole
            by_cases others : 0 < netValue rest
            · have padding : i2cPad (first :: rest) true = (1, 0xff) := by
                simp [i2cPad, equal, (orOctets_pos rest).mpr others]
              rw [padding]
              exact negated_padded width (by omega) sum
            · have padding : i2cPad (first :: rest) true = (0, 0) := by
                have zero : orOctets rest = 0 := by
                  by_contra some
                  exact others ((orOctets_pos rest).mp some)
                simp [i2cPad, equal, zero]
              rw [padding, twosComplement_plain]
              show Minimal (first :: rest) ∧ value (first :: rest) = signed true (first :: rest)
              apply negated_plain rfl least (by omega)
              rw [step]
              omega
          · have padding : i2cPad (first :: rest) true = (0, 0xff) := by
              simp [i2cPad, above, equal]
            rw [padding]
            apply negated_plain width least _ sum
            have : ¬ 128 ≤ first.toNat := by omega
            rw [tops] at this
            omega

theorem c2iPad_cases (first : UInt8) (others : List UInt8) :
    c2iPad first others = 1 ∧ (first = 0 ∨ first = 0xff ∧ 0 < netValue others) ∨
      c2iPad first others = 0 ∧ first ≠ 0 ∧ ¬ (first = 0xff ∧ 0 < netValue others) := by
  have some := orOctets_pos others
  unfold c2iPad
  by_cases zero : first = 0
  · simp [zero]
  · by_cases ones : first = 0xff
    · by_cases pos : 0 < netValue others
      · simp [ones, some.mpr pos, pos]
      · have none : orOctets others = 0 := by
          by_contra is
          exact pos (some.mp is)
        simp [ones, none, pos]
    · simp [zero, ones]

theorem c2i_refuses (first second : UInt8) (rest : List UInt8) :
    (c2iPad first (second :: rest) ≠ 0 ∧
      decide (first.toNat &&& 0x80 ≠ 0) = decide (second.toNat &&& 0x80 ≠ 0)) ↔
      ¬ Minimal (first :: second :: rest) := by
  have next := second.toNat_lt
  have high := first_le second rest 128
  have pos := positive rest.length
  have zero : first = 0 ↔ first.toNat = 0 := UInt8.toNat_inj.symm
  have ones : first = 0xff ↔ first.toNat = 255 := UInt8.toNat_inj.symm
  have cases_ := c2iPad_cases first (second :: rest)
  rw [zero, ones] at cases_
  have tops : decide (first.toNat &&& 0x80 ≠ 0) = decide (second.toNat &&& 0x80 ≠ 0) ↔
      (128 ≤ first.toNat ↔ 128 ≤ second.toNat) := by
    rw [decide_eq_decide, top_bit, top_bit]
  have minimal : Minimal (first :: second :: rest) ↔
      firstNine first second ≠ 0 ∧ firstNine first second ≠ 511 := Iff.rfl
  rw [tops, minimal, firstNine]
  rcases cases_ with ⟨pad, which⟩ | ⟨pad, nonzero, which⟩
  · rw [pad]
    omega
  · rw [Ne, zero] at nonzero
    omega

theorem canonical_of_le {neg : Bool} (width : magnitude.length = k + 1)
    (least : 2 ^ (8 * k) ≤ netValue magnitude) : Canonical neg magnitude := by
  cases magnitude with
  | nil => simp at width
  | cons first rest =>
    rw [length_cons, add_right_cancel_iff] at width
    refine .inr ⟨first, rest, rfl, ?_⟩
    intro zero
    have one := (first_le first rest 1).mpr (by rw [width]; omega)
    rw [zero, UInt8.toNat_zero] at one
    omega

theorem negated_sound (width : c.length = k + 1) (pos : 0 < netValue c)
    (most : netValue c ≤ 255 * 2 ^ (8 * k)) : Canonical true (twosComplement c 0xff) ∧
      signed true (twosComplement c 0xff) = netValue c - ((2 ^ (8 * c.length) : Nat) : Int) := by
  have sum := twosComplement_negated pos
  have same := twosComplement_length c 0xff
  constructor
  · apply canonical_of_le (same.trans width)
    rw [width, step] at sum
    omega
  · rw [signed, if_pos rfl]
    omega

theorem c2iIbuf_sound {neg : Bool}
    (read : c2iIbuf c = some (neg, magnitude)) :
    Minimal c ∧ Canonical neg magnitude ∧ signed neg magnitude = value c := by
  match c, read with
  | [first], read =>
    have byte := first.toNat_lt
    have sign : negative [first] = decide (128 ≤ first.toNat) := rfl
    have alone : netValue [first] = first.toNat := by simp [netValue]
    refine ⟨trivial, ?_⟩
    obtain ⟨rfl, rfl⟩ := Prod.mk.inj (some.inj read)
    rw [value, sign, alone]
    by_cases high : 128 ≤ first.toNat
    · have flipped : ((first ^^^ 0xff) + 1).toNat = 256 - first.toNat := by
        rw [UInt8.toNat_add, show (0xff : UInt8) = -1 from rfl, UInt8.xor_neg_one,
          UInt8.toNat_not, show UInt8.size = 256 from rfl, UInt8.toNat_one]
        omega
      have magnitude : netValue [(first ^^^ 0xff) + 1] = 256 - first.toNat := by
        rw [← flipped]
        simp [netValue]
      rw [decide_eq_true ((top_bit first).mpr high), if_pos rfl]
      constructor
      · apply canonical_of_le (k := 0) rfl
        rw [magnitude]
        omega
      · rw [signed, if_pos rfl, magnitude, if_pos (decide_eq_true high), length_singleton]
        omega
    · have clear : ¬ (first.toNat &&& 0x80 ≠ 0) := fun set => high ((top_bit first).mp set)
      rw [decide_eq_false clear, if_neg Bool.false_ne_true]
      constructor
      · by_cases zero : first = 0
        · exact .inl ⟨by rw [zero], rfl⟩
        · exact .inr ⟨first, [], rfl, zero⟩
      · rw [signed, if_neg Bool.false_ne_true, alone, decide_eq_false high,
          if_neg Bool.false_ne_true, Int.sub_zero]
  | first :: second :: rest, read =>
    unfold c2iIbuf at read
    dsimp only at read
    by_cases refused : c2iPad first (second :: rest) ≠ 0 ∧
        decide (first.toNat &&& 0x80 ≠ 0) = decide (second.toNat &&& 0x80 ≠ 0)
    · rw [if_pos refused] at read
      simp at read
    · rw [if_neg refused] at read
      have minimal : Minimal (first :: second :: rest) := by
        by_contra not
        exact refused ((c2i_refuses first second rest).mpr not)
      refine ⟨minimal, ?_⟩
      obtain ⟨rfl, rfl⟩ := Prod.mk.inj (some.inj read)
      have byte := first.toNat_lt
      have sign : negative (first :: second :: rest) = decide (128 ≤ first.toNat) := rfl
      have whole := netValue_cons first (second :: rest)
      have below := netValue_lt (second :: rest)
      have outside := (minimal_iff first second rest).mp minimal
      have tops : decide (first.toNat &&& 0x80 ≠ 0) = decide (128 ≤ first.toNat) := by
        rw [decide_eq_decide]
        exact top_bit first
      rw [value, sign] at outside ⊢
      rw [tops]
      simp only [length_cons, step, decide_eq_true_iff] at outside whole below ⊢
      rcases c2iPad_cases first (second :: rest) with ⟨pad, which⟩ | ⟨pad, nonzero, which⟩
      · rw [pad, drop_one, tail_cons]
        rcases which with zero | ⟨ones, pos⟩
        · have toNat : first.toNat = 0 := by rw [zero]; rfl
          have clear : ¬ 128 ≤ first.toNat := by omega
          rw [toNat] at whole
          rw [if_neg clear] at outside ⊢
          rw [decide_eq_false clear, if_neg clear, twosComplement_plain]
          constructor
          · apply canonical_of_le (k := rest.length) rfl
            omega
          · rw [signed, if_neg Bool.false_ne_true]
            omega
        · have toNat : first.toNat = 255 := by rw [ones]; rfl
          have top : 128 ≤ first.toNat := by omega
          rw [toNat] at whole
          rw [if_pos top] at outside ⊢
          rw [decide_eq_true top, if_pos top]
          obtain ⟨canonical, meaning⟩ := negated_sound (c := second :: rest) (k := rest.length) rfl
            pos (by omega)
          refine ⟨canonical, ?_⟩
          rw [meaning, length_cons, step]
          omega
      · rw [pad, drop_zero]
        by_cases top : 128 ≤ first.toNat
        · have least := mul_le_mul_right (256 * 2 ^ (8 * rest.length)) top
          have most : netValue (first :: second :: rest) ≤ 255 * 2 ^ (8 * (rest.length + 1)) := by
            rw [step]
            by_cases ones : first = 0xff
            · have toNat : first.toNat = 255 := by rw [ones]; rfl
              have others : ¬ 0 < netValue (second :: rest) := fun pos => which ⟨ones, pos⟩
              rw [toNat] at whole
              omega
            · have less : first.toNat ≤ 254 := by
                have : first.toNat ≠ 255 := fun is => ones (UInt8.toNat_inj.mp is)
                omega
              have := mul_le_mul_right (256 * 2 ^ (8 * rest.length)) less
              omega
          rw [if_pos top] at outside ⊢
          rw [decide_eq_true top, if_pos top]
          obtain ⟨canonical, meaning⟩ := negated_sound (c := first :: second :: rest)
            (k := rest.length + 1) rfl (by omega) most
          refine ⟨canonical, ?_⟩
          rw [meaning, length_cons, length_cons, step, step]
        · rw [decide_eq_false top, if_neg top, if_neg top, twosComplement_plain]
          constructor
          · exact .inr ⟨first, second :: rest, rfl, nonzero⟩
          · rw [signed, if_neg Bool.false_ne_true]
            omega

theorem c2iIbuf_complete (minimal : Minimal c) :
    ∃ neg magnitude, c2iIbuf c = some (neg, magnitude) := by
  match c, minimal with
  | [_], _ => exact ⟨_, _, rfl⟩
  | first :: second :: rest, minimal =>
    have accepted := mt (c2i_refuses first second rest).mp (not_not_intro minimal)
    unfold c2iIbuf
    dsimp only
    rw [if_neg accepted]
    exact ⟨_, _, rfl⟩

theorem neg_set (type : BitVec 32) (data : Option (List UInt8)) :
    Asn1String.neg ⟨type ||| vAsn1Neg, data⟩ = true := by
  have bit : (type ||| vAsn1Neg) &&& vAsn1Neg = vAsn1Neg := by
    ext i
    simp only [BitVec.getElem_and, BitVec.getElem_or]
    cases type[i] <;> cases vAsn1Neg[i] <;> rfl
  rw [Asn1String.neg, bit]
  rfl

theorem neg_cleared (type : BitVec 32) (data : Option (List UInt8)) :
    Asn1String.neg ⟨type &&& ~~~vAsn1Neg, data⟩ = false := by
  have bit : (type &&& ~~~vAsn1Neg) &&& vAsn1Neg = 0 := by
    ext i
    cases type[i] <;> cases vAsn1Neg[i] <;> simp
  rw [Asn1String.neg, bit]
  rfl

/-- All that ossl_c2i_ASN1_INTEGER does, said with the octets that c2i_ibuf reads. -/
theorem osslC2i_eq (a : Option Asn1String) (c rest : List UInt8) :
    osslC2iAsn1Integer a (c ++ rest) c.length =
      match c2iIbuf c with
      | none => none
      | some (neg, octets) =>
        if intMax - 1 < octets.length then none
        else
          let type := (a.getD ⟨vAsn1Integer, none⟩).type
          some (⟨if neg then type ||| vAsn1Neg else type &&& ~~~vAsn1Neg, some octets⟩, rest) := by
  rw [osslC2iAsn1Integer, take_left, drop_left]
  cases c2iIbuf c with
  | none => rfl
  | some read =>
    obtain ⟨neg, octets⟩ := read
    dsimp only
    unfold asn1StringSet
    by_cases large : intMax - 1 < octets.length
    · rw [if_pos large, if_pos large]
      split <;> rfl
    · rw [if_neg large, if_neg large, if_neg (by omega)]

theorem getUint64_fold (fits : b.length ≤ 8) :
    b.foldl (fun r octet => ((r <<< 8) % 2 ^ 64) ||| octet.toNat) 0 = netValue b := by
  induction b using reverseRecOn with
  | nil => rfl
  | append_singleton b octet ih =>
    have below := netValue_lt b
    rw [length_append, length_singleton] at fits
    have wider := widen (by omega : b.length ≤ 7)
    rw [foldl_append, ih (by omega), foldl_cons, foldl_nil, netValue_concat,
      mod_eq_of_lt (by rw [shiftLeft_eq]; omega)]
    exact shifted_or octet.toNat_lt _

theorem putUint64_octets {off r : Nat} (some_ : 0 < off) (fits : r < 2 ^ (8 * off))
    (b : List UInt8) :
    ∃ octets, putUint64Rounds off r b = octets ++ b ∧ netValue octets = r ∧
      octets.length ≤ off ∧ Canonical false octets := by
  induction off generalizing r b with
  | zero => omega
  | succ off ih =>
    rw [putUint64Rounds, shiftRight_eq_div_pow]
    have low : (UInt8.ofNat r).toNat = r % 256 := UInt8.toNat_ofNat'
    by_cases last : r / 2 ^ 8 = 0
    · have small : r % 256 = r := by omega
      rw [if_pos last]
      refine ⟨[UInt8.ofNat r], rfl, by simpa [netValue, low] using small, by simp, ?_⟩
      by_cases zero : UInt8.ofNat r = 0
      · exact .inl ⟨by rw [zero], rfl⟩
      · exact .inr ⟨_, [], rfl, zero⟩
    · rw [if_neg last]
      rw [step] at fits
      have more : 0 < off := by
        apply pos_of_ne_zero
        intro zero
        subst zero
        omega
      obtain ⟨octets, eq, meaning, width, canonical⟩ :=
        ih more (by omega : r / 2 ^ 8 < 2 ^ (8 * off)) (UInt8.ofNat r :: b)
      refine ⟨octets ++ [UInt8.ofNat r], by rw [eq, append_assoc]; rfl, ?_, by simpa using width,
        ?_⟩
      · rw [netValue_concat, meaning, low]
        omega
      · rcases canonical with ⟨rfl, _⟩ | ⟨first, rest, rfl, nonzero⟩
        · rw [show netValue [0] = 0 from rfl] at meaning
          omega
        · exact .inr ⟨first, rest ++ [UInt8.ofNat r], rfl, nonzero⟩

/-- An int64 is read from at most eight octets when the value is in its range. -/
theorem asn1GetInt64_iff (data : List UInt8) (neg : Bool) (v : Int) :
    asn1GetInt64 (some data) neg = some v ↔
      data.length ≤ 8 ∧ v = signed neg data ∧ int64Min ≤ v ∧ v ≤ int64Max := by
  unfold asn1GetInt64 asn1GetUint64
  rw [getD_some, map_some]
  by_cases fits : data.length ≤ 8
  · have top : int64Max + 1 = absInt64Min := rfl
    have bottom : int64Min = -(absInt64Min : Int) := rfl
    have least : Int.bmod (0 - (absInt64Min : Int)) (2 ^ 64) = -(absInt64Min : Int) := by decide
    rw [if_neg (by omega), getUint64_fold fits]
    dsimp only
    rw [signed]
    cases neg with
    | true =>
      rw [if_pos rfl, if_pos rfl]
      by_cases small : netValue data ≤ int64Max
      · rw [if_pos small, some_inj]
        omega
      · rw [if_neg small]
        by_cases equal : netValue data = absInt64Min
        · rw [if_pos equal, equal, least, some_inj]
          omega
        · rw [if_neg equal]
          constructor
          · intro never
            simp at never
          · omega
    | false =>
      rw [if_neg Bool.false_ne_true, if_neg Bool.false_ne_true]
      by_cases small : netValue data ≤ int64Max
      · rw [if_pos small, some_inj]
        omega
      · rw [if_neg small]
        constructor
        · intro never
          simp at never
        · omega
  · rw [if_pos (by omega)]
    constructor
    · intro never
      simp at never
    · omega

/-- What ossl_c2i_ASN1_INTEGER makes of contents octets, if anything. -/
theorem osslC2i_spec (a : Option Asn1String) (c rest : List UInt8) :
    ((osslC2iAsn1Integer a (c ++ rest) c.length).isSome ↔ Minimal c ∧ Fits (intMax - 1) (value c)) ∧
    ∀ ret pp, osslC2iAsn1Integer a (c ++ rest) c.length = some (ret, pp) →
      pp = rest ∧ ∃ magnitude, ret.data = some magnitude ∧ magnitude.length ≤ intMax - 1 ∧
        Minimal c ∧ Canonical ret.neg magnitude ∧ signed ret.neg magnitude = value c := by
  have some_ : 0 < intMax - 1 := by decide
  rw [osslC2i_eq]
  cases read : c2iIbuf c with
  | none =>
    constructor
    · constructor
      · intro never
        simp at never
      · intro accepted
        obtain ⟨neg, magnitude, is⟩ := c2iIbuf_complete accepted.1
        rw [read] at is
        simp at is
    · intro ret pp never
      simp at never
  | some out =>
    obtain ⟨neg, magnitude⟩ := out
    obtain ⟨minimal, canonical, meaning⟩ := c2iIbuf_sound read
    have fits := canonical_fits canonical some_
    rw [meaning] at fits
    dsimp only
    by_cases large : intMax - 1 < magnitude.length
    · rw [if_pos large]
      constructor
      · constructor
        · intro never
          simp at never
        · intro accepted
          have := fits.mp accepted.2
          omega
      · intro ret pp never
        simp at never
    · rw [if_neg large]
      constructor
      · exact ⟨fun _ => ⟨minimal, fits.mpr (by omega)⟩, fun _ => rfl⟩
      · intro ret pp made
        obtain ⟨rfl, rfl⟩ := Prod.mk.inj (some.inj made)
        refine ⟨rfl, magnitude, rfl, by omega, minimal, ?_⟩
        cases neg with
        | true =>
          rw [if_pos rfl, neg_set]
          exact ⟨canonical, meaning⟩
        | false =>
          rw [if_neg Bool.false_ne_true, neg_cleared]
          exact ⟨canonical, meaning⟩

theorem osslI2c_spec (data : a.data = some magnitude)
    (canonical : Canonical a.neg magnitude) (short : magnitude.length ≤ intMax - 1) :
    ∃ c, osslI2cAsn1Integer a = (c.length, c) ∧ Minimal c ∧ value c = signed a.neg magnitude := by
  obtain ⟨number, most, minimal, meaning⟩ := i2cIbuf_spec canonical
  have some_ : 0 < intMax := by decide
  refine ⟨(i2cIbuf (some magnitude) a.neg).2, ?_, minimal, meaning⟩
  rw [osslI2cAsn1Integer, data, if_neg (by omega)]
  exact Prod.ext number rfl

theorem getInt64_typed (type : a.type &&& ~~~vAsn1Neg = vAsn1Integer) :
    asn1IntegerGetInt64 (some a) = asn1GetInt64 a.data a.neg := by
  exact if_neg (not_not_intro type)

theorem setInt64_spec (a : Asn1String) {r : Int} (least : int64Min ≤ r) (most : r ≤ int64Max) :
    ∃ octets neg, signed neg octets = r ∧ octets.length ≤ 8 ∧ asn1IntegerSetInt64 a r =
      some ⟨if neg then vAsn1Integer ||| vAsn1Neg else vAsn1Integer &&& ~~~vAsn1Neg,
        some octets⟩ := by
  have bottom : int64Min = -2 ^ 63 := rfl
  have top : (int64Max : Int) = 2 ^ 63 - 1 := rfl
  have room : 8 ≤ intMax - 1 := by decide
  unfold asn1IntegerSetInt64 asn1StringSetInt64 asn1PutUint64 asn1StringSet
  by_cases negated : r < 0
  · have whole : ((0 - r) % 2 ^ 64).toNat = r.natAbs := by omega
    obtain ⟨octets, eq, meaning, width, _⟩ :=
      putUint64_octets (by decide) (by omega : r.natAbs < 2 ^ (8 * 8)) []
    rw [append_nil] at eq
    refine ⟨octets, true, ?_, width, ?_⟩
    · rw [signed, if_pos rfl, meaning]
      omega
    · rw [if_pos negated, whole, eq]
      dsimp only
      rw [if_neg (by omega), take_length]
      rfl
  · obtain ⟨octets, eq, meaning, width, _⟩ :=
      putUint64_octets (by decide) (by omega : r.toNat < 2 ^ (8 * 8)) []
    rw [append_nil] at eq
    refine ⟨octets, false, ?_, width, ?_⟩
    · rw [signed, if_neg Bool.false_ne_true, meaning]
      omega
    · rw [if_neg negated, eq]
      dsimp only
      rw [if_neg (by omega), take_length]
      rfl

/-- Minimal contents octets with a magnitude of at most INT_MAX - 1 octets are read as their value
    and written again; a canonical integer of at most as many octets is written as such and read
    again; an int64 is stored and read back, and get_int64 fails on a canonical integer outside its
    range alone. -/
theorem integer_contents_canonical :
    (∀ (a : Option Asn1String) (c rest : List UInt8), c ≠ [] →
      ((osslC2iAsn1Integer a (c ++ rest) c.length).isSome ↔
        Minimal c ∧ Fits (intMax - 1) (value c)) ∧
      ∀ ret pp, osslC2iAsn1Integer a (c ++ rest) c.length = some (ret, pp) →
        pp = rest ∧ osslI2cAsn1Integer ret = (c.length, c) ∧
          ∃ magnitude, ret.data = some magnitude ∧ Canonical ret.neg magnitude ∧
            signed ret.neg magnitude = value c) ∧
    (∀ (a : Asn1String) (magnitude : List UInt8), a.data = some magnitude →
      Canonical a.neg magnitude → magnitude.length ≤ intMax - 1 →
        ∃ c, osslI2cAsn1Integer a = (c.length, c) ∧ Minimal c ∧
          value c = signed a.neg magnitude ∧
          ∀ (b : Option Asn1String) (rest : List UInt8), ∃ ret,
            osslC2iAsn1Integer b (c ++ rest) c.length = some (ret, rest) ∧
              ret.neg = a.neg ∧ ret.data = some magnitude) ∧
    (∀ (a : Asn1String) (r : Int), int64Min ≤ r → r ≤ int64Max →
      ∃ stored, asn1IntegerSetInt64 a r = some stored ∧
        asn1IntegerGetInt64 (some stored) = some r) ∧
    ∀ (a : Asn1String) (magnitude : List UInt8), a.type &&& ~~~vAsn1Neg = vAsn1Integer →
      a.data = some magnitude → Canonical a.neg magnitude →
        (asn1IntegerGetInt64 (some a) = none ↔
          ¬ (int64Min ≤ signed a.neg magnitude ∧ signed a.neg magnitude ≤ int64Max)) := by
  refine ⟨?_, ?_, ?_, ?_⟩
  · intro a c rest _
    obtain ⟨accepts, sound⟩ := osslC2i_spec a c rest
    refine ⟨accepts, ?_⟩
    intro ret pp read
    obtain ⟨behind, magnitude, data, short, minimal, canonical, meaning⟩ := sound ret pp read
    obtain ⟨again, made, least, same⟩ := osslI2c_spec data canonical short
    have unique := minimal_unique least minimal (same.trans meaning)
    rw [unique] at made
    exact ⟨behind, made, magnitude, data, canonical, meaning⟩
  · intro a magnitude data canonical short
    obtain ⟨c, made, minimal, meaning⟩ := osslI2c_spec data canonical short
    refine ⟨c, made, minimal, meaning, ?_⟩
    intro b rest
    obtain ⟨accepts, sound⟩ := osslC2i_spec b c rest
    have fits : Fits (intMax - 1) (value c) := by
      rw [meaning]
      exact (canonical_fits canonical (by decide)).mpr short
    obtain ⟨⟨ret, pp⟩, read⟩ := isSome_iff_exists.mp (accepts.mpr ⟨minimal, fits⟩)
    obtain ⟨rfl, other, stored, _, _, right, same⟩ := sound ret pp read
    obtain ⟨sign, octets⟩ := canonical_unique right canonical (same.trans meaning)
    exact ⟨ret, read, sign, by rw [stored, octets]⟩
  · intro a r least most
    obtain ⟨octets, neg, meaning, width, stored⟩ := setInt64_spec a least most
    refine ⟨_, stored, ?_⟩
    have read := (asn1GetInt64_iff octets neg r).mpr ⟨width, meaning.symm, least, most⟩
    have set : (vAsn1Integer ||| vAsn1Neg) &&& ~~~vAsn1Neg = vAsn1Integer := by decide
    have cleared : (vAsn1Integer &&& ~~~vAsn1Neg) &&& ~~~vAsn1Neg = vAsn1Integer := by decide
    cases neg with
    | true =>
      rw [if_pos rfl, getInt64_typed (a := ⟨_, some octets⟩) set, neg_set]
      exact read
    | false =>
      rw [if_neg Bool.false_ne_true, getInt64_typed (a := ⟨_, some octets⟩) cleared, neg_cleared]
      exact read
  · intro a magnitude type data canonical
    have iff := asn1GetInt64_iff magnitude a.neg
    rw [getInt64_typed type, data]
    constructor
    · intro fails range
      have eight : Fits 8 (signed a.neg magnitude) := by
        have bottom : int64Min = -2 ^ 63 := rfl
        have top : (int64Max : Int) = 2 ^ 63 - 1 := rfl
        have width : (2 : Nat) ^ (8 * 8) = 2 ^ 64 := rfl
        rw [Fits, width]
        omega
      have read := (iff _).mpr
        ⟨(canonical_fits canonical (by decide)).mp eight, rfl, range.1, range.2⟩
      rw [fails] at read
      simp at read
    · intro outside
      cases read : asn1GetInt64 (some magnitude) a.neg with
      | none => rfl
      | some v =>
        obtain ⟨_, is, least, most⟩ := (iff v).mp read
        rw [is] at least most
        exact absurd ⟨least, most⟩ outside

theorem integer_contents_canonical_least :
    ((osslC2iAsn1Integer none ([0x80] ++ []) 1).isSome ↔
      Minimal [0x80] ∧ Fits (intMax - 1) (value [0x80])) ∧
    (∃ c, osslI2cAsn1Integer ⟨vAsn1Integer ||| vAsn1Neg, some [0x80]⟩ = (c.length, c) ∧
      Minimal c ∧ value c = signed true [0x80] ∧
      ∀ (b : Option Asn1String) (rest : List UInt8), ∃ ret,
        osslC2iAsn1Integer b (c ++ rest) c.length = some (ret, rest) ∧
          ret.neg = true ∧ ret.data = some [0x80]) ∧
    (∃ stored, asn1IntegerSetInt64 ⟨vAsn1Integer, none⟩ int64Min = some stored ∧
      asn1IntegerGetInt64 (some stored) = some int64Min) ∧
    (asn1IntegerGetInt64 (some ⟨vAsn1Integer, some [0x80, 0, 0, 0, 0, 0, 0, 0]⟩) = none ↔
      ¬ (int64Min ≤ signed false [0x80, 0, 0, 0, 0, 0, 0, 0] ∧
        signed false [0x80, 0, 0, 0, 0, 0, 0, 0] ≤ int64Max)) := by
  obtain ⟨contents, canonical, stored, range⟩ := integer_contents_canonical
  refine ⟨(contents none [0x80] [] (by decide)).1,
    canonical ⟨vAsn1Integer ||| vAsn1Neg, some [0x80]⟩ [0x80] rfl ?_ (by decide),
    stored ⟨vAsn1Integer, none⟩ int64Min (by decide) (by decide),
    range ⟨vAsn1Integer, some [0x80, 0, 0, 0, 0, 0, 0, 0]⟩ _ (by decide) rfl ?_⟩
  · exact .inr ⟨0x80, [], rfl, by decide⟩
  · exact .inr ⟨0x80, [0, 0, 0, 0, 0, 0, 0], rfl, by decide⟩

/-- Minimal contents of more than INT_MAX octets are refused; a magnitude without octets
    does not come back; no int64 is read from leading zeros or from no data at all. -/
theorem integer_contents_limits :
    (Minimal (replicate (intMax + 1) 1) ∧
      osslC2iAsn1Integer none (replicate (intMax + 1) 1) (intMax + 1) = none) ∧
    (osslI2cAsn1Integer ⟨vAsn1Integer, some []⟩ = (1, [0]) ∧
      osslC2iAsn1Integer none [0] 1 = some (⟨vAsn1Integer, some [0]⟩, [])) ∧
    (signed false (replicate 9 0) = 0 ∧
      asn1IntegerGetInt64 (some ⟨vAsn1Integer, some (replicate 9 0)⟩) = none) ∧
    asn1IntegerGetInt64 (some ⟨vAsn1Integer, none⟩) = none := by
  refine ⟨?_, by decide, by decide, by decide⟩
  generalize limit : intMax = n
  have canonical : Canonical false (replicate (n + 1) 1) := .inr ⟨1, replicate n 1, rfl, by decide⟩
  have minimal : Minimal (replicate (n + 1) 1) := by
    cases n with
    | zero => trivial
    | succ n =>
      show firstNine 1 1 ≠ 0 ∧ firstNine 1 1 ≠ 511
      decide
  have meaning : value (replicate (n + 1) 1) = signed false (replicate (n + 1) 1) := by
    rw [value, show negative (replicate (n + 1) 1) = false from rfl, signed,
      if_neg Bool.false_ne_true, if_neg Bool.false_ne_true, Int.sub_zero]
  refine ⟨minimal, ?_⟩
  have accepts := (osslC2i_spec none (replicate (n + 1) 1) []).1
  rw [append_nil, length_replicate, meaning, canonical_fits canonical (by decide),
    length_replicate, ← limit] at accepts
  rw [← not_isSome_iff_eq_none, ← limit, accepts]
  omega

end Ossl
