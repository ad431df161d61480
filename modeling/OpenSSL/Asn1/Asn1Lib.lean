import OpenSSL.Lib.Base128

/- The identifier and length octets of crypto/asn1/asn1_lib.c. A pointer is the list of the
   octets from it on. -/
namespace Ossl
open Nat List Base128 BigEndian UInt8

def intMax : Nat := 2 ^ 31 - 1
def longMax : Nat := 2 ^ 63 - 1

def vAsn1Private : Nat := 0xc0
def vAsn1Constructed : Nat := 0x20
def vAsn1PrimitiveTag : Nat := 0x1f

def intBits : Nat := 31

def putTagRounds : Nat → Nat → List UInt8 → List UInt8
  | 0, _, octets => octets
  | i + 1, tag, octets =>
    putTagRounds i (tag >>> 7)
      (UInt8.ofNat ((tag &&& 0x7f) ||| (if octets.isEmpty then 0 else 0x80)) :: octets)

def asn1PutLength (length : Nat) : List UInt8 :=
  if length ≤ 127 then [UInt8.ofNat length]
  else
    let i := shiftCount 8 intBits length
    UInt8.ofNat (i ||| 0x80) :: netBytes i length

def asn1PutObject (constructed length tag xclass : Nat) : List UInt8 :=
  let i := (if constructed ≠ 0 then vAsn1Constructed else 0) ||| (xclass &&& vAsn1Private)
  let identifier :=
    if tag < 31 then [UInt8.ofNat (i ||| (tag &&& vAsn1PrimitiveTag))]
    else UInt8.ofNat (i ||| vAsn1PrimitiveTag) :: putTagRounds (shiftCount 7 intBits tag) tag []
  identifier ++ if constructed = 2 then [0x80] else asn1PutLength length

def asn1PutEoc : List UInt8 := [0, 0]

def asn1ObjectSize (constructed : Nat) (length : Int) (tag : Nat) : Int :=
  if length < 0 then -1
  else
    let ret := 1 + if 31 ≤ tag then shiftCount 7 intBits tag else 0
    let ret := ret +
      if constructed = 2 then 3
      else 1 + if 127 < length then shiftCount 8 intBits length.toNat else 0
    if (intMax : Int) - length ≤ ret then -1 else ret + length

def getTagRounds : List UInt8 → Nat → Nat → Option (Nat × Nat × List UInt8)
  | [], _, _ => none
  | octet :: p, max, len =>
    let len := (len <<< 7) ||| (octet.toNat &&& 0x7f)
    if max - 1 = 0 then none
    else if octet.toNat &&& 0x80 ≠ 0 then
      if intMax >>> 7 < len then none else getTagRounds p (max - 1) len
    else some (len, max - 1, p)

def skipZeroes : Nat → List UInt8 → Nat × List UInt8
  | i + 1, octet :: p => if octet = 0 then skipZeroes i p else (i + 1, octet :: p)
  | i, p => (i, p)

structure Asn1Length where
  inf : Bool
  length : Nat
  p : List UInt8
  deriving DecidableEq

def asn1GetLength (p : List UInt8) (max : Nat) : Option Asn1Length :=
  if max < 1 then none
  else
    match p with
    | [] => none
    | first :: p =>
      if first = 0x80 then some ⟨true, 0, p⟩
      else
        let i := first.toNat &&& 0x7f
        if first.toNat &&& 0x80 ≠ 0 then
          if max - 1 < i + 1 then none
          else
            let skipped := skipZeroes i p
            -- more than sizeof(long) octets
            if 8 < skipped.1 then none
            else
              let ret := netValue (skipped.2.take skipped.1)
              if longMax < ret then none else some ⟨false, ret, skipped.2.drop skipped.1⟩
        else some ⟨false, i, p⟩

/- What ASN1_get_object stores: the length, the tag, the class and the new pointer. -/
structure Asn1Object where
  length : Nat
  tag : Nat
  xclass : Nat
  p : List UInt8
  deriving DecidableEq

def asn1GetTag (first : UInt8) (p : List UInt8) (max : Nat) : Option (Nat × Nat × List UInt8) :=
  let i := first.toNat &&& vAsn1PrimitiveTag
  if max - 1 = 0 then none
  else if i = vAsn1PrimitiveTag then getTagRounds p (max - 1) 0
  else some (i, max - 1, p)

def asn1GetObject (pp : List UInt8) (omax : Int) : Nat × Option Asn1Object :=
  match decide (omax ≤ 0), pp with
  | false, first :: p =>
    let ret := first.toNat &&& vAsn1Constructed
    let xclass := first.toNat &&& vAsn1Private
    match asn1GetTag first p omax.toNat with
    | none => (0x80, none)
    | some (tag, max, p) =>
      match asn1GetLength p max with
      | none => (0x80, none)
      | some got =>
        if got.inf ∧ ret = 0 then (0x80, none)
        else
          let used := pp.length - got.p.length
          let ret := if omax - (used : Int) < got.length then ret ||| 0x80 else ret
          (ret ||| (if got.inf then 1 else 0), some ⟨got.length, tag, xclass, got.p⟩)
  | _, _ => (0x80, none)

/- The octets are those of the tag and the length in base 128 and 256. -/

theorem putTagRounds_more (n tag : Nat) (octet : UInt8) (octets : List UInt8)
    (digits : (digits 128 tag).length = n) :
    putTagRounds n tag (octet :: octets) = more tag ++ octet :: octets := by
  induction n generalizing tag octet octets with
  | zero =>
    have none : tag = 0 := digits_eq_nil_iff_eq_zero.mp (length_eq_zero_iff.mp digits)
    subst none
    simp [putTagRounds]
  | succ n ih =>
    have pos : 0 < tag := by
      apply pos_of_ne_zero
      intro none
      subst none
      simp at digits
    have fewer : (Nat.digits 128 (tag / 128)).length = n := by
      rw [digits_def' (by decide) pos, length_cons] at digits
      omega
    have low : tag % 128 < 2 ^ 7 := mod_lt _ (by decide)
    have octet' : (tag &&& 0x7f) ||| 0x80 = tag % 128 + 128 := by
      rw [show tag &&& 0x7f = tag % 128 from and_two_pow_sub_one_eq_mod tag 7, Nat.or_comm]
      have bit := shifted_or low 1
      rw [show (1 <<< 7 : Nat) = 0x80 from rfl] at bit
      omega
    rw [putTagRounds, isEmpty_cons, if_neg Bool.false_ne_true, octet',
      shiftRight_eq_div_pow, ih _ _ _ fewer, more_pos pos, append_assoc]
    rfl

variable {tag : Nat}

theorem putTagRounds_encode (pos : 0 < tag) (int : tag ≤ intMax) :
    putTagRounds (shiftCount 7 intBits tag) tag [] = encode tag := by
  have bound : tag < 2 ^ intBits := lt_of_le_of_lt int (by decide)
  rw [shiftCount_eq (by decide) bound, show (2 ^ 7 : Nat) = 128 from rfl,
    digits_def' (by decide) pos, length_cons, putTagRounds, isEmpty_nil, if_pos rfl,
    or_zero, show tag &&& 0x7f = tag % 128 from and_two_pow_sub_one_eq_mod tag 7,
    shiftRight_eq_div_pow]
  exact putTagRounds_more _ _ _ _ rfl

theorem getTagRounds_takes (octet : UInt8) (p : List UInt8) (n len : Nat)
    (more : follows octet = true) (small : len * 128 + octet.toNat % 128 ≤ intMax >>> 7) :
    getTagRounds (octet :: p) (n + 1 + 1) len =
      getTagRounds p (n + 1) (len * 128 + octet.toNat % 128) := by
  rw [getTagRounds, read_digit, if_neg (by omega), if_pos ((octet_masks octet).1.mpr more),
    if_neg (not_lt.mpr small)]
  rfl

/-- The high-tag octets of a tag, with an octet behind them, read back. -/
theorem getTagRounds_encode (int : tag ≤ intMax) (p : List UInt8) (max : Nat)
    (room : (encode tag).length < max) :
    getTagRounds (encode tag ++ p) max 0 = some (tag, max - (encode tag).length, p) := by
  have low : tag % 128 < 128 := mod_lt _ (by decide)
  have whole : tag / 128 * 128 + tag % 128 = tag := div_add_mod' tag 128
  have top : intMax >>> 7 = intMax / 128 := shiftRight_eq_div_pow _ 7
  have small : tag / 128 ≤ intMax >>> 7 := by
    rw [top]
    exact Nat.div_le_div_right int
  rw [encode, length_append, length_singleton] at room
  obtain ⟨n, rfl⟩ : ∃ n, max = n + 1 + (more (tag / 128)).length + 1 :=
    ⟨max - (more (tag / 128)).length - 2, by omega⟩
  have above := read_more (fun p n len => getTagRounds p (n + 1) len)
    getTagRounds_takes (tag / 128) small (ofNat (tag % 128) :: p) (n + 1)
  rw [encode, append_assoc, singleton_append, above, getTagRounds, read_digit,
    octet_last low, mod_mod, whole]
  have done : ¬ (ofNat (tag % 128)).toNat &&& 0x80 ≠ 0 := by
    rw [(octet_masks _).1, follows_last low]
    decide
  rw [octet_last low] at done
  rw [if_neg (by omega), if_neg done, length_append, length_singleton]
  congr 2
  exact Prod.ext (by dsimp only; omega) rfl

theorem skipZeroes_value (i : Nat) (p : List UInt8) (inside : i ≤ p.length) :
    (skipZeroes i p).1 ≤ i ∧
      netValue ((skipZeroes i p).2.take (skipZeroes i p).1) = netValue (p.take i) ∧
      (skipZeroes i p).2.drop (skipZeroes i p).1 = p.drop i := by
  induction i generalizing p with
  | zero => simp [skipZeroes]
  | succ i ih =>
    cases p with
    | nil => simp at inside
    | cons octet p =>
      rw [skipZeroes]
      by_cases zero : octet = 0
      · subst zero
        obtain ⟨fewer, value, rest⟩ := ih p (by simpa using inside)
        rw [if_pos rfl]
        refine ⟨by omega, ?_, rest⟩
        rw [value, take_succ_cons, netValue_cons]
        simp
      · rw [if_neg zero]
        exact ⟨le_refl _, rfl, rfl⟩

theorem lengthOctets {length : Nat} (int : length ≤ intMax) :
    shiftCount 8 intBits length = (digits 256 length).length ∧
      (digits 256 length).length ≤ 4 ∧
      netValue (netBytes (digits 256 length).length length) = length := by
  have bound : length < 2 ^ intBits := lt_of_le_of_lt int (by decide)
  have four : length < 256 ^ 4 := lt_of_le_of_lt int (by decide)
  refine ⟨shiftCount_eq (by decide) bound, (digits_length_le_iff (by decide) _).mpr four, ?_⟩
  rw [netValue_netBytes, pow_mul]
  exact mod_eq_of_lt (lt_base_pow_length_digits (by decide))

/-- The length octets, with the contents behind them, read back. -/
theorem getLength_putLength {length : Nat} (int : length ≤ intMax) (p : List UInt8) {max : Nat}
    (room : (asn1PutLength length).length + length ≤ max) :
    asn1GetLength (asn1PutLength length ++ p) max = some ⟨false, length, p⟩ := by
  unfold asn1PutLength at room ⊢
  by_cases short : length ≤ 127
  · have low : length < 128 := by omega
    have octet := octet_last low
    have plain : ofNat length ≠ 0x80 := by
      intro is
      have := congrArg toNat is
      rw [octet, show (0x80 : UInt8).toNat = 128 from rfl] at this
      omega
    have last : ¬ (ofNat length).toNat &&& 0x80 ≠ 0 := by
      rw [(octet_masks _).1, follows_last low]
      decide
    have value : (ofNat length).toNat &&& 0x7f = length := by
      rw [(octet_masks _).2, octet, mod_eq_of_lt low]
    rw [if_pos short] at room ⊢
    rw [length_singleton] at room
    rw [singleton_append, asn1GetLength, if_neg (by omega)]
    rw [if_neg plain, if_neg last, value]
  · obtain ⟨count, four, value⟩ := lengthOctets int
    rw [if_neg short] at room ⊢
    rw [count] at room ⊢
    generalize counted : (digits 256 length).length = i at room four value ⊢
    have some : 0 < i := by
      rw [← counted]
      apply length_pos_iff.mpr
      apply digits_ne_nil_iff_ne_zero.mpr
      omega
    have low : i < 128 := by omega
    have tagged : i ||| 0x80 = i + 128 := by
      have bit := shifted_or (i := 7) low 1
      rw [show (1 <<< 7 : Nat) = 0x80 from rfl] at bit
      rw [Nat.or_comm]
      omega
    have octet := octet_more low
    have plain : ofNat (i + 128) ≠ 0x80 := by
      intro is
      have := congrArg toNat is
      rw [octet, show (0x80 : UInt8).toNat = 128 from rfl] at this
      omega
    have more : (ofNat (i + 128)).toNat &&& 0x80 ≠ 0 := by
      rw [(octet_masks _).1]
      exact follows_more low
    have digits : (ofNat (i + 128)).toNat &&& 0x7f = i := by
      rw [(octet_masks _).2, octet]
      omega
    have width : i = (netBytes i length).length := (netBytes_length i length).symm
    obtain ⟨fewer, same, rest⟩ := skipZeroes_value i (netBytes i length ++ p) (by simp)
    have read : (netBytes i length ++ p).take i = netBytes i length := by
      nth_rewrite 1 [width]
      exact take_left
    have behind : (netBytes i length ++ p).drop i = p := by
      nth_rewrite 1 [width]
      exact drop_left
    have limit : intMax ≤ longMax := by decide
    rw [read, value] at same
    rw [behind] at rest
    dsimp only
    rw [tagged, cons_append, asn1GetLength, if_neg (by omega)]
    rw [if_neg plain, if_pos more, digits, if_neg (by omega), if_neg (by omega), same, rest,
      if_neg (by omega)]

def firstOctet (constructed xclass low : Nat) : UInt8 :=
  UInt8.ofNat (((if constructed ≠ 0 then vAsn1Constructed else 0) ||| (xclass &&& vAsn1Private)) |||
    (low &&& vAsn1PrimitiveTag))

variable (constructed xclass : Nat)

theorem firstOctet_masks (low : Nat) :
    (firstOctet constructed xclass low).toNat &&& vAsn1Constructed =
        (if constructed ≠ 0 then vAsn1Constructed else 0) ∧
      (firstOctet constructed xclass low).toNat &&& vAsn1Private = xclass &&& vAsn1Private ∧
      (firstOctet constructed xclass low).toNat &&& vAsn1PrimitiveTag = low % 32 := by
  have high : xclass &&& vAsn1Private < 2 ^ 8 := lt_of_le_of_lt and_le_right (by decide)
  have small : low &&& vAsn1PrimitiveTag < 2 ^ 8 := lt_of_le_of_lt and_le_right (by decide)
  have bit : (if constructed ≠ 0 then vAsn1Constructed else 0) < 2 ^ 8 := by split <;> decide
  have modulus : low % 32 = low &&& vAsn1PrimitiveTag := (and_two_pow_sub_one_eq_mod low 5).symm
  rw [firstOctet, toNat_ofNat',
    mod_eq_of_lt (or_lt_two_pow (or_lt_two_pow bit high) small), modulus]
  simp only [vAsn1Constructed, vAsn1Private, vAsn1PrimitiveTag]
  split
  · simp [and_or_distrib_right, Nat.and_assoc]
  · simp [and_or_distrib_right, Nat.and_assoc]

def identifierOctets (constructed tag xclass : Nat) : List UInt8 :=
  if tag < 31 then [firstOctet constructed xclass tag]
  else firstOctet constructed xclass 31 :: encode tag

theorem putObject_eq (length xclass : Nat) (int : tag ≤ intMax) :
    asn1PutObject constructed length tag xclass = identifierOctets constructed tag xclass ++
      if constructed = 2 then [0x80] else asn1PutLength length := by
  unfold asn1PutObject identifierOctets
  dsimp only
  congr 1
  by_cases low : tag < 31
  · rw [if_pos low, if_pos low]
    rfl
  · rw [if_neg low, if_neg low, putTagRounds_encode (by omega) int]
    rfl

theorem identifier_length (int : tag ≤ intMax) : (identifierOctets constructed tag xclass).length =
      1 + if 31 ≤ tag then shiftCount 7 intBits tag else 0 := by
  have bound : tag < 2 ^ intBits := lt_of_le_of_lt int (by decide)
  unfold identifierOctets
  by_cases low : tag < 31
  · rw [if_pos low, if_neg (by omega : ¬ 31 ≤ tag)]
    rfl
  · rw [if_neg low, if_pos (by omega : 31 ≤ tag), length_cons, encode_length (by omega),
      shiftCount_eq (by decide) bound, add_comm]
    rfl

theorem putLength_length (length : Nat) :
    (asn1PutLength length).length =
      1 + if 127 < length then shiftCount 8 intBits length else 0 := by
  unfold asn1PutLength
  by_cases short : length ≤ 127
  · rw [if_pos short, if_neg (by omega : ¬ 127 < length)]
    rfl
  · rw [if_neg short, if_pos (by omega : 127 < length), length_cons, netBytes_length, add_comm]

/-- The octets of the tag, with more behind them, read back. -/
theorem getTag_identifier (int : tag ≤ intMax) (p : List UInt8) {max : Nat}
    (room : (identifierOctets constructed tag xclass).length < max) :
    ∃ low rest, identifierOctets constructed tag xclass ++ p =
        firstOctet constructed xclass low :: rest ∧
      asn1GetTag (firstOctet constructed xclass low) rest max =
        some (tag, max - (identifierOctets constructed tag xclass).length, p) := by
  have full : (31 : Nat) = vAsn1PrimitiveTag := rfl
  unfold identifierOctets at room ⊢
  by_cases low : tag < 31
  · rw [if_pos low] at room ⊢
    rw [length_singleton] at room
    refine ⟨tag, p, rfl, ?_⟩
    rw [asn1GetTag, (firstOctet_masks constructed xclass tag).2.2, mod_eq_of_lt (by omega),
      if_neg (by omega), if_neg (by omega)]
    rfl
  · rw [if_neg low] at room ⊢
    rw [length_cons] at room
    refine ⟨31, encode tag ++ p, rfl, ?_⟩
    rw [asn1GetTag, (firstOctet_masks constructed xclass 31).2.2, if_neg (by omega),
      if_pos (by decide), getTagRounds_encode int p (max - 1) (by omega),
      length_cons, Nat.sub_sub, add_comm 1]

theorem objectSize_eq (length xclass : Nat) (int : tag ≤ intMax) :
    asn1ObjectSize constructed length tag =
      let ret := (identifierOctets constructed tag xclass).length +
        if constructed = 2 then 3 else (asn1PutLength length).length
      if (intMax : Int) - length ≤ ret then -1 else (ret : Int) + length := by
  have long : 127 < (length : Int) ↔ 127 < length := by omega
  rw [identifier_length constructed xclass int, putLength_length, asn1ObjectSize, if_neg (by omega)]
  simp only [long, Int.toNat_natCast]

def vAsn1Universal : Nat := 0x00
def vAsn1Application : Nat := 0x40
def vAsn1ContextSpecific : Nat := 0x80

/-- What ASN1_put_object writes has the size that ASN1_object_size gives, and
    ASN1_get_object reads the same object from it. -/
theorem asn1_header_round_trip (constructed length tag xclass : Nat) (int : tag ≤ intMax)
    (fits : asn1ObjectSize constructed length tag ≠ -1) :
    ((asn1PutObject constructed length tag xclass).length : Int) + length +
        (if constructed = 2 then asn1PutEoc.length else 0 : Nat) =
      asn1ObjectSize constructed length tag ∧
    ∀ contents rest : List UInt8, contents.length = length →
      let pp := asn1PutObject constructed length tag xclass ++ (contents ++ rest)
      asn1GetObject pp pp.length =
        ((if constructed ≠ 0 then vAsn1Constructed else 0) ||| (if constructed = 2 then 1 else 0),
          some
            { length := if constructed = 2 then 0 else length
              tag
              xclass := xclass &&& vAsn1Private
              p := contents ++ rest }) ∧
        (xclass ∈ [vAsn1Universal, vAsn1Application, vAsn1ContextSpecific, vAsn1Private] →
          xclass &&& vAsn1Private = xclass) := by
  have put := putObject_eq constructed length xclass int
  have one : 1 ≤ (asn1PutLength length).length := by
    rw [putLength_length]
    exact Nat.le_add_right _ _
  rw [objectSize_eq constructed length xclass int] at fits ⊢
  generalize widths : (identifierOctets constructed tag xclass).length +
    (if constructed = 2 then 3 else (asn1PutLength length).length) = ret at fits ⊢
  by_cases large : (intMax : Int) - length ≤ ret
  · rw [if_pos large] at fits
    exact absurd rfl fits
  rw [if_neg large, put, length_append]
  constructor
  · by_cases indefinite : constructed = 2
    · rw [if_pos indefinite] at widths
      rw [if_pos indefinite, if_pos indefinite, ← widths]
      simp only [asn1PutEoc, length_cons, length_nil]
      omega
    · rw [if_neg indefinite] at widths
      rw [if_neg indefinite, if_neg indefinite, ← widths]
      omega
  · intro contents rest whole
    rw [append_assoc]
    generalize parts : identifierOctets constructed tag xclass ++
      ((if constructed = 2 then [0x80] else asn1PutLength length) ++ (contents ++ rest)) = pp
    have size := congrArg List.length parts
    rw [length_append, length_append, length_append] at size
    have some_ : 1 ≤ (if constructed = 2 then [0x80] else asn1PutLength length).length := by
      split
      · exact Nat.le_refl _
      · exact one
    obtain ⟨low, p, first, got⟩ := getTag_identifier constructed xclass int
      ((if constructed = 2 then [0x80] else asn1PutLength length) ++ (contents ++ rest))
      (by omega : (identifierOctets constructed tag xclass).length < pp.length)
    obtain ⟨bit, group, _⟩ := firstOctet_masks constructed xclass low
    have nonempty : decide ((pp.length : Int) ≤ 0) = false := decide_eq_false (by omega)
    have classes : xclass ∈ [vAsn1Universal, vAsn1Application, vAsn1ContextSpecific,
        vAsn1Private] → xclass &&& vAsn1Private = xclass := by
      intro member
      simp only [mem_cons, not_mem_nil, or_false] at member
      rcases member with rfl | rfl | rfl | rfl <;> decide
    refine ⟨?_, classes⟩
    rw [parts] at first
    subst first
    unfold asn1GetObject
    rw [nonempty]
    dsimp only
    rw [bit, group, Int.toNat_natCast, got]
    generalize firstOctet constructed xclass low :: p = pp at size
    by_cases indefinite : constructed = 2
    · have inside : ¬ ((pp.length : Int) - ((pp.length - (contents ++ rest).length : Nat) : Int) <
          ((0 : Nat) : Int)) := by
        omega
      simp only [if_pos indefinite, length_singleton] at size ⊢
      rw [singleton_append, asn1GetLength, if_neg (by omega)]
      subst indefinite
      rw [if_pos rfl]
      dsimp only
      rw [if_neg (by decide), if_neg inside]
      rfl
    · have inside : ¬ ((pp.length : Int) - ((pp.length - (contents ++ rest).length : Nat) : Int) <
          (length : Int)) := by
        rw [length_append]
        omega
      simp only [if_neg indefinite] at size ⊢
      rw [getLength_putLength (by omega) (contents ++ rest) (by omega)]
      dsimp only
      rw [if_neg (by simp), if_neg inside]
      rfl

theorem asn1_header_round_trip_high :
    ((asn1PutObject 1 300 intMax vAsn1ContextSpecific).length : Int) + 300 +
        (if 1 = 2 then asn1PutEoc.length else 0 : Nat) =
      asn1ObjectSize 1 300 intMax ∧
    ∀ contents rest : List UInt8, contents.length = 300 →
      let pp := asn1PutObject 1 300 intMax vAsn1ContextSpecific ++ (contents ++ rest)
      asn1GetObject pp pp.length =
        (vAsn1Constructed,
          some
            { length := 300, tag := intMax, xclass := vAsn1ContextSpecific
              p := contents ++ rest }) ∧
        (vAsn1ContextSpecific ∈
            [vAsn1Universal, vAsn1Application, vAsn1ContextSpecific, vAsn1Private] →
          vAsn1ContextSpecific &&& vAsn1Private = vAsn1ContextSpecific) :=
  asn1_header_round_trip 1 300 intMax vAsn1ContextSpecific (Nat.le_refl _) (by decide)

end Ossl
