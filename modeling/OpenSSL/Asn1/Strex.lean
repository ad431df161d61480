import Mathlib.Data.List.Basic
import Mathlib.Tactic.Common

/- Strings of crypto/asn1 and their conversion to UTF-8. -/
namespace Ossl

structure Asn1Text where
  type : Nat
  data : List UInt8
  deriving DecidableEq

def vOctetString : Nat := 4
def vUtf8String : Nat := 12
def vIa5String : Nat := 22

def isUnicodeSurrogate (value : Nat) : Bool := decide (0xd800 ≤ value ∧ value ≤ 0xdfff)

def isUnicodeValid (value : Nat) : Bool := decide (value ≤ 0x10ffff) && !isUnicodeSurrogate value

def isTrail (c : UInt8) : Bool := c &&& 0xc0 == 0x80

def utf8Getc : List UInt8 → Option (Nat × List UInt8)
  | [] => none
  | p :: rest =>
    if p &&& 0x80 = 0 then some ((p &&& 0x7f).toNat, rest)
    else if p &&& 0xe0 = 0xc0 then
      match rest with
      | p1 :: rest =>
        let value := (p &&& 0x1f).toNat * 64 + (p1 &&& 0x3f).toNat
        if !isTrail p1 || decide (value < 0x80) then none else some (value, rest)
      | _ => none
    else if p &&& 0xf0 = 0xe0 then
      match rest with
      | p1 :: p2 :: rest =>
        let value := ((p &&& 0xf).toNat * 64 + (p1 &&& 0x3f).toNat) * 64 + (p2 &&& 0x3f).toNat
        if !(isTrail p1 && isTrail p2) || decide (value < 0x800) || isUnicodeSurrogate value then
          none
        else some (value, rest)
      | _ => none
    else if p &&& 0xf8 = 0xf0 then
      match rest with
      | p1 :: p2 :: p3 :: rest =>
        let value := (((p &&& 0x7).toNat * 64 + (p1 &&& 0x3f).toNat) * 64 +
          (p2 &&& 0x3f).toNat) * 64 + (p3 &&& 0x3f).toNat
        if !(isTrail p1 && isTrail p2 && isTrail p3) || decide (value < 0x10000) then none
        else some (value, rest)
      | _ => none
    else none

def utf8Byte (lead value : Nat) : UInt8 := UInt8.ofNat (lead + value)

def utf8Putc (value : Nat) : Option (List UInt8) :=
  if value < 0x80 then some [UInt8.ofNat value]
  else if value < 0x800 then
    some [utf8Byte 0xc0 (value / 64 % 32), utf8Byte 0x80 (value % 64)]
  else if value < 0x10000 then
    if isUnicodeSurrogate value then none
    else
      some [utf8Byte 0xe0 (value / 4096 % 16), utf8Byte 0x80 (value / 64 % 64),
        utf8Byte 0x80 (value % 64)]
  else if value < 0x110000 then
    some [utf8Byte 0xf0 (value / 262144 % 8), utf8Byte 0x80 (value / 4096 % 64),
      utf8Byte 0x80 (value / 64 % 64), utf8Byte 0x80 (value % 64)]
  else none

/- The forms a string can be read in. -/
inductive Mbstring
  | utf8
  | asc
  | bmp
  | univ
  deriving DecidableEq

def tag2nbyte (type : Nat) : Option Mbstring :=
  if type = 12 then some .utf8
  else if type ∈ [18, 19, 20, 22, 23, 24, 26] then some .asc
  else if type = 28 then some .univ
  else if type = 30 then some .bmp
  else none

def utf8Codes : Nat → List UInt8 → Option (List Nat)
  | _, [] => some []
  | 0, _ => none
  | rounds + 1, p :: rest =>
    match utf8Getc (p :: rest) with
    | none => none
    | some (value, rest) => (utf8Codes rounds rest).map (value :: ·)

def bmpCodes : List UInt8 → Option (List Nat)
  | [] => some []
  | a :: b :: rest => (bmpCodes rest).map ((a.toNat * 256 + b.toNat) :: ·)
  | [_] => none

def univCodes : List UInt8 → Option (List Nat)
  | [] => some []
  | a :: b :: c :: d :: rest =>
    (univCodes rest).map ((((a.toNat * 256 + b.toNat) * 256 + c.toNat) * 256 + d.toNat) :: ·)
  | _ => none

def traverseString (inform : Mbstring) (p : List UInt8) : Option (List Nat) :=
  match inform with
  | .utf8 => utf8Codes p.length p
  | .asc => some (p.map UInt8.toNat)
  | .bmp => bmpCodes p
  | .univ => univCodes p

def asn1MbstringCopy (input : List UInt8) (inform : Mbstring) : Option (List UInt8) :=
  match traverseString inform input with
  | none => none
  | some values =>
    if values.all isUnicodeValid = false then none
    else if inform = .utf8 then some input
    else (values.mapM utf8Putc).map List.flatten

def asn1StringToUtf8 (str : Asn1Text) : Option (List UInt8) :=
  match tag2nbyte str.type with
  | none => none
  | some inform => asn1MbstringCopy str.data inform

theorem utf8Putc_byte (c : UInt8) : ∃ out, utf8Putc c.toNat = some out := by
  have small := c.toNat_lt
  unfold utf8Putc
  split
  · exact ⟨_, rfl⟩
  · rw [if_pos (by omega)]
    exact ⟨_, rfl⟩

theorem mapM_bytes (p : List UInt8) : ∃ outs, (p.map UInt8.toNat).mapM utf8Putc = some outs := by
  induction p with
  | nil => exact ⟨[], rfl⟩
  | cons c rest ih =>
    obtain ⟨out, first⟩ := utf8Putc_byte c
    obtain ⟨outs, others⟩ := ih
    exact ⟨out :: outs, by simp [List.mapM_cons, first, others]⟩

theorem ia5_to_utf8 {str : Asn1Text} (ia5 : str.type = vIa5String) :
    ∃ out, asn1StringToUtf8 str = some out := by
  obtain ⟨outs, copied⟩ := mapM_bytes str.data
  have valid : (str.data.map UInt8.toNat).all isUnicodeValid = true := by
    rw [List.all_eq_true]
    intro value mem
    obtain ⟨c, _, rfl⟩ := List.mem_map.mp mem
    have small := c.toNat_lt
    simp [isUnicodeValid, isUnicodeSurrogate]
    omega
  refine ⟨outs.flatten, ?_⟩
  simp [asn1StringToUtf8, ia5, vIa5String, tag2nbyte, asn1MbstringCopy, traverseString, valid,
    copied]

end Ossl
