import OpenSSL.Asn1.Asn1Lib
import OpenSSL.Lib.Decimal
import OpenSSL.Lib.RingWindow
import OpenSSL.Word
import Mathlib.Data.Nat.Size

/- Object identifiers: a2d_ASN1_OBJECT and ossl_c2i_ASN1_OBJECT of crypto/asn1/a_object.c and
   OBJ_obj2txt of crypto/objects/obj_dat.c. A BIGNUM is a number. -/
namespace Ossl
open Base128 BigEndian Decimal RingWindow

/- An arc that is being read: its value is in l as long as useBn is not set, in bl after. c is the
   last character read. -/
structure A2dArc where
  l : Nat
  useBn : Bool
  bl : Nat
  c : UInt8

def space : UInt8 := 32
def dot : UInt8 := 46

def osslIsdigit (c : UInt8) : Bool := decide (48 ≤ c.toNat ∧ c.toNat ≤ 57)

def a2dDigit (arc : A2dArc) (c : UInt8) : A2dArc :=
  let start := !arc.useBn && decide ((maxU64 - 80) / 10 ≤ arc.l)
  let bl := if start then arc.l else arc.bl
  if arc.useBn || start then ⟨arc.l, true, bl * 10 + (c.toNat - 48), c⟩
  else ⟨addU64 (mulU64 arc.l 10) (c.toNat - 48), false, bl, c⟩

def a2dArcRounds : List UInt8 → A2dArc → Option (A2dArc × List UInt8)
  | [], arc => some (arc, [])
  | c :: p, arc =>
    if c = space ∨ c = dot then some ({ arc with c := c }, p)
    else if osslIsdigit c = false then none
    else a2dArcRounds p (a2dDigit arc c)

/- An unsigned long has no more digits of seven bits. -/
def wordDigits : Nat := 10

def wordTmp : Nat → Nat → List UInt8
  | 0, _ => []
  | fuel + 1, l => UInt8.ofNat (l &&& 0x7f) :: if l >>> 7 = 0 then [] else wordTmp fuel (l >>> 7)

def bnTmp : Nat → Nat → List UInt8
  | 0, _ => []
  | blsize + 1, bl => UInt8.ofNat (bl % 0x80) :: bnTmp blsize (bl / 0x80)

def tmpOctets (tmp : List UInt8) : List UInt8 := tmp.tail.reverse.map (· ||| 0x80) ++ [tmp.headD 0]

def a2dFirst (first : Nat) (arc : A2dArc) : A2dArc :=
  if arc.useBn then { arc with bl := arc.bl + first * 40 }
  else { arc with l := addU64 arc.l (first * 40) }

def a2dTmp (arc : A2dArc) : List UInt8 :=
  if arc.useBn then bnTmp ((arc.bl.size + 6) / 7) arc.bl else wordTmp wordDigits arc.l

def a2dRounds (olen : Option Nat) (first : Nat) :
    Nat → UInt8 → List UInt8 → List UInt8 → Option (List UInt8)
  | 0, _, _, out => some out
  | fuel + 1, c, p, out =>
    if p = [] then some out
    else if c ≠ dot ∧ c ≠ space then none
    else
      match a2dArcRounds p ⟨0, false, 0, c⟩ with
      | none => none
      | some (arc, p) =>
        if out = [] ∧ first < 2 ∧ 40 ≤ arc.l then none
        else
          let tmp := a2dTmp (if out = [] then a2dFirst first arc else arc)
          if ∃ n ∈ olen, n < out.length + tmp.length then none
          else a2dRounds olen first fuel arc.c p (out ++ tmpOctets tmp)

def a2dText (olen : Option Nat) : List UInt8 → Option (List UInt8)
  | [] => none
  | c :: p =>
    if ¬ (48 ≤ c.toNat ∧ c.toNat ≤ 50) then none
    else
      match p with
      | [] => none
      | sep :: p => a2dRounds olen (c.toNat - 48) p.length sep p []

def cString (buf : List UInt8) : List UInt8 := buf.takeWhile (· ≠ 0)

/- None stands for an error. Where out is NULL there is no olen, and the octets are only counted. -/
def a2dAsn1Object (olen : Option Nat) (buf : List UInt8) (num : Int) : Option (List UInt8) :=
  if num = 0 then some []
  else if num = -1 then
    if intMax ≤ (cString buf).length then none else a2dText olen (cString buf)
  else a2dText olen (buf.take num.toNat)

def c2iScan : Bool → List UInt8 → Bool
  | _, [] => true
  | start, c :: p => if c = 0x80 ∧ start then false else c2iScan (c.toNat &&& 0x80 == 0) p

def osslC2iAsn1Object (registered : List UInt8 → Bool) (contents : List UInt8) :
    Option (List UInt8) :=
  if contents.length = 0 ∨ intMax < contents.length ∨
      (contents.getLastD 0).toNat &&& 0x80 ≠ 0 then none
  else if registered contents then some contents
  else if c2iScan true contents then some contents
  else none

/- A buffer that is being filled: the place of the next character and how much is left. -/
structure TxtBuf where
  present : Bool
  mem : Nat → UInt8
  pos : Nat
  left : Nat

def opensslStrlcpy (mem : Nat → UInt8) (dst : Nat) (src : List UInt8) (size : Nat) : Nat → UInt8 :=
  if size = 0 then mem else writeCells mem dst (src.take (size - 1) ++ [0])

def txtChar (b : TxtBuf) (c : UInt8) : TxtBuf :=
  if b.present = true ∧ 1 < b.left then
    ⟨b.present, writeCells b.mem b.pos [c, 0], b.pos + 1, b.left - 1⟩
  else b

def txtCopy (b : TxtBuf) (s : List UInt8) : TxtBuf :=
  let mem := opensslStrlcpy b.mem b.pos s b.left
  if b.left < s.length then ⟨b.present, mem, b.pos + b.left, 0⟩
  else ⟨b.present, mem, b.pos + s.length, b.left - s.length⟩

/- The octets of one arc, and what is left: the word, whether the number took over, the number. -/
def subidRounds : List UInt8 → Nat → Bool → Nat → Option ((Nat × Bool × Nat) × List UInt8)
  | [], _, _, _ => none
  | c :: p, l, useBn, bl =>
    if p = [] ∧ c.toNat &&& 0x80 ≠ 0 then none
    else
      let bl := if useBn then bl + (c.toNat &&& 0x7f) else bl
      let l := if useBn then l else l ||| (c.toNat &&& 0x7f)
      if c.toNat &&& 0x80 = 0 then some ((l, useBn, bl), p)
      else
        let start := !useBn && decide (maxU64 >>> 7 < l)
        let bl := if start then l else bl
        if useBn || start then subidRounds p l true (bl <<< 7)
        else subidRounds p ((l <<< 7) % 2 ^ 64) false bl

def splitFirst (l : Nat) (useBn : Bool) (bl : Nat) : Nat × Nat × Nat :=
  if 80 ≤ l then (2, if useBn then (l, bl - 80) else (l - 80, bl))
  else (l / 40, l - l / 40 * 40, bl)

def obj2txtRounds : Nat → List UInt8 → Bool → TxtBuf → Nat → Int × TxtBuf
  | 0, _, _, b, n => (n, b)
  | fuel + 1, p, first, b, n =>
    if p = [] then (n, b)
    else
      match subidRounds p 0 false 0 with
      | none => (-1, b)
      | some ((l, useBn, bl), p) =>
        let split := if first then splitFirst l useBn bl else (0, l, bl)
        let b := if first then txtChar b (UInt8.ofNat (split.1 + 48)) else b
        let n := if first then n + 1 else n
        if useBn then
          let bndec := decimal split.2.2
          let b := if b.present then txtCopy (txtChar b dot) bndec else b
          obj2txtRounds fuel p false b (n + 1 + bndec.length)
        else
          let tbuf := dot :: decimal split.2.1
          let b := if b.present = true ∧ 0 < b.left then txtCopy b tbuf else b
          obj2txtRounds fuel p false b (n + tbuf.length)

def objObj2txt (name : List UInt8 → Option (List UInt8)) (buf : Option (Nat → UInt8))
    (bufLen : Nat) (a : Option (List UInt8)) (noName : Bool) : Int × TxtBuf :=
  let b : TxtBuf := ⟨buf.isSome, buf.getD fun _ => 0, 0, bufLen⟩
  let b := if b.present = true ∧ 0 < bufLen then { b with mem := writeCells b.mem 0 [0] } else b
  match a with
  | none => (0, b)
  | some data =>
    match if noName then none else name data with
    | some s => (s.length, if b.present then { b with mem := opensslStrlcpy b.mem 0 s bufLen } else b)
    | none => if 586 < data.length then (-1, b) else obj2txtRounds data.length data true b 0

end Ossl
