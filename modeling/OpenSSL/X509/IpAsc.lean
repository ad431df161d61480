import OpenSSL.Lib.Decimal
import OpenSSL.X509.V3Utl

/- IP addresses as text, and text as IP addresses. -/
namespace Ossl

def colonChar : UInt8 := 0x3a

def peekChar (s : List UInt8) : UInt8 := s.headD 0

def getIpv4Component : List UInt8 → Nat → Option (UInt8 × List UInt8)
  | [], _ => none
  | c :: s, out =>
    if ¬(0x30 ≤ c ∧ c ≤ 0x39) then none
    else
      let out := out * 10 + (c.toNat - 0x30)
      if out > 255 then none
      else if peekChar s = dotChar ∨ peekChar s = 0 then some (UInt8.ofNat out, s)
      else if out = 0 then none
      else getIpv4Component s out

def getIpv4Dot (s : List UInt8) : Option (List UInt8) :=
  if peekChar s ≠ dotChar then none else some s.tail

def ipv4FromAsc (s : List UInt8) : Option (List UInt8) := do
  let (a, s) ← getIpv4Component s 0
  let s ← getIpv4Dot s
  let (b, s) ← getIpv4Component s 0
  let s ← getIpv4Dot s
  let (c, s) ← getIpv4Component s 0
  let s ← getIpv4Dot s
  let (d, s) ← getIpv4Component s 0
  if peekChar s ≠ 0 then none else some [a, b, c, d]

def hexchar2int (c : UInt8) : Option Nat :=
  if 0x30 ≤ c ∧ c ≤ 0x39 then some (c.toNat - 0x30)
  else if 0x61 ≤ c ∧ c ≤ 0x66 then some (c.toNat - 0x61 + 10)
  else if 0x41 ≤ c ∧ c ≤ 0x46 then some (c.toNat - 0x41 + 10)
  else none

/- inlen counts down to zero, where one below zero does not get within the range of an int. -/
def hexLoop : List UInt8 → Int → Nat → Option Nat
  | [], inlen, num => if inlen = 0 then some num else none
  | c :: s, inlen, num =>
    if inlen = 0 then some num
    else
      match hexchar2int c with
      | none => none
      | some x => hexLoop s (inlen - 1) ((num * 16 + x) % 2 ^ 32)

def ipv6Hex (s : List UInt8) (inlen : Int) : Option (List UInt8) :=
  if inlen > 4 then none
  else (hexLoop s inlen 0).map fun num => [UInt8.ofNat (num / 256), UInt8.ofNat num]

/- The bytes so far, total of them, with -1 as no position. -/
structure Ipv6Stat where
  tmp : List UInt8
  zeroPos : Option Nat
  zeroCnt : Nat

def ipv6Cb (elem : List UInt8) (len : Int) (s : Ipv6Stat) : Option Ipv6Stat :=
  let total := s.tmp.length
  if total = 16 then none
  else if len = 0 then
    match s.zeroPos with
    | none => some { s with zeroPos := some total, zeroCnt := s.zeroCnt + 1 }
    | some pos => if pos ≠ total then none else some { s with zeroCnt := s.zeroCnt + 1 }
  else if len > 4 then
    if total > 12 then none
    else if elem.getD len.toNat 0 ≠ 0 then none
    else (ipv4FromAsc elem).map fun bytes => { s with tmp := s.tmp ++ bytes }
  else (ipv6Hex elem len).map fun bytes => { s with tmp := s.tmp ++ bytes }

def memberStarts (sep : UInt8) : List UInt8 → List (List UInt8)
  | [] => []
  | c :: s => if c = sep then s :: memberStarts sep s else memberStarts sep s

def intOf (n : Nat) : Int :=
  if n % 2 ^ 32 < 2 ^ 31 then (n % 2 ^ 32 : Nat) else (n % 2 ^ 32 : Nat) - 2 ^ 32

def confMember {σ : Type} (sep : UInt8) (listCb : List UInt8 → Int → σ → Option σ) (arg : σ)
    (lstart : List UInt8) : Option σ :=
  let elem := lstart.takeWhile (· ≠ sep)
  if elem = [] then listCb [] 0 arg else listCb lstart (intOf elem.length) arg

def confParseList {σ : Type} (list : List UInt8) (sep : UInt8)
    (listCb : List UInt8 → Int → σ → Option σ) (arg : σ) : Option σ :=
  (list :: memberStarts sep list).foldlM (confMember sep listCb) arg

def ipv6FromAsc (s : List UInt8) : Option (List UInt8) :=
  match confParseList s colonChar ipv6Cb ⟨[], none, 0⟩ with
  | none => none
  | some stat =>
    let total := stat.tmp.length
    match stat.zeroPos with
    | none => if total ≠ 16 then none else some stat.tmp
    | some pos =>
      if total = 16 then none
      else if stat.zeroCnt > 3 then none
      else if stat.zeroCnt = 3 ∧ total > 0 then none
      else if stat.zeroCnt = 2 ∧ pos ≠ 0 ∧ pos ≠ total then none
      else if stat.zeroCnt ≤ 1 ∧ (pos = 0 ∨ pos = total) then none
      else some (stat.tmp.take pos ++ List.replicate (16 - total) 0 ++ stat.tmp.drop pos)

def a2iIpadd (ipasc : List UInt8) : Option (List UInt8) :=
  if colonChar ∈ ipasc then ipv6FromAsc ipasc else ipv4FromAsc ipasc

def hexUpper (d : Nat) : UInt8 := UInt8.ofNat (if d < 10 then 0x30 + d else 0x41 + (d - 10))

def hexNumeral (v : Nat) : List UInt8 :=
  if v = 0 then [hexUpper 0] else (Nat.digits 16 v).reverse.map hexUpper

def ipv6Groups : List UInt8 → List UInt8
  | a :: b :: c :: p => hexNumeral (a.toNat * 256 + b.toNat) ++ colonChar :: ipv6Groups (c :: p)
  | [a, b] => hexNumeral (a.toNat * 256 + b.toNat)
  | _ => []

/- The text for four or sixteen bytes; for others it says that the length is invalid. -/
def ipaddrToAsc (p : List UInt8) : Option (List UInt8) :=
  match p with
  | [a, b, c, d] => some (Decimal.decimal a.toNat ++ dotChar :: (Decimal.decimal b.toNat ++
      dotChar :: (Decimal.decimal c.toNat ++ dotChar :: Decimal.decimal d.toNat)))
  | _ => if p.length = 16 then some (ipv6Groups p) else none

end Ossl
