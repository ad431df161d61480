import Mathlib.Logic.Function.Basic
import OpenSSL.ConstantTime

/- The padding and the MAC of a decrypted record, removed without a branch on either. -/
namespace Ossl
open UInt64

def evpMaxMdSize : UInt64 := 64

/- The bytes from rotated_mac on; those the code does not set are whatever the stack has. -/
abbrev MacBuf := Nat → UInt8

def recByte (recdata : List UInt8) (i : UInt64) : UInt8 := recdata.getD i.toNat 0

def padCheck (recdata : List UInt8) (reclen paddingLength : UInt64) (good : UInt64) (i : Nat) :
    UInt64 :=
  let mask := constantTimeGe8S paddingLength (ofNat i)
  let b := recByte recdata (reclen - 1 - ofNat i)
  good &&& ~~~(mask.toUInt64 &&& (paddingLength ^^^ b.toUInt64))

structure MacScan where
  inMac : UInt64
  rotateOffset : UInt64
  j : UInt64
  rotatedMac : MacBuf

def macScan (recdata : List UInt8) (macStart macEnd macSize : UInt64) (s : MacScan) (i : Nat) :
    MacScan :=
  let macStarted := constantTimeEqS (ofNat i) macStart
  let macEnded := constantTimeLtS (ofNat i) macEnd
  let b := recByte recdata (ofNat i)
  let inMac := (s.inMac ||| macStarted) &&& macEnded
  let rotateOffset := s.rotateOffset ||| (s.j &&& macStarted)
  let at_j := s.rotatedMac s.j.toNat ||| (b.toUInt64 &&& inMac).toUInt8
  let j := s.j + 1
  ⟨inMac, rotateOffset, j &&& constantTimeLtS j macSize,
    Function.update s.rotatedMac s.j.toNat at_j⟩

def macByte (rotatedMac randmac : MacBuf) (good rotateOffset : UInt64) (i : Nat) : UInt8 :=
  let aux1 := rotatedMac (rotateOffset &&& ~~~32).toNat
  let aux2 := rotatedMac (rotateOffset ||| 32).toNat
  let mask := constantTimeEq8 (rotateOffset &&& ~~~32).toUInt32 rotateOffset.toUInt32
  let aux3 := constantTimeSelect8 mask aux1 aux2
  constantTimeSelect8 (good &&& 0xff).toUInt8 aux3 (randmac i)

def macRotate (rotatedMac randmac : MacBuf) (good macSize : UInt64) :
    Nat → Nat → UInt64 → List UInt8
  | 0, _, _ => []
  | n + 1, i, rotateOffset =>
    let next := rotateOffset + 1
    macByte rotatedMac randmac good rotateOffset i ::
      macRotate rotatedMac randmac good macSize n (i + 1) (next &&& constantTimeLtS next macSize)

abbrev Removed := UInt64 × Option (List UInt8)

def ssl3CbcCopyMac (reclen origreclen : UInt64) (recdata : List UInt8)
    (blockSize macSize good : UInt64) (randmac : Option MacBuf) (stack : MacBuf) : Option Removed :=
  let macEnd := reclen
  let macStart := macEnd - macSize
  if ¬(origreclen ≥ macSize ∧ macSize ≤ evpMaxMdSize) then none
  else if macSize = 0 then if good = 0 then none else some (reclen, none)
  else
    let reclen := reclen - macSize
    if blockSize = 1 then some (reclen, some ((recdata.drop reclen.toNat).take macSize.toNat))
    else
      match randmac with
      | none => none
      | some randmac =>
        let scanStart :=
          if origreclen > macSize + 255 + 1 then origreclen - (macSize + 255 + 1) else 0
        let rotatedMac := fun x => if x < macSize.toNat then 0 else stack x
        let s := (List.range' scanStart.toNat (origreclen.toNat - scanStart.toNat)).foldl
          (macScan recdata macStart macEnd macSize) ⟨0, 0, 0, rotatedMac⟩
        some (reclen, some (macRotate s.rotatedMac randmac good macSize macSize.toNat 0
          s.rotateOffset))

def tls1CbcRemovePaddingAndMac (reclen origreclen : UInt64) (recdata : List UInt8)
    (blockSize macSize : UInt64) (aead : Bool) (randmac : Option MacBuf) (stack : MacBuf) :
    Option Removed :=
  let overhead := (if blockSize = 1 then 0 else 1) + macSize
  if overhead > reclen then none
  else if blockSize ≠ 1 then
    let paddingLength := (recByte recdata (reclen - 1)).toUInt64
    if aead then some (reclen - (paddingLength + 1 + macSize), none)
    else
      let good := constantTimeGeS reclen (overhead + paddingLength)
      let toCheck := if 256 > reclen then reclen else 256
      let good := (List.range toCheck.toNat).foldl (padCheck recdata reclen paddingLength) good
      let good := constantTimeEqS 0xff (good &&& 0xff)
      ssl3CbcCopyMac (reclen - (good &&& (paddingLength + 1))) origreclen recdata blockSize macSize
        good randmac stack
  else ssl3CbcCopyMac reclen origreclen recdata blockSize macSize (0 - 1) randmac stack

def PaddingGood (recdata : List UInt8) (macSize : Nat) : Prop :=
  let p := (recdata.getD (recdata.length - 1) 0).toNat
  macSize + p + 1 ≤ recdata.length ∧ ∀ b ∈ recdata.drop (recdata.length - (p + 1)), b.toNat = p

instance (recdata : List UInt8) (macSize : Nat) : Decidable (PaddingGood recdata macSize) :=
  inferInstanceAs (Decidable (_ ∧ _))

/- The straightforward way. Without blocks there is no padding, and without a MAC bad padding is
   a failure at once. -/
def removePlainly (recdata : List UInt8) (blockSize macSize : Nat) (randmac : MacBuf) :
    Option (Nat × Option (List UInt8)) :=
  let n := recdata.length
  let p := (recdata.getD (n - 1) 0).toNat
  let keep (left : Nat) :=
    some (left, if macSize = 0 then none else some ((recdata.drop left).take macSize))
  if 64 < macSize then none
  else if blockSize = 1 then if n < macSize then none else keep (n - macSize)
  else if n < macSize + 1 then none
  else if PaddingGood recdata macSize then keep (n - p - 1 - macSize)
  else if macSize = 0 then none
  else some (n - macSize, some ((List.range macSize).map randmac))

end Ossl
