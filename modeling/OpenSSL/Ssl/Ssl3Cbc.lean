import OpenSSL.ConstantTime
import OpenSSL.Lib.MerkleDamgard

/- The MAC of a decrypted TLS record, without a branch on where its data ends. -/
namespace Ossl
open UInt64

inductive RecordMd
  | md5 | sha1 | sha224 | sha256 | sha384 | sha512
  deriving DecidableEq

namespace RecordMd

def mdSize : RecordMd → Nat
  | md5 => 16
  | sha1 => 20
  | sha224 => 28
  | sha256 => 32
  | sha384 => 48
  | sha512 => 64

def mdBlockSize : RecordMd → Nat
  | sha384 | sha512 => 128
  | _ => 64

def mdLengthSize : RecordMd → Nat
  | sha384 | sha512 => 16
  | _ => 8

def lengthIsBigEndian : RecordMd → Bool
  | md5 => false
  | _ => true

end RecordMd

/- The functions of a hash: the state is written out as finalRaw, of which the digest is a part. -/
structure MdFunctions (md : RecordMd) where
  State : Type
  init : State
  transform : State → List UInt8 → State
  finalRaw : State → List UInt8
  enough : ∀ s, md.mdSize ≤ (finalRaw s).length

def hashLength (md : RecordMd) (bits : Nat) : List UInt8 :=
  let bytes := (List.range md.mdLengthSize).map fun j => UInt8.ofNat (bits / 256 ^ j)
  if md.lengthIsBigEndian then bytes.reverse else bytes

def MdFunctions.scheme {md : RecordMd} (f : MdFunctions md) : MerkleDamgard.Scheme f.State where
  init := f.init
  compress := f.transform
  digest := fun s => (f.finalRaw s).take md.mdSize
  block := md.mdBlockSize
  lengthSize := md.mdLengthSize
  encode := hashLength md
  some_ := by cases md <;> decide
  encoded := by
    intro bits
    unfold hashLength
    dsimp only
    split <;> simp

def lengthBytes (md : RecordMd) (bits : Nat) : List UInt8 :=
  let bytes := [UInt8.ofNat (bits / 2 ^ 24), UInt8.ofNat (bits / 2 ^ 16),
    UInt8.ofNat (bits / 2 ^ 8), UInt8.ofNat bits]
  if md.lengthIsBigEndian then List.replicate (md.mdLengthSize - 4) 0 ++ bytes
  else List.replicate (md.mdLengthSize - 8) 0 ++ bytes.reverse ++ List.replicate 4 0

def readBytes (data : List UInt8) (offset n : Nat) : Option (List UInt8) :=
  if offset + n ≤ data.length then some ((data.drop offset).take n) else none

def constantTimeEq8S (a b : UInt64) : UInt8 := (constantTimeEqS a b).toUInt8

structure MacEnd where
  c : Nat
  indexA : Nat
  indexB : Nat
  lengthBytes : List UInt8

def macBlockByte (md : RecordMd) (e : MacEnd) (i j : Nat) (b : UInt8) : UInt8 :=
  let isBlockA := constantTimeEq8S (ofNat i) (ofNat e.indexA)
  let isBlockB := constantTimeEq8S (ofNat i) (ofNat e.indexB)
  let isPastC := isBlockA &&& constantTimeGe8S (ofNat j) (ofNat e.c)
  let isPastCp1 := isBlockA &&& constantTimeGe8S (ofNat j) (ofNat (e.c + 1))
  let b := constantTimeSelect8 isPastC 0x80 b
  let b := b &&& ~~~isPastCp1
  let b := b &&& (~~~isBlockB ||| isBlockA)
  if j ≥ md.mdBlockSize - md.mdLengthSize then
    constantTimeSelect8 isBlockB (e.lengthBytes.getD (j - (md.mdBlockSize - md.mdLengthSize)) 0) b
  else b

/- Byte k of the header and the data, or zero behind them; none is a read past their end. -/
def macRead (header data : List UInt8) (size k : Nat) : Option UInt8 :=
  if k < 13 then header[k]?
  else if k < size + 13 then data[k - 13]?
  else some 0

def macBlock (md : RecordMd) (e : MacEnd) (header data : List UInt8) (size k i : Nat) :
    Option (List UInt8) :=
  (List.range md.mdBlockSize).mapM fun j =>
    (macRead header data size (k + j)).map (macBlockByte md e i j)

def macBlocks {md : RecordMd} (f : MdFunctions md) (e : MacEnd) (header data : List UInt8)
    (size : Nat) : Nat → Nat → Nat → f.State → List UInt8 → Option (List UInt8)
  | 0, _, _, _, macOut => some macOut
  | n + 1, i, k, s, macOut =>
    match macBlock md e header data size k i with
    | none => none
    | some block =>
      let isBlockB := constantTimeEq8S (ofNat i) (ofNat e.indexB)
      let s := f.transform s block
      let raw := f.finalRaw s
      let block := raw ++ block.drop raw.length
      macBlocks f e header data size n (i + 1) (k + md.mdBlockSize) s
        (List.zipWith (fun out b => out ||| (b &&& isBlockB)) macOut (block.take md.mdSize))

def startingBlocks {md : RecordMd} (f : MdFunctions md) (header data : List UInt8) (blocks : Nat)
    (s : f.State) : Option f.State :=
  match readBytes header 0 13, readBytes data 0 (md.mdBlockSize - 13) with
  | some first, some rest =>
    (List.range' 1 (blocks - 1)).foldlM (fun s i =>
      (readBytes data (md.mdBlockSize * i - 13) md.mdBlockSize).map (f.transform s))
      (f.transform s (first ++ rest))
  | _, _ => none

def varianceBlocks (md : RecordMd) : Nat :=
  (255 + 1 + md.mdSize + md.mdBlockSize - 1) / md.mdBlockSize + 1

def ssl3CbcDigestRecord {md : RecordMd} (f : MdFunctions md) (header data : List UInt8)
    (dataSize size : Nat) (macSecret : List UInt8) : Option (List UInt8) :=
  if ¬size < 1024 * 1024 then none
  else
    let len := size + 13
    let maxMacBytes := len - md.mdSize - 1
    let numBlocks := (maxMacBytes + 1 + md.mdLengthSize + md.mdBlockSize - 1) / md.mdBlockSize
    let macEndOffset := dataSize + 13
    let numStartingBlocks :=
      if numBlocks > varianceBlocks md then numBlocks - varianceBlocks md else 0
    let k := md.mdBlockSize * numStartingBlocks
    if ¬macSecret.length ≤ 128 then none
    else
      let hmacPad :=
        ((macSecret ++ List.replicate md.mdBlockSize 0).take md.mdBlockSize).map (· ^^^ 0x36)
      let s := f.transform f.init hmacPad
      let e : MacEnd := ⟨macEndOffset % md.mdBlockSize, macEndOffset / md.mdBlockSize,
        (macEndOffset + md.mdLengthSize) / md.mdBlockSize,
        lengthBytes md (8 * macEndOffset + 8 * md.mdBlockSize)⟩
      match if k > 0 then startingBlocks f header data (k / md.mdBlockSize) s else some s with
      | none => none
      | some s =>
        match macBlocks f e header data size (varianceBlocks md + 1) numStartingBlocks k s
            (List.replicate md.mdSize 0) with
        | none => none
        | some macOut => some (f.scheme.hash (hmacPad.map (· ^^^ 0x6a) ++ macOut))

end Ossl
