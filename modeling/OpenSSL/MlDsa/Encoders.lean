import OpenSSL.Packet
import OpenSSL.Lib.LittleEndian

/- The encoding of ML-DSA signatures: the bytes of c tilde, the coefficients of z
   in 18 or 20 bits each, and the hint as the places of its ones. -/
namespace Ossl
open LittleEndian

def mlDsaQ : Nat := 8380417
def mlDsaNumPolyCoefficients : Nat := 256
def mlDsaGamma1TwoPower19 : Nat := 2 ^ 19
def mlDsaGamma1TwoPower17 : Nat := 2 ^ 17

inductive MlDsaAlg where
  | mlDsa44
  | mlDsa65
  | mlDsa87
  deriving DecidableEq

/-- The constants of an algorithm that the encoding of signatures reads. -/
structure MlDsaParams where
  lambda : Nat
  gamma1 : Nat
  k : Nat
  l : Nat
  omega : Nat
  sigLen : Nat

def MlDsaAlg.params : MlDsaAlg → MlDsaParams
  | .mlDsa44 => ⟨128, mlDsaGamma1TwoPower17, 4, 4, 80, 2420⟩
  | .mlDsa65 => ⟨192, mlDsaGamma1TwoPower19, 6, 5, 55, 3309⟩
  | .mlDsa87 => ⟨256, mlDsaGamma1TwoPower19, 8, 7, 75, 4627⟩

def MlDsaParams.cTildeLen (params : MlDsaParams) : Nat := params.lambda >>> 2

/-- Polynomials are lists of coefficients. -/
structure MlDsaSig where
  cTilde : List UInt8
  z : List (List Nat)
  hint : List (List Nat)
  deriving DecidableEq

def reduceOnce (x : Nat) : Nat := if x < mlDsaQ then x else x - mlDsaQ

def modSub (a b : Nat) : Nat := reduceOnce ((mlDsaQ + a + 2 ^ 32 - b) % 2 ^ 32)

def shl32 (x n : Nat) : Nat := (x <<< n) % 2 ^ 32

def encodeGroup19 (c0 c1 c2 c3 : Nat) : List UInt8 :=
  let range := 2 ^ 19
  let z1 := modSub range c1
  let w0 := modSub range c0 ||| shl32 z1 20
  let w1 := z1 >>> 12 ||| shl32 (modSub range c2) 8
  let z2 := modSub range c3
  let w1 := w1 ||| shl32 z2 28
  bytesOf 4 w0 ++ (bytesOf 4 w1 ++ bytesOf 2 (z2 >>> 4))

def decodeGroup19 (inp : List UInt8) : List Nat :=
  let range := 2 ^ 19
  let mask := 2 ^ 20 - 1
  let a1 := value (inp.take 4)
  let a2 := value ((inp.drop 4).take 4)
  let a3 := value ((inp.drop 8).take 2)
  [modSub range (a1 &&& mask), modSub range (a1 >>> 20 ||| shl32 (a2 &&& 0xff) 12),
    modSub range (a2 >>> 8 &&& mask), modSub range (a2 >>> 28 ||| a3 <<< 4)]

def encodeGroup17 (c0 c1 c2 c3 : Nat) : List UInt8 :=
  let range := 2 ^ 17
  let z1 := modSub range c1
  let w0 := modSub range c0 ||| shl32 z1 18
  let w1 := z1 >>> 14 ||| shl32 (modSub range c2) 4
  let z2 := modSub range c3
  let w1 := w1 ||| shl32 z2 22
  bytesOf 4 w0 ++ (bytesOf 4 w1 ++ bytesOf 1 (z2 >>> 10))

def decodeGroup17 (inp : List UInt8) : List Nat :=
  let range := 2 ^ 17
  let mask := 2 ^ 18 - 1
  let a1 := value (inp.take 4)
  let a2 := value ((inp.drop 4).take 4)
  let a3 := value ((inp.drop 8).take 1)
  [modSub range (a1 &&& mask), modSub range (a1 >>> 18 ||| shl32 (a2 &&& 0xf) 14),
    modSub range (a2 >>> 4 &&& mask), modSub range (a2 >>> 22 ||| shl32 a3 10)]

/-- A write to a static packet of max bytes. -/
def sigPut (max : Nat) (out bytes : List UInt8) : Option (List UInt8) :=
  if out.length + bytes.length ≤ max then some (out ++ bytes) else none

/-- The loop of the two encoders over the groups of four coefficients. -/
def polyEncodeGroups (group : Nat → Nat → Nat → Nat → List UInt8) (max : Nat) :
    Nat → List Nat → List UInt8 → Option (List UInt8)
  | 0, _, out => some out
  | left + 1, p, out =>
    (sigPut max out (group (p.getD 0 0) (p.getD 1 0) (p.getD 2 0) (p.getD 3 0))).bind
      (polyEncodeGroups group max left (p.drop 4))

def polyEncodeSignedTwoToPower19 (max : Nat) (p : List Nat) (out : List UInt8) :
    Option (List UInt8) :=
  polyEncodeGroups encodeGroup19 max (mlDsaNumPolyCoefficients / 4) p out

def polyEncodeSignedTwoToPower17 (max : Nat) (p : List Nat) (out : List UInt8) :
    Option (List UInt8) :=
  polyEncodeGroups encodeGroup17 max (mlDsaNumPolyCoefficients / 4) p out

/-- The loop of the two decoders over the groups of size bytes. -/
def polyDecodeGroups (group : List UInt8 → List Nat) (size : Nat) : Nat → PacketM (List Nat)
  | 0 => pure []
  | left + 1 => do
    let inp ← packetGetBytes size
    let rest ← polyDecodeGroups group size left
    pure (group inp ++ rest)

def polyDecodeSignedTwoToPower19 : PacketM (List Nat) :=
  polyDecodeGroups decodeGroup19 10 (mlDsaNumPolyCoefficients / 4)

def polyDecodeSignedTwoToPower17 : PacketM (List Nat) :=
  polyDecodeGroups decodeGroup17 9 (mlDsaNumPolyCoefficients / 4)

/-- A store to data, which fails outside of it. -/
def hintStore (data : List UInt8) (i : Nat) (byte : UInt8) : Option (List UInt8) :=
  if i < data.length then some (data.set i byte) else none

/-- The inner loop of hint_bits_encode, with left coefficients to go from j on. -/
def hintRowEncode (p : List Nat) :
    Nat → Nat → List UInt8 → Nat → Option (List UInt8 × Nat)
  | 0, _, data, index => some (data, index)
  | left + 1, j, data, index =>
    if p.getD j 0 ≠ 0 then
      (hintStore data index (UInt8.ofNat j)).bind fun data =>
        hintRowEncode p left (j + 1) data (index + 1)
    else hintRowEncode p left (j + 1) data index

/-- The outer loop, over the polynomials from number i on. -/
def hintRowsEncode (omega : Nat) :
    List (List Nat) → Nat → List UInt8 → Nat → Option (List UInt8)
  | [], _, data, _ => some data
  | p :: rows, i, data, index =>
    (hintRowEncode p mlDsaNumPolyCoefficients 0 data index).bind fun (data, index) =>
      (hintStore data (omega + i) (UInt8.ofNat index)).bind fun data =>
        hintRowsEncode omega rows (i + 1) data index

def hintBitsEncode (max : Nat) (hint : List (List Nat)) (omega : Nat) (out : List UInt8) :
    Option (List UInt8) :=
  (hintRowsEncode omega hint 0 (List.replicate (omega + hint.length) 0) 0).bind (sigPut max out)

inductive SigError where
  | rejected
  | overread
  deriving DecidableEq

/-- The while loop of hint_bits_decode, with left places to go from index on. -/
def hintRowDecode (inp : List UInt8) :
    Nat → Nat → Int → List Nat → Except SigError (List Nat)
  | 0, _, _, p => .ok p
  | left + 1, index, last, p =>
    match inp[index]? with
    | none => .error .overread
    | some byte =>
      if last ≥ 0 ∧ (byte.toNat : Int) ≤ last then .error .rejected
      else hintRowDecode inp left (index + 1) byte.toNat (p.set byte.toNat 1)

/-- The do loop over the limits: the rows, and the index it ends at. -/
def hintRowsDecode (inp : List UInt8) (omega : Nat) :
    List UInt8 → Nat → Except SigError (List (List Nat) × Nat)
  | [], index => .ok ([], index)
  | limit :: limits, index =>
    if limit.toNat < index ∨ limit.toNat > omega then .error .rejected
    else do
      let p ← hintRowDecode inp (limit.toNat - index) index (-1)
        (List.replicate mlDsaNumPolyCoefficients 0)
      let (rows, index) ← hintRowsDecode inp omega limits limit.toNat
      .ok (p :: rows, index)

/-- The last loop of hint_bits_decode, with left places to go from index on. -/
def hintPadding (inp : List UInt8) : Nat → Nat → Except SigError Unit
  | 0, _ => .ok ()
  | left + 1, index =>
    match inp[index]? with
    | none => .error .overread
    | some byte => if byte ≠ 0 then .error .rejected else hintPadding inp left (index + 1)

def hintBitsDecode (inp limits : List UInt8) (omega : Nat) :
    Except SigError (List (List Nat)) := do
  let (rows, index) ← hintRowsDecode inp omega limits 0
  hintPadding inp (omega - index) index
  .ok rows

def MlDsaParams.encodeFn (params : MlDsaParams) :
    List Nat → List UInt8 → Option (List UInt8) :=
  if params.gamma1 = mlDsaGamma1TwoPower19 then polyEncodeSignedTwoToPower19 params.sigLen
  else polyEncodeSignedTwoToPower17 params.sigLen

def MlDsaParams.decodeFn (params : MlDsaParams) : PacketM (List Nat) :=
  if params.gamma1 = mlDsaGamma1TwoPower19 then polyDecodeSignedTwoToPower19
  else polyDecodeSignedTwoToPower17

def sigPolysEncode (encode : List Nat → List UInt8 → Option (List UInt8)) :
    List (List Nat) → List UInt8 → Option (List UInt8)
  | [], out => some out
  | p :: z, out => (encode p out).bind (sigPolysEncode encode z)

def sigEncode (params : MlDsaParams) (sig : MlDsaSig) : Option (List UInt8) := do
  let out ← sigPut params.sigLen [] sig.cTilde
  let out ← sigPolysEncode params.encodeFn sig.z out
  hintBitsEncode params.sigLen sig.hint params.omega out

def sigPolysDecode (decode : PacketM (List Nat)) : Nat → PacketM (List (List Nat))
  | 0 => pure []
  | left + 1 => do
    let p ← decode
    let z ← sigPolysDecode decode left
    pure (p :: z)

/-- What the signature is read from: c tilde, z, and the two parts of the hint. -/
def sigRead (params : MlDsaParams) :
    PacketM (List UInt8 × List (List Nat) × List UInt8 × List UInt8) := do
  let cTilde ← packetCopyBytes params.cTildeLen
  let z ← sigPolysDecode params.decodeFn params.l
  let inp ← packetGetBytes params.omega
  let limits ← packetGetBytes params.k
  pure (cTilde, z, inp, limits)

def sigDecode (params : MlDsaParams) (inp : List UInt8) : Except SigError MlDsaSig :=
  match (sigRead params).run inp with
  | none => .error .rejected
  | some ((cTilde, z, places, limits), rest) =>
    match hintBitsDecode places limits params.omega with
    | .error e => .error e
    | .ok hint => if rest.length ≠ 0 then .error .rejected else .ok ⟨cTilde, z, hint⟩

end Ossl
