import OpenSSL.X509.V3Addr

/- How IP address blocks are built and brought to canonical form: crypto/x509/v3_addr.c. -/
namespace Ossl
open BigEndian Spans Cover

def bitLength (n : Nat) : Fin 8 := ⟨n % 8, Nat.mod_lt n (by decide)⟩

def makeAddressPrefix (addr : List UInt8) (prefixlen : Int) (afilen : Nat) :
    Option IPAddressOrRange :=
  if prefixlen < 0 ∨ afilen * 8 < prefixlen then none
  else
    let bytelen := (prefixlen.toNat + 7) / 8
    let bitlen := prefixlen.toNat % 8
    let data := addr.take bytelen
    let data :=
      if 0 < bitlen then mapLast (fun b => b &&& ~~~(0xFF >>> UInt8.ofNat bitlen)) data else data
    some (.addressPrefix ⟨data, bitLength (8 - bitlen)⟩)

def shiftRounds (test : Nat → Bool) : Nat → Nat → Nat
  | 0, j => j
  | rounds + 1, j => if test j then j else shiftRounds test rounds (j + 1)

def minBits (b : UInt8) : Fin 8 :=
  bitLength (8 - shiftRounds (fun j => b.toNat &&& 0xFF >>> j == 0) 7 1)

def maxBits (b : UInt8) : Fin 8 :=
  bitLength (8 - shiftRounds (fun j => b.toNat &&& 0xFF >>> j == 0xFF >>> j) 7 1)

def makeMin (min : List UInt8) : BitString :=
  let data := min.rdropWhile (· == 0x00)
  ⟨data, (data.getLast?.map minBits).getD 0⟩

def makeMax (max : List UInt8) : BitString :=
  let data := max.rdropWhile (· == 0xFF)
  ⟨data, (data.getLast?.map maxBits).getD 0⟩

def makeAddressRange (min max : List UInt8) (length : Nat) : Option IPAddressOrRange :=
  let min := min.take length
  let max := max.take length
  if 0 < memcmp min max then none
  else
    match rangeShouldBePrefix min max with
    | some prefixlen => makeAddressPrefix min prefixlen length
    | none => some (.addressRange (makeMin min) (makeMax max))

def familyKey (afi : Nat) (safi : Option Nat) : List UInt8 :=
  [UInt8.ofNat (afi >>> 8 &&& 0xFF), UInt8.ofNat (afi &&& 0xFF)] ++
    (safi.map fun s => UInt8.ofNat (s &&& 0xFF)).toList

def familyWith (addr : IPAddrBlocks) (key : List UInt8) : Option IPAddressFamily :=
  addr.families.find? fun f => decide (f.addressFamily = key)

def pushFamily (addr : IPAddrBlocks) (f : IPAddressFamily) : IPAddrBlocks :=
  { addr with families := addr.families ++ [f] }

def addrAddInherit (addr : IPAddrBlocks) (afi : Nat) (safi : Option Nat) : Bool × IPAddrBlocks :=
  match familyWith addr (familyKey afi safi) with
  | none => (true, pushFamily addr ⟨familyKey afi safi, .inherit⟩)
  | some f =>
    match f.ipAddressChoice with
    | .inherit => (true, addr)
    | .addressesOrRanges _ => (false, addr)

/- A new list gets a comparison only for the two families there are addresses of. -/
def cmpFor (afi : Nat) : Option Nat := if afi = 1 then some 4 else if afi = 2 then some 16 else none

def makePrefixOrRange (addr : IPAddrBlocks) (afi : Nat) (safi : Option Nat) : Option IPAddrBlocks :=
  match familyWith addr (familyKey afi safi) with
  | none => some (pushFamily addr
      ⟨familyKey afi safi, .addressesOrRanges ⟨addr.families.length, [], cmpFor afi⟩⟩)
  | some f =>
    match f.ipAddressChoice with
    | .inherit => none
    | .addressesOrRanges _ => some addr

def pushAor (aor : IPAddressOrRange) (key : List UInt8) : List IPAddressFamily → List IPAddressFamily
  | [] => []
  | f :: rest =>
    if f.addressFamily = key then
      match f.ipAddressChoice with
      | .inherit => f :: rest
      | .addressesOrRanges aors =>
        { f with ipAddressChoice := .addressesOrRanges { aors with elems := aors.elems ++ [aor] } } ::
          rest
    else f :: pushAor aor key rest

def addrAddAor (addr : IPAddrBlocks) (afi : Nat) (safi : Option Nat)
    (aor : Option IPAddressOrRange) : Bool × IPAddrBlocks :=
  match makePrefixOrRange addr afi safi with
  | none => (false, addr)
  | some addr =>
    match aor with
    | none => (false, addr)
    | some aor =>
      (true, { addr with families := pushAor aor (familyKey afi safi) addr.families })

def addrAddPrefix (addr : IPAddrBlocks) (afi : Nat) (safi : Option Nat) (a : List UInt8)
    (prefixlen : Int) : Bool × IPAddrBlocks :=
  addrAddAor addr afi safi (makeAddressPrefix a prefixlen (lengthFromAfi afi))

def addrAddRange (addr : IPAddrBlocks) (afi : Nat) (safi : Option Nat) (min max : List UInt8) :
    Bool × IPAddrBlocks :=
  addrAddAor addr afi safi (makeAddressRange min max (lengthFromAfi afi))

def cmpKey (length : Nat) : IPAddressOrRange → Option (List UInt8 × Int)
  | .addressPrefix bs => do
    let addr ← addrExpand bs length 0x00
    some (addr, (bs.data.length : Int) * 8 - bs.bitsLeft.val)
  | .addressRange min _ => do
    let addr ← addrExpand min length 0x00
    some (addr, length * 8)

def addressOrRangeCmp (length : Nat) (a b : IPAddressOrRange) : Int :=
  match cmpKey length a, cmpKey length b with
  | some (addrA, prefixlenA), some (addrB, prefixlenB) =>
    let r := memcmp addrA addrB
    if r ≠ 0 then r else prefixlenA - prefixlenB
  | _, _ => -1

def sortAors (aors : IPAddressOrRanges) : List IPAddressOrRange :=
  match aors.cmp with
  | none => aors.elems
  | some length => aors.elems.mergeSort fun a b => decide (addressOrRangeCmp length a b ≤ 0)

def canonizeRounds (length : Nat) (a : IPAddressOrRange) :
    List IPAddressOrRange → Option (List IPAddressOrRange)
  | [] => some [a]
  | b :: rest =>
    match extractMinMax length a, extractMinMax length b with
    | some (aMin, aMax), some (bMin, bMax) =>
      if 0 < memcmp aMin aMax ∨ 0 < memcmp bMin bMax then none
      else if 0 ≤ memcmp aMax bMin then none
      else if memcmp aMax (borrow bMin).1 = 0 then
        match makeAddressRange aMin bMax length with
        | none => none
        | some merged => canonizeRounds length merged rest
      else (canonizeRounds length b rest).map (a :: ·)
    | _, _ => none

def lastNotInverted (length : Nat) (elems : List IPAddressOrRange) : Bool :=
  match elems.getLast? with
  | some (.addressRange min max) =>
    match extractMinMax length (.addressRange min max) with
    | none => false
    | some (aMin, aMax) => decide (memcmp aMin aMax ≤ 0)
  | _ => true

def aorsCanonize (aors : IPAddressOrRanges) (afi : Nat) : Option IPAddressOrRanges :=
  let length := lengthFromAfi afi
  let merged :=
    match sortAors aors with
    | [] => some []
    | a :: rest => canonizeRounds length a rest
  match merged with
  | none => none
  | some elems => if lastNotInverted length elems then some { aors with elems := elems } else none

inductive CanonizeStop where
  | refused
  | assertion

def familyCanonize (f : IPAddressFamily) : Option IPAddressFamily :=
  if familyCheckLen f = false then none
  else
    match f.ipAddressChoice with
    | .inherit => some f
    | .addressesOrRanges aors =>
      (aorsCanonize aors (addrGetAfi f)).map fun aors =>
        { f with ipAddressChoice := .addressesOrRanges aors }

def addrCanonize (addr : IPAddrBlocks) : Except CanonizeStop IPAddrBlocks :=
  match addr.families.mapM familyCanonize with
  | none => .error .refused
  | some families =>
    let addr := { addr with families := sortFamilies families }
    if addrIsCanonical (some addr) = false then .error .assertion else .ok addr

inductive AddrOp where
  | addInherit (afi : Nat) (safi : Option Nat)
  | addPrefix (afi : Nat) (safi : Option Nat) (a : List UInt8) (prefixlen : Int)
  | addRange (afi : Nat) (safi : Option Nat) (min max : List UInt8)

/-- The caller's arrays are as long as the code reads them. -/
def AddrOp.Readable : AddrOp → Prop
  | .addInherit _ _ => True
  | .addPrefix _ _ a prefixlen => (prefixlen.toNat + 7) / 8 ≤ a.length
  | .addRange afi _ min max => lengthFromAfi afi ≤ min.length ∧ lengthFromAfi afi ≤ max.length

def addrStep (addr : IPAddrBlocks) : AddrOp → Bool × IPAddrBlocks
  | .addInherit afi safi => addrAddInherit addr afi safi
  | .addPrefix afi safi a prefixlen => addrAddPrefix addr afi safi a prefixlen
  | .addRange afi safi min max => addrAddRange addr afi safi min max

def addrBuild : List AddrOp → IPAddrBlocks → Option IPAddrBlocks
  | [], addr => some addr
  | op :: ops, addr =>
    match addrStep addr op with
    | (true, addr) => addrBuild ops addr
    | (false, _) => none

end Ossl
