import OpenSSL.WpacketSub

/- The DER writer of crypto/der_writer.c, which writes from the end of the buffer. Its calls
   return an int, and what a call that fails has written stays written. -/
namespace Ossl
open Base128 BigEndian Codec RingWindow

def derPBoolean : Nat := 1
def derPInteger : Nat := 2
def derPOctetString : Nat := 4
def derPNull : Nat := 5
def derPSequence : Nat := 16
def derFConstructed : Nat := 0x20
def derCContext : Nat := 0x80

abbrev WpacketCall := Wpacket → Bool × Wpacket

def callOf (w : WpacketM Unit) : WpacketCall := fun pkt =>
  match w.run pkt with
  | none => (false, pkt)
  | some (_, pkt) => (true, pkt)

def allOf : List WpacketCall → WpacketCall
  | [], pkt => (true, pkt)
  | call :: calls, pkt => if (call pkt).1 then allOf calls (call pkt).2 else (false, (call pkt).2)

def orElse (test : Bool) (call : WpacketCall) : WpacketCall := fun pkt =>
  if test then (true, pkt) else call pkt

def notOf (call : WpacketCall) : WpacketCall := fun pkt => (!(call pkt).1, (call pkt).2)

def putBytesU8 (val : Nat) : WpacketCall := callOf (wpacketPutBytes val 1)

def startSubPacket : WpacketCall := callOf (wpacketStartSubPacketLen true 0)

def wpacketCloseLeft (pkt : Wpacket) : Wpacket :=
  match pkt.subs with
  | sub :: _ :: _ =>
    let packlen := subU64 pkt.written sub.pwritten
    if packlen = 0 ∧ sub.flags &&& wpacketFlagsNonZeroLength ≠ 0 then pkt
    else (callOf (wpacketPutBytes packlen (1 + shiftCount 8 sizeBits (packlen >>> 8))) pkt).2
  | _ => pkt

def closeCall : WpacketCall := fun pkt =>
  match wpacketClose.run pkt with
  | none => (false, wpacketCloseLeft pkt)
  | some (_, pkt) => (true, pkt)

def intStartContext (tag : Int) : WpacketCall := fun pkt =>
  if tag < 0 then (true, pkt)
  else if 30 < tag then (false, pkt)
  else startSubPacket pkt

def closeSized (next : Nat → Nat → WpacketCall) : WpacketCall := fun pkt =>
  let size1 := pkt.written
  let closed := closeCall pkt
  if closed.1 then next size1 closed.2.written closed.2 else (false, closed.2)

def intEndContext (tag : Int) : WpacketCall := fun pkt =>
  if tag < 0 then (true, pkt)
  else if 30 < tag then (false, pkt)
  else
    closeSized (fun size1 size2 =>
      orElse (size1 == size2) (putBytesU8 (tag.toNat ||| (derFConstructed ||| derCContext)))) pkt

def osslDerWPrecompiled (tag : Int) (precompiled : List UInt8) : WpacketCall :=
  allOf [intStartContext tag, callOf (wpacketMemcpy precompiled), intEndContext tag]

def osslDerWBoolean (tag b : Int) : WpacketCall :=
  allOf [intStartContext tag, startSubPacket, orElse (b == 0) (putBytesU8 0xFF),
    notOf closeCall, notOf (putBytesU8 derPBoolean), intEndContext tag]

def osslDerWOctetString (tag : Int) (data : List UInt8) : WpacketCall :=
  allOf [intStartContext tag, startSubPacket, callOf (wpacketMemcpy data), closeCall,
    putBytesU8 derPOctetString, intEndContext tag]

def intDerWInteger (tag : Int) (put : WpacketCall × Nat) : WpacketCall :=
  allOf [intStartContext tag, startSubPacket, put.1,
    orElse (put.2 &&& 0x80 == 0) (putBytesU8 0), closeCall, putBytesU8 derPInteger,
    intEndContext tag]

def topByteRounds : Nat → Nat → Nat → Nat → Nat × Nat
  | 0, _, n, topByte => (n, topByte)
  | fuel + 1, tmp, n, topByte =>
    if tmp ≠ 0 then topByteRounds fuel (tmp >>> 8) (n + 1) (tmp &&& 0xFF) else (n, topByte)

def uint32Bytes : Nat := 4

def intPutBytesUint32 (value : Nat) : WpacketCall × Nat :=
  let rounds := topByteRounds uint32Bytes value 0 0
  (callOf (wpacketPutBytes value (if rounds.1 = 0 then 1 else rounds.1)), rounds.2)

def osslDerWUint32 (tag : Int) (v : Nat) : WpacketCall := intDerWInteger tag (intPutBytesUint32 v)

def bnNumBytes (v : Nat) : Nat := (v.size + 7) / 8

def bnBytes : Nat := 8

def bnWord (v i : Nat) : Nat := (v >>> (8 * bnBytes * i)) % 2 ^ (8 * bnBytes)

def intPutBytesBn (v : Nat) : WpacketCall × Nat :=
  let n := bnNumBytes v
  (callOf do let _ ← wpacketFill n (netBytes n v),
    (bnWord v ((n - 1) / bnBytes) >>> (8 * ((n - 1) % bnBytes))) &&& 0xFF)

/- No number stands for NULL. -/
def osslDerWBn (tag : Int) (v : Option Int) : WpacketCall := fun pkt =>
  match v with
  | none => (false, pkt)
  | some v =>
    if v < 0 then (false, pkt)
    else if v = 0 then osslDerWUint32 tag 0 pkt
    else intDerWInteger tag (intPutBytesBn v.toNat) pkt

def osslDerWNull (tag : Int) : WpacketCall :=
  allOf [intStartContext tag, startSubPacket, closeCall, putBytesU8 derPNull, intEndContext tag]

def osslDerWBeginSequence (tag : Int) : WpacketCall := allOf [intStartContext tag, startSubPacket]

def osslDerWEndSequence (tag : Int) : WpacketCall :=
  allOf [closeSized (fun size1 size2 =>
      if size1 = size2 then callOf (wpacketSetFlags wpacketFlagsAbandonOnZeroLength)
      else putBytesU8 (derFConstructed ||| derPSequence)),
    intEndContext tag]

end Ossl
