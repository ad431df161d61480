import Mathlib.Algebra.Group.Nat.Defs
import Mathlib.Data.List.Basic
import Mathlib.Tactic.Common

/- The Punycode decoder of crypto/punycode.c. A 32-bit operation that would wrap and
   a store outside of the output array end the run with a trap. -/
namespace Ossl.Punycode

inductive Stop where
  | fail (pDecoded : List Nat)
  | trap

abbrev Run (α : Type) : Type := Except Stop α

def add32 (a b : Nat) : Run Nat := if a + b < 2 ^ 32 then .ok (a + b) else .error .trap
def sub32 (a b : Nat) : Run Nat := if b ≤ a then .ok (a - b) else .error .trap
def mul32 (a b : Nat) : Run Nat := if a * b < 2 ^ 32 then .ok (a * b) else .error .trap
def div32 (a b : Nat) : Run Nat := if b ≠ 0 then .ok (a / b) else .error .trap

def base : Nat := 36
def tmin : Nat := 1
def tmax : Nat := 26
def skew : Nat := 38
def damp : Nat := 700
def initialBias : Nat := 72
def initialN : Nat := 0x80
def maxint : Nat := 0xFFFFFFFF
def delimiter : UInt8 := 45

def adaptRounds (delta k : Nat) : Run (Nat × Nat) :=
  if (base - tmin) * tmax / 2 < delta then do
    let k ← add32 k base
    adaptRounds (delta / (base - tmin)) k
  else .ok (delta, k)
termination_by delta
decreasing_by exact Nat.div_lt_self (by omega) (by decide)

def adapt (delta numpoints : Nat) (firsttime : Bool) : Run Nat := do
  let delta := if firsttime then delta / damp else delta / 2
  let delta ← add32 delta (← div32 delta numpoints)
  let (delta, k) ← adaptRounds delta 0
  add32 k (← div32 (← mul32 (base - tmin + 1) delta) (← add32 delta skew))

def isBasic (a : UInt8) : Bool := decide (a.toNat < 0x80)

def digitDecoded (a : UInt8) : Option Nat :=
  if 0x41 ≤ a.toNat ∧ a.toNat ≤ 0x5A then some (a.toNat - 0x41)
  else if 0x61 ≤ a.toNat ∧ a.toNat ≤ 0x7A then some (a.toNat - 0x61)
  else if 0x30 ≤ a.toNat ∧ a.toNat ≤ 0x39 then some (a.toNat - 0x30 + 26)
  else none

def digitThreshold (k bias : Nat) : Run Nat :=
  if k ≤ bias then .ok tmin
  else do
    let high ← add32 bias tmax
    .ok (if high ≤ k then tmax else k - bias)

def decodeDigits (bias : Nat) (pDecoded : List Nat) :
    List UInt8 → Nat → Nat → Nat → Run (Nat × List UInt8)
  | [], _, _, _ => .error (.fail pDecoded)
  | c :: rest, k, w, i =>
    match digitDecoded c with
    | none => .error (.fail pDecoded)
    | some digit => do
      let most ← div32 (maxint - i) w
      if most < digit then .error (.fail pDecoded)
      else
        let i ← add32 i (← mul32 digit w)
        let t ← digitThreshold k bias
        if digit < t then .ok (i, rest)
        else
          let most ← div32 maxint (base - t)
          if most < w then .error (.fail pDecoded)
          else
            let w ← mul32 w (base - t)
            let k ← add32 k base
            decodeDigits bias pDecoded rest k w i

structure State where
  n : Nat
  i : Nat
  bias : Nat
  writtenOut : Nat
  pDecoded : List Nat

def store (maxOut : Nat) (pDecoded : List Nat) (i n : Nat) : Run (List Nat) :=
  if i < maxOut then .ok (pDecoded.set i n) else .error .trap

def memmoveUp (maxOut : Nat) (pDecoded : List Nat) (i len : Nat) : Run (List Nat) :=
  if i + 1 + len ≤ maxOut then
    .ok (pDecoded.take (i + 1) ++ (pDecoded.drop i).take len ++ pDecoded.drop (i + 1 + len))
  else .error .trap

def decodeRounds (maxOut : Nat) : Nat → List UInt8 → State → Run State
  | _, [], s => .ok s
  | 0, _ :: _, _ => .error .trap
  | rounds + 1, c :: input, s => do
    let (i, rest) ← decodeDigits s.bias s.pDecoded (c :: input) base 1 s.i
    let numpoints ← add32 s.writtenOut 1
    let bias ← adapt (← sub32 i s.i) numpoints (decide (s.i = 0))
    let quotient ← div32 i numpoints
    if maxint - s.n < quotient then .error (.fail s.pDecoded)
    else
      let n ← add32 s.n quotient
      let i := i % numpoints
      if maxOut ≤ s.writtenOut then .error (.fail s.pDecoded)
      else
        let moved ← memmoveUp maxOut s.pDecoded i (← sub32 s.writtenOut i)
        let pDecoded ← store maxOut moved i n
        let i ← add32 i 1
        decodeRounds maxOut rounds rest ⟨n, i, bias, numpoints, pDecoded⟩

def basicCountRounds : List UInt8 → Nat → Nat → Nat
  | [], _, basicCount => basicCount
  | c :: rest, loop, basicCount =>
    basicCountRounds rest (loop + 1) (if c = delimiter then loop else basicCount)

def copyBasic (maxOut : Nat) : List UInt8 → Nat → List Nat → Run (List Nat)
  | [], _, pDecoded => .ok pDecoded
  | c :: rest, loop, pDecoded =>
    if isBasic c = false then .error (.fail pDecoded)
    else do
      let pDecoded ← store maxOut pDecoded loop c.toNat
      copyBasic maxOut rest (loop + 1) pDecoded

def decodeRun (pEncoded : List UInt8) (pDecoded : List Nat) (maxOut : Nat) : Run State :=
  if maxint ≤ pEncoded.length then .error (.fail pDecoded)
  else
    let basicCount := basicCountRounds pEncoded 0 0
    if 0 < basicCount then
      if maxOut < basicCount then .error (.fail pDecoded)
      else do
        let pDecoded ← copyBasic maxOut (pEncoded.take basicCount) 0 pDecoded
        let processedIn ← add32 basicCount 1
        decodeRounds maxOut pEncoded.length (pEncoded.drop processedIn)
          ⟨initialN, 0, initialBias, basicCount, pDecoded⟩
    else decodeRounds maxOut pEncoded.length pEncoded ⟨initialN, 0, initialBias, 0, pDecoded⟩

structure Decoded where
  ret : Bool
  pDecoded : List Nat
  poutLength : Nat

def punycodeDecode (pEncoded : List UInt8) (pDecoded : List Nat) (poutLength : Nat) :
    Option Decoded :=
  match decodeRun pEncoded pDecoded poutLength with
  | .error .trap => none
  | .error (.fail pDecoded) => some ⟨false, pDecoded, poutLength⟩
  | .ok s => some ⟨true, s.pDecoded, s.writtenOut⟩

end Ossl.Punycode
