import Mathlib.Algebra.Group.Nat.Defs
import Mathlib.Data.List.Basic
import OpenSSL.Lib.RingWindow

/- The ring buffer of a BIO pair: the half of an end holds what that end wrote and its peer reads. A
   failed assertion, and a loop that goes on after its second iteration, have no result. -/
namespace Ossl
open Nat List RingWindow

def osslSsizeMax : Nat := 2 ^ 63 - 1

structure BioBio where
  closed : Bool
  len : Nat
  offset : Nat
  size : Nat
  buf : Nat → UInt8
  request : Nat

inductive BioRetry where
  | read
  | write
  deriving DecidableEq

/-- What a call returns: its value, the retry flag it sets, the place in the
    buffer it points at, and the bytes it copies out. -/
structure BioResult where
  ret : Int
  retry : Option BioRetry
  ptr : Option Nat
  data : List UInt8
  deriving DecidableEq

def BioResult.plain (ret : Int) : BioResult := ⟨ret, none, none, []⟩

def BioResult.again (retry : BioRetry) : BioResult := ⟨-1, some retry, none, []⟩

/-- The state bio_make_pair leaves a half in. -/
def bioMakePair (size : Nat) (buf : Nat → UInt8) : BioBio := ⟨false, 0, 0, size, buf, 0⟩

/-- One iteration of the loop of bio_read: the bytes copied and the rest. -/
def bioReadRound (b : BioBio) (rest : Nat) : Option (BioBio × List UInt8 × Nat) :=
  if ¬rest ≤ b.len then none
  else
    let chunk := if b.offset + rest ≤ b.size then rest else b.size - b.offset
    if ¬b.offset + chunk ≤ b.size then none
    else
      let copied := readCells b.buf b.offset chunk
      let len := b.len - chunk
      if len ≠ 0 then
        let offset := b.offset + chunk
        if ¬offset ≤ b.size then none
        else
          let offset := if offset = b.size then 0 else offset
          some ({ b with len := len, offset := offset }, copied, rest - chunk)
      else if chunk ≠ rest then none
      else some ({ b with len := len, offset := 0 }, copied, rest - chunk)

def bioReadLoop : Nat → BioBio → Nat → Option (BioBio × List UInt8)
  | 0, _, _ => none
  | fuel + 1, b, rest => do
    let (b, copied, rest) ← bioReadRound b rest
    if rest = 0 then some (b, copied)
    else
      let (b, more) ← bioReadLoop fuel b rest
      some (b, copied ++ more)

/-- bio_read on the half of the peer; given says that buf is not NULL. -/
def bioRead (b : BioBio) (given : Bool) (size : Nat) : Option (BioBio × BioResult) :=
  let b := { b with request := 0 }
  if given = false ∨ size = 0 then some (b, .plain 0)
  else if b.len = 0 then
    if b.closed then some (b, .plain 0)
    else some ({ b with request := if size ≤ b.size then size else b.size }, .again .read)
  else
    let size := if b.len < size then b.len else size
    if ¬0 < size then none
    else do
      let (b, copied) ← bioReadLoop 2 b size
      some (b, ⟨size, none, none, copied⟩)

def bioNread0 (b : BioBio) : Option (BioBio × BioResult) :=
  let b := { b with request := 0 }
  if b.len = 0 then bioRead b true 1
  else
    let num := if b.size < b.offset + b.len then b.size - b.offset else b.len
    if ¬0 < num then none
    else some (b, ⟨num, none, some b.offset, []⟩)

def clampSsize (num : Nat) : Int := if num > osslSsizeMax then osslSsizeMax else num

def bioNread (b : BioBio) (num : Nat) : Option (BioBio × BioResult) := do
  let (b, answer) ← bioNread0 b
  let num := if clampSsize num > answer.ret then answer.ret else clampSsize num
  if num ≤ 0 then some (b, { answer with ret := num })
  else
    let len := b.len - num.toNat
    if len ≠ 0 then
      let offset := b.offset + num.toNat
      if ¬offset ≤ b.size then none
      else
        let offset := if offset = b.size then 0 else offset
        some ({ b with len := len, offset := offset }, { answer with ret := num })
    else some ({ b with len := len, offset := 0 }, { answer with ret := num })

/-- The first cell that can be written to. -/
def BioBio.writeOffset (b : BioBio) : Nat :=
  let writeOffset := b.offset + b.len
  if writeOffset ≥ b.size then writeOffset - b.size else writeOffset

/-- One iteration of the loop of bio_write: the buf and the rest it leaves. -/
def bioWriteRound (b : BioBio) (buf : List UInt8) (rest : Nat) :
    Option (BioBio × List UInt8 × Nat) :=
  if ¬b.len + rest ≤ b.size then none
  else
    let chunk := if b.writeOffset + rest ≤ b.size then rest else b.size - b.writeOffset
    let cells := writeCells b.buf b.writeOffset (buf.take chunk)
    let len := b.len + chunk
    if ¬len ≤ b.size then none
    else some ({ b with buf := cells, len := len }, buf.drop chunk, rest - chunk)

def bioWriteLoop : Nat → BioBio → List UInt8 → Nat → Option BioBio
  | 0, _, _, _ => none
  | fuel + 1, b, buf, rest => do
    let (b, buf, rest) ← bioWriteRound b buf rest
    if rest = 0 then some b else bioWriteLoop fuel b buf rest

/-- bio_write of num bytes of buf, none for NULL. -/
def bioWrite (b : BioBio) (buf : Option (List UInt8)) (num : Int) : Option (BioBio × BioResult) :=
  match buf with
  | none => some (b, .plain 0)
  | some buf =>
    if num ≤ 0 then some (b, .plain 0)
    else
      let b := { b with request := 0 }
      if b.closed then some (b, .plain (-1))
      else if ¬b.len ≤ b.size then none
      else if b.len = b.size then some (b, .again .write)
      else
        let num := if num.toNat > b.size - b.len then b.size - b.len else num.toNat
        if ¬0 < num then none
        else do
          let b ← bioWriteLoop 2 b buf num
          some (b, .plain num)

def bioNwrite0 (b : BioBio) : Option (BioBio × BioResult) :=
  let b := { b with request := 0 }
  if b.closed then some (b, .plain (-1))
  else if ¬b.len ≤ b.size then none
  else if b.len = b.size then some (b, .again .write)
  else
    let num := b.size - b.len
    let num := if b.writeOffset + num > b.size then b.size - b.writeOffset else num
    if ¬b.writeOffset + num ≤ b.size then none
    else some (b, ⟨num, none, some b.writeOffset, []⟩)

def bioNwrite (b : BioBio) (num : Nat) : Option (BioBio × BioResult) := do
  let (b, answer) ← bioNwrite0 b
  let num := if clampSsize num > answer.ret then answer.ret else clampSsize num
  if num ≤ 0 then some (b, { answer with ret := num })
  else
    let len := b.len + num.toNat
    if ¬len ≤ b.size then none
    else some ({ b with len := len }, { answer with ret := num })

def bioShutdownWr (b : BioBio) : BioBio := { b with closed := true }

structure BioBio.Sound (b : BioBio) : Prop where
  bounded : b.len ≤ b.size
  inside : b.offset < b.size
  empty : b.len = 0 → b.offset = 0

/-- The bytes written and not yet read, in order. -/
def BioBio.pending (b : BioBio) : List UInt8 := readRing b.size b.buf b.offset b.len

/-- The half once the first n bytes are read. -/
def BioBio.taken (b : BioBio) (n : Nat) : BioBio :=
  { b with
    len := b.len - n
    offset := if b.len - n = 0 then 0 else if b.offset + n = b.size then 0 else b.offset + n }

variable {b : BioBio}

variable {n size : Nat} {buf : List UInt8}

/-- The region a call hands to its caller, in the buffer the call leaves. -/
def BioBio.region (b : BioBio) (answer : BioResult) : List UInt8 :=
  match answer.ptr with
  | none => []
  | some start => readCells b.buf start answer.ret.toNat

/-- What can be read in place: all that is pending before the ring wraps around. -/
def BioBio.offered (b : BioBio) : BioResult :=
  if b.len = 0 then if b.closed then .plain 0 else .again .read
  else ⟨(min b.len (b.size - b.offset) : Nat), none, some b.offset, []⟩

/-- What can be written in place: all free cells before the ring wraps around. -/
def BioBio.space (b : BioBio) : BioResult :=
  if b.closed then .plain (-1) else if b.len = b.size then .again .write
  else ⟨(min (b.size - b.len) (b.size - b.writeOffset) : Nat), none, some b.writeOffset, []⟩

/-- The half once the bytes are written behind those pending. -/
def BioBio.grown (b : BioBio) (bytes : List UInt8) : BioBio :=
  { b with buf := writeCells b.buf b.writeOffset bytes, len := b.len + bytes.length }

end Ossl
