import OpenSSL.Bio.BssBio
import OpenSSL.Lib.Runs

/- Runs of a BIO pair: the calls of its two ends in any order, and the bytes a
   caller stores in the cells the non-copying interface hands out. -/
namespace Ossl
open List RingWindow Runs

/-- One direction of a pair, with the bytes its writer has accepted, those its reader has obtained,
    the positions of the accepted ones that were handed out for filling, whether the writer was shut
    down and whether an assertion has failed. -/
structure BioDirection where
  half : BioBio
  accepted : List UInt8
  obtained : List UInt8
  lent : List Nat
  shut : Bool
  asserted : Bool

inductive BioOp where
  | write (buf : Option (List UInt8)) (num : Int)
  | nwrite0
  | nwrite (num : Nat)
  | fill (index : Nat) (byte : UInt8)
  | shutdown
  | read (given : Bool) (size : Nat)
  | nread0
  | nread (num : Nat)

/-- The end that is the writer of the direction an operation works on. -/
def BioOp.writer (side : Bool) : BioOp → Bool
  | .read _ _ => !side
  | .nread0 => !side
  | .nread _ => !side
  | _ => side

def BioDirection.call (d : BioDirection) (result : Option (BioBio × BioResult))
    (keep : BioDirection → BioResult → BioDirection) : BioDirection :=
  match result with
  | none => { d with asserted := true }
  | some (half, answer) => keep { d with half := half } answer

def BioDirection.step (d : BioDirection) : BioOp → BioDirection
  | .write buf num => d.call (bioWrite d.half buf num) fun d answer =>
    { d with accepted := d.accepted ++ (buf.getD []).take answer.ret.toNat }
  | .nwrite0 => d.call (bioNwrite0 d.half) fun d _ => d
  | .nwrite num => d.call (bioNwrite d.half num) fun d answer =>
    { d with
      accepted := d.accepted ++ d.half.region answer
      lent := d.lent ++ range' d.accepted.length answer.ret.toNat }
  | .fill index byte =>
    let cell := (d.half.offset + index) % d.half.size
    { d with
      half := { d.half with buf := fun i => if i = cell then byte else d.half.buf i }
      accepted := d.accepted.set (d.obtained.length + index) byte }
  | .shutdown => { d with half := bioShutdownWr d.half, shut := true }
  | .read given size => d.call (bioRead d.half given size) fun d answer =>
    { d with obtained := d.obtained ++ answer.data }
  | .nread0 => d.call (bioNread0 d.half) fun d _ => d
  | .nread num => d.call (bioNread d.half num) fun d answer =>
    { d with obtained := d.obtained ++ d.half.region answer }

/-- The caller passes a buf of num bytes, and stores only in cells that are free or were handed out
    and not read since. The index counts from the next byte to be read. -/
def BioDirection.Valid (d : BioDirection) : BioOp → Prop
  | .write buf num => ∀ bytes, buf = some bytes → num ≤ bytes.length
  | .fill index _ => index < d.half.size ∧ (d.half.len ≤ index ∨ d.obtained.length + index ∈ d.lent)
  | _ => True

/-- The directions by the end that writes them. -/
abbrev BioPair := Bool → BioDirection

def BioPair.step (pair : BioPair) (op : Bool × BioOp) : BioPair := fun side =>
  if side = op.2.writer op.1 then (pair side).step op.2 else pair side

def BioPair.Valid (pair : BioPair) (op : Bool × BioOp) : Prop :=
  (pair (op.2.writer op.1)).Valid op.2

def BioPair.fresh (size : Bool → Nat) (buf : Bool → Nat → UInt8) : BioPair := fun side =>
  ⟨bioMakePair (size side) (buf side), [], [], [], false, false⟩

variable {d : BioDirection} {half : BioBio}

end Ossl
