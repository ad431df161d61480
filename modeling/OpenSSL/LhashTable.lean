import OpenSSL.Lhash
import OpenSSL.Word
import OpenSSL.Lib.LinearHash
import Mathlib.Logic.Function.Basic

/- The hash tables of crypto/lhash/lhash.c. A bucket is the chain of its nodes. What the memory
   functions answer is given: realloc and malloc. -/
namespace Ossl

structure OpensslLhNode (Item : Type) where
  data : Item
  hash : Nat

structure OpensslLhash (Item : Type) where
  b : Nat → List (OpensslLhNode Item)
  numNodes : Nat
  numAllocNodes : Nat
  p : Nat
  pmax : Nat
  upLoad : Nat
  downLoad : Nat
  numItems : Nat
  error : Nat

structure LhMemory where
  malloc : Bool
  realloc : Bool

def lhMinNodes : Nat := 16
def lhLoadMult : Nat := 256

variable {Item : Type} (hash : Item → Nat) (comp : Item → Item → Int)

def opensslLhNew : OpensslLhash Item :=
  ⟨fun _ => [], lhMinNodes / 2, lhMinNodes, 0, lhMinNodes / 2, 2 * lhLoadMult, lhLoadMult, 0, 0⟩

def opensslLhFlush (lh : OpensslLhash Item) : OpensslLhash Item :=
  { lh with b := fun i => if i < lh.numNodes then [] else lh.b i, numItems := 0 }

def getrn (lh : OpensslLhash Item) (data : Item) : Nat × Nat :=
  let hash' := hash data
  let nn := if hash' % lh.pmax < lh.p then hash' % lh.numAllocNodes else hash' % lh.pmax
  (nn, (lh.b nn).findIdx fun n1 => n1.hash == hash' && comp n1.data data == 0)

def expandRounds (nni p : Nat) : List (OpensslLhNode Item) → List (OpensslLhNode Item) →
    List (OpensslLhNode Item) × List (OpensslLhNode Item)
  | [], n2 => ([], n2)
  | np :: rest, n2 =>
    if np.hash % nni ≠ p then expandRounds nni p rest (np :: n2)
    else
      let (n1, n2) := expandRounds nni p rest n2
      (np :: n1, n2)

/- The array cannot be made larger where the unsigned int wraps to zero. -/
def expand (mem : LhMemory) (lh : OpensslLhash Item) : Bool × OpensslLhash Item :=
  let nni := lh.numAllocNodes
  let p := lh.p
  let pmax := lh.pmax
  let j := nni * 2 % 2 ^ 32
  if pmax ≤ p + 1 ∧ (mem.realloc = false ∨ j = 0) then
    (false, { lh with error := lh.error + 1 })
  else
    let lh :=
      if pmax ≤ p + 1 then
        { lh with
          b := fun i => if nni ≤ i ∧ i < j then [] else lh.b i
          pmax := nni
          numAllocNodes := j
          p := 0 }
      else { lh with p := lh.p + 1 }
    let (n1, n2) := expandRounds nni p (lh.b p) []
    (true, { lh with
      numNodes := lh.numNodes + 1
      b := Function.update (Function.update lh.b (p + pmax) n2) p n1 })

def contract (mem : LhMemory) (lh : OpensslLhash Item) : OpensslLhash Item :=
  let last := lh.p + lh.pmax - 1
  let np := lh.b last
  let b := Function.update lh.b last []
  let lh :=
    if lh.p = 0 then
      { lh with
        error := if mem.realloc then lh.error else lh.error + 1
        numAllocNodes := lh.numAllocNodes / 2
        pmax := lh.pmax / 2
        p := lh.pmax / 2 - 1 }
    else { lh with p := lh.p - 1 }
  { lh with numNodes := lh.numNodes - 1, b := Function.update b lh.p (b lh.p ++ np) }

/- The load is computed in unsigned long. -/
def lhLoad (lh : OpensslLhash Item) : Nat := mulU64 lh.numItems lhLoadMult / lh.numNodes

def lhInsertNode (mem : LhMemory) (lh : OpensslLhash Item) (data : Item) :
    Option Item × OpensslLhash Item :=
  let (nn, i) := getrn hash comp lh data
  match (lh.b nn)[i]? with
  | none =>
    if mem.malloc = false then (none, { lh with error := lh.error + 1 })
    else
      (none, { lh with
        b := Function.update lh.b nn (lh.b nn ++ [⟨data, hash data⟩])
        numItems := lh.numItems + 1 })
  | some rn =>
    (some rn.data, { lh with
      b := Function.update lh.b nn ((lh.b nn).set i { rn with data := data }) })

def opensslLhInsert (mem : LhMemory) (lh : OpensslLhash Item) (data : Item) :
    Option Item × OpensslLhash Item :=
  let lh := { lh with error := 0 }
  let (room, lh) := if lh.upLoad ≤ lhLoad lh then expand mem lh else (true, lh)
  if room = false then (none, lh) else lhInsertNode hash comp mem lh data

def opensslLhDelete (mem : LhMemory) (lh : OpensslLhash Item) (data : Item) :
    Option Item × OpensslLhash Item :=
  let lh := { lh with error := 0 }
  let (nn, i) := getrn hash comp lh data
  match (lh.b nn)[i]? with
  | none => (none, lh)
  | some rn =>
    let lh := { lh with
      b := Function.update lh.b nn ((lh.b nn).eraseIdx i)
      numItems := lh.numItems - 1 }
    (some rn.data,
      if lhMinNodes < lh.numNodes ∧ lhLoad lh ≤ lh.downLoad then contract mem lh else lh)

def opensslLhRetrieve (lh : OpensslLhash Item) (data : Item) :
    Option Item × OpensslLhash Item :=
  let (nn, i) := getrn hash comp lh data
  ((lh.b nn)[i]?.map (·.data), { lh with error := 0 })

def doallUtilFn (lh : OpensslLhash Item) : List Item :=
  (List.range lh.numNodes).reverse.flatMap fun i => (lh.b i).map (·.data)

def opensslLhSetDownLoad (lh : OpensslLhash Item) (downLoad : Nat) : OpensslLhash Item :=
  { lh with downLoad := downLoad }

end Ossl
