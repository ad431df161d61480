import OpenSSL.Word
import OpenSSL.Lib.BinHeap

/- The priority queue of ssl/priority_queue.c. The two arrays are functions of the index, of which
   hmax entries are allocated; the NDEBUG-only flag is left out. mem is whether the allocator
   delivers. -/
namespace Ossl
open BinHeap

structure PqHeap (α : Type) where
  data : α
  index : Nat
  deriving DecidableEq

structure OsslPqueue (α : Type) where
  heap : Nat → PqHeap α
  elements : Nat → Nat
  htop : Nat
  hmax : Nat
  freelist : Nat

def minNodes : Nat := 8
def maxNodes : Nat := maxU64 / 16

def computePqueueGrowthRounds (target : Nat) : Nat → Nat → Nat
  | 0, current => current
  | fuel + 1, current =>
    if target ≤ current then current
    else if maxNodes ≤ current then 0
    else
      let grown := safeMuldivU64 current 8 5
      if grown.2 then 0
      else computePqueueGrowthRounds target fuel (min grown.1 maxNodes)

def computePqueueGrowth (target current : Nat) : Nat :=
  computePqueueGrowthRounds target (target - current + 1) current

variable {α : Type}

def pqueueSwapElem (i j : Nat) (pq : OsslPqueue α) : OsslPqueue α :=
  let heap := swapAt pq.heap i j
  { pq with
    heap
    elements := Function.update (Function.update pq.elements (heap i).index i) (heap j).index j }

def pqueueMoveElem (source target : Nat) (pq : OsslPqueue α) : OsslPqueue α :=
  { pq with
    heap := Function.update pq.heap target (pq.heap source)
    elements := Function.update pq.elements (pq.heap source).index target }

/- The fuel of the three loops is at least the number of levels still to pass. -/
def pqueueForceBottom : Nat → Nat → OsslPqueue α → OsslPqueue α
  | 0, _, pq => pq
  | fuel + 1, n, pq =>
    if 0 < n then pqueueForceBottom fuel (parent n) (pqueueSwapElem n (parent n) pq) else pq

def pqueueMoveDown (compare : α → α → Int) : Nat → Nat → OsslPqueue α → OsslPqueue α
  | 0, _, pq => pq
  | fuel + 1, n, pq =>
    if 0 < n then
      if 0 ≤ compare (pq.heap n).data (pq.heap (parent n)).data then pq
      else pqueueMoveDown compare fuel (parent n) (pqueueSwapElem n (parent n) pq)
    else pq

def pqueueLesserChild (compare : α → α → Int) (n : Nat) (pq : OsslPqueue α) : Nat :=
  let p := n * 2 + 1
  if p + 1 < pq.htop ∧ 0 < compare (pq.heap p).data (pq.heap (p + 1)).data then p + 1 else p

def pqueueMoveUp (compare : α → α → Int) : Nat → Nat → OsslPqueue α → OsslPqueue α
  | 0, _, pq => pq
  | fuel + 1, n, pq =>
    let p := pqueueLesserChild compare n pq
    if p < pq.htop ∧ compare (pq.heap p).data (pq.heap n).data < 0 then
      pqueueMoveUp compare fuel p (pqueueSwapElem p n pq)
    else pq

def pqueueAddFreelist (start : Nat) (pq : OsslPqueue α) : OsslPqueue α :=
  { pq with
    elements := fun i =>
      if i = start then pq.freelist
      else if start < i ∧ i < pq.hmax then i - 1
      else pq.elements i
    freelist := pq.hmax - 1 }

def pqueueReserve (mem : Bool) (n : Nat) (pq : OsslPqueue α) : Option (OsslPqueue α) :=
  if pq.htop + n < pq.hmax then some pq
  else
    let newMax := computePqueueGrowth (n + pq.hmax) pq.hmax
    if newMax = 0 then none
    else if ¬ mem then none
    else some (pqueueAddFreelist pq.hmax { pq with hmax := newMax })

def pqueuePush (compare : α → α → Int) (mem : Bool) (data : α) (pq : OsslPqueue α) :
    Option (OsslPqueue α × Nat) := do
  let pq ← pqueueReserve mem 1 pq
  let n := pq.htop
  let m := pq.freelist
  let pushed :=
    { pq with
      htop := n + 1
      freelist := pq.elements m
      heap := Function.update pq.heap n { data, index := m }
      elements := Function.update pq.elements m n }
  pure (pqueueMoveDown compare (n + 1) n pushed, m)

def pqueuePeek (pq : OsslPqueue α) : Option α := if 0 < pq.htop then some (pq.heap 0).data else none

def pqueueFreeElem (elem : Nat) (pq : OsslPqueue α) : OsslPqueue α :=
  { pq with elements := Function.update pq.elements elem pq.freelist, freelist := elem }

def pqueuePop (compare : α → α → Int) (pq : OsslPqueue α) : Option α × OsslPqueue α :=
  if pq.htop = 0 then (none, pq)
  else
    let first := pq.heap 0
    let last := pq.htop - 1
    let cut := { pq with htop := last }
    let filled :=
      if last ≠ 0 then pqueueMoveUp compare (last + 1) 0 (pqueueMoveElem last 0 cut) else cut
    (some first.data, pqueueFreeElem first.index filled)

def pqueueRemove (compare : α → α → Int) (elem : Nat) (pq : OsslPqueue α) :
    Option α × OsslPqueue α :=
  if pq.hmax ≤ elem ∨ pq.htop = 0 then (none, pq)
  else
    let n := pq.elements elem
    if n = pq.htop - 1 then
      (some (pq.heap n).data, { pqueueFreeElem elem pq with htop := pq.htop - 1 })
    else pqueuePop compare (if 0 < n then pqueueForceBottom (n + 1) n pq else pq)

def pqueueNum (pq : OsslPqueue α) : Nat := pq.htop

def pqueueNew [Inhabited α] : OsslPqueue α :=
  pqueueAddFreelist 0
    { heap := fun _ => { data := default, index := 0 }, elements := fun _ => 0
      htop := 0, hmax := minNodes, freelist := 0 }

end Ossl
