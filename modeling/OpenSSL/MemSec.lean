import Mathlib.Data.Nat.Basic
import OpenSSL.Lib.Slots

/- The secure heap: an arena handed out in blocks whose sizes are powers of two. Pointers are
   offsets into the arena; there is no result where an assertion fails. -/
namespace Ossl
open Slots

def sizeofShList : Nat := 16

abbrev ShList := Slots.Node Nat Nat

/- freelist is the table of list heads, and the arena matters for the list headers in it. -/
structure Sh where
  arenaSize : Nat
  minsize : Nat
  freelistSize : Nat
  bittableSize : Nat
  bittable : Nat → Bool
  bitmalloc : Nat → Bool
  lists : Slots.Store Nat Nat

def Sh.freelist (sh : Sh) (list : Nat) : Option Nat := sh.lists.heads list

def opensslAssert (holds : Bool) : Option Unit := if holds then some () else none

def withinArena (sh : Sh) (ptr : Nat) : Bool := ptr < sh.arenaSize

def withinFreelist (sh : Sh) (list : Nat) : Bool := list < sh.freelistSize

def withinEither (sh : Sh) : Option (Slot Nat Nat) → Bool
  | none => false
  | some (.head list) => withinFreelist sh list
  | some (.next ptr) => withinArena sh ptr

def getlistLoop (sh : Sh) : Nat → Nat → Nat → Option Nat
  | 0, _, _ => none
  | fuel + 1, bit, list =>
    if bit = 0 then some list
    else if sh.bittable bit then some list
    else do
      opensslAssert (bit &&& 1 = 0)
      getlistLoop sh fuel (bit >>> 1) (list - 1)

def shGetlist (sh : Sh) (ptr : Nat) : Option Nat :=
  getlistLoop sh sh.freelistSize ((sh.arenaSize + ptr) / sh.minsize) (sh.freelistSize - 1)

def tableBit (sh : Sh) (ptr list : Nat) : Nat := (1 <<< list) + ptr / (sh.arenaSize >>> list)

/- The assertions that sh_testbit, sh_clearbit and sh_setbit make before they touch a table. -/
def checkBit (sh : Sh) (ptr list : Nat) : Option Nat := do
  opensslAssert (withinFreelist sh list)
  opensslAssert (ptr &&& ((sh.arenaSize >>> list) - 1) = 0)
  let bit := tableBit sh ptr list
  opensslAssert (0 < bit ∧ bit < sh.bittableSize)
  return bit

def shTestbit (sh : Sh) (ptr list : Nat) (table : Nat → Bool) : Option Bool := do
  let bit ← checkBit sh ptr list
  return table bit

def shClearbit (sh : Sh) (ptr list : Nat) (table : Nat → Bool) : Option (Nat → Bool) := do
  let bit ← checkBit sh ptr list
  opensslAssert (table bit)
  return Function.update table bit false

def shSetbit (sh : Sh) (ptr list : Nat) (table : Nat → Bool) : Option (Nat → Bool) := do
  let bit ← checkBit sh ptr list
  opensslAssert (!table bit)
  return Function.update table bit true

def shAddToList (sh : Sh) (list ptr : Nat) : Option Sh := do
  opensslAssert (withinFreelist sh list)
  opensslAssert (withinArena sh ptr)
  let next := sh.freelist list
  let temp := sh.lists.write ptr ⟨next, some (.head list)⟩
  opensslAssert (next.all (withinArena sh))
  opensslAssert (next.all fun n => temp.back n = some (.head list))
  return { sh with lists := sh.lists.insert list ptr }

def shRemoveFromList (sh : Sh) (ptr : Nat) : Option Sh := do
  let lists ← sh.lists.remove ptr
  match (lists.nodes ptr).next with
  | none => return { sh with lists }
  | some temp2 =>
    opensslAssert (withinEither sh (lists.back temp2))
    return { sh with lists }

/- The smallest power of two that holds the header, as the shifts compute it. -/
def roundedMinsize : Nat :=
  let m := sizeofShList - 1
  let m := m ||| m >>> 1
  let m := m ||| m >>> 2
  let m := if sizeofShList > 16 then m ||| m >>> 4 else m
  let m := if sizeofShList > 256 then m ||| m >>> 8 else m
  m + 1

def checkedMinsize (minsize : Nat) : Option Nat :=
  if minsize ≤ sizeofShList then some roundedMinsize
  else do
    opensslAssert (minsize &&& (minsize - 1) = 0)
    return minsize

def halvings : Nat → Nat → Nat
  | 0, _ => 0
  | fuel + 1, i => if i = 0 then 0 else halvings fuel (i >>> 1) + 1

def zeroedNode : ShList := ⟨none, none⟩

def shInit (size minsize : Nat) : Option Sh := do
  opensslAssert (size > 0)
  opensslAssert (size &&& (size - 1) = 0)
  let minsize ← checkedMinsize minsize
  let bittableSize := size / minsize * 2
  if bittableSize >>> 3 = 0 then none
  else do
    let freelistSize := halvings bittableSize bittableSize - 1
    let sh : Sh := ⟨size, minsize, freelistSize, bittableSize, fun _ => false, fun _ => false,
      ⟨fun _ => none, fun _ => zeroedNode⟩⟩
    let bittable ← shSetbit sh 0 0 sh.bittable
    shAddToList { sh with bittable } 0 0

def shFindMyBuddy (sh : Sh) (ptr list : Nat) : Option Nat :=
  let bit := tableBit sh ptr list ^^^ 1
  if sh.bittable bit && !sh.bitmalloc bit then
    some ((bit &&& ((1 <<< list) - 1)) * (sh.arenaSize >>> list))
  else none

/- Where two buddies are taken, the first one is tested both times. -/
def takeFree (sh : Sh) (tested ptr list : Nat) : Option Sh := do
  opensslAssert (!(← shTestbit sh tested list sh.bitmalloc))
  let bittable ← shClearbit sh ptr list sh.bittable
  shRemoveFromList { sh with bittable } ptr

def addFree (sh : Sh) (ptr list : Nat) : Option Sh := do
  opensslAssert (!(← shTestbit sh ptr list sh.bitmalloc))
  let bittable ← shSetbit sh ptr list sh.bittable
  let sh ← shAddToList { sh with bittable } list ptr
  opensslAssert (sh.freelist list = some ptr)
  return sh

def listFor (size : Nat) : Nat → Nat → Int → Int
  | 0, _, list => list
  | fuel + 1, i, list => if i < size then listFor size fuel (i <<< 1) (list - 1) else list

def findList (sh : Sh) : Nat → Option Nat
  | 0 => if (sh.freelist 0).isSome then some 0 else none
  | slist + 1 => if (sh.freelist (slist + 1)).isSome then some (slist + 1) else findList sh slist

def splitEntry (sh : Sh) (slist : Nat) : Option Sh := do
  let temp ← sh.freelist slist
  let sh ← takeFree sh temp temp slist
  opensslAssert (some temp ≠ sh.freelist slist)
  let sh ← addFree sh temp (slist + 1)
  let temp := temp + sh.arenaSize >>> (slist + 1)
  let sh ← addFree sh temp (slist + 1)
  opensslAssert (some (temp - sh.arenaSize >>> (slist + 1)) = shFindMyBuddy sh temp (slist + 1))
  return sh

def splitLoop (sh : Sh) : Nat → Nat → Option Sh
  | 0, _ => some sh
  | steps + 1, slist => do
    let sh ← splitEntry sh slist
    splitLoop sh steps (slist + 1)

def peelOff (sh : Sh) (list : Nat) : Option (Nat × Sh) := do
  let chunk ← sh.freelist list
  opensslAssert (← shTestbit sh chunk list sh.bittable)
  let bitmalloc ← shSetbit sh chunk list sh.bitmalloc
  let sh ← shRemoveFromList { sh with bitmalloc } chunk
  opensslAssert (withinArena sh chunk)
  return (chunk, { sh with lists := sh.lists.write chunk zeroedNode })

def shMalloc (sh : Sh) (size : Nat) : Option (Option Nat × Sh) :=
  if size > sh.arenaSize then some (none, sh)
  else
    let list := listFor size size sh.minsize (sh.freelistSize - 1)
    if list < 0 then some (none, sh)
    else match findList sh list.toNat with
      | none => some (none, sh)
      | some slist => do
        let sh ← splitLoop sh (list.toNat - slist) slist
        let (chunk, sh) ← peelOff sh list.toNat
        return (some chunk, sh)

def mergeWith (sh : Sh) (ptr buddy list : Nat) : Option Sh := do
  opensslAssert (some ptr = shFindMyBuddy sh buddy (list + 1))
  let sh ← takeFree sh ptr ptr (list + 1)
  let sh ← takeFree sh ptr buddy (list + 1)
  let sh := { sh with lists := sh.lists.write (max ptr buddy) zeroedNode }
  addFree sh (min ptr buddy) list

/- A buddy on list 0 would make the list negative, which the next assertion refuses. -/
def coalesce (sh : Sh) (ptr : Nat) : Nat → Option Sh
  | 0 => if (shFindMyBuddy sh ptr 0).isSome then none else some sh
  | list + 1 =>
    match shFindMyBuddy sh ptr (list + 1) with
    | none => some sh
    | some buddy => do
      let sh ← mergeWith sh ptr buddy list
      coalesce sh (min ptr buddy) list

def shFree (sh : Sh) (ptr : Option Nat) : Option Sh :=
  match ptr with
  | none => some sh
  | some ptr => do
    opensslAssert (withinArena sh ptr)
    let list ← shGetlist sh ptr
    opensslAssert (← shTestbit sh ptr list sh.bittable)
    let bitmalloc ← shClearbit sh ptr list sh.bitmalloc
    let sh ← shAddToList { sh with bitmalloc } list ptr
    coalesce sh ptr list

end Ossl
