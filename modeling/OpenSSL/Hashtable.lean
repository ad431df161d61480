import Mathlib.Algebra.Group.Nat.Defs
import Mathlib.Data.List.Basic
import Mathlib.Tactic.Common

/- The neighbourhood hash table: rows of neighborhoodLen slots, chosen by the low
   bits of the hash of a key. A table for lockless reads never deletes and never
   grows, and goes on to the next row when one is full. -/
namespace Ossl

def neighborhoodLen : Nat := 4
def defaultNeighLen : Nat := 16

structure HtEntry (α : Type) where
  hash : UInt64
  key : List UInt8
  value : α
  deriving DecidableEq

/-- The rows of slots, the configuration and the counters of a table. -/
structure Ht (α : Type) where
  lockless : Bool
  hashFn : List UInt8 → UInt64
  slots : Nat → Nat → Option (HtEntry α)
  mask : Nat
  neighborhoodsLen : Nat
  valueCount : Nat

variable {α : Type}

def setSlot (slots : Nat → Nat → Option (HtEntry α)) (n j : Nat) (entry : Option (HtEntry α)) :
    Nat → Nat → Option (HtEntry α) :=
  fun n' j' => if n' = n ∧ j' = j then entry else slots n' j'

/-- Keys of one size are compared, and all others match. -/
def matchKey (a b : List UInt8) : Bool := if a.length = b.length then a = b else true

/-- What a search through a row or the table comes to: the slot of an entry that
    matches, or the empty slot to use, or none. -/
inductive HtScan (α : Type) where
  | found (n j : Nat) (entry : HtEntry α)
  | free (n j : Nat)
  | full (n : Nat)

/-- The slots of row n from j on, left of them, with the last empty slot seen. -/
def scanRow (t : Ht α) (hash : UInt64) (key : List UInt8) (n : Nat) :
    Nat → Nat → Option Nat → HtScan α
  | 0, _, none => .full n
  | 0, _, some empty => .free n empty
  | left + 1, j, empty =>
    match t.slots n j with
    | none => if t.lockless then .free n j else scanRow t hash key n left (j + 1) (some j)
    | some entry =>
      if hash = entry.hash ∧ matchKey key entry.key then .found n j entry
      else scanRow t hash key n left (j + 1) empty

/-- The do loop over the rows from n on; the table has fuel rows left. -/
def scanRows (t : Ht α) (hash : UInt64) (key : List UInt8) (start : Nat) : Nat → Nat → HtScan α
  | 0, n => .full n
  | fuel + 1, n =>
    match scanRow t hash key n neighborhoodLen 0 none with
    | .full _ =>
      if t.lockless then
        let next := (n + 1) &&& t.mask
        if next = start then .full next else scanRows t hash key start fuel next
      else .full n
    | stop => stop

/-- The loops of ossl_ht_insert_locked, ossl_ht_get and ossl_ht_delete. -/
def scan (t : Ht α) (key : List UInt8) : HtScan α :=
  let start := (t.hashFn key).toNat &&& t.mask
  scanRows t (t.hashFn key) key start (t.mask + 1) start

/-- ossl_ht_insert_locked; wanted says that olddata is not NULL. -/
def htInsertLocked (t : Ht α) (key : List UInt8) (value : α) (wanted : Bool) :
    Ht α × Int × Option α :=
  match scan t key with
  | .found n j entry =>
    if wanted then
      ({ t with slots := setSlot t.slots n j (some ⟨t.hashFn key, key, value⟩) }, 1,
        some entry.value)
    else (t, 0, none)
  | .free n j =>
    ({ t with
        slots := setSlot t.slots n j (some ⟨t.hashFn key, key, value⟩)
        valueCount := t.valueCount + 1 }, 1, none)
  | .full _ => (t, -1, none)

/-- The first empty slot of a new row, from j on. -/
def freeSlot (row : Nat → Option (HtEntry α)) : Nat → Nat → Option Nat
  | 0, _ => none
  | left + 1, j => if row j = none then some j else freeSlot row left (j + 1)

/-- The entries of the old table, in the order grow_hashtable visits them. -/
def oldEntries (t : Ht α) : List (HtEntry α) :=
  (List.range t.neighborhoodsLen).flatMap fun n =>
    (List.range neighborhoodLen).filterMap fun j => t.slots n j

/-- The entries moved into rows under the new mask; none when a row is full. -/
def rehash (mask : Nat) :
    List (HtEntry α) → (Nat → Nat → Option (HtEntry α)) → Option (Nat → Nat → Option (HtEntry α))
  | [], slots => some slots
  | entry :: rest, slots =>
    let n := entry.hash.toNat &&& mask
    match freeSlot (slots n) neighborhoodLen 0 with
    | none => none
    | some j => rehash mask rest (setSlot slots n j (some entry))
/-- grow_hashtable; a full row makes it start again with the size doubled, fuel
    times at most. -/
def growHashtable : Nat → Ht α → Nat → Option (Ht α)
  | 0, _, _ => none
  | fuel + 1, t, oldsize =>
    let newsize := oldsize * 2
    if t.lockless then none
    else
      match rehash (newsize - 1) (oldEntries t) (fun _ _ => none) with
      | none => growHashtable fuel t newsize
      | some slots =>
        some { t with slots := slots, mask := newsize - 1, neighborhoodsLen := newsize }

/-- The loop of ossl_ht_insert, with left chances to grow. -/
def htInsertLoop (key : List UInt8) (value : α) (wanted : Bool) :
    Nat → Ht α → Ht α × Int × Option α
  | 0, t => htInsertLocked t key value wanted
  | left + 1, t =>
    let (t', rc, old) := htInsertLocked t key value wanted
    if rc = -1 then
      match growHashtable 64 t' t'.neighborhoodsLen with
      | none => (t', -1, none)
      | some t => htInsertLoop key value wanted left t
    else (t', rc, old)

/-- ossl_ht_insert; none is a value that is NULL. -/
def htInsert (t : Ht α) (key : List UInt8) (value : Option α) (wanted : Bool) :
    Ht α × Int × Option α :=
  match value with
  | none => (t, 0, none)
  | some value => htInsertLoop key value wanted 4 t

def htGet (t : Ht α) (key : List UInt8) : Option α :=
  match scan t key with
  | .found _ _ entry => some entry.value
  | _ => none

def htDelete (t : Ht α) (key : List UInt8) : Ht α × Int :=
  if t.lockless then (t, 0)
  else
    match scan t key with
    | .found n j _ =>
      ({ t with slots := setSlot t.slots n j none, valueCount := t.valueCount - 1 }, 1)
    | _ => (t, 0)

def htFlush (t : Ht α) : Ht α × Int :=
  ({ t with
      slots := fun _ _ => none
      mask := defaultNeighLen - 1
      neighborhoodsLen := defaultNeighLen
      valueCount := 0 }, 1)

def htCount (t : Ht α) : Nat := t.valueCount

/-- A new table, with 2 ^ k neighbourhoods. -/
def htNew (lockless : Bool) (hashFn : List UInt8 → UInt64) (k : Nat) : Ht α :=
  ⟨lockless, hashFn, fun _ _ => none, 2 ^ k - 1, 2 ^ k, 0⟩

end Ossl
