import OpenSSL.Lib.Bisect

/- The stacks of crypto/stack/stack.c and the search of crypto/bsearch.c. Pointers are of any type
   with a null among them, comparison functions are named by the type Cmp. room is whether there is
   memory. -/
namespace Ossl
open Bisect

structure OpensslStack (Ptr Cmp : Type) where
  data : List Ptr
  sorted : Bool
  comp : Option Cmp

def skMaxNodes : Nat := 2147483647

variable {Ptr Cmp : Type} [DecidableEq Ptr] [DecidableEq Cmp]
variable (null : Ptr) (compare : Cmp → Ptr → Ptr → Int)

def opensslSkNew (c : Option Cmp) : OpensslStack Ptr Cmp := ⟨[], true, c⟩

def opensslSkSetCmpFunc (st : OpensslStack Ptr Cmp) (c : Option Cmp) : OpensslStack Ptr Cmp :=
  { st with
    sorted := if st.comp ≠ c ∧ 1 < st.data.length then false else st.sorted
    comp := c }

def opensslSkDup (room : Bool) (st : OpensslStack Ptr Cmp) : Option (OpensslStack Ptr Cmp) :=
  if room then some { st with data := st.data } else none

def opensslSkInsert (room : Bool) (st : OpensslStack Ptr Cmp) (ptr : Ptr) (loc : Int) :
    Nat × OpensslStack Ptr Cmp :=
  if st.data.length = skMaxNodes ∨ room = false then (0, st)
  else
    let loc := if (st.data.length : Int) ≤ loc ∨ loc < 0 then st.data.length else loc.toNat
    let data := st.data.take loc ++ ptr :: st.data.drop loc
    let num := data.length
    let sorted :=
      if st.sorted = true ∧ 1 < num then
        match st.comp with
        | some c =>
          let before := decide (0 < loc ∧ 0 < compare c (data.getD (loc - 1) null) (data.getD loc null))
          let after := decide (loc < num - 1 ∧
            compare c (data.getD (loc + 1) null) (data.getD loc null) < 0)
          !before && !after
        | none => false
      else st.sorted
    (num, { st with data := data, sorted := sorted })

def opensslSkPush (room : Bool) (st : OpensslStack Ptr Cmp) (ptr : Ptr) :
    Nat × OpensslStack Ptr Cmp :=
  opensslSkInsert null compare room st ptr st.data.length

def opensslSkUnshift (room : Bool) (st : OpensslStack Ptr Cmp) (ptr : Ptr) :
    Nat × OpensslStack Ptr Cmp :=
  opensslSkInsert null compare room st ptr 0

def internalDelete (st : OpensslStack Ptr Cmp) (loc : Nat) : Ptr × OpensslStack Ptr Cmp :=
  let data := st.data.eraseIdx loc
  (st.data.getD loc null, { st with data := data, sorted := st.sorted || decide (data.length ≤ 1) })

def opensslSkDeletePtr (st : OpensslStack Ptr Cmp) (p : Ptr) : Ptr × OpensslStack Ptr Cmp :=
  match st.data.findIdx? (· == p) with
  | some i => internalDelete null st i
  | none => (null, st)

def opensslSkDelete (st : OpensslStack Ptr Cmp) (loc : Int) : Ptr × OpensslStack Ptr Cmp :=
  if loc < 0 ∨ (st.data.length : Int) ≤ loc then (null, st) else internalDelete null st loc.toNat

def opensslSkShift (st : OpensslStack Ptr Cmp) : Ptr × OpensslStack Ptr Cmp :=
  if st.data.length = 0 then (null, st) else internalDelete null st 0

def opensslSkPop (st : OpensslStack Ptr Cmp) : Ptr × OpensslStack Ptr Cmp :=
  if st.data.length = 0 then (null, st) else internalDelete null st (st.data.length - 1)

def opensslSkZero (st : OpensslStack Ptr Cmp) : OpensslStack Ptr Cmp :=
  if st.data.length = 0 then st else { st with data := [] }

def opensslSkSet (st : OpensslStack Ptr Cmp) (i : Int) (ptr : Ptr) : Ptr × OpensslStack Ptr Cmp :=
  if i < 0 ∨ (st.data.length : Int) ≤ i then (null, st)
  else (ptr, { st with data := st.data.set i.toNat ptr, sorted := decide (st.data.length ≤ 1) })

def opensslSkSort (qsort : Cmp → List Ptr → List Ptr) (st : OpensslStack Ptr Cmp) :
    OpensslStack Ptr Cmp :=
  match st.comp with
  | some c =>
    if st.sorted then st
    else { st with data := if 1 < st.data.length then qsort c st.data else st.data, sorted := true }
  | none => st

structure BsearchFlags where
  valueOnNomatch : Bool
  firstValueOnMatch : Bool

/- The byte offset i * size of an element is an int: from this many pointers on it overflows, and
   there is no result. -/
def bsearchMax : Nat := 2147483648 / 8

def osslBsearch (cmp : Ptr → Ptr → Int) (key : Ptr) (base : List Ptr) (flags : BsearchFlags) :
    Option (Option Nat) :=
  if base.length = 0 then some none
  else
    let sign := fun i => cmp key (base.getD i null)
    (halve sign bsearchMax base.length 0 base.length 0 0).map fun (i, c) =>
      if c ≠ 0 ∧ flags.valueOnNomatch = false then none
      else if c = 0 ∧ flags.firstValueOnMatch = true then some (descend sign i)
      else some i

def findRounds (cmp : Ptr → Int) (one : Bool) : List Ptr → Nat → Int → Int → Int × Int
  | [], _, res, pnum => (res, if res = -1 then 0 else pnum)
  | x :: rest, i, res, pnum =>
    if cmp x = 0 then
      if one then (i, pnum + 1)
      else findRounds cmp one rest (i + 1) (if res = -1 then i else res) (pnum + 1)
    else findRounds cmp one rest (i + 1) res pnum

def internalFind (st : OpensslStack Ptr Cmp) (data : Ptr) (options : BsearchFlags)
    (pnumMatched : Option Int) : Option (Int × Int) :=
  let pnum := pnumMatched.getD 0
  if st.data.length = 0 then some (-1, pnum)
  else
    match st.comp with
    | none =>
      match st.data.findIdx? (· == data) with
      | some i => some (i, 1)
      | none => some (-1, 0)
    | some c =>
      if data = null then some (-1, pnum)
      else if st.sorted = false then
        some (findRounds (compare c data) pnumMatched.isNone st.data 0 (-1) pnum)
      else
        let options :=
          if pnumMatched.isSome then { options with firstValueOnMatch := true } else options
        (osslBsearch null (compare c) data st.data options).map fun
        | none => (-1, if pnumMatched.isSome then 0 else pnum)
        | some i =>
          (i, if pnumMatched.isSome then
            ((st.data.drop i).takeWhile (fun x => compare c data x == 0)).length else pnum)

def opensslSkFind (st : OpensslStack Ptr Cmp) (data : Ptr) : Option Int :=
  (internalFind null compare st data ⟨false, true⟩ none).map Prod.fst

def opensslSkFindAll (st : OpensslStack Ptr Cmp) (data : Ptr) (pnum : Int) :
    Option (Int × Int) :=
  internalFind null compare st data ⟨false, true⟩ (some pnum)

end Ossl
