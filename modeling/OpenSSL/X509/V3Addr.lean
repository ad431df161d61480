import OpenSSL.Lib.BigEndian
import OpenSSL.Lib.Cover
import Mathlib.Data.List.DropRight
import Mathlib.Data.Nat.Basic

/- IP address delegation in certificates: crypto/x509/v3_addr.c. The pointer of a stack
   stands beside its elements, since the code compares pointers. -/
namespace Ossl
open Bool List Option BigEndian Spans Cover

instance eight_bits : NeZero 8 := ⟨by decide⟩

/- The octets of an ASN1_BIT_STRING and the number of unused bits in its flags. -/
structure BitString where
  data : List UInt8
  bitsLeft : Fin 8
  deriving DecidableEq

inductive IPAddressOrRange where
  | addressPrefix (bs : BitString)
  | addressRange (min max : BitString)
  deriving DecidableEq

structure IPAddressOrRanges where
  ptr : Nat
  elems : List IPAddressOrRange
  cmp : Option Nat
  deriving DecidableEq

inductive IPAddressChoice where
  | inherit
  | addressesOrRanges (aors : IPAddressOrRanges)
  deriving DecidableEq

structure IPAddressFamily where
  addressFamily : List UInt8
  ipAddressChoice : IPAddressChoice
  deriving DecidableEq

structure IPAddrBlocks where
  ptr : Nat
  families : List IPAddressFamily
  deriving DecidableEq

def lengthFromAfi (afi : Nat) : Nat := if afi = 1 then 4 else if afi = 2 then 16 else 0

def addrGetAfi (f : IPAddressFamily) : Nat :=
  match f.addressFamily with
  | b0 :: b1 :: _ => b0.toNat <<< 8 ||| b1.toNat
  | _ => 0

def memcmp : List UInt8 → List UInt8 → Int
  | a :: as, b :: bs => if a = b then memcmp as bs else (a.toNat : Int) - b.toNat
  | _, _ => 0

def mapLast (f : UInt8 → UInt8) : List UInt8 → List UInt8
  | [] => []
  | [a] => [f a]
  | a :: b :: rest => a :: mapLast f (b :: rest)

def addrExpand (bs : BitString) (length : Nat) (fill : UInt8) : Option (List UInt8) :=
  if length < bs.data.length then none
  else
    let mask : UInt8 := 0xFF >>> UInt8.ofNat (8 - bs.bitsLeft.val)
    let addr :=
      if bs.bitsLeft.val ≠ 0 then
        mapLast (fun b => if fill = 0 then b &&& ~~~mask else b ||| mask) bs.data
      else bs.data
    some (addr ++ replicate (length - bs.data.length) fill)

def extractMinMax (length : Nat) : IPAddressOrRange → Option (List UInt8 × List UInt8)
  | .addressPrefix bs => do
    let min ← addrExpand bs length 0x00
    let max ← addrExpand bs length 0xFF
    some (min, max)
  | .addressRange min max => do
    let min ← addrExpand min length 0x00
    let max ← addrExpand max length 0xFF
    some (min, max)

def prefixBit (mask : UInt8) : Option Nat :=
  match mask.toNat with
  | 0x01 => some 7
  | 0x03 => some 6
  | 0x07 => some 5
  | 0x0F => some 4
  | 0x1F => some 3
  | 0x3F => some 2
  | 0x7F => some 1
  | _ => none

def rangeShouldBePrefix (min max : List UInt8) : Option Nat :=
  let i := ((min.zip max).takeWhile fun p => p.1 == p.2).length
  let j : Int := ((min.zip max).rdropWhile fun p => p.1 == 0x00 && p.2 == 0xFF).length - 1
  if (i : Int) < j then none
  else if j < i then some (i * 8)
  else
    let mask := min.getD i 0 ^^^ max.getD i 0
    match prefixBit mask with
    | none => none
    | some bit =>
      if min.getD i 0 &&& mask ≠ 0 ∨ max.getD i 0 &&& mask ≠ mask then none
      else some (i * 8 + bit)

def familyCmp (a b : IPAddressFamily) : Int :=
  let len := Nat.min a.addressFamily.length b.addressFamily.length
  let cmp := memcmp (a.addressFamily.take len) (b.addressFamily.take len)
  if cmp ≠ 0 then cmp else (a.addressFamily.length : Int) - b.addressFamily.length

def familyCheckLen (f : IPAddressFamily) : Bool :=
  decide (2 ≤ f.addressFamily.length ∧ f.addressFamily.length ≤ 3)

def borrow : List UInt8 → List UInt8 × Bool
  | [] => ([], true)
  | b :: rest =>
    let (rest, more) := borrow rest
    if more then ((b - 1) :: rest, b == 0) else (b :: rest, false)

def familiesInOrder : List IPAddressFamily → Bool
  | a :: b :: rest =>
    familyCheckLen a && familyCheckLen b && decide (familyCmp a b < 0) &&
      familiesInOrder (b :: rest)
  | _ => true

def isRange : IPAddressOrRange → Bool
  | .addressPrefix _ => false
  | .addressRange _ _ => true

def pairIsCanonical (length : Nat) (a b : IPAddressOrRange) : Bool :=
  match extractMinMax length a, extractMinMax length b with
  | some (aMin, aMax), some (bMin, bMax) =>
    decide (memcmp aMin bMin < 0) && decide (memcmp aMin aMax ≤ 0) &&
      decide (memcmp bMin bMax ≤ 0) && decide (memcmp aMax (borrow bMin).1 < 0) &&
      !(isRange a && (rangeShouldBePrefix aMin aMax).isSome)
  | _, _ => false

def lastIsCanonical (length : Nat) (a : IPAddressOrRange) : Bool :=
  if isRange a then
    match extractMinMax length a with
    | none => false
    | some (aMin, aMax) =>
      decide (memcmp aMin aMax ≤ 0) && !(rangeShouldBePrefix aMin aMax).isSome
  else true

def aorsAreCanonical (length : Nat) : List IPAddressOrRange → Bool
  | [] => false
  | [a] => lastIsCanonical length a
  | a :: b :: rest => pairIsCanonical length a b && aorsAreCanonical length (b :: rest)

def familyIsCanonical (f : IPAddressFamily) : Bool :=
  match f.ipAddressChoice with
  | .inherit => true
  | .addressesOrRanges aors =>
    familyCheckLen f && aorsAreCanonical (lengthFromAfi (addrGetAfi f)) aors.elems

def addrIsCanonical : Option IPAddrBlocks → Bool
  | none => true
  | some addr => familiesInOrder addr.families && addr.families.all familyIsCanonical

def familyInherits (f : IPAddressFamily) : Bool := decide (f.ipAddressChoice = .inherit)

def addrInherits : Option IPAddrBlocks → Bool
  | none => false
  | some addr => addr.families.any familyInherits

def addrContains (parent child : IPAddressOrRanges) (length : Nat) : Bool :=
  if parent.ptr = child.ptr then true
  else contains (extractMinMax length) memcmp parent.elems child.elems

def sortFamilies (families : List IPAddressFamily) : List IPAddressFamily :=
  families.mergeSort fun a b => decide (familyCmp a b ≤ 0)

def findFamily (families : List IPAddressFamily) (f : IPAddressFamily) : Option IPAddressFamily :=
  families.find? fun g => decide (familyCmp f g = 0)

def addrSubset (a b : Option IPAddrBlocks) : Bool :=
  match a, b with
  | none, _ => true
  | some _, none => false
  | some a, some b =>
    if a.ptr = b.ptr then true
    else if addrInherits (some a) ∨ addrInherits (some b) then false
    else
      let sorted := sortFamilies b.families
      a.families.all fun fa =>
        match findFamily sorted fa with
        | none => false
        | some fb =>
          familyCheckLen fa && familyCheckLen fb &&
            match fb.ipAddressChoice, fa.ipAddressChoice with
            | .addressesOrRanges parent, .addressesOrRanges child =>
              addrContains parent child (lengthFromAfi (addrGetAfi fb))
            | _, _ => false

def walkFamily (parent : List IPAddressFamily) (fc : IPAddressFamily) : Option IPAddressFamily :=
  match findFamily parent fc with
  | none => if familyInherits fc then some fc else none
  | some fp =>
    if familyCheckLen fc = false ∨ familyCheckLen fp = false then none
    else
      match fp.ipAddressChoice, fc.ipAddressChoice with
      | .inherit, _ => some fc
      | .addressesOrRanges _, .inherit => some fp
      | .addressesOrRanges ranges, .addressesOrRanges claimed =>
        if addrContains ranges claimed (lengthFromAfi (addrGetAfi fc)) then some fp else none

def walkCert (child : List IPAddressFamily) (x : Option IPAddrBlocks) :
    Option (List IPAddressFamily) :=
  if addrIsCanonical x = false then none
  else
    match x with
    | none => if child.all fun fc => familyCheckLen fc && familyInherits fc then some child else none
    | some addr => child.mapM (walkFamily (sortFamilies addr.families))

def addrValidatePathInternal (chain : List (Option IPAddrBlocks)) (ext : IPAddrBlocks) : Bool :=
  if chain = [] then false
  else if addrIsCanonical (some ext) = false then false
  else
    match chain.foldlM walkCert (sortFamilies ext.families) with
    | none => false
    | some child =>
      match chain.getLast? with
      | some (some addr) =>
        (sortFamilies addr.families).all fun fp =>
          familyCheckLen fp && !(familyInherits fp && (findFamily child fp).isSome)
      | _ => true

def addrValidateResourceSet (chain : List (Option IPAddrBlocks)) (ext : Option IPAddrBlocks)
    (allowInheritance : Bool) : Bool :=
  match ext with
  | none => true
  | some ext =>
    if chain = [] then false
    else if allowInheritance = false ∧ addrInherits (some ext) = true then false
    else addrValidatePathInternal chain ext

variable {a b : List UInt8} {bs : BitString}

/-- memcmp orders addresses of one length by their values. -/
theorem memcmp_value (same : a.length = b.length) :
    (memcmp a b < 0 ↔ netValue a < netValue b) ∧ (0 < memcmp a b ↔ netValue b < netValue a) := by
  induction a generalizing b with
  | nil =>
    rw [length_eq_zero_iff.mp same.symm]
    decide
  | cons x a ih =>
    cases b with
    | nil => contradiction
    | cons y b =>
      have lengths : a.length = b.length := Nat.succ.inj same
      have below := netValue_lt a
      have above := netValue_lt b
      rw [netValue_cons, netValue_cons, memcmp, lengths]
      rw [lengths] at below
      by_cases is : x = y
      · rw [if_pos is, is]
        have rest := ih lengths
        omega
      · rw [if_neg is]
        have differ : x.toNat ≠ y.toNat := fun bad => is (UInt8.toNat_inj.mp bad)
        generalize 2 ^ (8 * b.length) = w at below above
        by_cases less : x.toNat < y.toNat
        · have : (x.toNat + 1) * w ≤ y.toNat * w := Nat.mul_le_mul_right w less
          rw [add_mul, one_mul] at this
          omega
        · have : (y.toNat + 1) * w ≤ x.toNat * w := Nat.mul_le_mul_right w (by omega)
          rw [add_mul, one_mul] at this
          omega

theorem mapLast_length (f : UInt8 → UInt8) (l : List UInt8) : (mapLast f l).length = l.length := by
  induction l with
  | nil => rfl
  | cons a l ih =>
    cases l with
    | nil => rfl
    | cons b l => exact congrArg (· + 1) ih

variable {length : Nat}

theorem addrExpand_length {fill : UInt8} {addr : List UInt8}
    (run : addrExpand bs length fill = some addr) : addr.length = length := by
  rw [addrExpand] at run
  by_cases long : length < bs.data.length
  · rw [if_pos long] at run
    contradiction
  · rw [if_neg long] at run
    rw [← some.inj run, length_append, length_replicate]
    by_cases bits : bs.bitsLeft.val ≠ 0
    · rw [if_pos bits, mapLast_length]
      omega
    · rw [if_neg bits]
      omega

variable {r : List UInt8 × List UInt8}

theorem extractMinMax_length {aor : IPAddressOrRange}
    (run : extractMinMax length aor = some r) : r.1.length = length ∧ r.2.length = length := by
  cases aor with
  | addressPrefix bs =>
    obtain ⟨min, low, rest⟩ := bind_eq_some_iff.mp run
    obtain ⟨max, high, is⟩ := bind_eq_some_iff.mp rest
    rw [← some.inj is]
    exact ⟨addrExpand_length low, addrExpand_length high⟩
  | addressRange lowest highest =>
    obtain ⟨min, low, rest⟩ := bind_eq_some_iff.mp run
    obtain ⟨max, high, is⟩ := bind_eq_some_iff.mp rest
    rw [← some.inj is]
    exact ⟨addrExpand_length low, addrExpand_length high⟩

theorem addr_compares (length : Nat) : Compares (extractMinMax length) netValue memcmp := by
  intro b c r s first second
  have one := extractMinMax_length first
  have two := extractMinMax_length second
  constructor
  · exact (memcmp_value (one.2.trans two.2.symm)).1
  · exact (memcmp_value (one.1.trans two.1.symm)).2

theorem netValue_mono (le : List.Forall₂ (fun x y => x.toNat ≤ y.toNat) a b) :
    netValue a ≤ netValue b := by
  induction le with
  | nil => exact le_refl 0
  | @cons x y a b first rest ih =>
    rw [netValue_cons, netValue_cons, rest.length_eq]
    have : x.toNat * 2 ^ (8 * b.length) ≤ y.toNat * 2 ^ (8 * b.length) :=
      Nat.mul_le_mul_right _ first
    omega

theorem mapLast_mono {f g : UInt8 → UInt8} (le : ∀ b, (f b).toNat ≤ (g b).toNat) (l : List UInt8) :
    List.Forall₂ (fun x y => x.toNat ≤ y.toNat) (mapLast f l) (mapLast g l) := by
  induction l with
  | nil => exact .nil
  | cons a l ih =>
    cases l with
    | nil => exact .cons (le a) .nil
    | cons b l => exact .cons (le_refl _) ih

theorem forall₂_refl (l : List UInt8) : List.Forall₂ (fun x y => x.toNat ≤ y.toNat) l l := by
  induction l with
  | nil => exact .nil
  | cons a l ih => exact .cons (le_refl _) ih

theorem addrExpand_le {low high : List UInt8}
    (min : addrExpand bs length 0x00 = some low) (max : addrExpand bs length 0xFF = some high) :
    netValue low ≤ netValue high := by
  rw [addrExpand] at min max
  by_cases long : length < bs.data.length
  · rw [if_pos long] at min
    contradiction
  · rw [if_neg long] at min max
    rw [← some.inj min, ← some.inj max]
    apply netValue_mono
    apply rel_append
    · by_cases bits : bs.bitsLeft.val ≠ 0
      · rw [if_pos bits, if_pos bits]
        apply mapLast_mono
        intro b
        rw [if_pos rfl, if_neg (by decide), UInt8.toNat_and, UInt8.toNat_or]
        exact le_trans Nat.and_le_left Nat.left_le_or
      · rw [if_neg bits, if_neg bits]
        exact forall₂_refl _
    · generalize length - bs.data.length = n
      induction n with
      | zero => exact .nil
      | succ n ih => exact .cons (by decide) ih

/-- The borrow takes one away, or there was nothing to take from. -/
theorem borrow_value (b : List UInt8) :
    (borrow b).1.length = b.length ∧
      ((borrow b).2 = false → netValue (borrow b).1 + 1 = netValue b) ∧
      ((borrow b).2 = true → netValue b = 0 ∧ netValue (borrow b).1 + 1 = 2 ^ (8 * b.length)) := by
  induction b with
  | nil =>
    refine ⟨rfl, nofun, fun _ => ⟨rfl, rfl⟩⟩
  | cons x b ih =>
    obtain ⟨length, stop, more⟩ := ih
    rw [borrow]
    dsimp only
    cases again : (borrow b).2 with
    | false =>
      rw [if_neg Bool.false_ne_true]
      refine ⟨congrArg (· + 1) length, fun _ => ?_, nofun⟩
      rw [netValue_cons, netValue_cons, length, add_assoc, stop again]
    | true =>
      obtain ⟨zero, top⟩ := more again
      rw [if_pos rfl]
      refine ⟨congrArg (· + 1) length, ?_, ?_⟩
      · intro some_
        have positive : x.toNat ≠ 0 := by
          intro bad
          rw [UInt8.toNat_inj.mp (bad.trans UInt8.toNat_zero.symm)] at some_
          contradiction
        have less : (x - 1).toNat = x.toNat - 1 := by
          rw [UInt8.toNat_sub_of_le]
          · rfl
          · rw [UInt8.le_iff_toNat_le]
            exact Nat.one_le_iff_ne_zero.mpr positive
        rw [netValue_cons, netValue_cons, length, less, zero, add_assoc, top, add_zero]
        obtain ⟨n, is⟩ := Nat.exists_eq_succ_of_ne_zero positive
        rw [is, Nat.succ_sub_one]
        exact (Nat.succ_mul n _).symm
      · intro none_
        have is : x = 0 := beq_iff_eq.mp none_
        rw [netValue_cons, netValue_cons, length, zero, is, add_assoc, top, length_cons,
          Nat.mul_succ, pow_add]
        have : (0 - 1 : UInt8).toNat = 255 := by decide
        rw [this, UInt8.toNat_zero]
        omega

theorem borrow_pred (less : netValue a < netValue b) :
    (borrow b).1.length = b.length ∧ netValue (borrow b).1 + 1 = netValue b := by
  obtain ⟨length, stop, more⟩ := borrow_value b
  constructor
  · exact length
  · cases again : (borrow b).2 with
    | false => exact stop again
    | true =>
      have := (more again).1
      omega

def grantsOf (length : Nat) (elems : List IPAddressOrRange) : Set Nat :=
  points (spansOf (extractMinMax length) netValue elems)

theorem prefix_valid (run : extractMinMax length (.addressPrefix bs) = some r) :
    netValue r.1 ≤ netValue r.2 := by
  obtain ⟨min, low, rest⟩ := bind_eq_some_iff.mp run
  obtain ⟨max, high, is⟩ := bind_eq_some_iff.mp rest
  rw [← some.inj is]
  exact addrExpand_le low high

/-- What the test of two neighbours says. -/
theorem pair_canonical {a b : IPAddressOrRange}
    (canonical : pairIsCanonical length a b = true) :
    ∃ r s, extractMinMax length a = some r ∧ extractMinMax length b = some s ∧
      netValue r.1 ≤ netValue r.2 ∧ netValue s.1 ≤ netValue s.2 ∧
      netValue r.2 + 1 < netValue s.1 ∧
      (isRange a = true → rangeShouldBePrefix r.1 r.2 = none) := by
  rw [pairIsCanonical] at canonical
  cases isA : extractMinMax length a with
  | none =>
    rw [isA] at canonical
    contradiction
  | some r =>
    cases isB : extractMinMax length b with
    | none =>
      rw [isA, isB] at canonical
      contradiction
    | some s =>
      obtain ⟨aMin, aMax⟩ := r
      obtain ⟨bMin, bMax⟩ := s
      rw [isA, isB] at canonical
      obtain ⟨wideAMin, wideAMax⟩ := extractMinMax_length isA
      obtain ⟨wideBMin, wideBMax⟩ := extractMinMax_length isB
      simp only [and_eq_true, decide_eq_true_eq, not_eq_true', and_eq_false_iff,
        isSome_eq_false_iff, isNone_iff_eq_none] at canonical
      obtain ⟨⟨⟨⟨order, validA⟩, validB⟩, apart⟩, notPrefix⟩ := canonical
      have starts := (memcmp_value (wideAMin.trans wideBMin.symm)).1.mp order
      have endsA := mt (memcmp_value (wideAMin.trans wideAMax.symm)).2.mpr (not_lt.mpr validA)
      have endsB := mt (memcmp_value (wideBMin.trans wideBMax.symm)).2.mpr (not_lt.mpr validB)
      obtain ⟨size, pred⟩ := borrow_pred starts
      have gap := (memcmp_value (wideAMax.trans (wideBMin.symm.trans size.symm))).1.mp apart
      refine ⟨(aMin, aMax), (bMin, bMax), rfl, rfl, not_lt.mp endsA, not_lt.mp endsB, ?_, ?_⟩
      · omega
      · intro range
        cases notPrefix with
        | inl bad =>
          rw [range] at bad
          contradiction
        | inr none_ => exact none_

/-- A canonical list has room between its spans, unless it is one prefix that is too long
    for an address. -/
theorem canonical_gapped {elems : List IPAddressOrRange}
    (canonical : aorsAreCanonical length elems = true) :
    elems ≠ [] ∧ Gapped (spansOf (extractMinMax length) netValue elems) ∧
      ((∀ a ∈ elems, (extractMinMax length a).isSome = true) ∨
        ∃ bs, elems = [.addressPrefix bs] ∧ extractMinMax length (.addressPrefix bs) = none) := by
  induction elems with
  | nil => contradiction
  | cons a elems ih =>
    cases elems with
    | nil =>
      have one : ∀ r, extractMinMax length a = some r → netValue r.1 ≤ netValue r.2 := by
        intro r is
        cases a with
        | addressPrefix bs => exact prefix_valid is
        | addressRange min max =>
          rw [aorsAreCanonical, lastIsCanonical, is] at canonical
          simp only [isRange, if_true, and_eq_true, decide_eq_true_eq] at canonical
          obtain ⟨wide1, wide2⟩ := extractMinMax_length is
          exact not_lt.mp (mt (memcmp_value (wide1.trans wide2.symm)).2.mpr
            (not_lt.mpr canonical.1))
      cases is : extractMinMax length a with
      | some r =>
        refine ⟨cons_ne_nil a [], ⟨?_, ?_⟩, .inl ?_⟩
        · intro s member
          rw [spansOf_cons is] at member
          rw [mem_singleton.mp member]
          exact one r is
        · rw [spansOf_cons is]
          exact pairwise_singleton _ _
        · intro b member
          rw [mem_singleton.mp member, is]
          rfl
      | none =>
        have empty : spansOf (extractMinMax length) netValue [a] = [] := by
          rw [spansOf, filterMap_cons, spanOf, is]
          rfl
        refine ⟨cons_ne_nil a [], ⟨?_, ?_⟩, .inr ?_⟩
        · rw [empty]
          simp
        · rw [empty]
          exact .nil
        · cases a with
          | addressPrefix bs => exact ⟨bs, rfl, is⟩
          | addressRange min max =>
            rw [aorsAreCanonical, lastIsCanonical, is] at canonical
            contradiction
    | cons b elems =>
      rw [aorsAreCanonical, and_eq_true] at canonical
      obtain ⟨r, s, isA, isB, validA, _, apart, _⟩ := pair_canonical canonical.1
      obtain ⟨_, gapped, all⟩ := ih canonical.2
      have every : ∀ c ∈ b :: elems, (extractMinMax length c).isSome = true := by
        cases all with
        | inl all => exact all
        | inr bad =>
          obtain ⟨bs, split, none_⟩ := bad
          rw [(cons.inj split).1, none_] at isB
          contradiction
      refine ⟨cons_ne_nil a _, ⟨?_, ?_⟩, .inl ?_⟩
      · intro t member
        rw [spansOf_cons isA] at member
        cases mem_cons.mp member with
        | inl is =>
          rw [is]
          exact validA
        | inr later => exact gapped.nonempty t later
      · rw [spansOf_cons isA, pairwise_cons]
        constructor
        · intro t member
          refine ⟨netValue r.2 + 1, Nat.lt_succ_self _, ?_⟩
          have ascending := gapped_ascending gapped
          rw [spansOf_cons isB] at ascending member
          cases mem_cons.mp member with
          | inl is =>
            rw [is]
            exact apart
          | inr later =>
            obtain ⟨valid, _, behind⟩ := ascending_cons.mp ascending
            have := behind t later
            dsimp only at valid this
            omega
        · exact gapped.gap
      · intro c member
        cases mem_cons.mp member with
        | inl is => rw [is, isA, isSome_some]
        | inr later => exact every c later

end Ossl
