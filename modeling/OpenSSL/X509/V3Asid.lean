import OpenSSL.Lib.Cover
import Mathlib.Order.Defs.LinearOrder
import Mathlib.Algebra.Order.Ring.Int

/- AS number delegation in certificates: crypto/x509/v3_asid.c. An ASN1_INTEGER is the
   number it stands for. -/
namespace Ossl
open List Spans Cover

inductive ASIdOrRange where
  | id (n : Int)
  | range (min max : Int)
  deriving DecidableEq

structure ASIdOrRanges where
  ptr : Nat
  elems : List ASIdOrRange
  deriving DecidableEq

inductive ASIdentifierChoice where
  | inherit
  | asIdsOrRanges (ranges : ASIdOrRanges)
  deriving DecidableEq

structure ASIdentifiers where
  ptr : Nat
  asnum : Option ASIdentifierChoice
  rdi : Option ASIdentifierChoice
  deriving DecidableEq

def asn1IntegerCmp (a b : Int) : Int := if a < b then -1 else if b < a then 1 else 0

def asExtractMinMax : ASIdOrRange → Option (Int × Int)
  | .id n => some (n, n)
  | .range min max => some (min, max)

def asPairIsCanonical (a b : ASIdOrRange) : Bool :=
  match asExtractMinMax a, asExtractMinMax b with
  | some (aMin, aMax), some (bMin, bMax) =>
    decide (asn1IntegerCmp aMin bMin < 0) && decide (asn1IntegerCmp aMin aMax ≤ 0) &&
      decide (asn1IntegerCmp bMin bMax ≤ 0) && decide (asn1IntegerCmp (aMax + 1) bMin < 0)
  | _, _ => false

def asLastIsCanonical (a : ASIdOrRange) : Bool :=
  match a with
  | .id _ => true
  | .range min max => decide (asn1IntegerCmp min max ≤ 0)

def asRangesAreCanonical : List ASIdOrRange → Bool
  | [] => false
  | [a] => asLastIsCanonical a
  | a :: b :: rest => asPairIsCanonical a b && asRangesAreCanonical (b :: rest)

def asChoiceIsCanonical : Option ASIdentifierChoice → Bool
  | none => true
  | some .inherit => true
  | some (.asIdsOrRanges ranges) => asRangesAreCanonical ranges.elems

def asidIsCanonical : Option ASIdentifiers → Bool
  | none => true
  | some asid => asChoiceIsCanonical asid.asnum && asChoiceIsCanonical asid.rdi

def asidInherits : Option ASIdentifiers → Bool
  | none => false
  | some asid => decide (asid.asnum = some .inherit) || decide (asid.rdi = some .inherit)

def asidContains (parent : ASIdOrRanges) (child : Option ASIdOrRanges) : Bool :=
  match child with
  | none => true
  | some child =>
    if parent.ptr = child.ptr then true
    else contains asExtractMinMax asn1IntegerCmp parent.elems child.elems

def asChoiceSubset (a b : Option ASIdentifierChoice) : Bool :=
  match a, b with
  | none, _ => true
  | some (.asIdsOrRanges child), some (.asIdsOrRanges parent) => asidContains parent (some child)
  | _, _ => false

def asidSubset (a b : Option ASIdentifiers) : Bool :=
  match a, b with
  | none, _ => true
  | some _, none => false
  | some a, some b =>
    if a.ptr = b.ptr then true
    else if asidInherits (some a) ∨ asidInherits (some b) then false
    else asChoiceSubset a.asnum b.asnum && asChoiceSubset a.rdi b.rdi

structure AsClaim where
  child : Option ASIdOrRanges
  inherit : Bool

def asClaim : Option ASIdentifierChoice → AsClaim
  | none => ⟨none, false⟩
  | some .inherit => ⟨none, true⟩
  | some (.asIdsOrRanges ranges) => ⟨some ranges, false⟩

def walkChoice (choice : Option ASIdentifierChoice) (claim : AsClaim) : Option AsClaim :=
  match choice with
  | none => if claim.child.isSome then none else some claim
  | some .inherit => some claim
  | some (.asIdsOrRanges ranges) =>
    if claim.inherit = true ∨ asidContains ranges claim.child = true then some ⟨some ranges, false⟩
    else none

def walkAsid (claims : AsClaim × AsClaim) (x : Option ASIdentifiers) : Option (AsClaim × AsClaim) :=
  match x with
  | none => if claims.1.child.isSome ∨ claims.2.child.isSome then none else some claims
  | some asid =>
    if asidIsCanonical (some asid) = false then none
    else do
      let asnum ← walkChoice asid.asnum claims.1
      let rdi ← walkChoice asid.rdi claims.2
      some (asnum, rdi)

def asidValidatePathInternal (chain : List (Option ASIdentifiers)) (ext : ASIdentifiers) : Bool :=
  if chain = [] then false
  else if asidIsCanonical (some ext) = false then false
  else
    match chain.foldlM walkAsid (asClaim ext.asnum, asClaim ext.rdi) with
    | none => false
    | some _ =>
      match chain.getLast? with
      | some (some asid) =>
        !decide (asid.asnum = some .inherit) && !decide (asid.rdi = some .inherit)
      | _ => true

def asidValidateResourceSet (chain : List (Option ASIdentifiers)) (ext : Option ASIdentifiers)
    (allowInheritance : Bool) : Bool :=
  match ext with
  | none => true
  | some ext =>
    if chain = [] then false
    else if allowInheritance = false ∧ asidInherits (some ext) = true then false
    else asidValidatePathInternal chain ext

def asGrants (ranges : ASIdOrRanges) : Set Int := points (spansOf asExtractMinMax id ranges.elems)

theorem asn1IntegerCmp_order (a b : Int) :
    (asn1IntegerCmp a b < 0 ↔ a < b) ∧ (0 < asn1IntegerCmp a b ↔ b < a) := by
  unfold asn1IntegerCmp
  split_ifs <;> omega

theorem as_compares : Compares asExtractMinMax (id : Int → Int) asn1IntegerCmp := by
  intro b c r s _ _
  exact ⟨(asn1IntegerCmp_order _ _).1, (asn1IntegerCmp_order _ _).2⟩

theorem asExtractMinMax_some (a : ASIdOrRange) : (asExtractMinMax a).isSome = true := by
  cases a with
  | id n => rfl
  | range min max => rfl

theorem as_canonical_gapped {elems : List ASIdOrRange}
    (canonical : asRangesAreCanonical elems = true) :
    Gapped (spansOf asExtractMinMax (id : Int → Int) elems) := by
  induction elems with
  | nil => contradiction
  | cons a elems ih =>
    obtain ⟨r, isA⟩ := Option.isSome_iff_exists.mp (asExtractMinMax_some a)
    cases elems with
    | nil =>
      rw [spansOf_cons isA]
      constructor
      · intro s member
        rw [mem_singleton.mp member]
        cases a with
        | id n =>
          rw [← Option.some.inj isA]
        | range min max =>
          rw [asRangesAreCanonical, asLastIsCanonical, decide_eq_true_iff] at canonical
          rw [← Option.some.inj isA]
          exact not_lt.mp (mt (asn1IntegerCmp_order min max).2.mpr (not_lt.mpr canonical))
      · exact pairwise_singleton _ _
    | cons b elems =>
      obtain ⟨s, isB⟩ := Option.isSome_iff_exists.mp (asExtractMinMax_some b)
      rw [asRangesAreCanonical, Bool.and_eq_true, asPairIsCanonical, isA, isB] at canonical
      obtain ⟨pair, rest⟩ := canonical
      have gapped := ih rest
      simp only [Bool.and_eq_true, decide_eq_true_eq] at pair
      obtain ⟨⟨⟨_, validA⟩, _⟩, apart⟩ := pair
      have valid := not_lt.mp (mt (asn1IntegerCmp_order r.1 r.2).2.mpr (not_lt.mpr validA))
      have room := (asn1IntegerCmp_order _ _).1.mp apart
      constructor
      · intro t member
        rw [spansOf_cons isA] at member
        cases mem_cons.mp member with
        | inl is =>
          rw [is]
          exact valid
        | inr later => exact gapped.nonempty t later
      · rw [spansOf_cons isA, pairwise_cons]
        constructor
        · intro t member
          refine ⟨r.2 + 1, Int.lt_succ r.2, ?_⟩
          have ascending := gapped_ascending gapped
          rw [spansOf_cons isB] at ascending member
          cases mem_cons.mp member with
          | inl is =>
            rw [is]
            exact room
          | inr later =>
            obtain ⟨first, _, behind⟩ := ascending_cons.mp ascending
            exact lt_of_lt_of_le room (le_trans first (le_of_lt (behind t later)))
        · exact gapped.gap

section Walk
variable {heap : Nat → List ASIdOrRange}

def AsStored (heap : Nat → List ASIdOrRange) (choice : Option ASIdentifierChoice) : Prop :=
  ∀ ranges, choice = some (.asIdsOrRanges ranges) → ranges.elems = heap ranges.ptr

def AsNested (claim : Set Int) (choice : Option ASIdentifierChoice) : Prop :=
  choice = some .inherit ∨ ∃ ranges, choice = some (.asIdsOrRanges ranges) ∧ claim ⊆ asGrants ranges

theorem asidContains_sound {parent child : ASIdOrRanges}
    (run : asidContains parent (some child) = true) (inP : parent.elems = heap parent.ptr)
    (inC : child.elems = heap child.ptr) : asGrants child ⊆ asGrants parent := by
  rw [asidContains] at run
  by_cases same : parent.ptr = child.ptr
  · rw [asGrants, asGrants, inP, inC, same]
  · rw [if_neg same] at run
    exact (contains_sound as_compares run).2

def AsHolds (heap : Nat → List ASIdOrRange) (claim : Set Int) (state : AsClaim) : Prop :=
  state.inherit = false ∧
    ∃ ranges, state.child = some ranges ∧ ranges.elems = heap ranges.ptr ∧ claim ⊆ asGrants ranges

theorem walkChoice_holds {choice : Option ASIdentifierChoice} {state state' : AsClaim}
    {claim : Set Int} (run : walkChoice choice state = some state') (stored : AsStored heap choice)
    (holds : AsHolds heap claim state) : AsNested claim choice ∧ AsHolds heap claim state' := by
  obtain ⟨own, held, is, here, covers⟩ := holds
  unfold walkChoice at run
  cases choice with
  | none =>
    rw [is] at run
    contradiction
  | some choice =>
    cases choice with
    | inherit =>
      obtain rfl := Option.some.inj run
      exact ⟨.inl rfl, own, held, is, here, covers⟩
    | asIdsOrRanges ranges =>
      dsimp only at run
      rw [own, is] at run
      by_cases inside : false = true ∨ asidContains ranges (some held) = true
      · rw [if_pos inside] at run
        obtain rfl := Option.some.inj run
        have there := stored ranges rfl
        have larger := asidContains_sound (inside.resolve_left Bool.false_ne_true) there here
        have all := covers.trans larger
        exact ⟨.inr ⟨ranges, rfl, all⟩, rfl, ranges, rfl, there, all⟩
      · rw [if_neg inside] at run
        contradiction

/- One of the two choices and its place among the claims. -/
inductive AsPart where
  | asnum
  | rdi

def AsPart.of : AsPart → ASIdentifiers → Option ASIdentifierChoice
  | .asnum, asid => asid.asnum
  | .rdi, asid => asid.rdi

def AsPart.claim : AsPart → AsClaim × AsClaim → AsClaim
  | .asnum, claims => claims.1
  | .rdi, claims => claims.2

def AsidStored (heap : Nat → List ASIdOrRange) (x : Option ASIdentifiers) : Prop :=
  ∀ asid, x = some asid → ∀ part : AsPart, AsStored heap (part.of asid)

theorem walkAsid_holds {x : Option ASIdentifiers} {claims claims' : AsClaim × AsClaim}
    {claim : Set Int} (part : AsPart) (run : walkAsid claims x = some claims')
    (stored : AsidStored heap x) (holds : AsHolds heap claim (part.claim claims)) :
    (∃ asid, x = some asid ∧ AsNested claim (part.of asid)) ∧
      AsHolds heap claim (part.claim claims') := by
  unfold walkAsid at run
  cases x with
  | none =>
    have held : claims.1.child.isSome = true ∨ claims.2.child.isSome = true := by
      obtain ⟨_, ranges, is, _⟩ := holds
      cases part with
      | asnum => exact .inl (Option.isSome_iff_exists.mpr ⟨ranges, is⟩)
      | rdi => exact .inr (Option.isSome_iff_exists.mpr ⟨ranges, is⟩)
    rw [if_pos held] at run
    contradiction
  | some asid =>
    dsimp only at run
    by_cases canonical : asidIsCanonical (some asid) = false
    · rw [if_pos canonical] at run
      contradiction
    · rw [if_neg canonical] at run
      obtain ⟨asnum, first, rest⟩ := Option.bind_eq_some_iff.mp run
      obtain ⟨rdi, second, is⟩ := Option.bind_eq_some_iff.mp rest
      rw [← Option.some.inj is]
      cases part with
      | asnum =>
        obtain ⟨nested, kept⟩ := walkChoice_holds first (stored asid rfl .asnum) holds
        exact ⟨⟨asid, rfl, nested⟩, kept⟩
      | rdi =>
        obtain ⟨nested, kept⟩ := walkChoice_holds second (stored asid rfl .rdi) holds
        exact ⟨⟨asid, rfl, nested⟩, kept⟩

theorem walkAsids_hold {chain : List (Option ASIdentifiers)} {claims claims' : AsClaim × AsClaim}
    {claim : Set Int} (part : AsPart) (run : chain.foldlM walkAsid claims = some claims')
    (stored : ∀ x ∈ chain, AsidStored heap x) (holds : AsHolds heap claim (part.claim claims)) :
    ∀ x ∈ chain, ∃ asid, x = some asid ∧ AsNested claim (part.of asid) := by
  induction chain generalizing claims with
  | nil => exact nofun
  | cons x chain ih =>
    rw [foldlM_cons] at run
    obtain ⟨mid, first, rest⟩ := Option.bind_eq_some_iff.mp run
    obtain ⟨nested, kept⟩ := walkAsid_holds part first (stored x mem_cons_self) holds
    intro y member
    cases mem_cons.mp member with
    | inl is =>
      rw [is]
      exact nested
    | inr later =>
      exact ih rest (fun z among => stored z (mem_cons_of_mem x among)) kept y later

/-- No certificate of a validated path grants fewer numbers than the extension claims. -/
theorem asid_path_nested {chain : List (Option ASIdentifiers)} {ext : ASIdentifiers} {allow : Bool}
    (stored : ∀ x ∈ some ext :: chain, AsidStored heap x)
    (valid : asidValidateResourceSet chain (some ext) allow = true) (part : AsPart)
    {ranges : ASIdOrRanges} (explicit : part.of ext = some (.asIdsOrRanges ranges)) :
    (∀ x ∈ chain, ∃ asid, x = some asid ∧ AsNested (asGrants ranges) (part.of asid)) ∧
    ∃ asid, chain.getLast? = some (some asid) ∧ ∃ ranges', part.of asid =
      some (.asIdsOrRanges ranges') ∧ asGrants ranges ⊆ asGrants ranges' := by
  rw [asidValidateResourceSet] at valid
  by_cases empty : chain = []
  · rw [if_pos empty] at valid
    contradiction
  rw [if_neg empty] at valid
  by_cases refused : allow = false ∧ asidInherits (some ext) = true
  · rw [if_pos refused] at valid
    contradiction
  rw [if_neg refused, asidValidatePathInternal, if_neg empty] at valid
  by_cases canonical : asidIsCanonical (some ext) = false
  · rw [if_pos canonical] at valid
    contradiction
  rw [if_neg canonical] at valid
  cases run : chain.foldlM walkAsid (asClaim ext.asnum, asClaim ext.rdi) with
  | none =>
    rw [run] at valid
    contradiction
  | some claims =>
    rw [run] at valid
    have here := stored (some ext) mem_cons_self ext rfl part ranges explicit
    have start : AsHolds heap (asGrants ranges)
        (part.claim (asClaim ext.asnum, asClaim ext.rdi)) := by
      have is : part.claim (asClaim ext.asnum, asClaim ext.rdi) = asClaim (part.of ext) := by
        cases part with
        | asnum => rfl
        | rdi => rfl
      rw [is, explicit]
      exact ⟨rfl, ranges, rfl, here, subset_refl _⟩
    have all := walkAsids_hold part run (fun x among => stored x (mem_cons_of_mem _ among)) start
    constructor
    · exact all
    · have last := getLast?_eq_some_getLast empty
      obtain ⟨asid, is, nested⟩ := all _ (getLast_mem empty)
      rw [is] at last
      rw [last] at valid
      refine ⟨asid, last, ?_⟩
      cases nested with
      | inr grants => exact grants
      | inl inherits =>
        exfalso
        rw [Bool.and_eq_true, Bool.not_eq_true', Bool.not_eq_true', decide_eq_false_iff_not,
          decide_eq_false_iff_not] at valid
        cases part with
        | asnum => exact valid.1 inherits
        | rdi => exact valid.2 inherits

theorem asidContains_iff {parent child : ASIdOrRanges} (inP : parent.elems = heap parent.ptr)
    (inC : child.elems = heap child.ptr) (canonicalP : asRangesAreCanonical parent.elems = true)
    (canonicalC : asRangesAreCanonical child.elems = true) :
    asidContains parent (some child) = true ↔ asGrants child ⊆ asGrants parent := by
  constructor
  · exact fun run => asidContains_sound run inP inC
  · intro covered
    rw [asidContains]
    by_cases same : parent.ptr = child.ptr
    · rw [if_pos same]
    · rw [if_neg same]
      apply (contains_iff as_compares (fun p _ => asExtractMinMax_some p)
        (as_canonical_gapped canonicalP) (as_canonical_gapped canonicalC)).mpr
      exact ⟨fun c _ => asExtractMinMax_some c, covered⟩

def AsIncluded (a b : Option ASIdentifierChoice) : Prop :=
  ∀ ranges, a = some (.asIdsOrRanges ranges) →
    ∃ ranges', b = some (.asIdsOrRanges ranges') ∧ asGrants ranges ⊆ asGrants ranges'

theorem asChoiceSubset_iff {a b : Option ASIdentifierChoice} (storedA : AsStored heap a)
    (storedB : AsStored heap b) (canonicalA : asChoiceIsCanonical a = true)
    (canonicalB : asChoiceIsCanonical b = true) (ownA : a ≠ some .inherit)
    (ownB : b ≠ some .inherit) : asChoiceSubset a b = true ↔ AsIncluded a b := by
  cases a with
  | none => exact iff_of_true rfl nofun
  | some a =>
    cases a with
    | inherit => exact absurd rfl ownA
    | asIdsOrRanges child =>
      cases b with
      | none =>
        apply iff_of_false Bool.false_ne_true
        intro included
        obtain ⟨_, bad, _⟩ := included child rfl
        contradiction
      | some b =>
        cases b with
        | inherit => exact absurd rfl ownB
        | asIdsOrRanges parent =>
          have decides := asidContains_iff (storedB parent rfl) (storedA child rfl) canonicalB
            canonicalA
          rw [asChoiceSubset, decides]
          constructor
          · intro covered ranges is
            obtain rfl := ASIdentifierChoice.asIdsOrRanges.inj (Option.some.inj is)
            exact ⟨parent, rfl, covered⟩
          · intro included
            obtain ⟨ranges, is, covered⟩ := included child rfl
            obtain rfl := ASIdentifierChoice.asIdsOrRanges.inj (Option.some.inj is)
            exact covered

theorem asid_subset_decides {a b : ASIdentifiers} (storedA : AsidStored heap (some a))
    (storedB : AsidStored heap (some b))
    (one : a.ptr = b.ptr → a.asnum = b.asnum ∧ a.rdi = b.rdi)
    (canonicalA : asidIsCanonical (some a) = true) (canonicalB : asidIsCanonical (some b) = true)
    (ownA : asidInherits (some a) = false) (ownB : asidInherits (some b) = false) :
    asidSubset (some a) (some b) = true ↔ ∀ part : AsPart, AsIncluded (part.of a) (part.of b) := by
  by_cases same : a.ptr = b.ptr
  · have equal : asidSubset (some a) (some b) = true := by
      rw [asidSubset, if_pos same]
    apply iff_of_true equal
    intro part ranges is
    cases part with
    | asnum => exact ⟨ranges, (one same).1.symm.trans is, subset_refl _⟩
    | rdi => exact ⟨ranges, (one same).2.symm.trans is, subset_refl _⟩
  · have inherit : ¬ (asidInherits (some a) = true ∨ asidInherits (some b) = true) := by
      rw [ownA, ownB, or_self]
      exact Bool.false_ne_true
    rw [asidIsCanonical, Bool.and_eq_true] at canonicalA canonicalB
    rw [asidInherits, Bool.or_eq_false_iff, decide_eq_false_iff_not,
      decide_eq_false_iff_not] at ownA ownB
    have asnum : asChoiceSubset a.asnum b.asnum = true ↔ AsIncluded a.asnum b.asnum :=
      asChoiceSubset_iff (storedA a rfl .asnum) (storedB b rfl .asnum) canonicalA.1 canonicalB.1
        ownA.1 ownB.1
    have rdi : asChoiceSubset a.rdi b.rdi = true ↔ AsIncluded a.rdi b.rdi :=
      asChoiceSubset_iff (storedA a rfl .rdi) (storedB b rfl .rdi) canonicalA.2 canonicalB.2
        ownA.2 ownB.2
    rw [asidSubset, if_neg same, if_neg inherit, Bool.and_eq_true, asnum, rdi]
    constructor
    · intro both part
      cases part with
      | asnum => exact both.1
      | rdi => exact both.2
    · intro all
      exact ⟨all .asnum, all .rdi⟩

end Walk
end Ossl
