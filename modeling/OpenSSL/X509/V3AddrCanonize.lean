import OpenSSL.X509.V3AddrShape
import Mathlib.Data.List.Sort

/- The canonical form of address blocks: what it keeps and that there is one. -/
namespace Ossl
open List BigEndian Spans Cover

section Entries
variable {length : Nat}

abbrev addrSpans (length : Nat) (elems : List IPAddressOrRange) : List (Span Nat) :=
  spansOf (extractMinMax length) netValue elems

theorem grants_spans (length : Nat) (elems : List IPAddressOrRange) :
    grantsOf length elems = points (addrSpans length elems) := rfl

theorem memcmp_zero {a b : List UInt8} (same : a.length = b.length) :
    memcmp a b = 0 ↔ netValue a = netValue b := by
  obtain ⟨less, more⟩ := memcmp_value same
  omega

theorem normal_unique {e f : IPAddressOrRange} (one : Normal length e) (two : Normal length f)
    (same : spanOf (extractMinMax length) netValue e = spanOf (extractMinMax length) netValue f) :
    e = f := by
  obtain ⟨min, max, ends, _, made⟩ := one
  obtain ⟨min', max', ends', _, made'⟩ := two
  obtain ⟨sizeMin, sizeMax⟩ := extractMinMax_length ends
  obtain ⟨sizeMin', sizeMax'⟩ := extractMinMax_length ends'
  rw [spanOf, spanOf, ends, ends', Option.map_some, Option.map_some, Option.some.injEq,
    Span.mk.injEq] at same
  have isMin := netValue_inj (sizeMin.trans sizeMin'.symm) same.1
  have isMax := netValue_inj (sizeMax.trans sizeMax'.symm) same.2
  dsimp only at isMin isMax
  rw [isMin, isMax, made'] at made
  exact (Option.some.inj made).symm

theorem normals_unique {l m : List IPAddressOrRange} (one : ∀ e ∈ l, Normal length e)
    (two : ∀ e ∈ m, Normal length e) (same : addrSpans length l = addrSpans length m) : l = m := by
  induction l generalizing m with
  | nil =>
    cases m with
    | nil => rfl
    | cons f m =>
      obtain ⟨_, _, ends, _⟩ := two f mem_cons_self
      rw [addrSpans, addrSpans, spansOf_cons ends] at same
      exact nomatch same
  | cons e l ih =>
    obtain ⟨_, _, ends, _⟩ := one e mem_cons_self
    cases m with
    | nil =>
      rw [addrSpans, addrSpans, spansOf_cons ends] at same
      exact nomatch same
    | cons f m =>
      obtain ⟨_, _, ends', _⟩ := two f mem_cons_self
      rw [addrSpans, addrSpans, spansOf_cons ends, spansOf_cons ends'] at same
      obtain ⟨first, rest⟩ := List.cons.inj same
      have head := normal_unique (one e mem_cons_self) (two f mem_cons_self) (by
        rw [spanOf, spanOf, ends, ends', Option.map_some, Option.map_some, first])
      have tail := ih (fun g member => one g (mem_cons_of_mem e member))
        (fun g member => two g (mem_cons_of_mem f member)) rest
      rw [head, tail]

/-- The rounds merge what is next to each other, and refuse entries that are not in
    ascending order. -/
theorem canonizeRounds_spec (a : IPAddressOrRange) (l : List IPAddressOrRange)
    (normal : ∀ e ∈ a :: l, Normal length e) :
    ((canonizeRounds length a l).isSome = true ↔ Ascending (addrSpans length (a :: l))) ∧
      ∀ r, canonizeRounds length a l = some r → r ≠ [] ∧ (∀ e ∈ r, Normal length e) ∧
        Separated (addrSpans length r) ∧ grantsOf length r = grantsOf length (a :: l) := by
  induction l generalizing a with
  | nil =>
    obtain ⟨min, max, ends, order, _⟩ := normal a mem_cons_self
    have spans : addrSpans length [a] = [⟨netValue min, netValue max⟩] := spansOf_cons ends
    constructor
    · rw [spans]
      exact iff_of_true rfl (ascending_singleton order)
    · intro r run
      obtain rfl := Option.some.inj run
      refine ⟨cons_ne_nil a [], normal, ?_, rfl⟩
      rw [spans]
      exact separated_singleton order
  | cons b l ih =>
    obtain ⟨aMin, aMax, endsA, orderA, _⟩ := normal a mem_cons_self
    obtain ⟨bMin, bMax, endsB, orderB, _⟩ := normal b (mem_cons_of_mem a mem_cons_self)
    have later : ∀ e ∈ l, Normal length e := fun e member =>
      normal e (mem_cons_of_mem a (mem_cons_of_mem b member))
    obtain ⟨sizeAMin, sizeAMax⟩ := extractMinMax_length endsA
    obtain ⟨sizeBMin, sizeBMax⟩ := extractMinMax_length endsB
    dsimp only at sizeAMin sizeAMax sizeBMin sizeBMax
    have spans : addrSpans length (a :: b :: l) = ⟨netValue aMin, netValue aMax⟩ ::
        ⟨netValue bMin, netValue bMax⟩ :: addrSpans length l := by
      rw [addrSpans, spansOf_cons endsA, spansOf_cons endsB]
    have valid : ¬ (0 < memcmp aMin aMax ∨ 0 < memcmp bMin bMax) := by
      rw [(memcmp_value (sizeAMin.trans sizeAMax.symm)).2,
        (memcmp_value (sizeBMin.trans sizeBMax.symm)).2]
      omega
    have meets : 0 ≤ memcmp aMax bMin ↔ netValue bMin ≤ netValue aMax := by
      have below := (memcmp_value (sizeAMax.trans sizeBMin.symm)).1
      omega
    rw [canonizeRounds, endsA, endsB]
    dsimp only
    rw [if_neg valid]
    by_cases overlap : 0 ≤ memcmp aMax bMin
    · rw [if_pos overlap]
      refine ⟨iff_of_false Bool.false_ne_true ?_, nofun⟩
      intro bad
      rw [spans] at bad
      have behind := (ascending_cons.mp bad).2.2 _ mem_cons_self
      dsimp only at behind
      omega
    · rw [if_neg overlap]
      have behind : netValue aMax < netValue bMin := not_le.mp (mt meets.mpr overlap)
      obtain ⟨sizePred, pred⟩ := borrow_pred behind
      have next := memcmp_zero (sizeAMax.trans (sizePred.trans sizeBMin).symm)
      by_cases adjacent : memcmp aMax (borrow bMin).1 = 0
      · rw [if_pos adjacent]
        obtain ⟨merged, made, endsM, normalM⟩ := makeRange_spec sizeAMin sizeBMax (by omega)
        rw [made]
        have spansM : addrSpans length (merged :: l) =
            ⟨netValue aMin, netValue bMax⟩ :: addrSpans length l := by
          rw [addrSpans, spansOf_cons endsM]
        obtain ⟨decides, result⟩ := ih merged (by
          intro e member
          cases mem_cons.mp member with
          | inl is =>
            rw [is]
            exact normalM
          | inr among => exact later e among)
        constructor
        · rw [decides, spans, spansM, ascending_cons, ascending_cons, ascending_cons]
          constructor
          · intro ascending
            obtain ⟨_, tail, apart⟩ := ascending
            refine ⟨orderA, ⟨orderB, tail, apart⟩, ?_⟩
            intro t member
            cases mem_cons.mp member with
            | inl is =>
              rw [is]
              exact behind
            | inr among =>
              have := apart t among
              dsimp only at this ⊢
              omega
          · intro ascending
            obtain ⟨_, ⟨_, tail, apart⟩, _⟩ := ascending
            exact ⟨by dsimp only; omega, tail, apart⟩
        · intro r run
          obtain ⟨some_, normals, separated, same⟩ := result r run
          refine ⟨some_, normals, separated, same.trans ?_⟩
          ext x
          rw [grants_spans, grants_spans, spansM, spans, mem_points_cons, mem_points_cons,
            mem_points_cons]
          rw [← or_assoc]
          apply or_congr_left
          simp only [Span.Contains]
          omega
      · rw [if_neg adjacent]
        obtain ⟨decides, result⟩ := ih b fun e member => normal e (mem_cons_of_mem a member)
        have spansB : addrSpans length (b :: l) =
            ⟨netValue bMin, netValue bMax⟩ :: addrSpans length l := by
          rw [addrSpans, spansOf_cons endsB]
        have above : Ascending (addrSpans length (b :: l)) →
            ∀ x ∈ grantsOf length (b :: l), netValue bMin ≤ x := by
          intro ascending x inside
          rw [grants_spans, spansB] at inside
          rw [spansB] at ascending
          exact first_le_points ascending inside
        constructor
        · rw [Option.isSome_map, decides, spans, spansB]
          rw [ascending_cons (s := ⟨netValue aMin, netValue aMax⟩)]
          constructor
          · intro ascending
            refine ⟨orderA, ascending, ?_⟩
            intro t member
            have valid := ascending.nonempty t member
            have first := first_le_points ascending (mem_points_of_mem member ⟨le_refl _, valid⟩)
            exact lt_of_lt_of_le behind first
          · exact fun ascending => ascending.2.1
        · intro r run
          obtain ⟨rest, runB, is⟩ := Option.map_eq_some_iff.mp run
          obtain ⟨_, normals, separated, same⟩ := result rest runB
          have ascending := decides.mp (by rw [runB]; rfl)
          rw [← is]
          refine ⟨cons_ne_nil a rest, ?_, ?_, ?_⟩
          · intro e member
            cases mem_cons.mp member with
            | inl same =>
              rw [same]
              exact normal a mem_cons_self
            | inr among => exact normals e among
          · rw [addrSpans, spansOf_cons endsA, separated_cons]
            refine ⟨orderA, separated, ?_⟩
            intro t member
            have inside : t.start ∈ grantsOf length rest :=
              mem_points_of_mem member ⟨le_refl _, separated.nonempty t member⟩
            rw [same] at inside
            have := above ascending t.start inside
            dsimp only
            omega
          · ext x
            have here := Set.ext_iff.mp same x
            rw [grantsOf, spansOf_cons endsA, mem_points_cons]
            rw [grantsOf, spansOf_cons endsA, mem_points_cons]
            exact or_congr_right here

end Entries

section Sorting
variable {length : Nat}

def entryPoints (length : Nat) (e : IPAddressOrRange) : Set Nat := grantsOf length [e]

/-- No two entries have an address in common. -/
def NoOverlap (length : Nat) (elems : List IPAddressOrRange) : Prop :=
  elems.Pairwise fun a b => Disjoint (entryPoints length a) (entryPoints length b)

variable {e : IPAddressOrRange} {l : List IPAddressOrRange}

variable {r : List UInt8 × List UInt8}

theorem mem_entryPoints (ends : extractMinMax length e = some r) (x : Nat) :
    x ∈ entryPoints length e ↔ netValue r.1 ≤ x ∧ x ≤ netValue r.2 := by
  rw [entryPoints, grants_spans, addrSpans, spansOf_cons ends, mem_points_cons]
  constructor
  · intro either
    cases either with
    | inl here => exact here
    | inr bad => exact nomatch bad
  · exact .inl

def startOf (length : Nat) (e : IPAddressOrRange) : Nat :=
  ((extractMinMax length e).map fun r => netValue r.1).getD 0

def prefixlenOf (length : Nat) (e : IPAddressOrRange) : Int :=
  ((cmpKey length e).map Prod.snd).getD 0

def aorLe (length : Nat) (a b : IPAddressOrRange) : Bool :=
  decide (startOf length a < startOf length b ∨
    startOf length a = startOf length b ∧ prefixlenOf length a ≤ prefixlenOf length b)

theorem startOf_ends (ends : extractMinMax length e = some r) :
    startOf length e = netValue r.1 := by
  rw [startOf, ends]
  rfl

theorem ascending_noOverlap (normal : ∀ e ∈ l, Normal length e)
    (ascending : Ascending (addrSpans length l)) : NoOverlap length l := by
  induction l with
  | nil => exact .nil
  | cons a l ih =>
    obtain ⟨min, max, ends, order, _⟩ := normal a mem_cons_self
    rw [addrSpans, spansOf_cons ends, ascending_cons] at ascending
    obtain ⟨_, tail, apart⟩ := ascending
    rw [NoOverlap, pairwise_cons]
    constructor
    · intro b member
      obtain ⟨min', max', ends', _⟩ := normal b (mem_cons_of_mem a member)
      have behind := apart _ (mem_spansOf.mpr ⟨b, member, _, ends', rfl⟩)
      rw [Set.disjoint_left]
      intro x inA inB
      have here := (mem_entryPoints ends x).mp inA
      have there := (mem_entryPoints ends' x).mp inB
      dsimp only at behind here there
      omega
    · exact ih (fun e member => normal e (mem_cons_of_mem a member)) tail

theorem noOverlap_ascending (normal : ∀ e ∈ l, Normal length e)
    (sorted : l.Pairwise fun a b => startOf length a ≤ startOf length b)
    (apart : NoOverlap length l) : Ascending (addrSpans length l) := by
  induction l with
  | nil => exact ascending_nil
  | cons a l ih =>
    obtain ⟨min, max, ends, order, _⟩ := normal a mem_cons_self
    rw [pairwise_cons] at sorted
    rw [NoOverlap, pairwise_cons] at apart
    rw [addrSpans, spansOf_cons ends, ascending_cons]
    refine ⟨order, ih (fun e member => normal e (mem_cons_of_mem a member)) sorted.2 apart.2, ?_⟩
    intro t member
    obtain ⟨b, among, r, ends', is⟩ := mem_spansOf.mp member
    have starts := sorted.1 b among
    rw [startOf_ends ends, startOf_ends ends'] at starts
    have disjoint := Set.disjoint_left.mp (apart.1 b among)
    have order' : netValue r.1 ≤ netValue r.2 := by
      obtain ⟨_, _, same, valid, _⟩ := normal b (mem_cons_of_mem a among)
      rw [ends'] at same
      rw [Option.some.inj same]
      exact valid
    rw [is]
    by_contra reach
    rw [not_lt] at reach
    exact disjoint ((mem_entryPoints ends _).mpr ⟨starts, reach⟩)
      ((mem_entryPoints ends' _).mpr ⟨le_refl _, order'⟩)

theorem normal_key {min max : List UInt8} (ends : extractMinMax length e = some (min, max)) :
    cmpKey length e = some (min, prefixlenOf length e) := by
  cases e with
  | addressPrefix bs =>
    obtain ⟨low, first, rest⟩ := Option.bind_eq_some_iff.mp ends
    obtain ⟨high, _, is⟩ := Option.bind_eq_some_iff.mp rest
    obtain ⟨rfl, _⟩ := Prod.mk.inj (Option.some.inj is)
    rw [prefixlenOf, cmpKey, first]
    rfl
  | addressRange lowest highest =>
    obtain ⟨low, first, rest⟩ := Option.bind_eq_some_iff.mp ends
    obtain ⟨high, _, is⟩ := Option.bind_eq_some_iff.mp rest
    obtain ⟨rfl, _⟩ := Prod.mk.inj (Option.some.inj is)
    rw [prefixlenOf, cmpKey, first]
    rfl

theorem cmp_order {a b : IPAddressOrRange} (one : Normal length a) (two : Normal length b) :
    decide (addressOrRangeCmp length a b ≤ 0) = aorLe length a b := by
  obtain ⟨aMin, aMax, endsA, _⟩ := one
  obtain ⟨bMin, bMax, endsB, _⟩ := two
  have sizes := (extractMinMax_length endsA).1.trans (extractMinMax_length endsB).1.symm
  obtain ⟨less, more⟩ := memcmp_value sizes
  have key : addressOrRangeCmp length a b =
      if memcmp aMin bMin ≠ 0 then memcmp aMin bMin
      else prefixlenOf length a - prefixlenOf length b := by
    rw [addressOrRangeCmp, normal_key endsA, normal_key endsB]
  rw [aorLe, startOf_ends endsA, startOf_ends endsB, key]
  apply decide_eq_decide.mpr
  dsimp only at less more ⊢
  by_cases same : memcmp aMin bMin = 0
  · rw [if_neg (not_not.mpr same)]
    omega
  · rw [if_pos same]
    omega

theorem aorLe_trans (a b c : IPAddressOrRange) (ab : aorLe length a b = true)
    (bc : aorLe length b c = true) : aorLe length a c = true := by
  rw [aorLe, decide_eq_true_iff] at *
  omega

theorem aorLe_total (a b : IPAddressOrRange) : (aorLe length a b || aorLe length b a) = true := by
  rw [Bool.or_eq_true, aorLe, aorLe, decide_eq_true_iff, decide_eq_true_iff]
  omega

theorem mergeSort_order (normal : ∀ e ∈ l, Normal length e) :
    (l.mergeSort fun a b => decide (addressOrRangeCmp length a b ≤ 0)) =
      l.mergeSort (aorLe length) := by
  have same := map_mergeSort (f := id)
    (r := fun a b => decide (addressOrRangeCmp length a b ≤ 0)) (s := aorLe length) (l := l)
    fun a inA b inB => cmp_order (normal a inA) (normal b inB)
  rw [map_id, map_id] at same
  exact same

/-- A list that can be built: not empty, of normal entries, and with no comparison only if
    it began with all addresses. -/
structure ProperAors (length : Nat) (aors : IPAddressOrRanges) : Prop where
  some_ : aors.elems ≠ []
  normal : ∀ e ∈ aors.elems, Normal length e
  compared : aors.cmp = some length ∨ aors.cmp = none ∧ aors.elems.head? = some wholeSpace

theorem sortAors_perm (aors : IPAddressOrRanges) : (sortAors aors).Perm aors.elems := by
  rw [sortAors]
  cases aors.cmp with
  | none => exact .refl _
  | some length => exact mergeSort_perm _ _

/-- Beside all addresses no other entry has a place. -/
theorem wholeSpace_alone {rest : List IPAddressOrRange} (normal : ∀ e ∈ rest, Normal length e)
    (apart : NoOverlap length (wholeSpace :: rest)) : rest = [] := by
  cases rest with
  | nil => rfl
  | cons e rest =>
    exfalso
    obtain ⟨min, max, ends, order, _⟩ := normal e mem_cons_self
    have disjoint := Set.disjoint_left.mp ((pairwise_cons.mp apart).1 e mem_cons_self)
    have size := (extractMinMax_length ends).1
    apply disjoint ((mem_entryPoints (wholeSpace_extracts length) (netValue min)).mpr ?_)
      ((mem_entryPoints ends _).mpr ⟨le_refl _, order⟩)
    have zeros : ∀ l : List UInt8, netValue (replicate l.length 0x00) ≤ netValue l ∧
        netValue l ≤ netValue (replicate l.length 0xFF) := by
      intro l
      constructor
      · apply netValue_mono
        induction l with
        | nil => exact .nil
        | cons a l ih => exact .cons (Nat.zero_le _) ih
      · apply netValue_mono
        induction l with
        | nil => exact .nil
        | cons a l ih => exact .cons (Nat.le_of_lt_succ a.toNat_lt) ih
    rw [← size]
    exact zeros min

theorem sortAors_sorted {aors : IPAddressOrRanges} (proper : ProperAors length aors)
    (apart : NoOverlap length aors.elems) :
    (sortAors aors).Pairwise fun a b => startOf length a ≤ startOf length b := by
  rw [sortAors]
  cases proper.compared with
  | inl is =>
    rw [is]
    dsimp only
    rw [mergeSort_order proper.normal]
    apply (pairwise_mergeSort aorLe_trans aorLe_total aors.elems).imp
    intro a b le
    rw [aorLe, decide_eq_true_iff] at le
    omega
  | inr without =>
    rw [without.1]
    obtain ⟨rest, split⟩ := head?_eq_some_iff.mp without.2
    rw [split] at apart
    have alone := wholeSpace_alone (fun e member => proper.normal e (by
      rw [split]
      exact mem_cons_of_mem _ member)) apart
    rw [split, alone]
    exact pairwise_singleton _ _

end Sorting

section Lists
variable {length : Nat}

structure CanonicalAors (length : Nat) (aors : IPAddressOrRanges) : Prop where
  some_ : aors.elems ≠ []
  normal : ∀ e ∈ aors.elems, Normal length e
  separated : Separated (addrSpans length aors.elems)
  compared : aors.cmp = some length ∨ aors.cmp = none

variable {l : List IPAddressOrRange}

theorem lastNotInverted_normal (normal : ∀ e ∈ l, Normal length e) :
    lastNotInverted length l = true := by
  rw [lastNotInverted]
  cases last : l.getLast? with
  | none => rfl
  | some e =>
    obtain ⟨min, max, ends, order, _⟩ := normal e (mem_of_getLast? last)
    cases e with
    | addressPrefix bs => rfl
    | addressRange lowest highest =>
      obtain ⟨sizeMin, sizeMax⟩ := extractMinMax_length ends
      dsimp only
      rw [ends]
      exact decide_eq_true (not_lt.mp (mt (memcmp_value (sizeMin.trans sizeMax.symm)).2.mp
        (not_lt.mpr order)))

variable {m : List IPAddressOrRange} {afi : Nat} {aors : IPAddressOrRanges}

theorem grantsOf_perm (perm : l.Perm m) : grantsOf length l = grantsOf length m := by
  have spans : (addrSpans length l).Perm (addrSpans length m) := perm.filterMap _
  ext x
  constructor
  · intro inside
    obtain ⟨s, member, here⟩ := inside
    exact ⟨s, spans.mem_iff.mp member, here⟩
  · intro inside
    obtain ⟨s, member, here⟩ := inside
    exact ⟨s, spans.mem_iff.mpr member, here⟩

theorem noOverlap_perm (perm : l.Perm m) : NoOverlap length l ↔ NoOverlap length m :=
  perm.pairwise_iff fun disjoint => disjoint.symm

/-- A list is canonized if and only if no entries overlap, and keeps its addresses. -/
theorem aorsCanonize_spec (proper : ProperAors (lengthFromAfi afi) aors) :
    ((aorsCanonize aors afi).isSome = true ↔ NoOverlap (lengthFromAfi afi) aors.elems) ∧
      ∀ r, aorsCanonize aors afi = some r → CanonicalAors (lengthFromAfi afi) r ∧
        grantsOf (lengthFromAfi afi) r.elems = grantsOf (lengthFromAfi afi) aors.elems := by
  have perm := sortAors_perm aors
  have sorts := sortAors_sorted proper
  have normal : ∀ e ∈ sortAors aors, Normal (lengthFromAfi afi) e := fun e member =>
    proper.normal e (perm.mem_iff.mp member)
  rw [aorsCanonize]
  cases is : sortAors aors with
  | nil =>
    rw [is] at perm
    exact absurd (nil_perm.mp perm) proper.some_
  | cons a rest =>
    dsimp only
    rw [is] at perm sorts normal
    obtain ⟨decides, result⟩ := canonizeRounds_spec a rest normal
    have ascends : Ascending (addrSpans (lengthFromAfi afi) (a :: rest)) ↔
        NoOverlap (lengthFromAfi afi) aors.elems := by
      constructor
      · exact fun ascending => (noOverlap_perm perm).mp (ascending_noOverlap normal ascending)
      · exact fun apart =>
          noOverlap_ascending normal (sorts apart) ((noOverlap_perm perm).mpr apart)
    rw [← ascends, ← decides]
    cases run : canonizeRounds (lengthFromAfi afi) a rest with
    | none => exact ⟨Iff.rfl, nofun⟩
    | some elems =>
      obtain ⟨some_, normals, separated, same⟩ := result elems run
      dsimp only
      rw [if_pos (lastNotInverted_normal normals)]
      refine ⟨iff_of_true rfl rfl, ?_⟩
      intro r made
      obtain rfl := Option.some.inj made
      constructor
      · exact ⟨some_, normals, separated, proper.compared.imp id And.left⟩
      · exact same.trans (grantsOf_perm perm)

theorem separated_sorted (normal : ∀ e ∈ l, Normal length e)
    (separated : Separated (addrSpans length l)) :
    l.Pairwise fun a b => startOf length a < startOf length b := by
  induction l with
  | nil => exact .nil
  | cons a l ih =>
    obtain ⟨min, max, ends, order, _⟩ := normal a mem_cons_self
    rw [addrSpans, spansOf_cons ends, separated_cons] at separated
    obtain ⟨_, tail, apart⟩ := separated
    rw [pairwise_cons]
    constructor
    · intro b member
      obtain ⟨_, _, ends', _⟩ := normal b (mem_cons_of_mem a member)
      have behind := apart _ (mem_spansOf.mpr ⟨b, member, _, ends', rfl⟩)
      rw [startOf_ends ends, startOf_ends ends']
      dsimp only at behind ⊢
      omega
    · exact ih (fun e member => normal e (mem_cons_of_mem a member)) tail

theorem canonicalAors_unique {r s : IPAddressOrRanges} (one : CanonicalAors length r)
    (two : CanonicalAors length s)
    (same : grantsOf length r.elems = grantsOf length s.elems) : r.elems = s.elems :=
  normals_unique one.normal two.normal (separated_unique one.separated two.separated same)

theorem aorsCanonize_again (canonical : CanonicalAors (lengthFromAfi afi) aors) :
    aorsCanonize aors afi = some aors := by
  have sorted := separated_sorted canonical.normal canonical.separated
  have stays : sortAors aors = aors.elems := by
    rw [sortAors]
    cases canonical.compared with
    | inl is =>
      rw [is]
      dsimp only
      rw [mergeSort_order canonical.normal]
      apply mergeSort_of_pairwise
      apply sorted.imp
      intro a b less
      rw [aorLe, decide_eq_true_iff]
      exact .inl less
    | inr is => rw [is]
  cases split : aors.elems with
  | nil => exact absurd split canonical.some_
  | cons a rest =>
    have normal := canonical.normal
    have separated := canonical.separated
    rw [split] at normal separated
    obtain ⟨decides, result⟩ := canonizeRounds_spec a rest normal
    obtain ⟨elems, run⟩ := Option.isSome_iff_exists.mp (decides.mpr (separated_ascending separated))
    obtain ⟨some_, normals, separated', same⟩ := result elems run
    have is := normals_unique normals normal (separated_unique separated' separated same)
    rw [aorsCanonize, stays, split]
    dsimp only
    rw [run]
    dsimp only
    rw [if_pos (lastNotInverted_normal normals), is, ← split]

theorem canonical_tested (some_ : l ≠ []) (normal : ∀ e ∈ l, Normal length e)
    (separated : Separated (addrSpans length l)) : aorsAreCanonical length l = true := by
  induction l with
  | nil => exact absurd rfl some_
  | cons a l ih =>
    have here := normal a mem_cons_self
    obtain ⟨min, max, ends, order, _⟩ := id here
    obtain ⟨sizeMin, sizeMax⟩ := extractMinMax_length ends
    dsimp only at sizeMin sizeMax
    have valid : memcmp min max ≤ 0 := not_lt.mp
      (mt (memcmp_value (sizeMin.trans sizeMax.symm)).2.mp (not_lt.mpr order))
    have noPrefix : (isRange a && (rangeShouldBePrefix min max).isSome) = false := by
      by_contra bad
      rw [Bool.not_eq_false, Bool.and_eq_true, Option.isSome_iff_ne_none] at bad
      exact bad.2 (normal_range here bad.1 ends)
    cases l with
    | nil =>
      rw [aorsAreCanonical, lastIsCanonical, ends]
      by_cases range : isRange a = true
      · rw [range, Bool.true_and] at noPrefix
        rw [if_pos range]
        dsimp only
        rw [noPrefix, decide_eq_true valid]
        rfl
      · rw [if_neg range]
    | cons b l =>
      obtain ⟨min', max', ends', order', _⟩ := normal b (mem_cons_of_mem a mem_cons_self)
      obtain ⟨sizeMin', sizeMax'⟩ := extractMinMax_length ends'
      dsimp only at sizeMin' sizeMax'
      rw [addrSpans, spansOf_cons ends, separated_cons] at separated
      obtain ⟨_, tail, apart⟩ := separated
      have rest := ih (cons_ne_nil b l) (fun e member => normal e (mem_cons_of_mem a member)) tail
      have gap := apart _ (mem_spansOf.mpr ⟨b, mem_cons_self, _, ends', rfl⟩)
      dsimp only at gap
      obtain ⟨sizePred, pred⟩ := borrow_pred (show netValue max < netValue min' by omega)
      have starts := (memcmp_value (sizeMin.trans sizeMin'.symm)).1.mpr (by omega)
      have valid' : memcmp min' max' ≤ 0 := not_lt.mp
        (mt (memcmp_value (sizeMin'.trans sizeMax'.symm)).2.mp (not_lt.mpr order'))
      have room := (memcmp_value (sizeMax.trans (sizePred.trans sizeMin').symm)).1.mpr
        (show netValue max < netValue (borrow min').1 by omega)
      rw [aorsAreCanonical, rest, pairIsCanonical, ends, ends']
      dsimp only
      rw [noPrefix, decide_eq_true starts, decide_eq_true valid, decide_eq_true valid',
        decide_eq_true room]
      rfl

end Lists

end Ossl
