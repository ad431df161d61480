import OpenSSL.X509.V3AddrCanonize
import OpenSSL.X509.V3AddrPath

/- Built blocks: one family for each key, and one canonical form for what they grant. -/
namespace Ossl
open List Option BigEndian Spans Cover

section Families

/-- A family that can be built. -/
structure ProperFamily (f : IPAddressFamily) : Prop where
  key : familyCheckLen f = true
  listed : ∀ aors, f.ipAddressChoice = .addressesOrRanges aors →
    ProperAors (lengthFromAfi (addrGetAfi f)) aors

/-- Blocks that can be built: one family for each key. -/
structure ProperBlocks (families : List IPAddressFamily) : Prop where
  family : ∀ f ∈ families, ProperFamily f
  keys : (families.map IPAddressFamily.addressFamily).Nodup

theorem familyKey_length (afi : Nat) (safi : Option Nat) :
    2 ≤ (familyKey afi safi).length ∧ (familyKey afi safi).length ≤ 3 := by
  cases safi with
  | none => exact ⟨le_refl 2, Nat.le_succ 2⟩
  | some s => exact ⟨Nat.le_succ 2, le_refl 3⟩

variable {f : IPAddressFamily} {afi : Nat} {safi : Option Nat} {e : IPAddressOrRange}
    {addr addr' : IPAddrBlocks} {families : List IPAddressFamily}

/-- The address length of a family is the one its entries are made with, unless there is none. -/
theorem familyKey_afi (key : f.addressFamily = familyKey afi safi) :
    lengthFromAfi afi = 0 ∧ cmpFor afi = none ∨
      lengthFromAfi (addrGetAfi f) = lengthFromAfi afi ∧ cmpFor afi = some (lengthFromAfi afi) := by
  by_cases v4 : afi = 1
  · apply Or.inr
    rw [addrGetAfi, key, v4]
    exact ⟨rfl, rfl⟩
  · by_cases v6 : afi = 2
    · apply Or.inr
      rw [addrGetAfi, key, v6]
      exact ⟨rfl, rfl⟩
    · apply Or.inl
      rw [lengthFromAfi, cmpFor, if_neg v4, if_neg v6, if_neg v4, if_neg v6]
      exact ⟨rfl, rfl⟩

theorem made_normal (key : f.addressFamily = familyKey afi safi)
    (made : Normal (lengthFromAfi afi) e) : Normal (lengthFromAfi (addrGetAfi f)) e := by
  cases familyKey_afi key with
  | inl without =>
    rw [without.1] at made
    rw [normal_empty made]
    exact wholeSpace_normal _
  | inr same =>
    rw [same.1]
    exact made

theorem familyWith_none {key : List UInt8} (found : familyWith addr key = none) :
    key ∉ addr.families.map IPAddressFamily.addressFamily := by
  intro member
  obtain ⟨f, among, is⟩ := mem_map.mp member
  have differs := find?_eq_none.mp found f among
  rw [decide_eq_true_iff] at differs
  exact differs is

theorem familyWith_some {key : List UInt8} (found : familyWith addr key = some f) :
    f ∈ addr.families ∧ f.addressFamily = key := by
  rw [familyWith] at found
  have same := find?_some found
  exact ⟨mem_of_find?_eq_some found, of_decide_eq_true same⟩

theorem pushFamily_proper (proper : ProperBlocks addr.families) (here : ProperFamily f)
    (found : familyWith addr f.addressFamily = none) : ProperBlocks (addr.families ++ [f]) := by
  constructor
  · intro g member
    cases mem_append.mp member with
    | inl among => exact proper.family g among
    | inr last =>
      rw [mem_singleton.mp last]
      exact here
  · rw [map_append, nodup_append]
    refine ⟨proper.keys, nodup_singleton _, ?_⟩
    intro a inA b inB same
    rw [mem_singleton.mp inB] at same
    rw [same] at inA
    exact familyWith_none found inA

theorem pushAor_keys (e : IPAddressOrRange) (key : List UInt8) (families : List IPAddressFamily) :
    (pushAor e key families).map IPAddressFamily.addressFamily =
      families.map IPAddressFamily.addressFamily := by
  induction families with
  | nil => rfl
  | cons f families ih =>
    rw [pushAor]
    by_cases is : f.addressFamily = key
    · rw [if_pos is]
      cases f.ipAddressChoice with
      | inherit => rfl
      | addressesOrRanges aors => rfl
    · rw [if_neg is, map_cons, map_cons, ih]

/-- Only the family with the key gets the entry. -/
theorem pushAor_mem {key : List UInt8} {g : IPAddressFamily} (member : g ∈ pushAor e key families) :
    g ∈ families ∨ ∃ f ∈ families, ∃ aors, f.addressFamily = key ∧
      f.ipAddressChoice = .addressesOrRanges aors ∧
      g = { f with ipAddressChoice := .addressesOrRanges { aors with elems := aors.elems ++ [e] } } := by
  induction families with
  | nil => nomatch member
  | cons f families ih =>
    rw [pushAor] at member
    by_cases is : f.addressFamily = key
    · rw [if_pos is] at member
      cases choice : f.ipAddressChoice with
      | inherit =>
        rw [choice] at member
        exact .inl member
      | addressesOrRanges aors =>
        rw [choice] at member
        cases mem_cons.mp member with
        | inl same => exact .inr ⟨f, mem_cons_self, aors, is, choice, same⟩
        | inr later => exact .inl (mem_cons_of_mem f later)
    · rw [if_neg is] at member
      cases mem_cons.mp member with
      | inl same =>
        rw [same]
        exact .inl mem_cons_self
      | inr later =>
        cases ih later with
        | inl among => exact .inl (mem_cons_of_mem f among)
        | inr found =>
          obtain ⟨f', among, rest⟩ := found
          exact .inr ⟨f', mem_cons_of_mem f among, rest⟩

theorem pushAor_new {aors : IPAddressOrRanges} (e : IPAddressOrRange)
    (others : f.addressFamily ∉ families.map IPAddressFamily.addressFamily)
    (choice : f.ipAddressChoice = .addressesOrRanges aors) :
    pushAor e f.addressFamily (families ++ [f]) = families ++
      [{ f with ipAddressChoice := .addressesOrRanges { aors with elems := aors.elems ++ [e] } }] := by
  induction families with
  | nil => rw [nil_append, pushAor, if_pos rfl, choice, nil_append]
  | cons g families ih =>
    rw [map_cons, mem_cons, not_or] at others
    rw [cons_append, pushAor, if_neg fun bad => others.1 bad.symm, ih others.2]
    rfl

theorem pushed_proper (proper : ProperBlocks families) (made : Normal (lengthFromAfi afi) e) :
    ProperBlocks (pushAor e (familyKey afi safi) families) := by
  constructor
  · intro g member
    cases pushAor_mem member with
    | inl among => exact proper.family g among
    | inr found =>
      obtain ⟨f, among, aors, key, choice, is⟩ := found
      obtain ⟨length, listed⟩ := proper.family f among
      obtain ⟨some_, normal, compared⟩ := listed aors choice
      rw [is]
      refine ⟨length, ?_⟩
      intro aors' choice'
      obtain rfl := IPAddressChoice.addressesOrRanges.inj choice'
      constructor
      · exact append_ne_nil_of_left_ne_nil some_ _
      · intro e' inside
        cases mem_append.mp inside with
        | inl old => exact normal e' old
        | inr new =>
          rw [mem_singleton.mp new]
          exact made_normal key made
      · apply compared.imp id
        intro without
        refine ⟨without.1, ?_⟩
        obtain ⟨rest, split⟩ := head?_eq_some_iff.mp without.2
        rw [split]
        rfl
  · rw [pushAor_keys]
    exact proper.keys

/-- An entry that is added to proper blocks leaves them proper. -/
theorem addrAddAor_proper {e : Option IPAddressOrRange} (proper : ProperBlocks addr.families)
    (made : ∀ e', e = some e' → Normal (lengthFromAfi afi) e')
    (run : addrAddAor addr afi safi e = (true, addr')) : ProperBlocks addr'.families := by
  rw [addrAddAor, makePrefixOrRange] at run
  cases found : familyWith addr (familyKey afi safi) with
  | none =>
    rw [found] at run
    cases e with
    | none => exact nomatch (Prod.mk.inj run).1
    | some e =>
      obtain ⟨_, rfl⟩ := Prod.mk.inj run
      have pushed := pushAor_new (f := ⟨familyKey afi safi,
        .addressesOrRanges ⟨addr.families.length, [], cmpFor afi⟩⟩) e (familyWith_none found) rfl
      dsimp only [pushFamily] at pushed ⊢
      rw [pushed]
      refine pushFamily_proper proper ⟨decide_eq_true (familyKey_length afi safi), ?_⟩ found
      intro aors is
      obtain rfl := IPAddressChoice.addressesOrRanges.inj is
      have here := made e rfl
      constructor
      · exact cons_ne_nil e []
      · intro e' member
        rw [mem_singleton.mp member]
        exact made_normal rfl here
      · cases familyKey_afi (f := ⟨familyKey afi safi, .inherit⟩) rfl with
        | inl without =>
          rw [without.1] at here
          rw [normal_empty here]
          exact .inr ⟨without.2, rfl⟩
        | inr same => exact .inl (same.2.trans (congrArg some same.1.symm))
  | some f =>
    rw [found] at run
    dsimp only at run
    cases choice : f.ipAddressChoice with
    | inherit =>
      rw [choice] at run
      exact nomatch (Prod.mk.inj run).1
    | addressesOrRanges aors =>
      rw [choice] at run
      cases e with
      | none => exact nomatch (Prod.mk.inj run).1
      | some e =>
        obtain ⟨_, rfl⟩ := Prod.mk.inj run
        exact pushed_proper proper (made e rfl)

theorem addrStep_proper {op : AddrOp} (proper : ProperBlocks addr.families)
    (readable : op.Readable) (run : addrStep addr op = (true, addr')) :
    ProperBlocks addr'.families := by
  cases op with
  | addInherit afi safi =>
    rw [addrStep, addrAddInherit] at run
    cases found : familyWith addr (familyKey afi safi) with
    | none =>
      rw [found] at run
      obtain ⟨_, rfl⟩ := Prod.mk.inj run
      exact pushFamily_proper proper ⟨decide_eq_true (familyKey_length afi safi), nofun⟩ found
    | some f =>
      rw [found] at run
      dsimp only at run
      cases choice : f.ipAddressChoice with
      | inherit =>
        rw [choice] at run
        obtain ⟨_, rfl⟩ := Prod.mk.inj run
        exact proper
      | addressesOrRanges aors =>
        rw [choice] at run
        exact nomatch (Prod.mk.inj run).1
  | addPrefix afi safi a prefixlen =>
    exact addrAddAor_proper proper (fun e made => makePrefix_normal readable made) run
  | addRange afi safi min max =>
    exact addrAddAor_proper proper (fun e made => makeRange_normal readable.1 readable.2 made) run

theorem addrBuild_proper {ops : List AddrOp} (proper : ProperBlocks addr.families)
    (readable : ∀ op ∈ ops, op.Readable) (run : addrBuild ops addr = some addr') :
    ProperBlocks addr'.families := by
  induction ops generalizing addr with
  | nil =>
    obtain rfl := some.inj run
    exact proper
  | cons op ops ih =>
    rw [addrBuild] at run
    cases step : addrStep addr op with
    | mk ok addr1 =>
      rw [step] at run
      cases ok with
      | false => contradiction
      | true =>
        exact ih (addrStep_proper proper (readable op mem_cons_self) step)
          (fun op' member => readable op' (mem_cons_of_mem op member)) run

end Families

section Blocks

def FamilyApart (f : IPAddressFamily) : Prop :=
  ∀ aors, f.ipAddressChoice = .addressesOrRanges aors →
    NoOverlap (lengthFromAfi (addrGetAfi f)) aors.elems

def familySense (f : IPAddressFamily) : Option (Set Nat) :=
  match f.ipAddressChoice with
  | .inherit => none
  | .addressesOrRanges aors => some (familyGrants f aors)

def addrSense (addr : IPAddrBlocks) (key : List UInt8) : Option (Option (Set Nat)) :=
  (familyWith addr key).map familySense

def familyContent (f : IPAddressFamily) : List UInt8 × Option (List IPAddressOrRange) :=
  (f.addressFamily,
    match f.ipAddressChoice with
    | .inherit => none
    | .addressesOrRanges aors => some aors.elems)

structure CanonicalFamily (f : IPAddressFamily) : Prop where
  key : familyCheckLen f = true
  listed : ∀ aors, f.ipAddressChoice = .addressesOrRanges aors →
    CanonicalAors (lengthFromAfi (addrGetAfi f)) aors

variable {f : IPAddressFamily} {families : List IPAddressFamily} {addr : IPAddrBlocks}

theorem familyCanonize_spec (proper : ProperFamily f) :
    ((familyCanonize f).isSome = true ↔ FamilyApart f) ∧
      ∀ g, familyCanonize f = some g → CanonicalFamily g ∧ g.addressFamily = f.addressFamily ∧
        familySense g = familySense f := by
  rw [familyCanonize, if_neg (by rw [proper.key]; exact nofun), FamilyApart]
  cases choice : f.ipAddressChoice with
  | inherit =>
    refine ⟨iff_of_true rfl nofun, ?_⟩
    intro g is
    obtain rfl := some.inj is
    refine ⟨⟨proper.key, ?_⟩, rfl, rfl⟩
    intro aors bad
    rw [choice] at bad
    contradiction
  | addressesOrRanges aors =>
    obtain ⟨decides, result⟩ := aorsCanonize_spec (proper.listed aors choice)
    rw [isSome_map, decides]
    constructor
    · constructor
      · intro apart aors' is
        rw [← IPAddressChoice.addressesOrRanges.inj is]
        exact apart
      · exact fun apart => apart aors rfl
    · intro g is
      obtain ⟨r, run, made⟩ := map_eq_some_iff.mp is
      obtain ⟨canonical, same⟩ := result r run
      obtain rfl := made
      refine ⟨⟨proper.key, ?_⟩, rfl, ?_⟩
      · intro aors' is'
        obtain rfl := IPAddressChoice.addressesOrRanges.inj is'
        exact canonical
      · rw [familySense, familySense, choice]
        exact congrArg some same

theorem familyCanonize_again (canonical : CanonicalFamily f) : familyCanonize f = some f := by
  rw [familyCanonize, if_neg (by rw [canonical.key]; exact nofun)]
  cases choice : f.ipAddressChoice with
  | inherit => rfl
  | addressesOrRanges aors =>
    dsimp only
    rw [aorsCanonize_again (canonical.listed aors choice), map_some, ← choice]

theorem canonicalFamily_unique {g : IPAddressFamily} (one : CanonicalFamily f)
    (two : CanonicalFamily g) (key : f.addressFamily = g.addressFamily)
    (same : familySense f = familySense g) : familyContent f = familyContent g := by
  rw [familySense, familySense] at same
  rw [familyContent, familyContent, key]
  congr 1
  cases first : f.ipAddressChoice with
  | inherit =>
    rw [first] at same
    cases second : g.ipAddressChoice with
    | inherit => rfl
    | addressesOrRanges s =>
      rw [second] at same
      contradiction
  | addressesOrRanges r =>
    rw [first] at same
    cases second : g.ipAddressChoice with
    | inherit =>
      rw [second] at same
      contradiction
    | addressesOrRanges s =>
      rw [second] at same
      have here := one.listed r first
      have grants := some.inj same
      rw [addrGetAfi_key key] at here
      rw [familyGrants, familyGrants, addrGetAfi_key key] at grants
      exact congrArg some (canonicalAors_unique here (two.listed s second) grants)

theorem familyCmp_le (a b : IPAddressFamily) :
    familyCmp a b ≤ 0 ↔ a.addressFamily < b.addressFamily ∨ a.addressFamily = b.addressFamily := by
  rw [← (familyCmp_keys a b).1, ← (familyCmp_keys a b).2]
  omega

theorem sortFamilies_keys (keys : (families.map IPAddressFamily.addressFamily).Nodup) :
    (sortFamilies families).Pairwise fun a b => a.addressFamily < b.addressFamily := by
  have trans : ∀ a b c : IPAddressFamily, decide (familyCmp a b ≤ 0) = true →
      decide (familyCmp b c ≤ 0) = true → decide (familyCmp a c ≤ 0) = true := by
    intro a b c ab bc
    rw [decide_eq_true_iff, familyCmp_le] at *
    cases ab with
    | inl less =>
      cases bc with
      | inl less' => exact .inl (List.lt_trans less less')
      | inr same =>
        rw [← same]
        exact .inl less
    | inr same =>
      rw [same]
      exact bc
  have total : ∀ a b : IPAddressFamily,
      (decide (familyCmp a b ≤ 0) || decide (familyCmp b a ≤ 0)) = true := by
    intro a b
    rw [Bool.or_eq_true, decide_eq_true_iff, decide_eq_true_iff, familyCmp_le, familyCmp_le]
    by_cases less : a.addressFamily < b.addressFamily
    · exact .inl (.inl less)
    · by_cases more : b.addressFamily < a.addressFamily
      · exact .inr (.inl more)
      · exact .inl (.inr (List.le_antisymm (List.not_lt.mp more) (List.not_lt.mp less)))
  have sorted := pairwise_mergeSort trans total families
  have perm := mergeSort_perm families fun a b => decide (familyCmp a b ≤ 0)
  have distinct : (sortFamilies families).Pairwise fun a b => a.addressFamily ≠ b.addressFamily :=
    pairwise_map.mp ((perm.map IPAddressFamily.addressFamily).nodup_iff.mpr keys)
  rw [sortFamilies] at distinct ⊢
  apply (sorted.and distinct).imp
  intro a b both
  obtain ⟨le, differ⟩ := both
  rw [decide_eq_true_iff, familyCmp_le] at le
  exact le.resolve_right differ

theorem inOrder_of_keys (sorted : families.Pairwise fun a b => a.addressFamily < b.addressFamily)
    (lengths : ∀ f ∈ families, familyCheckLen f = true) : familiesInOrder families = true := by
  induction families with
  | nil => rfl
  | cons a families ih =>
    cases families with
    | nil => rfl
    | cons b families =>
      have rest := ih sorted.of_cons fun f member => lengths f (mem_cons_of_mem a member)
      have less := (familyCmp_keys a b).1.mpr ((pairwise_cons.mp sorted).1 b mem_cons_self)
      rw [familiesInOrder, rest, lengths a mem_cons_self,
        lengths b (mem_cons_of_mem a mem_cons_self), decide_eq_true less]
      rfl

/-- Families in their canonical form and in order. -/
structure CanonicalBlocks (families : List IPAddressFamily) : Prop where
  family : ∀ f ∈ families, CanonicalFamily f
  sorted : families.Pairwise fun a b => a.addressFamily < b.addressFamily

theorem canonical_blocks_tested (canonical : CanonicalBlocks addr.families) :
    addrIsCanonical (some addr) = true := by
  rw [addrIsCanonical, Bool.and_eq_true]
  constructor
  · exact inOrder_of_keys canonical.sorted fun f member => (canonical.family f member).key
  · rw [List.all_eq_true]
    intro f member
    obtain ⟨key, listed⟩ := canonical.family f member
    rw [familyIsCanonical]
    cases choice : f.ipAddressChoice with
    | inherit => rfl
    | addressesOrRanges aors =>
      obtain ⟨some_, normal, separated, _⟩ := listed aors choice
      dsimp only
      rw [key, canonical_tested some_ normal separated]
      rfl

theorem mapM_isSome {α β : Type} (f : α → Option β) (l : List α) :
    (l.mapM f).isSome = true ↔ ∀ a ∈ l, (f a).isSome = true := by
  induction l with
  | nil => exact iff_of_true rfl nofun
  | cons a l ih =>
    rw [mapM_cons, forall_mem_cons, ← ih]
    cases f a with
    | none => exact iff_of_false Bool.false_ne_true fun bad => Bool.false_ne_true bad.1
    | some b =>
      cases l.mapM f with
      | none => exact iff_of_false Bool.false_ne_true fun bad => Bool.false_ne_true bad.2
      | some bs => exact iff_of_true rfl ⟨rfl, rfl⟩

theorem addrSense_family (keys : (addr.families.map IPAddressFamily.addressFamily).Nodup)
    (member : f ∈ addr.families) : addrSense addr f.addressFamily = some (familySense f) := by
  rw [addrSense]
  cases found : familyWith addr f.addressFamily with
  | none => exact absurd (mem_map_of_mem member) (familyWith_none found)
  | some g =>
    obtain ⟨among, same⟩ := familyWith_some found
    rw [inj_on_of_nodup_map keys among member same, map_some]

theorem addrSense_none {key : List UInt8}
    (absent : key ∉ addr.families.map IPAddressFamily.addressFamily) :
    addrSense addr key = none := by
  rw [addrSense]
  cases found : familyWith addr key with
  | none => rfl
  | some g =>
    obtain ⟨among, same⟩ := familyWith_some found
    rw [← same] at absent
    exact absurd (mem_map_of_mem among) absent

theorem familiesCanonize_spec {families' : List IPAddressFamily}
    (proper : ∀ f ∈ families, ProperFamily f)
    (run : families.mapM familyCanonize = some families') :
    families'.map IPAddressFamily.addressFamily = families.map IPAddressFamily.addressFamily ∧
      ∀ g ∈ families', CanonicalFamily g := by
  induction families generalizing families' with
  | nil =>
    obtain rfl := some.inj run
    exact ⟨rfl, nofun⟩
  | cons f families ih =>
    rw [mapM_cons] at run
    obtain ⟨g, first, rest⟩ := bind_eq_some_iff.mp run
    obtain ⟨gs, later, is⟩ := bind_eq_some_iff.mp rest
    obtain ⟨keys, canonical⟩ := ih (fun h member => proper h (mem_cons_of_mem f member)) later
    have here := (familyCanonize_spec (proper f mem_cons_self)).2 g first
    rw [← some.inj is]
    constructor
    · rw [map_cons, map_cons, here.2.1, keys]
    · intro h member
      cases mem_cons.mp member with
      | inl same =>
        rw [same]
        exact here.1
      | inr among => exact canonical h among

/-- Blocks are canonized if and only if no entries of a family overlap, and the result is
    canonical and grants the same. -/
theorem addrCanonize_spec (proper : ProperBlocks addr.families) :
    addrCanonize addr ≠ .error .assertion ∧
      ((∃ r, addrCanonize addr = .ok r) ↔ ∀ f ∈ addr.families, FamilyApart f) ∧
      ∀ r, addrCanonize addr = .ok r →
        CanonicalBlocks r.families ∧ ∀ key, addrSense r key = addrSense addr key := by
  have apart : (addr.families.mapM familyCanonize).isSome = true ↔
      ∀ f ∈ addr.families, FamilyApart f := by
    rw [mapM_isSome]
    constructor
    · exact fun all f member => (familyCanonize_spec (proper.family f member)).1.mp (all f member)
    · exact fun all f member =>
        (familyCanonize_spec (proper.family f member)).1.mpr (all f member)
  rw [addrCanonize, ← apart]
  cases run : addr.families.mapM familyCanonize with
  | none =>
    refine ⟨nofun, iff_of_false ?_ Bool.false_ne_true, nofun⟩
    intro bad
    obtain ⟨r, bad⟩ := bad
    exact nomatch bad
  | some families =>
    obtain ⟨keys, each⟩ := familiesCanonize_spec proper.family run
    have nodup := proper.keys
    rw [← keys] at nodup
    have perm : (sortFamilies families).Perm families := mergeSort_perm families _
    have canonical : CanonicalBlocks (sortFamilies families) := by
      constructor
      · exact fun g member => each g (perm.mem_iff.mp member)
      · exact sortFamilies_keys nodup
    have tested : addrIsCanonical (some { addr with families := sortFamilies families }) = true :=
      canonical_blocks_tested canonical
    dsimp only
    rw [if_neg (by rw [tested]; exact nofun)]
    refine ⟨nofun, iff_of_true ⟨_, rfl⟩ rfl, ?_⟩
    intro r is
    obtain rfl := Except.ok.inj is
    refine ⟨canonical, ?_⟩
    intro key
    have keysR : ((sortFamilies families).map IPAddressFamily.addressFamily).Perm
        (addr.families.map IPAddressFamily.addressFamily) := by
      rw [← keys]
      exact perm.map _
    by_cases present : key ∈ addr.families.map IPAddressFamily.addressFamily
    · obtain ⟨f, among, is⟩ := mem_map.mp present
      obtain ⟨g, inside, made⟩ := mapM_mem run among
      obtain ⟨_, same, sense⟩ := (familyCanonize_spec (proper.family f among)).2 g made
      have senseG : addrSense { addr with families := sortFamilies families } g.addressFamily =
          some (familySense g) :=
        addrSense_family (keysR.nodup_iff.mpr proper.keys) (perm.mem_iff.mpr inside)
      rw [← is, addrSense_family proper.keys among, ← sense, ← same]
      exact senseG
    · rw [addrSense_none present]
      exact addrSense_none fun bad => present (keysR.mem_iff.mp bad)

theorem canonical_blocks_unique {r s : IPAddrBlocks} (one : CanonicalBlocks r.families)
    (two : CanonicalBlocks s.families) (same : ∀ key, addrSense r key = addrSense s key) :
    r.families.map familyContent = s.families.map familyContent := by
  have nodup : ∀ {addr : IPAddrBlocks}, CanonicalBlocks addr.families →
      (addr.families.map IPAddressFamily.addressFamily).Nodup := by
    intro addr canonical
    rw [nodup_iff_pairwise_ne, pairwise_map]
    apply canonical.sorted.imp
    intro a b less is
    rw [is] at less
    exact List.lt_irrefl _ less
  have content : ∀ {r s : IPAddrBlocks}, CanonicalBlocks r.families → CanonicalBlocks s.families →
      (∀ key, addrSense r key = addrSense s key) →
      ∀ c ∈ r.families.map familyContent, c ∈ s.families.map familyContent := by
    intro r s one two same c member
    obtain ⟨f, among, is⟩ := mem_map.mp member
    have sense := addrSense_family (nodup one) among
    rw [same, addrSense] at sense
    obtain ⟨g, found, senseG⟩ := map_eq_some_iff.mp sense
    obtain ⟨inside, key⟩ := familyWith_some found
    rw [← is, ← canonicalFamily_unique (two.family g inside) (one.family f among) key senseG]
    exact mem_map_of_mem inside
  have order : ∀ {addr : IPAddrBlocks}, CanonicalBlocks addr.families →
      (addr.families.map familyContent).Pairwise fun a b => a.1 < b.1 := by
    intro addr canonical
    rw [pairwise_map]
    exact canonical.sorted
  have distinct : ∀ {l : List (List UInt8 × Option (List IPAddressOrRange))},
      (l.Pairwise fun a b => a.1 < b.1) → l.Nodup := by
    intro l sorted
    apply sorted.imp
    intro a b less is
    rw [is] at less
    exact List.lt_irrefl _ less
  have perm := (perm_ext_iff_of_nodup (distinct (order one)) (distinct (order two))).mpr
    fun c => ⟨content one two same c, content two one (fun key => (same key).symm) c⟩
  apply List.Perm.eq_of_pairwise ?_ (order one) (order two) perm
  intro a b _ _ ab ba
  exact absurd (List.lt_trans ab ba) (List.lt_irrefl _)

theorem addrCanonize_again {r : IPAddrBlocks} (canonical : CanonicalBlocks r.families) :
    addrCanonize r = .ok r := by
  have each : r.families.mapM familyCanonize = some r.families := by
    have all := canonical.family
    generalize r.families = l at all
    induction l with
    | nil => rfl
    | cons f l ih =>
      rw [mapM_cons, familyCanonize_again (all f mem_cons_self),
        ih fun g member => all g (mem_cons_of_mem f member)]
      rfl
  have stays : sortFamilies r.families = r.families := by
    apply mergeSort_of_pairwise
    apply canonical.sorted.imp
    intro a b less
    rw [decide_eq_true_iff, familyCmp_le]
    exact .inl less
  have tested := canonical_blocks_tested canonical
  rw [addrCanonize, each]
  dsimp only
  rw [stays, if_neg (by rw [tested]; exact nofun)]

end Blocks

section Built

/-- Neighbours are merged, and no range has the bounds of a prefix. -/
def Reduced (f : IPAddressFamily) : Prop :=
  ∀ aors, f.ipAddressChoice = .addressesOrRanges aors →
    Separated (addrSpans (lengthFromAfi (addrGetAfi f)) aors.elems) ∧
    ∀ min max bs, .addressRange min max ∈ aors.elems →
      extractMinMax (lengthFromAfi (addrGetAfi f)) (.addressRange min max) ≠
        extractMinMax (lengthFromAfi (addrGetAfi f)) (.addressPrefix bs)

theorem canonical_reduced {f : IPAddressFamily} (canonical : CanonicalFamily f) : Reduced f := by
  intro aors choice
  obtain ⟨_, normal, separated, _⟩ := canonical.listed aors choice
  refine ⟨separated, ?_⟩
  intro min max bs member same
  have here := normal _ member
  obtain ⟨low, high, ends, _⟩ := id here
  obtain ⟨p, bs', shape⟩ := prefix_shape (same.symm.trans ends)
  have none_ := normal_range here rfl ends
  rw [shape_tested shape] at none_
  contradiction

theorem empty_proper (ptr : Nat) : ProperBlocks (IPAddrBlocks.mk ptr []).families :=
  ⟨nofun, nodup_nil⟩

/-- Blocks that are built in any way are canonized if and only if no entries of a family
    overlap. They then grant the same, in the one canonical form. -/
theorem addr_canonize_built {ops : List AddrOp} {ptr : Nat} {addr : IPAddrBlocks}
    (readable : ∀ op ∈ ops, op.Readable) (built : addrBuild ops ⟨ptr, []⟩ = some addr) :
    addrCanonize addr ≠ .error .assertion ∧
      ((∃ r, addrCanonize addr = .ok r) ↔ ∀ f ∈ addr.families, FamilyApart f) ∧
      ∀ r, addrCanonize addr = .ok r →
        (∀ key, addrSense r key = addrSense addr key) ∧ addrIsCanonical (some r) = true ∧
        (∀ f ∈ r.families, Reduced f) ∧ addrCanonize r = .ok r ∧
        ∀ ops' ptr' addr' r', (∀ op ∈ ops', op.Readable) →
          addrBuild ops' ⟨ptr', []⟩ = some addr' → addrCanonize addr' = .ok r' →
          (∀ key, addrSense addr' key = addrSense addr key) →
          r'.families.map familyContent = r.families.map familyContent := by
  obtain ⟨asserts, decides, result⟩ :=
    addrCanonize_spec (addrBuild_proper (empty_proper ptr) readable built)
  refine ⟨asserts, decides, ?_⟩
  intro r run
  obtain ⟨canonical, same⟩ := result r run
  refine ⟨same, canonical_blocks_tested canonical,
    fun f member => canonical_reduced (canonical.family f member),
    addrCanonize_again canonical, ?_⟩
  intro ops' ptr' addr' r' readable' built' run' alike
  obtain ⟨_, _, result'⟩ :=
    addrCanonize_spec (addrBuild_proper (empty_proper ptr') readable' built')
  obtain ⟨canonical', same'⟩ := result' r' run'
  apply canonical_blocks_unique canonical' canonical
  exact fun key => (same' key).trans ((alike key).trans (same key).symm)

def halvesOps : List AddrOp :=
  [.addInherit 2 none, .addRange 1 none [10, 128, 0, 0] [10, 255, 255, 255],
    .addPrefix 1 none [10, 0, 0, 0] 9]

def halvesBuilt : IPAddrBlocks :=
  ⟨0, [⟨[0, 2], .inherit⟩, ⟨[0, 1], .addressesOrRanges
    ⟨1, [.addressPrefix ⟨[10, 128], 7⟩, .addressPrefix ⟨[10, 0], 7⟩], some 4⟩⟩]⟩

theorem addr_canonize_built_halves :
    (∃ r, addrCanonize halvesBuilt = .ok r) ↔ ∀ f ∈ halvesBuilt.families, FamilyApart f := by
  have readable : ∀ op ∈ halvesOps, op.Readable := by
    intro op member
    cases member with
    | head => trivial
    | tail _ member =>
      cases member with
      | head => exact ⟨by decide, by decide⟩
      | tail _ member =>
        rw [mem_singleton.mp member]
        exact (by decide : (Int.toNat 9 + 7) / 8 ≤ 4)
  exact (addr_canonize_built readable (by decide +kernel :
    addrBuild halvesOps ⟨0, []⟩ = some halvesBuilt)).2.1

end Built

end Ossl
