import OpenSSL.X509.V3Addr

/- What a validated path says of IP addresses. -/
namespace Ossl
open List BigEndian Spans Cover

theorem memcmp_take (x y : List UInt8) :
    memcmp (x.take (min x.length y.length)) (y.take (min x.length y.length)) =
      memcmp x y := by
  induction x generalizing y with
  | nil => rfl
  | cons a x ih =>
    cases y with
    | nil => rfl
    | cons b y =>
      have size : min (a :: x).length (b :: y).length = min x.length y.length + 1 :=
        Nat.add_min_add_right _ _ 1
      rw [size, take_succ_cons, take_succ_cons, memcmp, memcmp, ih]

theorem memcmp_nil (y : List UInt8) : memcmp [] y = 0 := rfl

theorem memcmp_to_nil (x : List UInt8) : memcmp x [] = 0 := by
  cases x with
  | nil => rfl
  | cons a x => rfl

/-- Families are compared as the strings of their keys. -/
theorem familyCmp_keys (a b : IPAddressFamily) :
    (familyCmp a b < 0 ↔ a.addressFamily < b.addressFamily) ∧
      (familyCmp a b = 0 ↔ a.addressFamily = b.addressFamily) := by
  rw [familyCmp, memcmp_take]
  generalize a.addressFamily = x
  generalize b.addressFamily = y
  induction x generalizing y with
  | nil =>
    cases y with
    | nil => decide
    | cons b y =>
      rw [memcmp_nil, if_neg (not_not.mpr rfl), length_nil, length_cons]
      constructor
      · exact iff_of_true (by omega) (nil_lt_cons b y)
      · exact iff_of_false (by omega) nofun
  | cons a x ih =>
    cases y with
    | nil =>
      rw [memcmp_to_nil, if_neg (not_not.mpr rfl), length_nil, length_cons]
      constructor
      · exact iff_of_false (by omega) (not_lt_nil _)
      · exact iff_of_false (by omega) nofun
    | cons b y =>
      obtain ⟨less, same⟩ := ih y
      rw [memcmp, cons_lt_cons_iff, cons.injEq, length_cons, length_cons]
      by_cases is : a = b
      · rw [if_pos is]
        have shift : ((x.length + 1 : Nat) : Int) - ((y.length + 1 : Nat) : Int) =
            (x.length : Int) - y.length := by omega
        rw [shift, less, same, is]
        constructor
        · constructor
          · exact fun rest => .inr ⟨rfl, rest⟩
          · intro either
            cases either with
            | inl bad => exact absurd bad (UInt8.lt_irrefl b)
            | inr rest => exact rest.2
        · exact (and_iff_right rfl).symm
      · have differ : a.toNat ≠ b.toNat := fun bad => is (UInt8.toNat_inj.mp bad)
        rw [if_neg is, if_pos (by omega)]
        constructor
        · rw [UInt8.lt_iff_toNat_lt]
          constructor
          · intro below
            exact .inl (by omega)
          · intro either
            cases either with
            | inl below => omega
            | inr bad => exact absurd bad.1 is
        · exact iff_of_false (by omega) fun bad => is bad.1

variable {families : List IPAddressFamily} {f g : IPAddressFamily}

theorem inOrder_pairwise (order : familiesInOrder families = true) :
    families.Pairwise fun a b => a.addressFamily < b.addressFamily := by
  induction families with
  | nil => exact .nil
  | cons a families ih =>
    cases families with
    | nil => exact pairwise_singleton _ _
    | cons b families =>
      rw [familiesInOrder, Bool.and_eq_true, Bool.and_eq_true, decide_eq_true_iff] at order
      have first := (familyCmp_keys a b).1.mp order.1.2
      have rest := ih order.2
      rw [pairwise_cons]
      constructor
      · intro c member
        cases mem_cons.mp member with
        | inl is =>
          rw [is]
          exact first
        | inr later => exact List.lt_trans first ((pairwise_cons.mp rest).1 c later)
      · exact rest

theorem findFamily_some (found : findFamily (sortFamilies families) f = some g) :
    g ∈ families ∧ g.addressFamily = f.addressFamily := by
  constructor
  · have member := mem_of_find?_eq_some found
    exact (mergeSort_perm families _).mem_iff.mp member
  · have same := find?_some found
    rw [decide_eq_true_iff] at same
    exact ((familyCmp_keys f g).2.mp same).symm

theorem findFamily_none (found : findFamily families f = none) (member : g ∈ families) :
    g.addressFamily ≠ f.addressFamily := by
  intro same
  have differ := find?_eq_none.mp found g member
  rw [decide_eq_true_iff] at differ
  exact differ ((familyCmp_keys f g).2.mpr same.symm)

def familyGrants (f : IPAddressFamily) (aors : IPAddressOrRanges) : Set Nat :=
  grantsOf (lengthFromAfi (addrGetAfi f)) aors.elems

theorem addrGetAfi_key (same : g.addressFamily = f.addressFamily) :
    addrGetAfi g = addrGetAfi f := by
  rw [addrGetAfi, addrGetAfi, same]

def InHeap (heap : Nat → List IPAddressOrRange) (f : IPAddressFamily) : Prop :=
  ∀ aors, f.ipAddressChoice = .addressesOrRanges aors → aors.elems = heap aors.ptr

section Walk
variable {heap : Nat → List IPAddressOrRange}

def Claims (heap : Nat → List IPAddressOrRange) (f : IPAddressFamily) (claim : Set Nat)
    (child : List IPAddressFamily) : Prop :=
  ∃ fc ∈ child, fc.addressFamily = f.addressFamily ∧ InHeap heap fc ∧
    ∃ aors, fc.ipAddressChoice = .addressesOrRanges aors ∧ claim ⊆ familyGrants f aors

def Grants (f : IPAddressFamily) (claim : Set Nat) (families : List IPAddressFamily) : Prop :=
  ∃ g ∈ families, g.addressFamily = f.addressFamily ∧
    ∃ aors, g.ipAddressChoice = .addressesOrRanges aors ∧ claim ⊆ familyGrants f aors

def Inherits (f : IPAddressFamily) (families : List IPAddressFamily) : Prop :=
  ∃ g ∈ families, g.addressFamily = f.addressFamily ∧ g.ipAddressChoice = .inherit

theorem addrContains_sound {parent child : IPAddressOrRanges} {length : Nat}
    (run : addrContains parent child length = true) (inP : parent.elems = heap parent.ptr)
    (inC : child.elems = heap child.ptr) :
    grantsOf length child.elems ⊆ grantsOf length parent.elems := by
  rw [addrContains] at run
  by_cases same : parent.ptr = child.ptr
  · rw [inP, inC, same]
  · rw [if_neg same] at run
    exact (contains_sound (addr_compares length) run).2

variable {f : IPAddressFamily} {aors : IPAddressOrRanges} {addr : IPAddrBlocks}

/-- A step of the walk keeps an explicit family and its addresses. -/
theorem walkFamily_claims {families : List IPAddressFamily} {fc fc' : IPAddressFamily}
    {claim : Set Nat} (run : walkFamily (sortFamilies families) fc = some fc')
    (stored : ∀ g ∈ families, InHeap heap g) (key : fc.addressFamily = f.addressFamily)
    (here : InHeap heap fc) (explicit : fc.ipAddressChoice = .addressesOrRanges aors)
    (covers : claim ⊆ familyGrants f aors) : (Inherits f families ∨ Grants f claim families) ∧
      Claims heap f claim [fc'] := by
  rw [walkFamily] at run
  cases found : findFamily (sortFamilies families) fc with
  | none =>
    have own : familyInherits fc = false := by
      rw [familyInherits, explicit]
      rfl
    rw [found, own] at run
    contradiction
  | some fp =>
    obtain ⟨member, same⟩ := findFamily_some found
    have keyP := same.trans key
    rw [found] at run
    dsimp only at run
    by_cases bad : familyCheckLen fc = false ∨ familyCheckLen fp = false
    · rw [if_pos bad] at run
      contradiction
    · rw [if_neg bad, explicit] at run
      cases choice : fp.ipAddressChoice with
      | inherit =>
        rw [choice] at run
        obtain rfl := Option.some.inj run
        exact ⟨.inl ⟨fp, member, keyP, choice⟩,
          fc, mem_cons_self, key, here, aors, explicit, covers⟩
      | addressesOrRanges ranges =>
        rw [choice] at run
        dsimp only at run
        by_cases inside : addrContains ranges aors (lengthFromAfi (addrGetAfi fc)) = true
        · rw [if_pos inside] at run
          obtain rfl := Option.some.inj run
          have storedP := stored fp member
          have larger := addrContains_sound inside (storedP ranges choice) (here aors explicit)
          rw [addrGetAfi_key key] at larger
          have all := covers.trans larger
          exact ⟨.inr ⟨fp, member, keyP, ranges, choice, all⟩,
            fp, mem_cons_self, keyP, storedP, ranges, choice, all⟩
        · rw [if_neg inside] at run
          contradiction

theorem mapM_mem {α β : Type} {f : α → Option β} {l : List α} {m : List β}
    (run : l.mapM f = some m) {a : α} (member : a ∈ l) : ∃ b ∈ m, f a = some b := by
  induction l generalizing m with
  | nil => nomatch member
  | cons c l ih =>
    rw [mapM_cons] at run
    obtain ⟨b, first, rest⟩ := Option.bind_eq_some_iff.mp run
    obtain ⟨bs, later, is⟩ := Option.bind_eq_some_iff.mp rest
    rw [← Option.some.inj is]
    cases mem_cons.mp member with
    | inl same =>
      rw [same]
      exact ⟨b, mem_cons_self, first⟩
    | inr among =>
      obtain ⟨d, inside, made⟩ := ih later among
      exact ⟨d, mem_cons_of_mem b inside, made⟩

def AddrStored (heap : Nat → List IPAddressOrRange) (x : Option IPAddrBlocks) : Prop :=
  ∀ addr, x = some addr → ∀ g ∈ addr.families, InHeap heap g

/-- A certificate that the walk passes lists the family as inherited or with at least the
    claim, and the claim stays. -/
theorem walkCert_claims {child child' : List IPAddressFamily} {x : Option IPAddrBlocks}
    {claim : Set Nat} (run : walkCert child x = some child') (stored : AddrStored heap x)
    (claims : Claims heap f claim child) :
    (∃ addr, x = some addr ∧ (Inherits f addr.families ∨ Grants f claim addr.families)) ∧
      Claims heap f claim child' := by
  obtain ⟨fc, member, key, here, aors, explicit, covers⟩ := claims
  unfold walkCert at run
  by_cases canonical : addrIsCanonical x = false
  · rw [if_pos canonical] at run
    contradiction
  · rw [if_neg canonical] at run
    cases x with
    | none =>
      have own : (child.all fun fc => familyCheckLen fc && familyInherits fc) ≠ true := by
        intro all
        have inherits := all_eq_true.mp all fc member
        rw [Bool.and_eq_true, familyInherits, decide_eq_true_iff, explicit] at inherits
        nomatch inherits.2
      rw [if_neg own] at run
      contradiction
    | some addr =>
      obtain ⟨fc', among, step⟩ := mapM_mem run member
      obtain ⟨lists, fc2, inside, rest⟩ :=
        walkFamily_claims step (stored addr rfl) key here explicit covers
      rw [mem_singleton.mp inside] at rest
      exact ⟨⟨addr, rfl, lists⟩, fc', among, rest⟩

theorem walk_claims {chain : List (Option IPAddrBlocks)} {child child' : List IPAddressFamily}
    {claim : Set Nat} (run : chain.foldlM walkCert child = some child')
    (stored : ∀ x ∈ chain, AddrStored heap x) (claims : Claims heap f claim child) :
    (∀ x ∈ chain, ∃ addr, x = some addr ∧
      (Inherits f addr.families ∨ Grants f claim addr.families)) ∧ Claims heap f claim child' := by
  induction chain generalizing child with
  | nil =>
    obtain rfl := Option.some.inj run
    exact ⟨nofun, claims⟩
  | cons x chain ih =>
    rw [foldlM_cons] at run
    obtain ⟨mid, first, rest⟩ := Option.bind_eq_some_iff.mp run
    obtain ⟨lists, claims'⟩ := walkCert_claims first (stored x mem_cons_self) claims
    obtain ⟨others, final⟩ := ih rest (fun y member => stored y (mem_cons_of_mem x member)) claims'
    constructor
    · intro y member
      cases mem_cons.mp member with
      | inl is =>
        rw [is]
        exact lists
      | inr later => exact others y later
    · exact final

/-- No certificate of a validated path grants less than the extension claims. -/
theorem addr_path_nested {chain : List (Option IPAddrBlocks)} {ext : IPAddrBlocks} {allow : Bool}
    (stored : ∀ x ∈ some ext :: chain, AddrStored heap x)
    (valid : addrValidateResourceSet chain (some ext) allow = true) (member : f ∈ ext.families)
    (explicit : f.ipAddressChoice = .addressesOrRanges aors) : (∀ x ∈ chain, ∃ addr, x = some addr ∧
      (Inherits f addr.families ∨ Grants f (familyGrants f aors) addr.families)) ∧
    ∃ addr, chain.getLast? = some (some addr) ∧ Grants f (familyGrants f aors) addr.families := by
  rw [addrValidateResourceSet] at valid
  by_cases empty : chain = []
  · rw [if_pos empty] at valid
    contradiction
  rw [if_neg empty] at valid
  by_cases refused : allow = false ∧ addrInherits (some ext) = true
  · rw [if_pos refused] at valid
    contradiction
  rw [if_neg refused, addrValidatePathInternal, if_neg empty] at valid
  by_cases canonical : addrIsCanonical (some ext) = false
  · rw [if_pos canonical] at valid
    contradiction
  rw [if_neg canonical] at valid
  cases run : chain.foldlM walkCert (sortFamilies ext.families) with
  | none =>
    rw [run] at valid
    contradiction
  | some child =>
    rw [run] at valid
    have start : Claims heap f (familyGrants f aors) (sortFamilies ext.families) :=
      ⟨f, (mergeSort_perm ext.families _).mem_iff.mpr member, rfl,
        stored (some ext) mem_cons_self ext rfl f member, aors, explicit, subset_refl _⟩
    obtain ⟨all, claims⟩ := walk_claims run
      (fun x among => stored x (mem_cons_of_mem _ among)) start
    constructor
    · exact all
    · have last := getLast?_eq_some_getLast empty
      obtain ⟨addr, is, lists⟩ := all _ (getLast_mem empty)
      rw [is] at last
      apply Exists.intro addr
      constructor
      · exact last
      · cases lists with
        | inr grants => exact grants
        | inl inherits =>
          exfalso
          obtain ⟨g, among, key, choice⟩ := inherits
          rw [last] at valid
          have checked := all_eq_true.mp valid g
            ((mergeSort_perm addr.families _).mem_iff.mpr among)
          obtain ⟨fc, inside, keyC, _⟩ := claims
          have own : familyInherits g = true := decide_eq_true choice
          have found : (findFamily child g).isSome = true := by
            cases search : findFamily child g with
            | some _ => rfl
            | none => exact absurd (keyC.trans key.symm) (findFamily_none search inside)
          rw [own, found, Bool.and_true, Bool.not_true, Bool.and_false] at checked
          contradiction

def AddrFits (addr : IPAddrBlocks) : Prop :=
  ∀ f ∈ addr.families, ∀ aors, f.ipAddressChoice = .addressesOrRanges aors →
    ∀ e ∈ aors.elems, (extractMinMax (lengthFromAfi (addrGetAfi f)) e).isSome = true

theorem canonical_family (canonical : addrIsCanonical (some addr) = true)
    (member : f ∈ addr.families) (explicit : f.ipAddressChoice = .addressesOrRanges aors) :
    familyCheckLen f = true ∧ aorsAreCanonical (lengthFromAfi (addrGetAfi f)) aors.elems = true := by
  rw [addrIsCanonical, Bool.and_eq_true] at canonical
  have own := all_eq_true.mp canonical.2 f member
  rw [familyIsCanonical, explicit, Bool.and_eq_true] at own
  exact own

theorem not_inherited (none_ : addrInherits (some addr) = false) (member : f ∈ addr.families) :
    ∃ aors, f.ipAddressChoice = .addressesOrRanges aors := by
  cases choice : f.ipAddressChoice with
  | addressesOrRanges aors => exact ⟨aors, rfl⟩
  | inherit =>
    have own := any_eq_false.mp none_ f member
    exact absurd (decide_eq_true choice) own

/-- Two families of a canonical extension with one key are the same. -/
theorem canonical_key (canonical : addrIsCanonical (some addr) = true) {g : IPAddressFamily}
    (first : f ∈ addr.families) (other : g ∈ addr.families)
    (same : f.addressFamily = g.addressFamily) : f = g := by
  rw [addrIsCanonical, Bool.and_eq_true] at canonical
  have order := inOrder_pairwise canonical.1
  have each : addr.families.Pairwise fun x y => x.addressFamily = y.addressFamily → x = y := by
    apply order.imp
    intro x y less bad
    rw [bad] at less
    exact absurd less (List.lt_irrefl _)
  have back : addr.families.Pairwise
      (flip fun x y => x.addressFamily = y.addressFamily → x = y) := by
    apply order.imp
    intro x y less bad
    rw [bad] at less
    exact absurd less (List.lt_irrefl _)
  exact each.forall_of_forall_of_flip (fun x _ _ => rfl) back first other same

theorem addrContains_iff {parent child : IPAddressOrRanges} {length : Nat}
    (inP : parent.elems = heap parent.ptr) (inC : child.elems = heap child.ptr)
    (canonicalP : aorsAreCanonical length parent.elems = true)
    (canonicalC : aorsAreCanonical length child.elems = true)
    (fits : ∀ e ∈ child.elems, (extractMinMax length e).isSome = true) :
    addrContains parent child length = true ↔
      grantsOf length child.elems ⊆ grantsOf length parent.elems := by
  constructor
  · exact fun run => addrContains_sound run inP inC
  · intro covered
    obtain ⟨_, gappedP, allP⟩ := canonical_gapped canonicalP
    obtain ⟨some_, gappedC, _⟩ := canonical_gapped canonicalC
    rw [addrContains]
    by_cases same : parent.ptr = child.ptr
    · rw [if_pos same]
    · rw [if_neg same]
      cases allP with
      | inl all => exact (contains_iff (addr_compares length) all gappedP gappedC).mpr ⟨fits, covered⟩
      | inr bad =>
        exfalso
        obtain ⟨bs, single, none_⟩ := bad
        obtain ⟨e, rest, split⟩ := exists_cons_of_ne_nil some_
        have first : e ∈ child.elems := by
          rw [split]
          exact mem_cons_self
        obtain ⟨r, is⟩ := Option.isSome_iff_exists.mp (fits e first)
        have member : (⟨netValue r.1, netValue r.2⟩ : Span Nat) ∈
            spansOf (extractMinMax length) netValue child.elems :=
          mem_spansOf.mpr ⟨e, first, r, is, rfl⟩
        have valid := gappedC.nonempty _ member
        obtain ⟨s, among, _⟩ := covered ⟨_, member, le_refl _, valid⟩
        obtain ⟨b, inside, _, isB, _⟩ := mem_spansOf.mp among
        rw [single, mem_singleton] at inside
        rw [inside, none_] at isB
        contradiction

/-- The subset test decides the inclusion for each family. -/
theorem addr_subset_decides {a b : IPAddrBlocks} (storedA : AddrStored heap (some a))
    (storedB : AddrStored heap (some b)) (one : a.ptr = b.ptr → a.families = b.families)
    (canonicalA : addrIsCanonical (some a) = true) (canonicalB : addrIsCanonical (some b) = true)
    (ownA : addrInherits (some a) = false) (ownB : addrInherits (some b) = false)
    (fits : AddrFits a) :
    addrSubset (some a) (some b) = true ↔
      ∀ f ∈ a.families, ∀ aors, f.ipAddressChoice = .addressesOrRanges aors →
        Grants f (familyGrants f aors) b.families := by
  by_cases same : a.ptr = b.ptr
  · have equal : addrSubset (some a) (some b) = true := by
      rw [addrSubset, if_pos same]
    apply iff_of_true equal
    intro f member aors explicit
    rw [← one same]
    exact ⟨f, member, rfl, aors, explicit, subset_refl _⟩
  · have inherit : ¬ (addrInherits (some a) = true ∨ addrInherits (some b) = true) := by
      rw [ownA, ownB, or_self]
      exact Bool.false_ne_true
    rw [addrSubset, if_neg same, if_neg inherit]
    rw [all_eq_true]
    apply forall₂_congr
    intro fa member
    obtain ⟨claimed, explicit⟩ := not_inherited ownA member
    obtain ⟨lenA, listA⟩ := canonical_family canonicalA member explicit
    have storedC := storedA a rfl fa member claimed explicit
    constructor
    · intro run aors explicit'
      rw [explicit] at explicit'
      obtain rfl := IPAddressChoice.addressesOrRanges.inj explicit'
      cases found : findFamily (sortFamilies b.families) fa with
      | none =>
        rw [found] at run
        contradiction
      | some fb =>
        obtain ⟨among, key⟩ := findFamily_some found
        obtain ⟨ranges, choice⟩ := not_inherited ownB among
        rw [found] at run
        dsimp only at run
        rw [explicit, choice, Bool.and_eq_true] at run
        have storedP := storedB b rfl fb among ranges choice
        have covered := addrContains_sound run.2 storedP storedC
        rw [addrGetAfi_key key] at covered
        exact ⟨fb, among, key, ranges, choice, covered⟩
    · intro grants
      obtain ⟨g, among, key, ranges, choice, covered⟩ := grants claimed explicit
      obtain ⟨lenB, listB⟩ := canonical_family canonicalB among choice
      have storedP := storedB b rfl g among ranges choice
      have found : findFamily (sortFamilies b.families) fa = some g := by
        cases search : findFamily (sortFamilies b.families) fa with
        | none =>
          have inside := (mergeSort_perm b.families
            fun x y => decide (familyCmp x y ≤ 0)).mem_iff.mpr among
          exact absurd key (findFamily_none search inside)
        | some fb =>
          obtain ⟨inside, keyB⟩ := findFamily_some search
          rw [canonical_key canonicalB inside among (keyB.trans key.symm)]
      have length := addrGetAfi_key key
      rw [length] at listB
      rw [found]
      dsimp only
      rw [explicit, choice, lenA, lenB, length]
      exact (addrContains_iff storedP storedC listB listA (fits fa member claimed explicit)).mpr
        covered

end Walk
end Ossl
