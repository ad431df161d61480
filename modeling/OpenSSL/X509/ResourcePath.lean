import OpenSSL.X509.V3AddrPath
import OpenSSL.X509.V3Asid

/- Path validation of the resources of RFC 3779. -/
namespace Ossl
open Option List

structure X509 where
  rfc3779Addr : Option IPAddrBlocks
  rfc3779Asid : Option ASIdentifiers

/-- What a validated path and the subset tests say. A pointer leads to one list, and a bit
    string that is compared is no longer than an address. -/
theorem resources_nested (addrHeap : Nat → List IPAddressOrRange) (asHeap : Nat → List ASIdOrRange) :
    (∀ (chain : List X509) (ext : IPAddrBlocks) (allow : Bool),
      (∀ x ∈ some ext :: chain.map X509.rfc3779Addr, AddrStored addrHeap x) →
      addrIsCanonical (some ext) = true →
      addrValidateResourceSet (chain.map X509.rfc3779Addr) (some ext) allow = true →
      ∀ f ∈ ext.families, ∀ aors, f.ipAddressChoice = .addressesOrRanges aors →
        (∀ x ∈ chain, ∃ addr, x.rfc3779Addr = some addr ∧
          (Inherits f addr.families ∨ Grants f (familyGrants f aors) addr.families)) ∧
        ∃ x addr, chain.getLast? = some x ∧ x.rfc3779Addr = some addr ∧
          Grants f (familyGrants f aors) addr.families) ∧
    (∀ (chain : List X509) (ext : ASIdentifiers) (allow : Bool),
      (∀ x ∈ some ext :: chain.map X509.rfc3779Asid, AsidStored asHeap x) →
      asidIsCanonical (some ext) = true →
      asidValidateResourceSet (chain.map X509.rfc3779Asid) (some ext) allow = true →
      ∀ (part : AsPart) ranges, part.of ext = some (.asIdsOrRanges ranges) →
        (∀ x ∈ chain, ∃ asid, x.rfc3779Asid = some asid ∧
          AsNested (asGrants ranges) (part.of asid)) ∧
        ∃ x asid, chain.getLast? = some x ∧ x.rfc3779Asid = some asid ∧
          ∃ ranges', part.of asid = some (.asIdsOrRanges ranges') ∧
            asGrants ranges ⊆ asGrants ranges') ∧
    (∀ a b : IPAddrBlocks, AddrStored addrHeap (some a) → AddrStored addrHeap (some b) →
      (a.ptr = b.ptr → a.families = b.families) →
      addrIsCanonical (some a) = true → addrIsCanonical (some b) = true →
      addrInherits (some a) = false → addrInherits (some b) = false → AddrFits a →
      (addrSubset (some a) (some b) = true ↔
        ∀ f ∈ a.families, ∀ aors, f.ipAddressChoice = .addressesOrRanges aors →
          Grants f (familyGrants f aors) b.families)) ∧
    (∀ a b : ASIdentifiers, AsidStored asHeap (some a) → AsidStored asHeap (some b) →
      (a.ptr = b.ptr → a.asnum = b.asnum ∧ a.rdi = b.rdi) →
      asidIsCanonical (some a) = true → asidIsCanonical (some b) = true →
      asidInherits (some a) = false → asidInherits (some b) = false →
      (asidSubset (some a) (some b) = true ↔
        ∀ part : AsPart, AsIncluded (part.of a) (part.of b))) := by
  refine ⟨?_, ?_, ?_, ?_⟩
  · intro chain ext allow stored _ valid f member aors explicit
    obtain ⟨all, addr, last, grants⟩ := addr_path_nested stored valid member explicit
    rw [getLast?_map, map_eq_some_iff] at last
    obtain ⟨x, is, has⟩ := last
    constructor
    · exact fun y among => all _ (mem_map_of_mem among)
    · exact ⟨x, addr, is, has, grants⟩
  · intro chain ext allow stored _ valid part ranges explicit
    obtain ⟨all, asid, last, grants⟩ := asid_path_nested stored valid part explicit
    rw [getLast?_map, map_eq_some_iff] at last
    obtain ⟨x, is, has⟩ := last
    constructor
    · exact fun y among => all _ (mem_map_of_mem among)
    · exact ⟨x, asid, is, has, grants⟩
  · intro a b storedA storedB one canonicalA canonicalB ownA ownB fits
    exact addr_subset_decides storedA storedB one canonicalA canonicalB ownA ownB fits
  · intro a b storedA storedB one canonicalA canonicalB ownA ownB
    exact asid_subset_decides storedA storedB one canonicalA canonicalB ownA ownB

def sampleList : Nat → List IPAddressOrRange
  | 1 => [.addressPrefix ⟨[10], 0⟩]
  | 2 => [.addressPrefix ⟨[10], 1⟩]
  | _ => []

def sampleBlocks (ptr list : Nat) : IPAddrBlocks :=
  ⟨ptr, [⟨[0, 1], .addressesOrRanges ⟨list, sampleList list, some 4⟩⟩]⟩

def sampleNumbers : Nat → List ASIdOrRange
  | 3 => [.id 5]
  | 4 => [.range 5 9]
  | _ => []

def sampleAsid (ptr list : Nat) : ASIdentifiers :=
  ⟨ptr, some (.asIdsOrRanges ⟨list, sampleNumbers list⟩), none⟩

/- An issuer that inherits, and the one above it. -/
def sampleChain : List X509 :=
  [⟨some ⟨8, [⟨[0, 1], .inherit⟩]⟩, some ⟨9, some .inherit, none⟩⟩,
    ⟨some (sampleBlocks 7 2), some (sampleAsid 5 4)⟩]

theorem sampleBlocks_stored (ptr list : Nat) :
    AddrStored sampleList (some (sampleBlocks ptr list)) := by
  intro addr is g member aors explicit
  rw [← some.inj is] at member
  rw [mem_singleton.mp member] at explicit
  rw [← IPAddressChoice.addressesOrRanges.inj explicit]

theorem sampleAsid_stored (ptr list : Nat) :
    AsidStored sampleNumbers (some (sampleAsid ptr list)) := by
  intro asid is part ranges explicit
  rw [← some.inj is] at explicit
  cases part with
  | asnum => rw [← ASIdentifierChoice.asIdsOrRanges.inj (some.inj explicit)]
  | rdi => contradiction

theorem resources_nested_sample :
    (∀ x ∈ sampleChain, ∃ addr, x.rfc3779Addr = some addr ∧
        (Inherits ⟨[0, 1], .addressesOrRanges ⟨1, sampleList 1, some 4⟩⟩ addr.families ∨
          Grants ⟨[0, 1], .addressesOrRanges ⟨1, sampleList 1, some 4⟩⟩
            (familyGrants ⟨[0, 1], .addressesOrRanges ⟨1, sampleList 1, some 4⟩⟩
              ⟨1, sampleList 1, some 4⟩) addr.families)) ∧
      (∀ x ∈ sampleChain, ∃ asid, x.rfc3779Asid = some asid ∧
        AsNested (asGrants ⟨3, sampleNumbers 3⟩) (AsPart.asnum.of asid)) ∧
      (addrSubset (some (sampleBlocks 6 1)) (some (sampleBlocks 7 2)) = true ↔
        ∀ f ∈ (sampleBlocks 6 1).families, ∀ aors, f.ipAddressChoice = .addressesOrRanges aors →
          Grants f (familyGrants f aors) (sampleBlocks 7 2).families) := by
  obtain ⟨path, numbers, subset, _⟩ := resources_nested sampleList sampleNumbers
  refine ⟨?_, ?_, ?_⟩
  · apply (path sampleChain (sampleBlocks 6 1) false ?_ (by decide +kernel)
      (by decide +kernel) _ mem_cons_self _ rfl).1
    intro x member
    simp only [sampleChain, map_cons, map_nil, mem_cons, not_mem_nil, or_false] at member
    rcases member with rfl | rfl | rfl
    · exact sampleBlocks_stored 6 1
    · intro addr is g member aors explicit
      rw [← some.inj is] at member
      rw [mem_singleton.mp member] at explicit
      contradiction
    · exact sampleBlocks_stored 7 2
  · apply (numbers sampleChain (sampleAsid 4 3) false ?_ (by decide +kernel)
      (by decide +kernel) .asnum _ rfl).1
    intro x member
    simp only [sampleChain, map_cons, map_nil, mem_cons, not_mem_nil, or_false] at member
    rcases member with rfl | rfl | rfl
    · exact sampleAsid_stored 4 3
    · intro asid is part ranges explicit
      rw [← some.inj is] at explicit
      cases part <;> cases explicit
    · exact sampleAsid_stored 5 4
  · apply subset _ _ (sampleBlocks_stored 6 1) (sampleBlocks_stored 7 2) (by decide)
      (by decide +kernel) (by decide +kernel) (by decide +kernel) (by decide +kernel)
    intro f member aors explicit e among
    rw [mem_singleton.mp member] at explicit ⊢
    rw [← IPAddressChoice.addressesOrRanges.inj explicit] at among
    rw [mem_singleton.mp among]
    decide +kernel

def longBlocks (ptr list : Nat) : IPAddrBlocks :=
  ⟨ptr, [⟨[0, 1], .addressesOrRanges ⟨list, [.addressPrefix ⟨[10, 0, 0, 0, 1], 0⟩], some 4⟩⟩]⟩

/-- Two extensions with one prefix that is too long are canonical and list the same, but
    neither is a subset of the other. -/
theorem subset_long_prefix :
    addrIsCanonical (some (longBlocks 1 2)) = true ∧
      addrIsCanonical (some (longBlocks 3 4)) = true ∧
      addrInherits (some (longBlocks 1 2)) = false ∧
      addrInherits (some (longBlocks 3 4)) = false ∧
      (∀ f ∈ (longBlocks 1 2).families, ∀ aors, f.ipAddressChoice = .addressesOrRanges aors →
        Grants f (familyGrants f aors) (longBlocks 3 4).families) ∧
      addrSubset (some (longBlocks 1 2)) (some (longBlocks 3 4)) = false := by
  refine ⟨by decide +kernel, by decide +kernel, by decide +kernel, by decide +kernel, ?_,
    by decide +kernel⟩
  intro f member aors explicit
  rw [mem_singleton.mp member] at explicit ⊢
  rw [← IPAddressChoice.addressesOrRanges.inj explicit]
  exact ⟨_, mem_cons_self, rfl, _, rfl, subset_refl _⟩

end Ossl
