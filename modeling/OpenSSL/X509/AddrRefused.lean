import OpenSSL.X509.V3AddrBlocks

/- What a call that refuses to add to the address blocks leaves of them:
   crypto/x509/v3_addr.c. -/
namespace Ossl
open List Option Spans Cover

def AddrOp.key : AddrOp → List UInt8
  | .addInherit afi safi => familyKey afi safi
  | .addPrefix afi safi _ _ => familyKey afi safi
  | .addRange afi safi _ _ => familyKey afi safi

/-- The addresses are refused: a prefix that is longer than an address of the family, or a range
    that ends before it begins. -/
def AddrOp.Refused : AddrOp → Prop
  | .addInherit _ _ => False
  | .addPrefix afi _ _ prefixlen => prefixlen < 0 ∨ lengthFromAfi afi * 8 < prefixlen
  | .addRange afi _ min max =>
    0 < memcmp (min.take (lengthFromAfi afi)) (max.take (lengthFromAfi afi))

/-- If the operation fails, the blocks grant what they did and are canonized if they were. -/
def AddrKeeps (addr : IPAddrBlocks) (op : AddrOp) : Prop :=
  (addrStep addr op).1 = false →
    (∀ key, addrSense (addrStep addr op).2 key = addrSense addr key) ∧
    ((∃ r, addrCanonize addr = .ok r) → ∃ r, addrCanonize (addrStep addr op).2 = .ok r)

section Entries

/-- A range is not a prefix that is longer than its bounds. -/
theorem rangeShouldBePrefix_le {min max : List UInt8} {p : Nat}
    (is : rangeShouldBePrefix min max = some p) : p ≤ min.length * 8 := by
  have common : ((min.zip max).takeWhile fun p => p.1 == p.2).length ≤ min.length := by
    have front : ((min.zip max).takeWhile fun p => p.1 == p.2).Sublist (min.zip max) :=
      takeWhile_sublist _
    have short := front.length_le
    rw [length_zip] at short
    omega
  have last : ((min.zip max).rdropWhile fun p => p.1 == 0x00 && p.2 == 0xFF).length ≤
      min.length := by
    have front := rdropWhile_prefix (fun p : UInt8 × UInt8 => p.1 == 0x00 && p.2 == 0xFF)
      (l := min.zip max)
    have short := front.length_le
    rw [length_zip] at short
    omega
  rw [rangeShouldBePrefix] at is
  dsimp only at is
  split_ifs at is with early late unlike
  · obtain rfl := some.inj is
    omega
  · split at is <;> contradiction
  · cases bit : prefixBit (min.getD ((min.zip max).takeWhile fun p => p.1 == p.2).length 0 ^^^
        max.getD ((min.zip max).takeWhile fun p => p.1 == p.2).length 0) with
    | none =>
      rw [bit] at is
      contradiction
    | some low =>
      rw [bit] at is
      obtain rfl := some.inj is
      have within := (prefixBit_mask bit).2.1
      omega

theorem makeAddressPrefix_none {a : List UInt8} {prefixlen : Int} {length : Nat} :
    makeAddressPrefix a prefixlen length = none ↔ prefixlen < 0 ∨ length * 8 < prefixlen := by
  rw [makeAddressPrefix]
  split_ifs with out
  · exact iff_of_true rfl out
  · exact iff_of_false (by simp) out

theorem makeAddressRange_none {min max : List UInt8} {length : Nat} :
    makeAddressRange min max length = none ↔ 0 < memcmp (min.take length) (max.take length) := by
  rw [makeAddressRange]
  split_ifs with inverted
  · exact iff_of_true rfl inverted
  · refine iff_of_false ?_ inverted
    cases test : rangeShouldBePrefix (min.take length) (max.take length) with
    | none => exact some_ne_none _
    | some p =>
      have short := rangeShouldBePrefix_le test
      have within := length_take_le length min
      rw [makeAddressPrefix_none]
      omega

end Entries

section Families

variable {addr : IPAddrBlocks} {f : IPAddressFamily} {op : AddrOp}

variable {afi : Nat} {safi : Option Nat}

/-- A family that is made for a refused entry is left behind, empty. -/
theorem addrAddAor_refused {aor : Option IPAddressOrRange}
    (failed : (addrAddAor addr afi safi aor).1 = false) :
    familyWith addr (familyKey afi safi) = none ∧ aor = none ∧
        (addrAddAor addr afi safi aor).2 = pushFamily addr ⟨familyKey afi safi,
          .addressesOrRanges ⟨addr.families.length, [], cmpFor afi⟩⟩ ∨
      familyWith addr (familyKey afi safi) ≠ none ∧ (addrAddAor addr afi safi aor).2 = addr := by
  rw [addrAddAor, makePrefixOrRange] at failed ⊢
  cases found : familyWith addr (familyKey afi safi) with
  | none =>
    rw [found] at failed
    cases aor with
    | none => exact .inl ⟨rfl, rfl, rfl⟩
    | some aor => cases failed
  | some f =>
    rw [found] at failed
    refine .inr ⟨some_ne_none f, ?_⟩
    dsimp only at failed ⊢
    cases choice : f.ipAddressChoice with
    | inherit => rfl
    | addressesOrRanges aors =>
      rw [choice] at failed
      cases aor with
      | none => rfl
      | some aor => cases failed

theorem addrAddAor_none (addr : IPAddrBlocks) (afi : Nat) (safi : Option Nat) :
    (addrAddAor addr afi safi none).1 = false := by
  rw [addrAddAor]
  cases makePrefixOrRange addr afi safi with
  | none => rfl
  | some addr => rfl

theorem addrAddInherit_refused (failed : (addrAddInherit addr afi safi).1 = false) :
    (addrAddInherit addr afi safi).2 = addr := by
  rw [addrAddInherit] at failed ⊢
  cases found : familyWith addr (familyKey afi safi) with
  | none =>
    rw [found] at failed
    contradiction
  | some f =>
    dsimp only
    cases f.ipAddressChoice with
    | inherit => rfl
    | addressesOrRanges aors => rfl

theorem familyWith_push (fresh : familyWith addr f.addressFamily = none) :
    familyWith (pushFamily addr f) f.addressFamily = some f := by
  rw [familyWith] at fresh
  rw [familyWith, pushFamily, find?_append, fresh]
  simp

def EmptyFamily (f : IPAddressFamily) : Prop :=
  ∃ aors, f.ipAddressChoice = .addressesOrRanges aors ∧ aors.elems = []

theorem familyCanonize_empty {g : IPAddressFamily} (empty : EmptyFamily f)
    (run : familyCanonize f = some g) : EmptyFamily g := by
  obtain ⟨aors, choice, none_⟩ := empty
  rw [familyCanonize, choice] at run
  split_ifs at run
  obtain ⟨aors', made, is⟩ := map_eq_some_iff.mp run
  have sorted : sortAors aors = [] := by
    rw [sortAors, none_]
    cases aors.cmp with
    | none => rfl
    | some length => exact mergeSort_nil
  rw [aorsCanonize, sorted] at made
  simp only [lastNotInverted, getLast?_nil, if_true, some.injEq] at made
  rw [← is, ← made]
  exact ⟨{ aors with elems := [] }, rfl, rfl⟩

theorem emptyFamily_spoils (member : f ∈ addr.families) (empty : EmptyFamily f) :
    ¬ ∃ r, addrCanonize addr = .ok r := by
  intro canonized
  obtain ⟨r, run⟩ := canonized
  rw [addrCanonize] at run
  cases each : addr.families.mapM familyCanonize with
  | none =>
    rw [each] at run
    contradiction
  | some families =>
    rw [each] at run
    dsimp only at run
    split_ifs at run with refused
    rw [Bool.not_eq_false, addrIsCanonical, Bool.and_eq_true, List.all_eq_true] at refused
    obtain ⟨before, after, split⟩ := append_of_mem member
    rw [split, mapM_append, mapM_cons] at each
    simp only [bind_eq_bind, Option.pure_def, bind_eq_some_iff, Option.some.injEq] at each
    obtain ⟨_, _, _, ⟨g, made, _, _, rfl⟩, is⟩ := each
    obtain ⟨aors, choice, none_⟩ := familyCanonize_empty empty made
    have tested := refused.2 g ((mergeSort_perm families _).mem_iff.mpr (by
      rw [← is]
      simp))
    rw [familyIsCanonical, choice] at tested
    simp [none_, aorsAreCanonical] at tested

/-- A failed operation leaves an empty family of its own, if there was none and the addresses
    are refused, and else it leaves the blocks alone. -/
theorem addrStep_failed (failed : (addrStep addr op).1 = false) :
    (op.Refused ∧ familyWith addr op.key = none) ∧
        (∃ f, f.addressFamily = op.key ∧ EmptyFamily f ∧ (addrStep addr op).2 = pushFamily addr f) ∨
      ¬ (op.Refused ∧ familyWith addr op.key = none) ∧ (addrStep addr op).2 = addr := by
  cases op with
  | addInherit afi safi => exact .inr ⟨fun bad => bad.1, addrAddInherit_refused failed⟩
  | addPrefix afi safi a prefixlen =>
    cases addrAddAor_refused failed with
    | inl made =>
      obtain ⟨fresh, refused, left⟩ := made
      exact .inl ⟨⟨makeAddressPrefix_none.mp refused, fresh⟩, _, rfl, ⟨_, rfl, rfl⟩, left⟩
    | inr alone => exact .inr ⟨fun bad => alone.1 bad.2, alone.2⟩
  | addRange afi safi min max =>
    cases addrAddAor_refused failed with
    | inl made =>
      obtain ⟨fresh, refused, left⟩ := made
      exact .inl ⟨⟨makeAddressRange_none.mp refused, fresh⟩, _, rfl, ⟨_, rfl, rfl⟩, left⟩
    | inr alone => exact .inr ⟨fun bad => alone.1 bad.2, alone.2⟩

theorem addrStep_refused (refused : op.Refused) (addr : IPAddrBlocks) :
    (addrStep addr op).1 = false := by
  cases op with
  | addInherit afi safi => exact refused.elim
  | addPrefix afi safi a prefixlen =>
    rw [addrStep, addrAddPrefix, makeAddressPrefix_none.mpr refused]
    exact addrAddAor_none addr afi safi
  | addRange afi safi min max =>
    rw [addrStep, addrAddRange, makeAddressRange_none.mpr refused]
    exact addrAddAor_none addr afi safi

theorem addrKeeps_fresh (refused : op.Refused) (fresh : familyWith addr op.key = none) :
    ¬ AddrKeeps addr op := by
  intro keeps
  have failed := addrStep_refused refused addr
  cases addrStep_failed failed with
  | inr alone => exact alone.1 ⟨refused, fresh⟩
  | inl made =>
    obtain ⟨_, f, key, _, left⟩ := made
    have same := (keeps failed).1 op.key
    rw [left, addrSense, addrSense, fresh, ← key,
      familyWith_push (by rw [key]; exact fresh)] at same
    contradiction

/-- An operation that fails leaves the blocks as they were, unless its addresses are refused for
    a family that the blocks do not have yet. -/
theorem addr_refusal_exact (addr : IPAddrBlocks) (op : AddrOp) :
    AddrKeeps addr op ↔ ¬ (op.Refused ∧ familyWith addr op.key = none) := by
  constructor
  · exact fun keeps bad => addrKeeps_fresh bad.1 bad.2 keeps
  · intro fine failed
    cases addrStep_failed failed with
    | inl made => exact absurd made.1 fine
    | inr alone =>
      rw [alone.2]
      exact ⟨fun _ => rfl, id⟩

/-- Nothing that such an operation leaves behind is canonized. -/
theorem addr_refusal_spoils (refused : op.Refused) (fresh : familyWith addr op.key = none) :
    ¬ ∃ r, addrCanonize (addrStep addr op).2 = .ok r := by
  cases addrStep_failed (addrStep_refused refused addr) with
  | inr alone => exact absurd ⟨refused, fresh⟩ alone.1
  | inl made =>
    obtain ⟨_, f, _, empty, left⟩ := made
    rw [left]
    exact emptyFamily_spoils (by simp [pushFamily]) empty

theorem addr_refusal_spoils_long :
    ¬ ∃ r, addrCanonize (addrStep ⟨0, []⟩ (.addPrefix 2 none (replicate 17 0x20) 129)).2 = .ok r :=
  addr_refusal_spoils (.inr (by decide)) rfl

theorem addr_refusal_kept : ¬ AddrKeeps ⟨0, [⟨[0, 1], .addressesOrRanges
      ⟨1, [.addressPrefix ⟨[10], 0⟩], some 4⟩⟩]⟩
    (.addPrefix 2 none (replicate 17 0x20) 129) :=
  addrKeeps_fresh (.inr (by decide)) (by decide)

end Families
end Ossl
