import OpenSSL.LhashTable
import OpenSSL.Lib.Runs
import Mathlib.Algebra.BigOperators.Group.Finset.Basic
import Mathlib.Algebra.Order.BigOperators.Group.Finset

/- The hash table refines the finite map, from the classes of items that compare equal to the
   stored items. -/
namespace Ossl
open List Function LinearHash Runs

variable {Item : Type} {hash : Item → Nat} {comp : Item → Item → Int} {lh : OpensslLhash Item}

def lhCount (b : Nat → List (OpensslLhNode Item)) (n : Nat) : Nat :=
  ((List.range n).map fun i => (b i).length).sum

theorem lhCount_succ (b : Nat → List (OpensslLhNode Item)) (n : Nat) :
    lhCount b (n + 1) = lhCount b n + (b n).length := by
  rw [lhCount, lhCount, range_succ, map_append, sum_append]
  rfl

theorem lhCount_update (b : Nat → List (OpensslLhNode Item)) {n j : Nat} (inside : j < n)
    (chain : List (OpensslLhNode Item)) :
    lhCount (update b j chain) n + (b j).length = lhCount b n + chain.length := by
  induction n with
  | zero => contradiction
  | succ n ih =>
    rw [lhCount_succ, lhCount_succ]
    by_cases last : j = n
    · have below : lhCount (update b j chain) n = lhCount b n := by
        rw [lhCount, lhCount]
        congr 1
        apply map_congr_left
        intro i member
        have less := mem_range.mp member
        rw [update_of_ne (by omega)]
      rw [below, ← last, update_self]
      omega
    · rw [update_of_ne (fun same => last same.symm)]
      omega

/- The chains of a table with pmax + p buckets: every node is in the bucket of its hash, and no two
   nodes of a chain compare equal. -/
structure ChainsOk (hash : Item → Nat) (comp : Item → Item → Int)
    (b : Nat → List (OpensslLhNode Item)) (pmax p : Nat) : Prop where
  placed : ∀ i, ∀ n ∈ b i, address pmax p n.hash = i
  hashed : ∀ i, ∀ n ∈ b i, n.hash = hash n.data
  apart : ∀ i, (b i).Pairwise fun m n => comp m.data n.data ≠ 0

def Stored (b : Nat → List (OpensslLhNode Item)) (n : OpensslLhNode Item) : Prop := ∃ i, n ∈ b i

variable {b : Nat → List (OpensslLhNode Item)} {pmax p : Nat}

variable {i nn : Nat}

theorem ChainsOk.empty (ok : ChainsOk hash comp b pmax p) (inside : p < pmax)
    (outside : pmax + p ≤ i) : b i = [] := by
  apply eq_nil_iff_forall_not_mem.mpr
  intro n member
  have less := address_lt inside n.hash
  rw [ok.placed i n member] at less
  omega

variable {chain : List (OpensslLhNode Item)}

/-- A chain may be replaced by another one with nodes of the same bucket. -/
theorem ChainsOk.put (ok : ChainsOk hash comp b pmax p)
    (placed : ∀ n ∈ chain, address pmax p n.hash = nn)
    (hashed : ∀ n ∈ chain, n.hash = hash n.data)
    (apart : chain.Pairwise fun m n => comp m.data n.data ≠ 0) :
    ChainsOk hash comp (update b nn chain) pmax p := by
  constructor
  · intro i n member
    by_cases here : i = nn
    · rw [here, update_self] at member
      rw [here]
      exact placed n member
    · rw [update_of_ne here] at member
      exact ok.placed i n member
  · intro i n member
    by_cases here : i = nn
    · rw [here, update_self] at member
      exact hashed n member
    · rw [update_of_ne here] at member
      exact ok.hashed i n member
  · intro i
    by_cases here : i = nn
    · rw [here, update_self]
      exact apart
    · rw [update_of_ne here]
      exact ok.apart i

theorem chains_double (some : 0 < pmax) :
    ChainsOk hash comp b (2 * pmax) 0 ↔ ChainsOk hash comp b pmax pmax := by
  constructor
  · intro ok
    constructor
    · intro i n member
      rw [← address_double some]
      exact ok.placed i n member
    · exact ok.hashed
    · exact ok.apart
  · intro ok
    constructor
    · intro i n member
      rw [address_double some]
      exact ok.placed i n member
    · exact ok.hashed
    · exact ok.apart

theorem expandRounds_eq (nni p : Nat) (chain n2 : List (OpensslLhNode Item)) :
    expandRounds nni p chain n2 =
      (chain.filter (fun n => n.hash % nni == p),
        (chain.filter (fun n => n.hash % nni != p)).reverse ++ n2) := by
  induction chain generalizing n2 with
  | nil => rfl
  | cons np rest ih =>
    rw [expandRounds]
    by_cases stays : np.hash % nni = p
    · rw [if_neg (not_not.mpr stays), ih]
      simp [stays]
    · rw [if_pos stays, ih]
      simp [stays]

def splitChains (b : Nat → List (OpensslLhNode Item)) (pmax p : Nat) :
    Nat → List (OpensslLhNode Item) :=
  let (n1, n2) := expandRounds (2 * pmax) p (b p) []
  update (update b (p + pmax) n2) p n1

def mergeChains (b : Nat → List (OpensslLhNode Item)) (pmax p : Nat) :
    Nat → List (OpensslLhNode Item) :=
  update (update b (p + pmax) []) p (b p ++ b (p + pmax))

theorem splitChains_eq (b : Nat → List (OpensslLhNode Item)) (pmax p i : Nat) :
    splitChains b pmax p i =
      if i = p then (b p).filter (fun n => n.hash % (2 * pmax) == p)
      else if i = p + pmax then ((b p).filter (fun n => n.hash % (2 * pmax) != p)).reverse
      else b i := by
  rw [splitChains, expandRounds_eq, append_nil]
  dsimp only
  rw [update_apply, update_apply]

theorem mergeChains_eq (b : Nat → List (OpensslLhNode Item)) (pmax p i : Nat) :
    mergeChains b pmax p i =
      if i = p then b p ++ b (p + pmax) else if i = p + pmax then [] else b i := by
  rw [mergeChains, update_apply, update_apply]

theorem ChainsOk.split (symmetric : ∀ x y, comp x y = 0 → comp y x = 0)
    (ok : ChainsOk hash comp b pmax p) (inside : p < pmax) :
    ChainsOk hash comp (splitChains b pmax p) pmax (p + 1) := by
  constructor
  · intro i n member
    rw [splitChains_eq] at member
    rw [address_split inside]
    have low : ∀ m ∈ b p, m.hash % (2 * pmax) = p ∨ m.hash % (2 * pmax) = p + pmax := by
      intro m here
      exact address_self inside (ok.placed p m here)
    split_ifs at member with first last
    · obtain ⟨here, stays⟩ := mem_filter.mp member
      rw [if_pos (ok.placed p n here), first]
      exact beq_iff_eq.mp stays
    · obtain ⟨here, goes⟩ := mem_filter.mp (mem_reverse.mp member)
      rw [if_pos (ok.placed p n here), last]
      have other : n.hash % (2 * pmax) ≠ p := by simpa using goes
      exact (low n here).resolve_left other
    · rw [ok.placed i n member, if_neg first]
  · intro i n member
    rw [splitChains_eq] at member
    split_ifs at member
    · exact ok.hashed p n (mem_filter.mp member).1
    · exact ok.hashed p n (mem_filter.mp (mem_reverse.mp member)).1
    · exact ok.hashed i n member
  · intro i
    rw [splitChains_eq]
    split_ifs
    · exact (ok.apart p).sublist filter_sublist
    · apply pairwise_reverse.mpr
      apply ((ok.apart p).sublist filter_sublist).imp
      intro x y different same
      exact different (symmetric _ _ same)
    · exact ok.apart i

theorem split_stored (ok : ChainsOk hash comp b pmax p) (inside : p < pmax)
    (n : OpensslLhNode Item) : Stored (splitChains b pmax p) n ↔ Stored b n := by
  constructor
  · intro there
    obtain ⟨i, member⟩ := there
    rw [splitChains_eq] at member
    split_ifs at member
    · exact ⟨p, (mem_filter.mp member).1⟩
    · exact ⟨p, (mem_filter.mp (mem_reverse.mp member)).1⟩
    · exact ⟨i, member⟩
  · intro there
    obtain ⟨i, member⟩ := there
    by_cases first : i = p
    · rw [first] at member
      by_cases stays : n.hash % (2 * pmax) = p
      · refine ⟨p, ?_⟩
        rw [splitChains_eq, if_pos rfl]
        exact mem_filter.mpr ⟨member, beq_iff_eq.mpr stays⟩
      · refine ⟨p + pmax, ?_⟩
        rw [splitChains_eq, if_neg (by omega), if_pos rfl]
        exact mem_reverse.mpr (mem_filter.mpr ⟨member, by simpa using stays⟩)
    · refine ⟨i, ?_⟩
      have old : i ≠ p + pmax := by
        intro new
        rw [ok.empty inside (by omega)] at member
        contradiction
      rw [splitChains_eq, if_neg first, if_neg old]
      exact member

theorem split_count (ok : ChainsOk hash comp b pmax p) (inside : p < pmax) :
    lhCount (splitChains b pmax p) (pmax + p + 1) = lhCount b (pmax + p) := by
  have none : b (p + pmax) = [] := ok.empty inside (by omega)
  have parts := length_eq_length_filter_add (l := b p) fun n => n.hash % (2 * pmax) == p
  rw [splitChains, expandRounds_eq, append_nil]
  dsimp only
  generalize (b p).filter (fun n => n.hash % (2 * pmax) == p) = n1 at parts ⊢
  have moved : (b p).filter (fun n => n.hash % (2 * pmax) != p) =
      (b p).filter (fun n => !(n.hash % (2 * pmax) == p)) := rfl
  rw [moved]
  generalize (b p).filter (fun n => !(n.hash % (2 * pmax) == p)) = n2 at parts ⊢
  have one := lhCount_update b (n := pmax + p + 1) (j := p + pmax) (by omega) n2.reverse
  have two := lhCount_update (update b (p + pmax) n2.reverse) (n := pmax + p + 1) (j := p)
    (by omega) n1
  have last := lhCount_succ b (pmax + p)
  rw [add_comm pmax p] at last one two ⊢
  rw [none, length_nil] at last one
  rw [update_of_ne (by omega)] at two
  rw [length_reverse] at one
  omega

theorem ChainsOk.merge (compatible : ∀ x y, comp x y = 0 → hash x = hash y)
    (ok : ChainsOk hash comp b pmax (p + 1)) (inside : p < pmax) :
    ChainsOk hash comp (mergeChains b pmax p) pmax p := by
  constructor
  · intro i n member
    rw [mergeChains_eq] at member
    rw [address_merge inside]
    split_ifs at member with first last
    · rw [first]
      cases mem_append.mp member with
      | inl here =>
        rw [ok.placed p n here, if_neg (by omega)]
      | inr there =>
        rw [ok.placed (p + pmax) n there, if_pos (add_comm p pmax)]
    · contradiction
    · rw [ok.placed i n member, if_neg (by omega)]
  · intro i n member
    rw [mergeChains_eq] at member
    split_ifs at member
    · cases mem_append.mp member with
      | inl here => exact ok.hashed _ n here
      | inr there => exact ok.hashed _ n there
    · contradiction
    · exact ok.hashed i n member
  · intro i
    rw [mergeChains_eq]
    split_ifs
    · apply pairwise_append.mpr
      refine ⟨ok.apart p, ok.apart (p + pmax), ?_⟩
      -- nodes that compare equal have one hash, and so one bucket
      intro m here n there same
      have hashes := compatible _ _ same
      rw [← ok.hashed _ m here, ← ok.hashed _ n there] at hashes
      have one := ok.placed _ m here
      have two := ok.placed _ n there
      rw [hashes] at one
      omega
    · exact List.Pairwise.nil
    · exact ok.apart i

theorem merge_stored (b : Nat → List (OpensslLhNode Item)) (pmax p : Nat)
    (n : OpensslLhNode Item) : Stored (mergeChains b pmax p) n ↔ Stored b n := by
  constructor
  · intro there
    obtain ⟨i, member⟩ := there
    rw [mergeChains_eq] at member
    split_ifs at member
    · cases mem_append.mp member with
      | inl here => exact ⟨_, here⟩
      | inr there => exact ⟨_, there⟩
    · contradiction
    · exact ⟨i, member⟩
  · intro there
    obtain ⟨i, member⟩ := there
    by_cases first : i = p
    · refine ⟨p, ?_⟩
      rw [mergeChains_eq, if_pos rfl, ← first]
      exact mem_append_left _ member
    · by_cases last : i = p + pmax
      · refine ⟨p, ?_⟩
        rw [mergeChains_eq, if_pos rfl, ← last]
        exact mem_append_right _ member
      · refine ⟨i, ?_⟩
        rw [mergeChains_eq, if_neg first, if_neg last]
        exact member

theorem merge_count (b : Nat → List (OpensslLhNode Item)) {pmax p : Nat} (inside : p < pmax) :
    lhCount (mergeChains b pmax p) (pmax + p) = lhCount b (pmax + p + 1) := by
  have one := lhCount_update b (n := pmax + p + 1) (j := p + pmax) (by omega) []
  have two := lhCount_update (update b (p + pmax) []) (n := pmax + p + 1) (j := p)
    (by omega) (b p ++ b (p + pmax))
  have last := lhCount_succ (mergeChains b pmax p) (pmax + p)
  have none : mergeChains b pmax p (pmax + p) = [] := by
    rw [mergeChains_eq, if_neg (by omega), if_pos (add_comm pmax p)]
  rw [none, length_nil, mergeChains] at last
  rw [update_of_ne (by omega), length_append] at two
  rw [length_nil] at one
  rw [mergeChains]
  omega

structure LhOk (hash : Item → Nat) (comp : Item → Item → Int) (lh : OpensslLhash Item) : Prop where
  nodes : lh.numNodes = lh.pmax + lh.p
  inside : lh.p < lh.pmax
  alloc : lh.numAllocNodes = 2 * lh.pmax
  power : ∃ k, lh.pmax = 8 * 2 ^ k
  chains : ChainsOk hash comp lh.b lh.pmax lh.p
  count : lh.numItems = lhCount lh.b lh.numNodes

theorem lhNew_ok : LhOk hash comp (opensslLhNew : OpensslLhash Item) := by
  constructor
  · rfl
  · exact (by decide : 0 < 8)
  · rfl
  · exact ⟨0, rfl⟩
  · constructor
    · intro i n member
      contradiction
    · intro i n member
      contradiction
    · intro i
      exact List.Pairwise.nil
  · rfl

theorem LhOk.tuned (ok : LhOk hash comp lh) (error downLoad : Nat) :
    LhOk hash comp { lh with error := error, downLoad := downLoad } := by
  constructor
  · exact ok.nodes
  · exact ok.inside
  · exact ok.alloc
  · exact ok.power
  · exact ok.chains
  · exact ok.count

/-- A table that was made larger has the same nodes. -/
theorem expand_ok (symmetric : ∀ x y, comp x y = 0 → comp y x = 0) (ok : LhOk hash comp lh)
    (mem : LhMemory) :
    LhOk hash comp (expand mem lh).2 ∧ ∀ n, Stored (expand mem lh).2.b n ↔ Stored lh.b n := by
  have low := ok.inside
  have nodes := ok.nodes
  have alloc := ok.alloc
  obtain ⟨k, power⟩ := ok.power
  have split := ok.chains.split symmetric low
  have stored := split_stored ok.chains low
  have count := split_count ok.chains low
  rw [← nodes, ← ok.count] at count
  rw [expand]
  by_cases fails : lh.pmax ≤ lh.p + 1 ∧ (mem.realloc = false ∨ lh.numAllocNodes * 2 % 2 ^ 32 = 0)
  · rw [if_pos fails]
    exact ⟨ok.tuned (lh.error + 1) lh.downLoad, fun n => Iff.rfl⟩
  rw [if_neg fails]
  by_cases full : lh.pmax ≤ lh.p + 1
  · have last : lh.p + 1 = lh.pmax := by omega
    have zeroed : (fun i => if lh.numAllocNodes ≤ i ∧ i < lh.numAllocNodes * 2 % 2 ^ 32 then []
        else lh.b i) = lh.b := by
      funext i
      split_ifs with fresh
      · exact (ok.chains.empty low (by omega)).symm
      · rfl
    have twice : lh.numAllocNodes * 2 % 2 ^ 32 = 2 * (2 * lh.pmax) := by
      have some_ : lh.numAllocNodes * 2 % 2 ^ 32 ≠ 0 := fun zero => fails ⟨full, .inr zero⟩
      rw [alloc, power] at some_ ⊢
      have small : 32 * 2 ^ k < 2 ^ 32 := by
        by_contra large
        have most : 27 ≤ k := by
          by_contra less
          have := Nat.pow_le_pow_right (by decide : 0 < 2) (by omega : k ≤ 26)
          omega
        obtain ⟨e, rfl⟩ := Nat.exists_eq_add_of_le most
        apply some_
        rw [pow_add]
        omega
      rw [Nat.mod_eq_of_lt (by omega)]
      omega
    rw [if_pos full, zeroed, twice, alloc]
    refine ⟨?_, stored⟩
    constructor
    · dsimp only
      omega
    · dsimp only
      omega
    · rfl
    · refine ⟨k + 1, ?_⟩
      dsimp only
      rw [power, pow_succ]
      omega
    · rw [last] at split
      exact (chains_double (by omega)).mpr split
    · exact count.symm
  · rw [if_neg full, alloc]
    refine ⟨?_, stored⟩
    constructor
    · dsimp only
      omega
    · dsimp only
      omega
    · rfl
    · exact ⟨k, power⟩
    · exact split
    · exact count.symm

/-- A table that was made smaller has the same nodes. -/
theorem contract_ok (compatible : ∀ x y, comp x y = 0 → hash x = hash y) (ok : LhOk hash comp lh)
    (large : lhMinNodes < lh.numNodes) (mem : LhMemory) :
    LhOk hash comp (contract mem lh) ∧ ∀ n, Stored (contract mem lh).b n ↔ Stored lh.b n := by
  have low := ok.inside
  have nodes := ok.nodes
  have alloc := ok.alloc
  have least : lhMinNodes = 16 := rfl
  obtain ⟨k, power⟩ := ok.power
  rw [contract]
  by_cases first : lh.p = 0
  · -- the table was split as far as it goes for half its size
    obtain ⟨j, rfl⟩ : ∃ j, k = j + 1 := by
      cases k with
      | zero => omega
      | succ j => exact ⟨j, rfl⟩
    have half : lh.pmax = 2 * (lh.pmax / 2) := by
      rw [power, pow_succ]
      omega
    have chains := ok.chains
    rw [first, half] at chains
    generalize small : lh.pmax / 2 = pmax' at half chains
    have back : pmax' = pmax' - 1 + 1 := by omega
    have whole := (chains_double (by omega)).mp chains
    rw [show ChainsOk hash comp lh.b pmax' pmax' = ChainsOk hash comp lh.b pmax' (pmax' - 1 + 1) by
      rw [← back]] at whole
    have merged := whole.merge compatible (by omega)
    have stored := merge_stored lh.b pmax' (pmax' - 1)
    have count := merge_count lh.b (by omega : pmax' - 1 < pmax')
    have last : lh.p + lh.pmax - 1 = pmax' - 1 + pmax' := by omega
    have size : pmax' + (pmax' - 1) + 1 = lh.numNodes := by omega
    have other : pmax' - 1 ≠ pmax' - 1 + pmax' := by omega
    rw [size, ← ok.count] at count
    rw [if_pos first, last]
    rw [update_of_ne other]
    refine ⟨?_, stored⟩
    constructor
    · dsimp only
      omega
    · dsimp only
      omega
    · dsimp only
      omega
    · refine ⟨j, ?_⟩
      dsimp only
      rw [half, pow_succ] at power
      omega
    · exact merged
    · have fewer : lh.numNodes - 1 = pmax' + (pmax' - 1) := by omega
      rw [fewer]
      exact count.symm
  · obtain ⟨p', next⟩ : ∃ p', lh.p = p' + 1 := ⟨lh.p - 1, by omega⟩
    have chains := ok.chains
    rw [next] at chains
    have merged := chains.merge compatible (by omega)
    have stored := merge_stored lh.b lh.pmax p'
    have count := merge_count lh.b (by omega : p' < lh.pmax)
    have last : lh.p + lh.pmax - 1 = p' + lh.pmax := by omega
    have size : lh.pmax + p' + 1 = lh.numNodes := by omega
    have other : p' ≠ p' + lh.pmax := by omega
    have before : lh.p - 1 = p' := by omega
    rw [size, ← ok.count] at count
    rw [if_neg first, last]
    rw [before, update_of_ne other]
    refine ⟨?_, stored⟩
    constructor
    · dsimp only
      omega
    · dsimp only
      omega
    · exact alloc
    · exact ⟨k, power⟩
    · exact merged
    · have fewer : lh.numNodes - 1 = lh.pmax + p' := by omega
      rw [fewer]
      exact count.symm

/-- One chain may be replaced by another one with nodes of the same bucket. -/
theorem LhOk.put (ok : LhOk hash comp lh) {items : Nat} (inside : nn < lh.numNodes)
    (placed : ∀ n ∈ chain, address lh.pmax lh.p n.hash = nn)
    (hashed : ∀ n ∈ chain, n.hash = hash n.data)
    (apart : chain.Pairwise fun m n => comp m.data n.data ≠ 0)
    (count : items + (lh.b nn).length = lh.numItems + chain.length) :
    LhOk hash comp { lh with b := update lh.b nn chain, numItems := items } := by
  constructor
  · exact ok.nodes
  · exact ok.inside
  · exact ok.alloc
  · exact ok.power
  · exact ok.chains.put placed hashed apart
  · have changed := lhCount_update lh.b inside chain
    have before := ok.count
    dsimp only
    omega

theorem getrn_address (ok : LhOk hash comp lh) (data : Item) :
    (getrn hash comp lh data).1 = address lh.pmax lh.p (hash data) := by
  rw [getrn, address, ok.alloc]

theorem getrn_inside (ok : LhOk hash comp lh) (data : Item) :
    (getrn hash comp lh data).1 < lh.numNodes := by
  rw [getrn_address ok, ok.nodes]
  exact address_lt ok.inside _

def LhHas (b : Nat → List (OpensslLhNode Item)) (x : Item) : Prop := ∃ n, Stored b n ∧ n.data = x

theorem flush_ok (ok : LhOk hash comp lh) :
    LhOk hash comp (opensslLhFlush lh) ∧ ∀ x, ¬ LhHas (opensslLhFlush lh).b x := by
  have none : (opensslLhFlush lh).b = fun _ => [] := by
    funext i
    rw [opensslLhFlush]
    dsimp only
    split_ifs with inside
    · rfl
    · have nodes := ok.nodes
      exact ok.chains.empty ok.inside (by omega)
  constructor
  · constructor
    · exact ok.nodes
    · exact ok.inside
    · exact ok.alloc
    · exact ok.power
    · rw [none]
      constructor
      · intro i n member
        contradiction
      · intro i n member
        contradiction
      · intro i
        exact List.Pairwise.nil
    · rw [none, lhCount, opensslLhFlush]
      simp
  · intro x there
    rw [none] at there
    obtain ⟨n, ⟨i, member⟩, _⟩ := there
    contradiction

theorem has_congr {b b' : Nat → List (OpensslLhNode Item)} (stored : ∀ n, Stored b n ↔ Stored b' n)
    (x : Item) : LhHas b x ↔ LhHas b' x := by
  constructor
  · intro there
    obtain ⟨n, here, is⟩ := there
    exact ⟨n, (stored n).mp here, is⟩
  · intro there
    obtain ⟨n, here, is⟩ := there
    exact ⟨n, (stored n).mpr here, is⟩

/- The next bucket fits into the array, or the array gets the memory of one of twice its size. -/
def LhRoom (mem : LhMemory) (lh : OpensslLhash Item) : Prop :=
  lh.pmax ≤ lh.p + 1 → mem.realloc = true ∧ lh.numAllocNodes * 2 % 2 ^ 32 ≠ 0

/- An insertion gets the memory of its node, and that of the array where the table is to grow. -/
def InsertMemory (mem : LhMemory) (lh : OpensslLhash Item) : Prop :=
  mem.malloc = true ∧ (lh.upLoad ≤ lhLoad lh → LhRoom mem lh)

theorem expand_room {mem : LhMemory} (room : LhRoom mem lh) : (expand mem lh).1 = true := by
  rw [expand]
  dsimp only
  split_ifs with fails
  · obtain ⟨full, refused⟩ := fails
    obtain ⟨given, fits⟩ := room full
    cases refused with
    | inl none => exact absurd given (Bool.eq_false_iff.mp none)
    | inr wraps => exact absurd wraps fits
  · rfl
  · rfl

structure Classes (classes : Setoid Item) (hash : Item → Nat) (comp : Item → Item → Int) : Prop where
  equal : ∀ x y, comp x y = 0 ↔ x ≈ y
  compatible : ∀ x y, x ≈ y → hash x = hash y

variable [classes : Setoid Item]

theorem Classes.symmetric (same : Classes classes hash comp) (x y : Item) (equal : comp x y = 0) :
    comp y x = 0 := (same.equal y x).mpr (Setoid.symm ((same.equal x y).mp equal))

theorem Classes.hashes (same : Classes classes hash comp) (x y : Item) (equal : comp x y = 0) :
    hash x = hash y := same.compatible x y ((same.equal x y).mp equal)

theorem class_bucket (same : Classes classes hash comp) (ok : LhOk hash comp lh) {data : Item}
    {n : OpensslLhNode Item} (member : n ∈ lh.b i) (equal : n.data ≈ data) :
    i = (getrn hash comp lh data).1 := by
  rw [getrn_address ok, ← same.compatible _ _ equal, ← ok.chains.hashed i n member]
  exact (ok.chains.placed i n member).symm

theorem getrn_found (same : Classes classes hash comp) (ok : LhOk hash comp lh) {data : Item}
    {rn : OpensslLhNode Item}
    (found : (lh.b (getrn hash comp lh data).1)[(getrn hash comp lh data).2]? = some rn) :
    rn.data ≈ data ∧ ∃ front back, lh.b (getrn hash comp lh data).1 = front ++ rn :: back ∧
      front.length = (getrn hash comp lh data).2 ∧ ∀ n ∈ front ++ back, ¬ n.data ≈ data := by
  have apart := ok.chains.apart (getrn hash comp lh data).1
  obtain ⟨inside, is⟩ := List.getElem?_eq_some_iff.mp found
  have matches_ : (rn.hash == hash data && comp rn.data data == 0) = true := by
    rw [← is]
    exact findIdx_getElem (w := inside)
  have equal : rn.data ≈ data :=
    (same.equal _ _).mp (beq_iff_eq.mp (Bool.and_eq_true_iff.mp matches_).2)
  generalize lh.b (getrn hash comp lh data).1 = chain at apart inside is ⊢
  generalize (getrn hash comp lh data).2 = i at inside is ⊢
  have split : chain = chain.take i ++ rn :: chain.drop (i + 1) := by
    rw [← is, ← drop_eq_getElem_cons inside, take_append_drop]
  refine ⟨equal, chain.take i, chain.drop (i + 1), split, length_take_of_le inside.le, ?_⟩
  rw [split] at apart
  obtain ⟨_, behind, across⟩ := pairwise_append.mp apart
  intro n member other
  cases mem_append.mp member with
  | inl before =>
    have differs := across n before rn mem_cons_self
    exact differs ((same.equal _ _).mpr (Setoid.trans other (Setoid.symm equal)))
  | inr after =>
    have differs := (pairwise_cons.mp behind).1 n after
    exact differs ((same.equal _ _).mpr (Setoid.trans equal (Setoid.symm other)))

theorem getrn_absent (same : Classes classes hash comp) (ok : LhOk hash comp lh) {data : Item}
    (none_ : (lh.b (getrn hash comp lh data).1)[(getrn hash comp lh data).2]? = none) :
    ∀ x, LhHas lh.b x → ¬ x ≈ data := by
  intro x there equal
  obtain ⟨n, ⟨i, member⟩, rfl⟩ := there
  rw [class_bucket same ok member equal] at member
  have hashed := ok.chains.hashed _ n member
  rw [same.compatible _ _ equal] at hashed
  have matches_ : (n.hash == hash data && comp n.data data == 0) = true := by
    rw [hashed, (same.equal _ _).mpr equal]
    simp
  have less : (getrn hash comp lh data).2 < (lh.b (getrn hash comp lh data).1).length :=
    findIdx_lt_length_of_exists ⟨n, member, matches_⟩
  exact absurd (getElem?_eq_none_iff.mp none_) (not_le.mpr less)

theorem has_update (same : Classes classes hash comp) (ok : LhOk hash comp lh) {data : Item}
    {fresh : Item → Prop}
    (changed : ∀ x, (∃ n ∈ chain, n.data = x) ↔
      fresh x ∨ (∃ n ∈ lh.b (getrn hash comp lh data).1, n.data = x) ∧ ¬ x ≈ data) (x : Item) :
    LhHas (update lh.b (getrn hash comp lh data).1 chain) x ↔
      fresh x ∨ LhHas lh.b x ∧ ¬ x ≈ data := by
  constructor
  · intro there
    obtain ⟨n, ⟨i, member⟩, is⟩ := there
    by_cases here : i = (getrn hash comp lh data).1
    · rw [here, update_self] at member
      cases (changed x).mp ⟨n, member, is⟩ with
      | inl new => exact .inl new
      | inr old =>
        obtain ⟨⟨m, where_, is'⟩, other⟩ := old
        exact .inr ⟨⟨m, ⟨_, where_⟩, is'⟩, other⟩
    · rw [update_of_ne here] at member
      refine .inr ⟨⟨n, ⟨i, member⟩, is⟩, ?_⟩
      rw [← is]
      intro equal
      exact here (class_bucket same ok member equal)
  · intro either
    have inChain : (∃ n ∈ chain, n.data = x) →
        LhHas (update lh.b (getrn hash comp lh data).1 chain) x := by
      intro somewhere
      obtain ⟨n, member, is⟩ := somewhere
      refine ⟨n, ⟨(getrn hash comp lh data).1, ?_⟩, is⟩
      rw [update_self]
      exact member
    cases either with
    | inl new => exact inChain ((changed x).mpr (.inl new))
    | inr old =>
      obtain ⟨⟨n, ⟨i, member⟩, is⟩, other⟩ := old
      by_cases here : i = (getrn hash comp lh data).1
      · rw [here] at member
        exact inChain ((changed x).mpr (.inr ⟨⟨n, member, is⟩, other⟩))
      · refine ⟨n, ⟨i, ?_⟩, is⟩
        rw [update_of_ne here]
        exact member

/-- The pointer that a search of the table answers. -/
theorem getrn_answer (same : Classes classes hash comp) (ok : LhOk hash comp lh) (data x : Item) :
    ((lh.b (getrn hash comp lh data).1)[(getrn hash comp lh data).2]?.map (·.data)) = some x ↔
      LhHas lh.b x ∧ x ≈ data := by
  cases found : (lh.b (getrn hash comp lh data).1)[(getrn hash comp lh data).2]? with
  | none =>
    constructor
    · intro none
      contradiction
    · intro both
      exact absurd both.2 (getrn_absent same ok found x both.1)
  | some rn =>
    obtain ⟨equal, front, back, chain, _, others⟩ := getrn_found same ok found
    have member : rn ∈ lh.b (getrn hash comp lh data).1 := by
      rw [chain]
      exact mem_append_right _ mem_cons_self
    constructor
    · intro is
      cases is
      exact ⟨⟨rn, ⟨_, member⟩, rfl⟩, equal⟩
    · intro both
      obtain ⟨⟨n, ⟨i, here⟩, rfl⟩, equal'⟩ := both
      rw [class_bucket same ok here equal', chain] at here
      have is : n = rn := by
        by_contra different
        apply others n _ equal'
        cases mem_append.mp here with
        | inl before => exact mem_append_left _ before
        | inr rest =>
          exact mem_append_right _ ((mem_cons.mp rest).resolve_left different)
      rw [is]
      rfl

/- What one operation does to the items, where it gets the memory that it asks for. -/
structure LhDoes (hash : Item → Nat) (comp : Item → Item → Int) (memory : Prop)
    (lh lh' : OpensslLhash Item) (data : Item) (fresh : Item → Prop) : Prop where
  ok : LhOk hash comp lh'
  items : memory → ∀ x, LhHas lh'.b x ↔ fresh x ∨ LhHas lh.b x ∧ ¬ x ≈ data

/-- The part of an insertion after the table has grown. -/
theorem insert_node (same : Classes classes hash comp) (ok : LhOk hash comp lh) (data : Item)
    (mem : LhMemory) :
    LhDoes hash comp (mem.malloc = true) lh (lhInsertNode hash comp mem lh data).2 data
        (· = data) ∧
      (mem.malloc = true → ∀ x,
        (lhInsertNode hash comp mem lh data).1 = some x ↔ LhHas lh.b x ∧ x ≈ data) := by
  have answer := getrn_answer same ok data
  have inside := getrn_inside ok data
  have apart := ok.chains.apart (getrn hash comp lh data).1
  have hashed := ok.chains.hashed (getrn hash comp lh data).1
  have placed := ok.chains.placed (getrn hash comp lh data).1
  have bucket := getrn_address ok data
  rw [lhInsertNode]
  dsimp only
  cases found : (lh.b (getrn hash comp lh data).1)[(getrn hash comp lh data).2]? with
  | none =>
    rw [found] at answer
    have absent := getrn_absent same ok found
    by_cases full : mem.malloc = false
    · rw [if_pos full]
      have refused : ¬ mem.malloc = true := Bool.eq_false_iff.mp full
      exact ⟨⟨ok.tuned (lh.error + 1) lh.downLoad, fun given => absurd given refused⟩,
        fun given => absurd given refused⟩
    · rw [if_neg full]
      refine ⟨⟨?_, fun _ => ?_⟩, fun _ => answer⟩
      · apply ok.put inside
        · intro n member
          cases mem_append.mp member with
          | inl old => exact placed n old
          | inr new =>
            rw [mem_singleton.mp new]
            exact bucket.symm
        · intro n member
          cases mem_append.mp member with
          | inl old => exact hashed n old
          | inr new => rw [mem_singleton.mp new]
        · apply pairwise_append.mpr
          refine ⟨apart, pairwise_singleton _ _, ?_⟩
          intro m old n new equal
          rw [mem_singleton.mp new] at equal
          exact absent m.data ⟨m, ⟨_, old⟩, rfl⟩ ((same.equal _ _).mp equal)
        · rw [length_append]
          exact add_right_comm _ _ _
      · apply has_update same ok
        intro x
        constructor
        · intro there
          obtain ⟨n, member, rfl⟩ := there
          cases mem_append.mp member with
          | inl old => exact .inr ⟨⟨n, old, rfl⟩, absent _ ⟨n, ⟨_, old⟩, rfl⟩⟩
          | inr new =>
            rw [mem_singleton.mp new]
            exact .inl rfl
        · intro either
          cases either with
          | inl new =>
            exact ⟨⟨data, hash data⟩, mem_append_right _ (mem_singleton.mpr rfl), new.symm⟩
          | inr old =>
            obtain ⟨⟨n, member, is⟩, _⟩ := old
            exact ⟨n, mem_append_left _ member, is⟩
  | some rn =>
    rw [found] at answer
    obtain ⟨equal, front, back, chain, place, others⟩ := getrn_found same ok found
    have replaced : (lh.b (getrn hash comp lh data).1).set (getrn hash comp lh data).2
        { rn with data := data } = front ++ { rn with data := data } :: back := by
      rw [chain, ← place, set_append_right _ _ (le_refl _), Nat.sub_self, set_cons_zero]
    dsimp only
    rw [replaced]
    rw [chain] at apart hashed placed
    have here : rn ∈ front ++ rn :: back := mem_append_right _ mem_cons_self
    have kept : ∀ n ∈ front ++ { rn with data := data } :: back,
        n = { rn with data := data } ∨ n ∈ front ++ rn :: back ∧ n ∈ front ++ back := by
      intro n member
      cases mem_append.mp member with
      | inl before => exact .inr ⟨mem_append_left _ before, mem_append_left _ before⟩
      | inr rest =>
        cases mem_cons.mp rest with
        | inl new => exact .inl new
        | inr after =>
          exact .inr ⟨mem_append_right _ (mem_cons_of_mem _ after), mem_append_right _ after⟩
    refine ⟨⟨?_, fun _ => ?_⟩, fun _ => answer⟩
    · apply ok.put inside
      · intro n member
        cases kept n member with
        | inl new =>
          rw [new]
          exact placed rn here
        | inr old => exact placed n old.1
      · intro n member
        cases kept n member with
        | inl new =>
          rw [new]
          exact (hashed rn here).trans (same.compatible _ _ equal)
        | inr old => exact hashed n old.1
      · obtain ⟨left, right, across⟩ := pairwise_append.mp apart
        apply pairwise_append.mpr
        refine ⟨left, pairwise_cons.mpr ⟨?_, (pairwise_cons.mp right).2⟩, ?_⟩
        · intro n after zero
          exact others n (mem_append_right _ after) (Setoid.symm ((same.equal _ _).mp zero))
        · intro m before n rest zero
          cases mem_cons.mp rest with
          | inl new =>
            rw [new] at zero
            exact others m (mem_append_left _ before) ((same.equal _ _).mp zero)
          | inr after => exact across m before n (mem_cons_of_mem _ after) zero
      · rw [chain, length_append, length_append]
        rfl
    · apply has_update same ok
      intro x
      constructor
      · intro there
        obtain ⟨n, member, rfl⟩ := there
        cases kept n member with
        | inl new =>
          rw [new]
          exact .inl rfl
        | inr old =>
          rw [chain]
          exact .inr ⟨⟨n, old.1, rfl⟩, others n old.2⟩
      · intro either
        cases either with
        | inl new =>
          exact ⟨{ rn with data := data }, mem_append_right _ mem_cons_self, new.symm⟩
        | inr old =>
          obtain ⟨⟨n, member, is⟩, other⟩ := old
          rw [chain] at member
          refine ⟨n, ?_, is⟩
          cases mem_append.mp member with
          | inl before => exact mem_append_left _ before
          | inr rest =>
            cases mem_cons.mp rest with
            | inl self =>
              rw [← is, self] at other
              exact absurd equal other
            | inr after => exact mem_append_right _ (mem_cons_of_mem _ after)

theorem insert_does (same : Classes classes hash comp) (ok : LhOk hash comp lh) (data : Item)
    (mem : LhMemory) :
    LhDoes hash comp (InsertMemory mem lh) lh (opensslLhInsert hash comp mem lh data).2 data
        (· = data) ∧
      (InsertMemory mem lh → ∀ x,
        (opensslLhInsert hash comp mem lh data).1 = some x ↔ LhHas lh.b x ∧ x ≈ data) := by
  have fresh : LhOk hash comp { lh with error := 0 } := ok.tuned 0 lh.downLoad
  obtain ⟨grown, stored⟩ := expand_ok same.symmetric fresh mem
  have has := has_congr stored
  rw [opensslLhInsert]
  dsimp only
  by_cases load : lh.upLoad ≤ lhLoad { lh with error := 0 }
  · rw [if_pos load]
    by_cases room : (expand mem { lh with error := 0 }).1 = false
    · rw [if_pos room]
      have refused : ¬ InsertMemory mem lh := by
        intro memory
        have given : (expand mem { lh with error := 0 }).1 = true := expand_room (memory.2 load)
        rw [given] at room
        contradiction
      exact ⟨⟨grown, fun memory => absurd memory refused⟩, fun memory => absurd memory refused⟩
    · rw [if_neg room]
      obtain ⟨does, answer⟩ := insert_node same grown data mem
      refine ⟨⟨does.ok, fun memory x => ?_⟩, fun memory x => ?_⟩
      · rw [does.items memory.1 x, has x]
      · rw [answer memory.1 x, has x]
  · rw [if_neg load]
    dsimp only
    rw [if_neg (by decide)]
    obtain ⟨does, answer⟩ := insert_node same fresh data mem
    exact ⟨⟨does.ok, fun memory => does.items memory.1⟩, fun memory => answer memory.1⟩

/- A table that does not get the smaller array keeps the larger one. -/
theorem delete_does (same : Classes classes hash comp) (ok : LhOk hash comp lh) (data : Item)
    (mem : LhMemory) :
    LhDoes hash comp True lh (opensslLhDelete hash comp mem lh data).2 data (fun _ => False) ∧
      ∀ x, (opensslLhDelete hash comp mem lh data).1 = some x ↔ LhHas lh.b x ∧ x ≈ data := by
  have fresh : LhOk hash comp { lh with error := 0 } := ok.tuned 0 lh.downLoad
  have answer := getrn_answer same fresh data
  have inside := getrn_inside fresh data
  have apart := fresh.chains.apart (getrn hash comp { lh with error := 0 } data).1
  have hashed := fresh.chains.hashed (getrn hash comp { lh with error := 0 } data).1
  have placed := fresh.chains.placed (getrn hash comp { lh with error := 0 } data).1
  rw [opensslLhDelete]
  dsimp only
  cases found : (lh.b (getrn hash comp { lh with error := 0 } data).1)[(getrn hash comp
      { lh with error := 0 } data).2]? with
  | none =>
    have absent := getrn_absent same fresh found
    rw [found] at answer
    refine ⟨⟨fresh, fun _ x => ?_⟩, answer⟩
    constructor
    · intro there
      exact .inr ⟨there, absent x there⟩
    · intro either
      exact (either.resolve_left id).1
  | some rn =>
    rw [found] at answer
    obtain ⟨equal, front, back, chain, place, others⟩ := getrn_found same fresh found
    have removed : (lh.b (getrn hash comp { lh with error := 0 } data).1).eraseIdx
        (getrn hash comp { lh with error := 0 } data).2 = front ++ back := by
      rw [chain, ← place, eraseIdx_append_of_length_le (le_refl _), Nat.sub_self]
      rfl
    rw [removed]
    rw [chain] at apart hashed placed
    have kept : ∀ n ∈ front ++ back, n ∈ front ++ rn :: back := by
      intro n member
      cases mem_append.mp member with
      | inl before => exact mem_append_left _ before
      | inr after => exact mem_append_right _ (mem_cons_of_mem _ after)
    have counted := fresh.count
    have some_ : 0 < lh.numItems := by
      have changed := lhCount_update lh.b inside []
      rw [chain, length_append, length_cons, length_nil] at changed
      dsimp only at counted changed
      omega
    have less : LhOk hash comp { lh with
        b := update lh.b (getrn hash comp { lh with error := 0 } data).1 (front ++ back)
        numItems := lh.numItems - 1
        error := 0 } := by
      apply fresh.put inside
      · intro n member
        exact placed n (kept n member)
      · intro n member
        exact hashed n (kept n member)
      · obtain ⟨left, right, across⟩ := pairwise_append.mp apart
        apply pairwise_append.mpr
        refine ⟨left, (pairwise_cons.mp right).2, ?_⟩
        intro m before n after
        exact across m before n (mem_cons_of_mem _ after)
      · dsimp only
        rw [chain, length_append, length_append, length_cons]
        omega
    have items : ∀ x, LhHas (update lh.b (getrn hash comp { lh with error := 0 } data).1
        (front ++ back)) x ↔ False ∨ LhHas lh.b x ∧ ¬ x ≈ data := by
      apply has_update same fresh
      intro x
      constructor
      · intro there
        obtain ⟨n, member, rfl⟩ := there
        rw [chain]
        exact .inr ⟨⟨n, kept n member, rfl⟩, others n member⟩
      · intro either
        obtain ⟨⟨n, member, is⟩, other⟩ := either.resolve_left id
        rw [chain] at member
        refine ⟨n, ?_, is⟩
        cases mem_append.mp member with
        | inl before => exact mem_append_left _ before
        | inr rest =>
          cases mem_cons.mp rest with
          | inl self =>
            rw [← is, self] at other
            exact absurd equal other
          | inr after => exact mem_append_right _ after
    refine ⟨?_, answer⟩
    split_ifs with low
    · obtain ⟨shrunk, stored⟩ := contract_ok same.hashes less low.1 mem
      have has := has_congr stored
      exact ⟨shrunk, fun _ x => (has x).trans (items x)⟩
    · exact ⟨less, fun _ x => items x⟩

inductive LhOp (Item : Type) where
  | insert (mem : LhMemory) (data : Item)
  | delete (mem : LhMemory) (data : Item)
  | retrieve (data : Item)
  | flush
  | setDownLoad (downLoad : Nat)

def lhStep (hash : Item → Nat) (comp : Item → Item → Int) (lh : OpensslLhash Item) :
    LhOp Item → Option Item × OpensslLhash Item
  | .insert mem data => opensslLhInsert hash comp mem lh data
  | .delete mem data => opensslLhDelete hash comp mem lh data
  | .retrieve data => opensslLhRetrieve hash comp lh data
  | .flush => (none, opensslLhFlush lh)
  | .setDownLoad downLoad => (none, opensslLhSetDownLoad lh downLoad)

theorem mem_doall (ok : LhOk hash comp lh) (x : Item) : x ∈ doallUtilFn lh ↔ LhHas lh.b x := by
  rw [doallUtilFn, mem_flatMap]
  constructor
  · intro there
    obtain ⟨i, _, member⟩ := there
    obtain ⟨n, here, is⟩ := mem_map.mp member
    exact ⟨n, ⟨i, here⟩, is⟩
  · intro there
    obtain ⟨n, ⟨i, here⟩, is⟩ := there
    refine ⟨i, mem_reverse.mpr (mem_range.mpr ?_), mem_map.mpr ⟨n, here, is⟩⟩
    by_contra outside
    rw [ok.chains.empty ok.inside (by have := ok.nodes; omega)] at here
    contradiction

theorem doall_nodup (same : Classes classes hash comp) (ok : LhOk hash comp lh) :
    (doallUtilFn lh).Nodup := by
  rw [doallUtilFn]
  apply nodup_flatMap.mpr
  constructor
  · intro i _
    apply List.Pairwise.map _ _ (ok.chains.apart i)
    intro m n differ equal
    exact differ ((same.equal _ _).mpr (equal ▸ Setoid.refl _))
  · apply (nodup_reverse.mpr nodup_range).imp
    intro i j other x one two
    obtain ⟨m, here, rfl⟩ := mem_map.mp one
    obtain ⟨n, there, equal⟩ := mem_map.mp two
    -- the same item has the same hash, and so the same bucket
    have hashes : m.hash = n.hash := by
      rw [ok.chains.hashed i m here, ok.chains.hashed j n there, equal]
    have first := ok.chains.placed i m here
    rw [hashes, ok.chains.placed j n there] at first
    exact other first.symm

theorem doall_length (lh : OpensslLhash Item) :
    (doallUtilFn lh).length = lhCount lh.b lh.numNodes := by
  rw [doallUtilFn, lhCount, length_flatMap, map_reverse, sum_reverse]
  simp

variable [DecidableEq (Quotient classes)]

def mapStep (map : Lhash (Quotient classes) Item) :
    LhOp Item → Option Item × Lhash (Quotient classes) Item
  | .insert _ data => (lhRetrieve ⟦data⟧ map, lhInsert ⟦data⟧ data map)
  | .delete _ data => (lhRetrieve ⟦data⟧ map, lhDelete ⟦data⟧ map)
  | .retrieve data => (lhRetrieve ⟦data⟧ map, map)
  | .flush => (none, lhNew)
  | .setDownLoad _ => (none, map)

def LhRepresents (lh : OpensslLhash Item) (map : Lhash (Quotient classes) Item) : Prop :=
  ∀ x y, lhRetrieve ⟦x⟧ map = some y ↔ LhHas lh.b y ∧ y ≈ x

structure LhWorld (Item : Type) [classes : Setoid Item] where
  lh : OpensslLhash Item
  map : Lhash (Quotient classes) Item

def lhWorldStep (hash : Item → Nat) (comp : Item → Item → Int) (w : LhWorld Item) (op : LhOp Item) :
    LhWorld Item :=
  ⟨(lhStep hash comp w.lh op).2, (mapStep w.map op).2⟩

def lhWorldStart : LhWorld Item := ⟨opensslLhNew, lhNew⟩

/- No allocation fails. Only an insertion cannot do without its memory. -/
def NoFailure (w : LhWorld Item) : LhOp Item → Prop
  | .insert mem _ => InsertMemory mem w.lh
  | _ => True

instance (w : LhWorld Item) : (op : LhOp Item) → Decidable (NoFailure w op)
  | .insert mem _ =>
    inferInstanceAs (Decidable (mem.malloc = true ∧ (w.lh.upLoad ≤ lhLoad w.lh →
      w.lh.pmax ≤ w.lh.p + 1 → mem.realloc = true ∧ w.lh.numAllocNodes * 2 % 2 ^ 32 ≠ 0)))
  | .delete _ _ => isTrue trivial
  | .retrieve _ => isTrue trivial
  | .flush => isTrue trivial
  | .setDownLoad _ => isTrue trivial

structure LhRefines (hash : Item → Nat) (comp : Item → Item → Int) (w : LhWorld Item) : Prop where
  ok : LhOk hash comp w.lh
  represents : LhRepresents w.lh w.map

theorem answer_retrieve {lh : OpensslLhash Item} {map : Lhash (Quotient classes) Item}
    (represents : LhRepresents lh map) {data : Item} {r : Option Item}
    (answer : ∀ x, r = some x ↔ LhHas lh.b x ∧ x ≈ data) : r = lhRetrieve ⟦data⟧ map := by
  apply Option.ext
  intro x
  exact (answer x).trans (represents data x).symm

theorem lhRepresents_insert {lh lh' : OpensslLhash Item} {map : Lhash (Quotient classes) Item}
    (represents : LhRepresents lh map) {data : Item}
    (items : ∀ x, LhHas lh'.b x ↔ x = data ∨ LhHas lh.b x ∧ ¬ x ≈ data) :
    LhRepresents lh' (lhInsert ⟦data⟧ data map) := by
  intro x y
  rw [lhRetrieve_insert, items y]
  by_cases equal : x ≈ data
  · rw [if_pos (Quotient.sound equal)]
    constructor
    · intro is
      cases is
      exact ⟨.inl rfl, Setoid.symm equal⟩
    · intro both
      cases both.1 with
      | inl new => rw [new]
      | inr old => exact absurd (Setoid.trans both.2 equal) old.2
  · rw [if_neg fun bad => equal (Quotient.exact bad), represents x y]
    constructor
    · intro both
      exact ⟨.inr ⟨both.1, fun other => equal (Setoid.trans (Setoid.symm both.2) other)⟩, both.2⟩
    · intro both
      cases both.1 with
      | inl new =>
        rw [new] at both
        exact absurd (Setoid.symm both.2) equal
      | inr old => exact ⟨old.1, both.2⟩

theorem lhRepresents_delete {lh lh' : OpensslLhash Item} {map : Lhash (Quotient classes) Item}
    (represents : LhRepresents lh map) {data : Item}
    (items : ∀ x, LhHas lh'.b x ↔ LhHas lh.b x ∧ ¬ x ≈ data) :
    LhRepresents lh' (lhDelete ⟦data⟧ map) := by
  intro x y
  rw [lhRetrieve_delete, items y]
  by_cases equal : x ≈ data
  · rw [if_pos (Quotient.sound equal)]
    constructor
    · intro none
      contradiction
    · intro both
      exact absurd (Setoid.trans both.2 equal) both.1.2
  · rw [if_neg fun bad => equal (Quotient.exact bad), represents x y]
    constructor
    · intro both
      exact ⟨⟨both.1, fun other => equal (Setoid.trans (Setoid.symm both.2) other)⟩, both.2⟩
    · intro both
      exact ⟨both.1.1, both.2⟩

/-- Each operation does to the table what it does to the map, and answers the same. -/
theorem lhStep_refines (same : Classes classes hash comp) (w : LhWorld Item) (op : LhOp Item)
    (refines : LhRefines hash comp w) (fine : NoFailure w op) :
    LhRefines hash comp (lhWorldStep hash comp w op) ∧
      (lhStep hash comp w.lh op).1 = (mapStep w.map op).1 := by
  obtain ⟨ok, represents⟩ := refines
  cases op with
  | insert mem data =>
    obtain ⟨does, answer⟩ := insert_does same ok data mem
    exact ⟨⟨does.ok, lhRepresents_insert represents (does.items fine)⟩,
      answer_retrieve represents (answer fine)⟩
  | delete mem data =>
    obtain ⟨does, answer⟩ := delete_does same ok data mem
    refine ⟨⟨does.ok, lhRepresents_delete represents fun x => ?_⟩, answer_retrieve represents answer⟩
    have item := does.items trivial x
    rw [false_or] at item
    exact item
  | retrieve data =>
    exact ⟨⟨ok.tuned 0 w.lh.downLoad, represents⟩,
      answer_retrieve represents (getrn_answer same ok data)⟩
  | flush =>
    obtain ⟨empty, none⟩ := flush_ok ok
    refine ⟨⟨empty, fun x y => ?_⟩, rfl⟩
    show lhRetrieve ⟦x⟧ lhNew = some y ↔ LhHas (opensslLhFlush w.lh).b y ∧ y ≈ x
    rw [lhRetrieve_new]
    constructor
    · intro nothing
      contradiction
    · intro both
      exact absurd both.1 (none y)
  | setDownLoad downLoad => exact ⟨⟨ok.tuned w.lh.error downLoad, represents⟩, rfl⟩

variable {w : LhWorld Item}

/-- The callback is called once for each item of the map. -/
theorem doall_perm (same : Classes classes hash comp) (refines : LhRefines hash comp w) :
    (doallUtilFn w.lh).Perm (lhItems w.map) := by
  obtain ⟨ok, represents⟩ := refines
  have apart : (lhItems w.map).Nodup := by
    apply lhItems_nodup
    intro k l item one two
    induction k using Quotient.inductionOn with
    | h x =>
      induction l using Quotient.inductionOn with
      | h y =>
        have first := ((represents x item).mp one).2
        have second := ((represents y item).mp two).2
        exact Quotient.sound (Setoid.trans (Setoid.symm first) second)
  apply (perm_ext_iff_of_nodup (doall_nodup same ok) apart).mpr
  intro item
  rw [mem_doall ok, mem_lhItems]
  constructor
  · intro there
    exact ⟨⟦item⟧, (represents item item).mpr ⟨there, Setoid.refl item⟩⟩
  · intro somewhere
    obtain ⟨key, found⟩ := somewhere
    induction key using Quotient.inductionOn with
    | h x => exact ((represents x item).mp found).1

theorem refines_count (same : Classes classes hash comp) (refines : LhRefines hash comp w) :
    w.lh.numItems = lhNumItems w.map := by
  have items := (doall_perm same refines).length_eq
  have entries : (lhItems w.map).length = lhNumItems w.map := by
    rw [lhItems, lhNumItems, AList.keys, keys, length_map, length_map]
  rw [refines.ok.count, ← doall_length, items, entries]

/-- A table is the finite map from classes to items in every state of a run, and answers as it. -/
theorem lhash_refines (same : Classes classes hash comp) (ops : List (LhOp Item))
    (fine : Admissible (lhWorldStep hash comp) NoFailure lhWorldStart ops) :
    ∀ w ∈ visited (lhWorldStep hash comp) lhWorldStart ops,
      (w.lh.numNodes = w.lh.pmax + w.lh.p ∧ w.lh.p < w.lh.pmax ∧
        w.lh.numAllocNodes = 2 * w.lh.pmax ∧
        ∀ i, ∀ n ∈ w.lh.b i, n.hash = hash n.data ∧
          i = if w.lh.p ≤ n.hash % w.lh.pmax then n.hash % w.lh.pmax
            else n.hash % w.lh.numAllocNodes) ∧
      (∀ x y, lhRetrieve ⟦x⟧ w.map = some y → y ≈ x) ∧
      w.lh.numItems = lhNumItems w.map ∧ (doallUtilFn w.lh).Perm (lhItems w.map) ∧
      ∀ op, NoFailure w op → (lhStep hash comp w.lh op).1 = (mapStep w.map op).1 := by
  intro w reached
  have start : LhRefines hash comp (lhWorldStart : LhWorld Item) := by
    refine ⟨lhNew_ok, fun x y => ?_⟩
    show lhRetrieve ⟦x⟧ lhNew = some y ↔ _
    rw [lhRetrieve_new]
    constructor
    · intro nothing
      contradiction
    · intro both
      obtain ⟨⟨n, ⟨i, member⟩, _⟩, _⟩ := both
      contradiction
  have refines := visited_invariant
    (fun w op refines fine => (lhStep_refines same w op refines fine).1) start fine w reached
  have ok := refines.ok
  refine ⟨⟨ok.nodes, ok.inside, ok.alloc, ?_⟩, ?_, refines_count same refines,
    doall_perm same refines, ?_⟩
  · intro i n member
    have place := ok.chains.placed i n member
    rw [address] at place
    refine ⟨ok.chains.hashed i n member, ?_⟩
    rw [← place, ok.alloc]
    split_ifs <;> first | rfl | omega
  · intro x y found
    exact ((refines.represents x y).mp found).2
  · intro op fine'
    exact (lhStep_refines same w op refines fine').2

instance paritySetoid : Setoid Nat where
  r x y := x % 2 = y % 2
  iseqv := ⟨fun _ => rfl, fun h => h.symm, fun h g => h.trans g⟩

instance parityDecidable : DecidableEq (Quotient paritySetoid) :=
  fun x y => Quotient.recOnSubsingleton₂ x y fun x y =>
    decidable_of_iff (x % 2 = y % 2) ⟨fun same => Quotient.sound same, fun same => Quotient.exact same⟩

def parityComp (x y : Nat) : Int := (x % 2 : Nat) - (y % 2 : Nat)

def paritySample : List (LhOp Nat) :=
  [.insert ⟨true, true⟩ 5, .retrieve 3, .flush, .insert ⟨true, true⟩ 4, .insert ⟨true, true⟩ 7,
    .insert ⟨true, true⟩ 6, .delete ⟨true, false⟩ 9]

theorem lhash_refines_sample :
    (run (lhWorldStep (· % 2) parityComp) lhWorldStart paritySample).lh.numItems =
        lhNumItems (run (lhWorldStep (· % 2) parityComp) lhWorldStart paritySample).map ∧
      (doallUtilFn (run (lhWorldStep (· % 2) parityComp) lhWorldStart paritySample).lh).Perm
        (lhItems (run (lhWorldStep (· % 2) parityComp) lhWorldStart paritySample).map) ∧
      lhRetrieve ⟦2⟧ (run (lhWorldStep (· % 2) parityComp) lhWorldStart paritySample).map =
        some 6 := by
  have same : Classes paritySetoid (· % 2) parityComp := by
    constructor
    · intro x y
      show parityComp x y = 0 ↔ x % 2 = y % 2
      rw [parityComp]
      omega
    · intro x y equal
      exact equal
  have fine : Admissible (lhWorldStep (· % 2) parityComp) NoFailure
      lhWorldStart paritySample := by
    refine ⟨?_, ?_, ?_, ?_, ?_, ?_, ?_, trivial⟩ <;> decide +kernel
  obtain ⟨_, _, count, items, answers⟩ :=
    lhash_refines same paritySample fine _ (run_mem_visited _ _ _)
  refine ⟨count, items, ?_⟩
  have answer := answers (.retrieve 2) trivial
  rw [show (mapStep _ (.retrieve 2)).1 = lhRetrieve ⟦2⟧ _ from rfl] at answer
  rw [← answer]
  decide +kernel

end Ossl
