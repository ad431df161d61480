import OpenSSL.Stack
import OpenSSL.Lib.Runs
import Mathlib.Data.List.GetD
import Mathlib.Data.List.Induction
import Mathlib.Data.List.Sort

/- Whether a stack is sorted makes no difference to what is found in it. -/
namespace Ossl
open List Option Bisect Runs

variable {Ptr Cmp : Type}
variable {null : Ptr} {compare : Cmp → Ptr → Ptr → Int} {qsort : Cmp → List Ptr → List Ptr}

def InOrder (cmp : Ptr → Ptr → Int) (xs : List Ptr) : Prop := xs.Pairwise fun x y => cmp x y ≤ 0

def SortedOk (compare : Cmp → Ptr → Ptr → Int) (st : OpensslStack Ptr Cmp) : Prop :=
  ∀ c, st.comp = some c → st.sorted = true → InOrder (compare c) st.data

variable {xs : List Ptr} {cmp : Ptr → Ptr → Int}

theorem short_ordered (cmp : Ptr → Ptr → Int) (short : xs.length ≤ 1) : InOrder cmp xs := by
  cases xs with
  | nil => exact List.Pairwise.nil
  | cons x xs =>
    cases xs with
    | nil => exact pairwise_singleton _ _
    | cons y xs =>
      rw [length_cons, length_cons] at short
      omega

/-- An element fits where its neighbours say so. -/
theorem insert_ordered (preorders : Preorders cmp) {ys : List Ptr} {ptr : Ptr}
    (ordered : InOrder cmp (xs ++ ys)) (before : ∀ x ∈ xs.getLast?, cmp x ptr ≤ 0)
    (after : ∀ y ∈ ys.head?, cmp ptr y ≤ 0) : InOrder cmp (xs ++ ptr :: ys) := by
  obtain ⟨left, right, across⟩ := pairwise_append.mp ordered
  have above : ∀ y ∈ ys, cmp ptr y ≤ 0 := by
    intro y member
    cases ys with
    | nil => contradiction
    | cons z ys =>
      have first := after z rfl
      cases mem_cons.mp member with
      | inl here =>
        rw [here]
        exact first
      | inr later => exact preorders.trans _ _ _ first ((pairwise_cons.mp right).1 y later)
  have below : ∀ x ∈ xs, cmp x ptr ≤ 0 := by
    intro x member
    cases xs using reverseRecOn with
    | nil => contradiction
    | append_singleton xs z =>
      have last := before z (by simp)
      cases mem_append.mp member with
      | inl earlier =>
        have le := (pairwise_append.mp left).2.2 x earlier z (mem_singleton.mpr rfl)
        exact preorders.trans _ _ _ le last
      | inr here =>
        rw [mem_singleton.mp here]
        exact last
  apply pairwise_append.mpr
  refine ⟨left, pairwise_cons.mpr ⟨above, right⟩, ?_⟩
  intro x here y there
  cases mem_cons.mp there with
  | inl is =>
    rw [is]
    exact below x here
  | inr later => exact across x here y later

theorem insert_sorted (preorders : ∀ c, Preorders (compare c)) {st : OpensslStack Ptr Cmp}
    (sorted : SortedOk compare st) (room : Bool) (ptr : Ptr) (loc : Int) :
    SortedOk compare (opensslSkInsert null compare room st ptr loc).2 := by
  rw [opensslSkInsert]
  by_cases full : st.data.length = skMaxNodes ∨ room = false
  · rw [if_pos full]
    exact sorted
  · rw [if_neg full]
    have inside : (if (st.data.length : Int) ≤ loc ∨ loc < 0 then st.data.length else loc.toNat) ≤
        st.data.length := by
      split_ifs <;> omega
    generalize (if (st.data.length : Int) ≤ loc ∨ loc < 0 then st.data.length else loc.toNat) = at_
      at inside
    intro c comp flag
    dsimp only at comp flag ⊢
    rw [comp] at flag
    have taken : (st.data.take at_).length = at_ := length_take_of_le inside
    split_ifs at flag with both
    · have old := sorted c comp both.1
      rw [← take_append_drop at_ st.data] at old
      have whole : (st.data.take at_ ++ ptr :: st.data.drop at_).length = st.data.length + 1 := by
        rw [length_append, taken, length_cons, length_drop]
        omega
      have here : (st.data.take at_ ++ ptr :: st.data.drop at_).getD at_ null = ptr := by
        rw [getD_append_right _ _ _ _ (by omega), taken, Nat.sub_self]
        rfl
      rw [here, whole] at flag
      simp only [Bool.and_eq_true, Bool.not_eq_true', decide_eq_false_iff_not, not_and, not_lt,
        Nat.add_sub_cancel] at flag
      apply insert_ordered (preorders c) old
      · intro x member
        have some_ : 0 < at_ := by
          cases at_ with
          | zero => contradiction
          | succ k => exact Nat.succ_pos k
        have last : (st.data.take at_ ++ ptr :: st.data.drop at_).getD (at_ - 1) null = x := by
          rw [getD_append _ _ _ _ (by omega), getD_eq_getElem?_getD]
          rw [getLast?_eq_getElem?, taken] at member
          rw [mem_def.mp member]
          rfl
        have le := flag.1 some_
        rw [last] at le
        omega
      · intro y member
        have less : at_ < st.data.length := by
          by_contra not
          rw [drop_eq_nil_of_le (by omega)] at member
          contradiction
        have next : (st.data.take at_ ++ ptr :: st.data.drop at_).getD (at_ + 1) null = y := by
          rw [getD_append_right _ _ _ _ (by omega), taken, Nat.add_sub_cancel_left,
            getD_cons_succ, getD_eq_getElem?_getD]
          rw [List.head?_eq_getElem?] at member
          rw [mem_def.mp member]
          rfl
        have le := flag.2 less
        rw [next] at le
        have turned := (preorders c).flip ptr y
        omega
    · apply short_ordered
      by_contra long
      exact both ⟨flag, by omega⟩

theorem delete_sorted {st : OpensslStack Ptr Cmp} (sorted : SortedOk compare st) (loc : Nat) :
    SortedOk compare (internalDelete null st loc).2 := by
  intro c comp flag
  rw [internalDelete] at flag comp ⊢
  cases (Bool.or_eq_true _ _ ▸ flag : _ ∨ _) with
  | inl was => exact (sorted c comp was).sublist (eraseIdx_sublist _ _)
  | inr short => exact short_ordered _ (of_decide_eq_true short)

theorem findRounds_found (cmp : Ptr → Int) (xs : List Ptr) (i : Nat) {res pnum : Int}
    (already : res ≠ -1) : findRounds cmp false xs i res pnum =
      (res, pnum + xs.countP (fun x => cmp x == 0)) := by
  induction xs generalizing i pnum with
  | nil =>
    rw [findRounds, if_neg already]
    simp
  | cons x xs ih =>
    rw [findRounds, countP_cons]
    by_cases same : cmp x = 0
    · rw [if_pos same, if_neg Bool.false_ne_true, if_neg already, ih]
      simp only [same, beq_self_eq_true, if_true]
      congr 1
      omega
    · rw [if_neg same, ih]
      simp [same]

theorem findRounds_all (cmp : Ptr → Int) (xs : List Ptr) (i : Nat) (pnum : Int) :
    findRounds cmp false xs i (-1) pnum =
      match xs.findIdx? (fun x => cmp x == 0) with
      | some j => (((i + j : Nat) : Int), pnum + xs.countP (fun x => cmp x == 0))
      | none => (-1, 0) := by
  induction xs generalizing i pnum with
  | nil => rfl
  | cons x xs ih =>
    rw [findRounds, findIdx?_cons, countP_cons]
    by_cases same : cmp x = 0
    · have later : (i : Int) ≠ -1 := by omega
      rw [if_pos same, if_neg Bool.false_ne_true, if_pos rfl, findRounds_found cmp xs _ later]
      simp only [same, beq_self_eq_true, if_true, Nat.add_zero]
      congr 1
      omega
    · rw [if_neg same, ih]
      have other : (cmp x == 0) = false := beq_eq_false_iff_ne.mpr same
      rw [other, if_neg Bool.false_ne_true]
      cases xs.findIdx? (fun x => cmp x == 0) with
      | none => rfl
      | some j =>
        simp only [map_some, if_neg false_ne_true]
        congr 1
        omega

theorem findRounds_one (cmp : Ptr → Int) (xs : List Ptr) (i : Nat) (pnum : Int) :
    (findRounds cmp true xs i (-1) pnum).1 =
      match xs.findIdx? (fun x => cmp x == 0) with
      | some j => ((i + j : Nat) : Int)
      | none => -1 := by
  induction xs generalizing i with
  | nil => rfl
  | cons x xs ih =>
    rw [findRounds, findIdx?_cons]
    by_cases same : cmp x = 0
    · rw [if_pos same, if_pos rfl]
      simp [same]
    · rw [if_neg same, ih]
      have other : (cmp x == 0) = false := beq_eq_false_iff_ne.mpr same
      rw [other, if_neg Bool.false_ne_true]
      cases xs.findIdx? (fun x => cmp x == 0) with
      | none => rfl
      | some j =>
        simp only [map_some]
        congr 1
        omega

theorem ordered_falling (preorders : Preorders cmp) (ordered : InOrder cmp xs) (key : Ptr) :
    Falling (fun i => cmp key (xs.getD i null)) xs.length := by
  intro i j le inside
  have step : cmp (xs.getD i null) (xs.getD j null) ≤ 0 := by
    by_cases same : i = j
    · rw [same]
      have turned := preorders.flip (xs.getD j null) (xs.getD j null)
      omega
    · rw [getD_eq_getElem _ _ (by omega), getD_eq_getElem _ _ inside]
      exact pairwise_iff_getElem.mp ordered i j (by omega) inside (by omega)
  dsimp only
  constructor
  · intro less
    by_contra not
    have turned := preorders.flip (xs.getD j null) key
    have back := preorders.flip (xs.getD i null) key
    have through := preorders.trans _ _ key step (by omega)
    omega
  · intro below
    exact preorders.trans _ _ _ below step

/-- The search by halves gives the first match. -/
theorem bsearch_first (preorders : Preorders cmp) (ordered : InOrder cmp xs)
    (few : xs.length ≤ bsearchMax) (key : Ptr) :
    osslBsearch null cmp key xs ⟨false, true⟩ = some (xs.findIdx? fun x => cmp key x == 0) := by
  rw [osslBsearch]
  by_cases empty : xs.length = 0
  · rw [if_pos empty, length_eq_zero_iff.mp empty]
    rfl
  · rw [if_neg empty]
    have falling : Falling (fun i => cmp key (xs.getD i null)) xs.length :=
      ordered_falling preorders ordered key
    obtain ⟨found, search, inside, result⟩ := halve_finds falling (le_refl (xs.length - 0))
      (fun j less => absurd less (Nat.not_lt_zero j)) (fun j le less => by omega)
      (le_refl _) few (i := 0) (c := 0) (.inl (by omega))
    rw [Nat.sub_zero] at search
    dsimp only
    rw [search, Option.map_some]
    apply congrArg some
    cases result with
    | inl match_ =>
      obtain ⟨zero, here⟩ := match_
      obtain ⟨le, first, others⟩ := descend_first falling inside here
      rw [if_neg (fun bad => bad.1 zero), if_pos ⟨zero, rfl⟩]
      symm
      apply findIdx?_eq_some_iff_getElem.mpr
      rw [getD_eq_getElem _ _ (by omega)] at first
      refine ⟨by omega, beq_iff_eq.mpr first, ?_⟩
      intro j less
      have other := others j less
      rw [getD_eq_getElem _ _ (by omega)] at other
      simpa using other
    | inr none =>
      obtain ⟨other, all⟩ := none
      rw [if_pos ⟨other, rfl⟩]
      symm
      apply findIdx?_eq_none_iff.mpr
      intro x member
      obtain ⟨j, less, is⟩ := getElem_of_mem member
      have differs := all j less
      rw [getD_eq_getElem _ _ less, is] at differs
      exact beq_eq_false_iff_ne.mpr differs

/-- Behind the first match the others follow at once. -/
theorem matches_first (preorders : Preorders cmp) {key : Ptr} (ordered : InOrder cmp xs)
    (above : ∀ x ∈ xs, cmp key x ≤ 0) :
    (xs.takeWhile (fun x => cmp key x == 0)).length = xs.countP (fun x => cmp key x == 0) := by
  induction xs with
  | nil => rfl
  | cons x xs ih =>
    obtain ⟨first, rest⟩ := pairwise_cons.mp ordered
    rw [takeWhile_cons, countP_cons]
    by_cases same : cmp key x = 0
    · have is : (cmp key x == 0) = true := beq_iff_eq.mpr same
      rw [is, if_pos rfl, if_pos rfl, length_cons,
        ih rest fun y member => above y (mem_cons_of_mem x member)]
    · have other : (cmp key x == 0) = false := beq_eq_false_iff_ne.mpr same
      have none : xs.countP (fun x => cmp key x == 0) = 0 := by
        apply countP_eq_zero.mpr
        intro y member match_
        have le := above x mem_cons_self
        have turned := preorders.flip x key
        have back := preorders.flip y key
        have equal := beq_iff_eq.mp match_
        have through := preorders.trans x y key (first y member) (by omega)
        omega
      rw [other, if_neg Bool.false_ne_true, if_neg Bool.false_ne_true, none]
      rfl

variable {i : Nat} {p : Ptr → Bool}

theorem count_behind (preorders : Preorders cmp) {key : Ptr} (ordered : InOrder cmp xs)
    (found : xs.findIdx? (fun x => cmp key x == 0) = some i) :
    ((xs.drop i).takeWhile (fun x => cmp key x == 0)).length =
      xs.countP (fun x => cmp key x == 0) := by
  obtain ⟨inside, match_, before⟩ := List.findIdx?_eq_some_iff_getElem.mp found
  have equal := beq_iff_eq.mp match_
  have split : xs.countP (fun x => cmp key x == 0) =
      (xs.take i).countP (fun x => cmp key x == 0) + (xs.drop i).countP (fun x => cmp key x == 0) := by
    rw [← countP_append, take_append_drop]
  have none : (xs.take i).countP (fun x => cmp key x == 0) = 0 := by
    apply countP_eq_zero.mpr
    intro x member
    obtain ⟨j, less, is⟩ := getElem_of_mem member
    rw [length_take] at less
    rw [← is, getElem_take]
    exact before j (by omega)
  rw [split, none, Nat.zero_add]
  apply matches_first preorders (ordered.sublist (drop_sublist i xs))
  rw [drop_eq_getElem_cons inside]
  intro x member
  cases mem_cons.mp member with
  | inl here =>
    rw [here]
    omega
  | inr later =>
    have behind := ordered.sublist (drop_sublist i xs)
    rw [drop_eq_getElem_cons inside] at behind
    exact preorders.trans _ _ _ (by omega) ((pairwise_cons.mp behind).1 x later)

theorem findIdx?_count (found : xs.findIdx? p = some i) : 0 < xs.countP p := by
  obtain ⟨inside, match_, _⟩ := findIdx?_eq_some_iff_getElem.mp found
  exact countP_pos_iff.mpr ⟨_, getElem_mem inside, match_⟩

theorem findIdx?_no_count (none_ : xs.findIdx? p = none) : xs.countP p = 0 := by
  apply countP_eq_zero.mpr
  intro x member
  have other := findIdx?_eq_none_iff.mp none_ x member
  rw [other]
  exact Bool.false_ne_true

variable [DecidableEq Ptr] [DecidableEq Cmp]

inductive SkOp (Ptr Cmp : Type) where
  | insert (room : Bool) (ptr : Ptr) (loc : Int)
  | push (room : Bool) (ptr : Ptr)
  | unshift (room : Bool) (ptr : Ptr)
  | delete (loc : Int)
  | deletePtr (p : Ptr)
  | shift
  | pop
  | set (i : Int) (ptr : Ptr)
  | setCmpFunc (c : Option Cmp)
  | dup (room : Bool)
  | zero
  | sort

def skStep (null : Ptr) (compare : Cmp → Ptr → Ptr → Int) (qsort : Cmp → List Ptr → List Ptr)
    (st : OpensslStack Ptr Cmp) : SkOp Ptr Cmp → OpensslStack Ptr Cmp
  | .insert room ptr loc => (opensslSkInsert null compare room st ptr loc).2
  | .push room ptr => (opensslSkPush null compare room st ptr).2
  | .unshift room ptr => (opensslSkUnshift null compare room st ptr).2
  | .delete loc => (opensslSkDelete null st loc).2
  | .deletePtr p => (opensslSkDeletePtr null st p).2
  | .shift => (opensslSkShift null st).2
  | .pop => (opensslSkPop null st).2
  | .set i ptr => (opensslSkSet null st i ptr).2
  | .setCmpFunc c => opensslSkSetCmpFunc st c
  | .dup room => (opensslSkDup room st).getD st
  | .zero => opensslSkZero st
  | .sort => opensslSkSort qsort st

def Sorts (compare : Cmp → Ptr → Ptr → Int) (qsort : Cmp → List Ptr → List Ptr) : Prop :=
  ∀ c xs, (qsort c xs).Perm xs ∧ InOrder (compare c) (qsort c xs)

theorem step_sorted (preorders : ∀ c, Preorders (compare c)) (sorts : Sorts compare qsort)
    (st : OpensslStack Ptr Cmp) (op : SkOp Ptr Cmp) (sorted : SortedOk compare st) :
    SortedOk compare (skStep null compare qsort st op) := by
  cases op with
  | insert room ptr loc => exact insert_sorted preorders sorted room ptr loc
  | push room ptr => exact insert_sorted preorders sorted room ptr _
  | unshift room ptr => exact insert_sorted preorders sorted room ptr 0
  | delete loc =>
    rw [skStep, opensslSkDelete]
    split_ifs
    · exact sorted
    · exact delete_sorted sorted _
  | deletePtr p =>
    rw [skStep, opensslSkDeletePtr]
    cases st.data.findIdx? (· == p) with
    | none => exact sorted
    | some i => exact delete_sorted sorted i
  | shift =>
    rw [skStep, opensslSkShift]
    split_ifs
    · exact sorted
    · exact delete_sorted sorted _
  | pop =>
    rw [skStep, opensslSkPop]
    split_ifs
    · exact sorted
    · exact delete_sorted sorted _
  | set i ptr =>
    rw [skStep, opensslSkSet]
    split_ifs
    · exact sorted
    · intro c comp flag
      apply short_ordered
      rw [length_set]
      exact of_decide_eq_true flag
  | setCmpFunc c =>
    rw [skStep, opensslSkSetCmpFunc]
    intro c' comp flag
    dsimp only at comp flag ⊢
    split_ifs at flag with changed
    by_cases same : st.comp = c
    · exact sorted c' (same.trans comp) flag
    · apply short_ordered
      by_contra long
      exact changed ⟨same, by omega⟩
  | dup room =>
    rw [skStep, opensslSkDup]
    cases room <;> exact sorted
  | zero =>
    rw [skStep, opensslSkZero]
    split_ifs
    · exact sorted
    · intro c comp flag
      exact List.Pairwise.nil
  | sort =>
    rw [skStep, opensslSkSort]
    cases comp : st.comp with
    | none => exact sorted
    | some c =>
      split_ifs with already long
      · exact sorted
      · intro c' comp' flag
        cases (show some c = some c' from comp')
        exact (sorts c st.data).2
      · intro c' comp' flag
        exact short_ordered _ (by dsimp only; omega)

def skMatches (compare : Cmp → Ptr → Ptr → Int) (st : OpensslStack Ptr Cmp) (key x : Ptr) : Bool :=
  match st.comp with
  | some c => compare c key x == 0
  | none => x == key

def firstIndex (p : Ptr → Bool) (xs : List Ptr) : Int :=
  match xs.findIdx? p with
  | some i => i
  | none => -1

variable {st : OpensslStack Ptr Cmp} {key : Ptr}

theorem matches_comp {c : Cmp} (comp : st.comp = some c) :
    skMatches compare st key = fun x => compare c key x == 0 := by
  funext x
  rw [skMatches, comp]

theorem matches_pointer (comp : st.comp = none) :
    skMatches compare st key = fun x => x == key := by
  funext x
  rw [skMatches, comp]

/- A stack that is searched by halves is small enough for the offsets to be ints. -/
def OffsetsFit (st : OpensslStack Ptr Cmp) : Prop :=
  st.comp ≠ none → st.sorted = true → st.data.length ≤ bsearchMax

theorem find_first (preorders : ∀ c, Preorders (compare c)) (sorted : SortedOk compare st)
    (fit : OffsetsFit st) (some_ : key ≠ null) :
    opensslSkFind null compare st key = some (firstIndex (skMatches compare st key) st.data) := by
  rw [opensslSkFind, internalFind, firstIndex]
  by_cases empty : st.data.length = 0
  · rw [if_pos empty, length_eq_zero_iff.mp empty]
    rfl
  rw [if_neg empty]
  cases comp : st.comp with
  | none =>
    rw [matches_pointer comp]
    cases st.data.findIdx? (fun x => x == key) <;> rfl
  | some c =>
    rw [matches_comp comp]
    dsimp only
    rw [if_neg some_]
    cases flag : st.sorted with
    | false =>
      rw [if_pos rfl, isNone_none, Option.map_some, findRounds_one]
      cases st.data.findIdx? (fun x => compare c key x == 0) with
      | none => rfl
      | some i =>
        dsimp only
        rw [Nat.zero_add]
    | true =>
      simp only [isSome_none, Bool.true_eq_false, Bool.false_eq_true, if_false]
      rw [bsearch_first (preorders c) (sorted c comp flag) (fit (by simp [comp]) flag)]
      cases st.data.findIdx? (fun x => compare c key x == 0) <;> rfl

def CountsRight (compare : Cmp → Ptr → Ptr → Int) (st : OpensslStack Ptr Cmp) (key : Ptr)
    (pnum : Int) : Prop :=
  if st.data = [] then pnum = 0
  else
    match st.comp with
    | none => st.data.countP (· == key) ≤ 1
    | some c => st.sorted = true ∨ (∀ x ∈ st.data, compare c key x ≠ 0) ∨ pnum = 0

theorem find_all_counts (preorders : ∀ c, Preorders (compare c)) (sorted : SortedOk compare st)
    (fit : OffsetsFit st) (some_ : key ≠ null) (pnum : Int) :
    ∃ count, opensslSkFindAll null compare st key pnum =
        some (firstIndex (skMatches compare st key) st.data, count) ∧
      (count = st.data.countP (skMatches compare st key) ↔ CountsRight compare st key pnum) := by
  rw [opensslSkFindAll, internalFind, firstIndex, CountsRight]
  by_cases empty : st.data.length = 0
  · have nothing := length_eq_zero_iff.mp empty
    rw [if_pos empty, if_pos nothing, nothing]
    exact ⟨pnum, rfl, Iff.rfl⟩
  rw [if_neg empty, if_neg (fun nothing => empty (length_eq_zero_iff.mpr nothing))]
  cases comp : st.comp with
  | none =>
    rw [matches_pointer comp]
    cases found : st.data.findIdx? (fun x => x == key) with
    | none =>
      have count := findIdx?_no_count found
      refine ⟨_, rfl, ?_⟩
      rw [count]
      exact iff_of_true rfl (by omega)
    | some i =>
      have count := findIdx?_count found
      refine ⟨_, rfl, ?_⟩
      dsimp only
      omega
  | some c =>
    rw [matches_comp comp]
    dsimp only
    rw [if_neg some_]
    cases flag : st.sorted with
    | false =>
      rw [if_pos rfl, isNone_some, findRounds_all]
      cases found : st.data.findIdx? (fun x => compare c key x == 0) with
      | none =>
        have count := findIdx?_no_count found
        refine ⟨_, rfl, iff_of_true (by rw [count]; rfl) (.inr (.inl ?_))⟩
        intro x member
        exact beq_eq_false_iff_ne.mp (findIdx?_eq_none_iff.mp found x member)
      | some i =>
        obtain ⟨inside, match_, _⟩ := findIdx?_eq_some_iff_getElem.mp found
        dsimp only
        rw [Nat.zero_add]
        refine ⟨_, rfl, ?_⟩
        constructor
        · intro right
          rw [getD_some] at right
          exact .inr (.inr (by omega))
        · intro either
          rw [getD_some]
          cases either with
          | inl yes => contradiction
          | inr rest =>
            cases rest with
            | inl never => exact absurd (beq_iff_eq.mp match_) (never _ (getElem_mem inside))
            | inr zero => omega
    | true =>
      simp only [isSome_some, Bool.true_eq_false, if_false, if_true]
      rw [bsearch_first (preorders c) (sorted c comp flag) (fit (by simp [comp]) flag)]
      cases found : st.data.findIdx? (fun x => compare c key x == 0) with
      | none =>
        have count := findIdx?_no_count found
        exact ⟨_, rfl, iff_of_true (by rw [count]; rfl) (.inl trivial)⟩
      | some i =>
        have count := count_behind (preorders c) (sorted c comp flag) found
        exact ⟨_, rfl, iff_of_true (congrArg Nat.cast count) (.inl trivial)⟩

/-- In every state a stack whose flag says so is in order, the searches give the first match unless
    an offset overflows, and the number of matches is right exactly where what *pnum was before
    does no harm. -/
theorem stack_search (preorders : ∀ c, Preorders (compare c)) (sorts : Sorts compare qsort)
    (c : Option Cmp) (ops : List (SkOp Ptr Cmp)) :
    ∀ st ∈ visited (skStep null compare qsort) (opensslSkNew c) ops,
      SortedOk compare st ∧ (OffsetsFit st → ∀ key, key ≠ null →
        opensslSkFind null compare st key = some (firstIndex (skMatches compare st key) st.data) ∧
        ∀ pnum, ∃ count, opensslSkFindAll null compare st key pnum =
            some (firstIndex (skMatches compare st key) st.data, count) ∧
          (count = st.data.countP (skMatches compare st key) ↔
            CountsRight compare st key pnum)) := by
  intro st reached
  have start : SortedOk compare (opensslSkNew c : OpensslStack Ptr Cmp) := by
    intro c' _ _
    exact List.Pairwise.nil
  have sorted : SortedOk compare st :=
    visited_always (step_sorted preorders sorts) start ops st reached
  refine ⟨sorted, ?_⟩
  intro fit key some_
  exact ⟨find_first preorders sorted fit some_, find_all_counts preorders sorted fit some_⟩

def natCompare (_ : Unit) (x y : Nat) : Int := x - y

def natSort (_ : Unit) (xs : List Nat) : List Nat := xs.insertionSort (· ≤ ·)

theorem natCompare_preorders (c : Unit) : Preorders (natCompare c) := by
  constructor
  · intro x y
    rw [natCompare, natCompare]
    omega
  · intro x y z
    rw [natCompare, natCompare, natCompare]
    omega

theorem natSort_sorts : Sorts natCompare natSort := by
  intro c xs
  refine ⟨perm_insertionSort _ xs, ?_⟩
  apply (pairwise_insertionSort (· ≤ ·) xs).imp
  intro x y le
  rw [natCompare]
  omega

def unsortedStack : OpensslStack Nat Unit :=
  run (skStep 0 natCompare natSort) (opensslSkNew (some ())) [.push true 3, .push true 1]

theorem stack_search_sample :
    SortedOk natCompare unsortedStack ∧ opensslSkFind 0 natCompare unsortedStack 1 = some 1 := by
  have reached : unsortedStack ∈ visited (skStep 0 natCompare natSort) (opensslSkNew (some ()))
      [.push true 3, .push true 1] := run_mem_visited _ _ _
  have search := stack_search natCompare_preorders natSort_sorts (some ()) _ unsortedStack reached
  have fit : OffsetsFit unsortedStack := fun _ _ => by decide
  exact ⟨search.1, (search.2 fit 1 (by decide)).1.trans (by decide)⟩

/-- One element compares equal, and *pnum was 7: it is 8 then. -/
theorem find_all_adds :
    unsortedStack ∈ visited (skStep 0 natCompare natSort) (opensslSkNew (some ()))
        [.push true 3, .push true 1] ∧
      unsortedStack.data.countP (skMatches natCompare unsortedStack 1) = 1 ∧
      opensslSkFindAll 0 natCompare unsortedStack 1 7 = some (1, 8) := by
  refine ⟨run_mem_visited _ _ _, by decide, by decide⟩

end Ossl
