import Mathlib.Data.Set.Card
import Mathlib.Data.List.FinRange
import OpenSSL.Lib.BigEndian

/- Sparse arrays (crypto/sparse_array.c): trees of blocks of 16 pointers, higher as larger
   indices arrive. -/
namespace Ossl
open UInt64 List Function BigEndian Nat
universe u
variable {α : Type u}

def saBlockBits : Nat := 4
def saBlockMax : Nat := 1 <<< saBlockBits
def saBlockMask : Nat := saBlockMax - 1
def saBlockMaxLevels : Nat := (64 + saBlockBits - 1) / saBlockBits

/- What a void pointer can point to: a stored value or the pointers of a block. -/
inductive SaPtr (α : Type u) where
  | null
  | val (v : α)
  | block (p : Fin saBlockMax → SaPtr α)

namespace SaPtr

def isNull : SaPtr α → Bool
  | null => true
  | _ => false

def ofValue : Option α → SaPtr α
  | none => null
  | some v => val v

def get (p : SaPtr α) (i : Fin saBlockMax) : SaPtr α :=
  match p with
  | block p => p i
  | _ => null

def put (p : SaPtr α) (i : Fin saBlockMax) (q : SaPtr α) : SaPtr α :=
  match p with
  | block p => block (update p i q)
  | p => p

end SaPtr

def allocNode : SaPtr α := .block fun _ => .null

structure SparseArray (α : Type u) where
  levels : Nat
  top : Nat
  nelem : Nat
  nodes : SaPtr α

def osslSaNew : SparseArray α := ⟨0, 0, 0, .null⟩

def osslSaNum (sa : SparseArray α) : Nat := sa.nelem

def saIndex (n level : Nat) : Fin saBlockMax :=
  ⟨(n >>> (saBlockBits * level)) &&& saBlockMask, Nat.lt_of_le_of_lt Nat.and_le_right (by decide)⟩

def saGetRounds (n : Nat) : Nat → SaPtr α → SaPtr α
  | 0, p => p
  | level + 1, p => if p.isNull then p else saGetRounds n level (p.get (saIndex n (level + 1)))

def osslSaGet (sa : SparseArray α) (n : Nat) : SaPtr α :=
  if sa.nelem = 0 then .null
  else if n ≤ sa.top then
    let p := saGetRounds n (sa.levels - 1) sa.nodes
    if p.isNull then .null else p.get (saIndex n 0)
  else .null

def saLevelRounds : Nat → Nat → Nat → Nat
  | 0, level, _ => level
  | rounds + 1, level, n =>
    if n >>> saBlockBits = 0 then level else saLevelRounds rounds (level + 1) (n >>> saBlockBits)

def saLevel (posn : Nat) : Nat := saLevelRounds (saBlockMaxLevels - 1) 1 posn

def saGrow : Nat → SparseArray α → SparseArray α
  | 0, sa => sa
  | rounds + 1, sa =>
    saGrow rounds { sa with
      levels := sa.levels + 1
      nodes := allocNode.put (saIndex 0 0) sa.nodes }

def saStore (posn : Nat) (val : SaPtr α) : Nat → SaPtr α → SaPtr α × SaPtr α
  | 0, p => (p.put (saIndex posn 0) val, p.get (saIndex posn 0))
  | level + 1, p =>
    let i := saIndex posn (level + 1)
    let child := if (p.get i).isNull then allocNode else p.get i
    let stored := saStore posn val level child
    (p.put i stored.1, stored.2)

def osslSaSet (sa : SparseArray α) (posn : Nat) (val : SaPtr α) : SparseArray α :=
  let sa := saGrow (saLevel posn - sa.levels) sa
  let stored := saStore posn val (sa.levels - 1) sa.nodes
  { sa with
    top := if sa.top < posn then posn else sa.top
    nelem :=
      if val.isNull && !stored.2.isNull then sa.nelem - 1
      else if !val.isNull && stored.2.isNull then sa.nelem + 1
      else sa.nelem
    nodes := stored.1 }

/- The index so far, and i[l] with nodes[l] for the levels from l down to the first. -/
structure SaWalk (α : Type u) where
  idx : Nat
  frames : List (Nat × SaPtr α)

def saDoallRound (levels : Nat) (walk : SaWalk α) : Option (SaWalk α × List (Nat × SaPtr α)) :=
  match walk.frames with
  | [] => none
  | (n, p) :: rest =>
    if inside : n < saBlockMax then
      let frames := (n + 1, p) :: rest
      let q := p.get ⟨n, inside⟩
      if q.isNull then some ({ walk with frames }, [])
      else
        -- idx & ~SA_BLOCK_MASK
        let idx := ((walk.idx >>> saBlockBits) <<< saBlockBits) ||| n
        if rest.length + 1 < levels then
          some (⟨(idx <<< saBlockBits) % 2 ^ 64, (0, q) :: frames⟩, [])
        else some (⟨idx, frames⟩, [(idx, q)])
    else some (⟨walk.idx >>> saBlockBits, rest⟩, [])

def saDoallRounds (levels : Nat) : Nat → SaWalk α → Option (List (Nat × SaPtr α))
  | 0, _ => none
  | fuel + 1, walk =>
    match saDoallRound levels walk with
    | none => some []
    | some (walk, calls) => (saDoallRounds levels fuel walk).map (calls ++ ·)

def osslSaDoall (fuel : Nat) (sa : SparseArray α) : Option (List (Nat × SaPtr α)) :=
  saDoallRounds sa.levels fuel ⟨0, [(0, sa.nodes)]⟩

/- What is at an index of a tree with some levels. -/

def Shaped : Nat → SaPtr α → Prop
  | 0, p => p = .null ∨ ∃ v, p = .val v
  | h + 1, p => p = .null ∨ ∃ c, p = .block c ∧ ∀ i, Shaped h (c i)

def saAt : Nat → SaPtr α → Nat → SaPtr α
  | 0, p, _ => p
  | h + 1, p, n => saAt h (p.get (saIndex n h)) n

@[simp] theorem get_null (i : Fin saBlockMax) : (SaPtr.null : SaPtr α).get i = .null := rfl

@[simp] theorem get_alloc (i : Fin saBlockMax) : (allocNode : SaPtr α).get i = .null := rfl

theorem saAt_succ (h : Nat) (p : SaPtr α) (n : Nat) :
    saAt (h + 1) p n = saAt h (p.get (saIndex n h)) n := rfl

@[simp] theorem saAt_null (h n : Nat) : saAt h (.null : SaPtr α) n = .null := by
  induction h with
  | zero => rfl
  | succ h ih => exact ih

theorem isNull_iff (p : SaPtr α) : p.isNull = true ↔ p = .null := by
  cases p <;> simp [SaPtr.isNull]

theorem shaped_null (h : Nat) : Shaped h (.null : SaPtr α) := by
  cases h with
  | zero => exact .inl rfl
  | succ h => exact .inl rfl

variable {h levels n : Nat} {p : SaPtr α} {content : Nat → Option α} {sa : SparseArray α}

theorem shaped_get (shaped : Shaped (h + 1) p) (i : Fin saBlockMax) : Shaped h (p.get i) := by
  rcases shaped with rfl | ⟨c, rfl, children⟩
  · exact shaped_null h
  · exact children i

theorem shaped_block (shaped : Shaped (h + 1) p) (some : p ≠ .null) : ∃ c, p = .block c := by
  rcases shaped with rfl | ⟨c, rfl, _⟩
  · exact absurd rfl some
  · exact ⟨c, rfl⟩

theorem shaped_alloc (h : Nat) : Shaped (h + 1) (allocNode : SaPtr α) :=
  .inr ⟨_, rfl, fun _ => shaped_null h⟩

theorem shaped_put {q : SaPtr α} (shaped : Shaped (h + 1) p) (child : Shaped h q)
    (i : Fin saBlockMax) : Shaped (h + 1) (p.put i q) := by
  rcases shaped with rfl | ⟨c, rfl, children⟩
  · exact .inl rfl
  · refine .inr ⟨_, rfl, ?_⟩
    intro j
    by_cases here : j = i
    · rw [here, update_self]
      exact child
    · rw [update_of_ne here]
      exact children j

theorem get_put (shaped : Shaped (h + 1) p) (some : p ≠ .null) (i j : Fin saBlockMax)
    (q : SaPtr α) : (p.put i q).get j = if j = i then q else p.get j := by
  obtain ⟨c, rfl⟩ := shaped_block shaped some
  by_cases here : j = i
  · rw [if_pos here, here]
    exact update_self ..
  · rw [if_neg here]
    exact update_of_ne here ..

theorem put_nonnull (some : p ≠ .null) (i : Fin saBlockMax) (q : SaPtr α) : p.put i q ≠ .null := by
  cases p with
  | null => exact absurd rfl some
  | val v => exact some
  | block c => exact fun is => nomatch is

theorem saIndex_val (n level : Nat) : (saIndex n level).val = n / 16 ^ level % 16 := by
  rw [saIndex]
  show (n >>> (4 * level)) &&& (2 ^ 4 - 1) = _
  rw [Nat.and_two_pow_sub_one_eq_mod, Nat.shiftRight_eq_div_pow, Nat.pow_mul]

/-- The digits of an index from a level down are those of another one when the remainders
    are the same. -/
theorem saIndex_same (n m h : Nat) :
    n % 16 ^ (h + 1) = m % 16 ^ (h + 1) ↔ saIndex n h = saIndex m h ∧ n % 16 ^ h = m % 16 ^ h := by
  have pos : 0 < 16 ^ h := Nat.pow_pos (by decide)
  rw [← Fin.val_inj, saIndex_val, saIndex_val, pow_succ, mod_mul, mod_mul]
  constructor
  · intro same
    have low : n % 16 ^ h = m % 16 ^ h := by
      have := congrArg (· % 16 ^ h) same
      simpa [add_mul_mod_self_left] using this
    rw [low, add_left_cancel_iff] at same
    exact ⟨Nat.eq_of_mul_eq_mul_left pos same, low⟩
  · intro both
    rw [both.1, both.2]

theorem saAt_same {m : Nat} (p : SaPtr α) (same : n % 16 ^ h = m % 16 ^ h) :
    saAt h p n = saAt h p m := by
  induction h generalizing p with
  | zero => rfl
  | succ h ih =>
    obtain ⟨digit, low⟩ := (saIndex_same n m h).mp same
    rw [saAt_succ, saAt_succ, digit]
    exact ih _ low

theorem saGet_at (n level : Nat) (p : SaPtr α) :
    (saGetRounds n level p).get (saIndex n 0) = saAt (level + 1) p n := by
  induction level generalizing p with
  | zero => rfl
  | succ level ih =>
    rw [saGetRounds]
    by_cases null : p.isNull
    · rw [if_pos null, (isNull_iff p).mp null, saAt_null]
      rfl
    · rw [if_neg null]
      exact ih _

/-- A store changes what is at its index, and nothing else. -/
theorem saStore_spec (posn level : Nat) {val : SaPtr α} (shaped : Shaped (level + 1) p)
    (some : p ≠ .null) (leaf : Shaped 0 val) :
    (saStore posn val level p).2 = saAt (level + 1) p posn ∧
      Shaped (level + 1) (saStore posn val level p).1 ∧ (saStore posn val level p).1 ≠ .null ∧
      ∀ n, saAt (level + 1) (saStore posn val level p).1 n =
        if n % 16 ^ (level + 1) = posn % 16 ^ (level + 1) then val else saAt (level + 1) p n := by
  induction level generalizing p with
  | zero =>
    rw [saStore]
    refine ⟨rfl, shaped_put shaped leaf _, put_nonnull some _ _, ?_⟩
    intro n
    have digits := saIndex_same n posn 0
    rw [pow_zero, mod_one, mod_one, eq_self_iff_true, and_true] at digits
    rw [saAt, saAt, get_put shaped some]
    by_cases same : saIndex n 0 = saIndex posn 0
    · rw [if_pos same, if_pos (digits.mpr same)]
    · rw [if_neg same, if_neg (mt digits.mp same)]
      rfl
  | succ level ih =>
    rw [saStore]
    generalize chosen :
      (if (p.get (saIndex posn (level + 1))).isNull then allocNode
        else p.get (saIndex posn (level + 1))) = child
    have below : Shaped (level + 1) child ∧ child ≠ .null ∧
        ∀ n, saAt (level + 1) child n = saAt (level + 1) (p.get (saIndex posn (level + 1))) n := by
      by_cases null : (p.get (saIndex posn (level + 1))).isNull
      · rw [if_pos null] at chosen
        rw [← chosen, (isNull_iff _).mp null]
        exact ⟨shaped_alloc level, (fun is => nomatch is), fun _ => rfl⟩
      · rw [if_neg null] at chosen
        rw [← chosen]
        exact ⟨shaped_get shaped _, fun is => null ((isNull_iff _).mpr is), fun _ => rfl⟩
    obtain ⟨inner, nonnull, same⟩ := below
    obtain ⟨old, made, _, content⟩ := ih inner nonnull
    refine ⟨?_, shaped_put shaped made _, put_nonnull some _ _, ?_⟩
    · rw [old, same]
      rfl
    · intro n
      have digits := saIndex_same n posn (level + 1)
      rw [saAt_succ (level + 1), get_put shaped some, saAt_succ (level + 1) p]
      by_cases digit : saIndex n (level + 1) = saIndex posn (level + 1)
      · rw [if_pos digit, content, same, digit]
        by_cases low : n % 16 ^ (level + 1) = posn % 16 ^ (level + 1)
        · rw [if_pos low, if_pos (digits.mpr ⟨digit, low⟩)]
        · rw [if_neg low, if_neg (fun all => low (digits.mp all).2)]
      · rw [if_neg digit, if_neg (fun all => digit (digits.mp all).1)]

/- The tree with more levels has the same at its indices. -/

theorem saGrow_top (rounds : Nat) (sa : SparseArray α) :
    (saGrow rounds sa).top = sa.top ∧ (saGrow rounds sa).nelem = sa.nelem ∧
      (saGrow rounds sa).levels = sa.levels + rounds := by
  induction rounds generalizing sa with
  | zero => exact ⟨rfl, rfl, rfl⟩
  | succ rounds ih =>
    rw [saGrow]
    obtain ⟨top, nelem, levels⟩ := ih { sa with
      levels := sa.levels + 1
      nodes := allocNode.put (saIndex 0 0) sa.nodes }
    refine ⟨top, nelem, ?_⟩
    rw [levels]
    dsimp only
    omega

structure SaTree (levels : Nat) (nodes : SaPtr α) (content : Nat → Option α) : Prop where
  shaped : Shaped levels nodes
  none : levels = 0 → nodes = .null
  some : 0 < levels → nodes ≠ .null
  inside : ∀ n, content n ≠ .none → n < 16 ^ levels
  value : ∀ n, n < 16 ^ levels → saAt levels nodes n = .ofValue (content n)

variable {c nodes : SaPtr α} {posn : Nat}

theorem saTree_put (tree : SaTree levels nodes content) :
    SaTree (levels + 1) (allocNode.put (saIndex 0 0) nodes) content where
  shaped := shaped_put (shaped_alloc levels) tree.shaped _
  none := by omega
  some := by
    intro _
    apply put_nonnull
    exact fun is => nomatch is
  inside := by
    intro n held
    have := tree.inside n held
    have pos : 0 < 16 ^ levels := Nat.pow_pos (by decide)
    rw [pow_succ]
    omega
  value := by
    intro n below
    have alloc : (allocNode : SaPtr α) ≠ .null := fun is => nomatch is
    have pos : 0 < 16 ^ levels := Nat.pow_pos (by decide)
    rw [pow_succ] at below
    have digit : n / 16 ^ levels < 16 := (div_lt_iff_lt_mul pos).mpr (by omega)
    have same : saIndex n levels = saIndex 0 0 ↔ n < 16 ^ levels := by
      rw [← Fin.val_inj, saIndex_val, saIndex_val, Nat.mod_eq_of_lt digit, Nat.zero_div,
        Nat.zero_mod, Nat.div_eq_zero_iff]
      omega
    rw [saAt_succ, get_put (shaped_alloc levels) alloc]
    by_cases low : n < 16 ^ levels
    · rw [if_pos (same.mpr low)]
      exact tree.value n low
    · rw [if_neg (mt same.mp low), get_alloc, saAt_null]
      have absent : content n = .none := by
        by_contra held
        exact low (tree.inside n held)
      rw [absent]
      rfl

theorem saTree_grow (rounds : Nat) (tree : SaTree sa.levels sa.nodes content) :
    SaTree (saGrow rounds sa).levels (saGrow rounds sa).nodes content := by
  induction rounds generalizing sa with
  | zero => exact tree
  | succ rounds ih =>
    rw [saGrow]
    exact ih (saTree_put tree)

theorem saLevelRounds_room (rounds level n : Nat) (bound : n < 16 ^ (rounds + 1)) :
    ∃ more ≤ rounds, saLevelRounds rounds level n = level + more ∧ n < 16 ^ (more + 1) := by
  induction rounds generalizing level n with
  | zero => exact ⟨0, le_refl _, rfl, bound⟩
  | succ rounds ih =>
    rw [saLevelRounds, shiftRight_eq_div_pow, show 2 ^ saBlockBits = 16 from rfl]
    by_cases last : n / 16 = 0
    · rw [if_pos last]
      refine ⟨0, zero_le _, rfl, ?_⟩
      omega
    · rw [if_neg last]
      obtain ⟨more, fewer, is, room⟩ := ih (level + 1) (n / 16) (by omega)
      refine ⟨more + 1, by omega, by omega, ?_⟩
      rw [pow_succ]
      omega

theorem saLevel_room (bound : posn < 2 ^ 64) :
    0 < saLevel posn ∧ saLevel posn ≤ saBlockMaxLevels ∧ posn < 16 ^ saLevel posn := by
  obtain ⟨more, fewer, is, room⟩ := saLevelRounds_room (saBlockMaxLevels - 1) 1 posn
    (lt_of_lt_of_le bound (by decide))
  have levels : saBlockMaxLevels = 16 := rfl
  rw [saLevel, is, add_comm 1 more]
  exact ⟨by omega, by omega, room⟩

/- A sparse array is a map from indices to values, with its number of values. -/
structure SaHolds (sa : SparseArray α) (content : Nat → Option α) : Prop where
  tree : SaTree sa.levels sa.nodes content
  levels : sa.levels ≤ saBlockMaxLevels
  room : sa.top < 16 ^ sa.levels
  top : ∀ n, content n ≠ none → n ≤ sa.top
  count : sa.nelem = {n | content n ≠ none}.ncard

theorem saTree_finite (tree : SaTree levels nodes content) : {n | content n ≠ none}.Finite :=
  (Set.finite_lt_nat (16 ^ levels)).subset tree.inside

theorem ofValue_null (v : Option α) : (SaPtr.ofValue v).isNull = v.isNone := by
  cases v <;> rfl

theorem osslSaNew_holds : SaHolds (osslSaNew : SparseArray α) fun _ => none where
  tree :=
    { shaped := .inl rfl
      none := fun _ => rfl
      some := fun below => absurd below (lt_irrefl 0)
      inside := fun _ held => absurd rfl held
      value := fun _ _ => rfl }
  levels := zero_le _
  room := Nat.zero_lt_one
  top := fun _ held => absurd rfl held
  count := by simp [osslSaNew]

/-- The number of values after one of them has changed. -/
theorem count_update (finite : {n | content n ≠ none}.Finite) (posn : Nat) (v : Option α) :
    {n | update content posn v n ≠ none}.ncard =
      if v.isNone && !(content posn).isNone then {n | content n ≠ none}.ncard - 1
      else if !v.isNone && (content posn).isNone then {n | content n ≠ none}.ncard + 1
      else {n | content n ≠ none}.ncard := by
  cases v with
  | none =>
    have removed : {n | update content posn none n ≠ none} =
        {n | content n ≠ none} \ {posn} := by
      ext n
      by_cases is : n = posn
      · simp [is]
      · simp [is]
    rw [removed]
    cases held : content posn with
    | none => simp [held]
    | some old =>
      rw [Set.ncard_sdiff_singleton_of_mem (by simp [held])]
      simp
  | some value =>
    have added : {n | update content posn (some value) n ≠ none} =
        insert posn {n | content n ≠ none} := by
      ext n
      by_cases is : n = posn
      · simp [is]
      · simp [is]
    rw [added]
    cases held : content posn with
    | none =>
      rw [Set.ncard_insert_of_notMem (by simp [held]) finite]
      simp
    | some old =>
      rw [Set.insert_eq_of_mem (by simp [held])]
      simp

/-- A call of ossl_sa_set changes the value at its index. -/
theorem osslSaSet_holds (holds : SaHolds sa content) (bound : posn < 2 ^ 64) (v : Option α) :
    SaHolds (osslSaSet sa posn (.ofValue v)) (update content posn v) := by
  obtain ⟨pos, most, room⟩ := saLevel_room bound
  have grown := saTree_grow (saLevel posn - sa.levels) holds.tree
  obtain ⟨top, nelem, levels⟩ := saGrow_top (saLevel posn - sa.levels) sa
  have before := holds.levels
  unfold osslSaSet
  dsimp only
  generalize saGrow (saLevel posn - sa.levels) sa = wide at grown top nelem levels ⊢
  obtain ⟨level, is⟩ : ∃ level, wide.levels = level + 1 := ⟨wide.levels - 1, by omega⟩
  have inside : posn < 16 ^ (level + 1) :=
    lt_of_lt_of_le room (Nat.pow_le_pow_right (by decide) (by omega))
  have leaf : Shaped 0 (SaPtr.ofValue v) := by
    cases v with
    | none => exact .inl rfl
    | some value => exact .inr ⟨value, rfl⟩
  rw [is] at grown ⊢
  rw [Nat.add_sub_cancel]
  obtain ⟨old, shaped, nonnull, stored⟩ :=
    saStore_spec posn level grown.shaped (grown.some (succ_pos _)) leaf
  rw [grown.value posn inside] at old
  constructor
  · constructor
    · exact shaped
    · intro never
      simp at never
    · intro _
      exact nonnull
    · intro n held
      by_cases here : n = posn
      · rw [here]
        exact inside
      · rw [update_of_ne here] at held
        exact grown.inside n held
    · intro n below
      rw [stored, mod_eq_of_lt below, mod_eq_of_lt inside]
      by_cases here : n = posn
      · rw [if_pos here, here, update_self]
      · rw [if_neg here, update_of_ne here]
        exact grown.value n below
  · dsimp only
    omega
  · have wider : 16 ^ sa.levels ≤ 16 ^ (level + 1) := Nat.pow_le_pow_right (by decide) (by omega)
    have before := holds.room
    dsimp only
    rw [top]
    split <;> omega
  · intro n held
    dsimp only
    rw [top]
    by_cases here : n = posn
    · rw [here]
      split <;> omega
    · rw [update_of_ne here] at held
      have := holds.top n held
      split <;> omega
  · rw [count_update (saTree_finite holds.tree), old, ofValue_null, ofValue_null, nelem,
      holds.count]

theorem osslSaGet_holds (holds : SaHolds sa content) (n : Nat) :
    osslSaGet sa n = .ofValue (content n) := by
  have absent : content n = none → SaPtr.null = SaPtr.ofValue (content n) := by
    intro is
    rw [is]
    rfl
  unfold osslSaGet
  by_cases empty : sa.nelem = 0
  · rw [if_pos empty]
    apply absent
    by_contra held
    have counted := holds.count
    rw [empty, eq_comm, Set.ncard_eq_zero (saTree_finite holds.tree)] at counted
    exact Set.notMem_empty n (counted ▸ held)
  · rw [if_neg empty]
    by_cases below : n ≤ sa.top
    · rw [if_pos below]
      have got := saGet_at n (sa.levels - 1) sa.nodes
      have null : ∀ p : SaPtr α, (if p.isNull then .null else p.get (saIndex n 0)) =
          p.get (saIndex n 0) := by
        intro p
        by_cases is : p.isNull
        · rw [if_pos is, (isNull_iff p).mp is]
          rfl
        · rw [if_neg is]
      rw [null, got]
      by_cases levels : sa.levels = 0
      · rw [holds.tree.none levels, saAt_null]
        apply absent
        by_contra held
        have room := holds.tree.inside n held
        have value := holds.tree.value n room
        rw [holds.tree.none levels, saAt_null] at value
        cases stored : content n with
        | none => exact held stored
        | some v =>
          rw [stored] at value
          exact nomatch value
      · rw [show sa.levels - 1 + 1 = sa.levels by omega]
        exact holds.tree.value n (lt_of_le_of_lt below holds.room)
    · rw [if_neg below]
      apply absent
      by_contra held
      exact below (holds.top n held)

def saEntries : Nat → Nat → SaPtr α → List (Nat × SaPtr α)
  | 0, base, p => if p.isNull then [] else [(base, p)]
  | h + 1, base, p =>
    (finRange saBlockMax).flatMap fun i : Fin saBlockMax =>
      saEntries h (base * 16 + i.val) (p.get i)

@[simp] theorem saEntries_null (h base : Nat) : saEntries h base (.null : SaPtr α) = [] := by
  induction h generalizing base with
  | zero => rfl
  | succ h ih => simp [saEntries, ih]

theorem mem_saEntries (h base m : Nat) (p q : SaPtr α) :
    (m, q) ∈ saEntries h base p ↔ q ≠ .null ∧ ∃ r < 16 ^ h, m = base * 16 ^ h + r ∧ saAt h p r = q := by
  induction h generalizing base p with
  | zero =>
    rw [saEntries]
    by_cases null : p.isNull
    · rw [if_pos null, (isNull_iff p).mp null]
      simp only [not_mem_nil, false_iff]
      rintro ⟨some, _, _, _, is⟩
      exact some is.symm
    · rw [if_neg null]
      simp only [mem_singleton, Prod.mk.injEq, Nat.pow_zero, Nat.mul_one, Nat.lt_one_iff]
      constructor
      · rintro ⟨rfl, rfl⟩
        exact ⟨fun is => null ((isNull_iff _).mpr is), 0, rfl, rfl, rfl⟩
      · rintro ⟨_, _, rfl, rfl, is⟩
        exact ⟨rfl, is.symm⟩
  | succ h ih =>
    have pos : 0 < 16 ^ h := Nat.pow_pos (by decide)
    rw [saEntries]
    simp only [mem_flatMap, mem_finRange, true_and, ih]
    constructor
    · rintro ⟨i, some, r, below, rfl, is⟩
      have digit : i.val < 16 := i.isLt
      have index : saIndex (i * 16 ^ h + r) h = i := by
        rw [← Fin.val_inj, saIndex_val, Nat.mul_comm, Nat.mul_add_div pos,
          Nat.div_eq_of_lt below, Nat.add_zero, Nat.mod_eq_of_lt digit]
      have low : (i * 16 ^ h + r) % 16 ^ h = r % 16 ^ h := by
        rw [Nat.mul_comm, Nat.mul_add_mod]
      refine ⟨some, i * 16 ^ h + r, ?_, ?_, ?_⟩
      · rw [Nat.pow_succ]
        have := Nat.mul_le_mul_right (16 ^ h) (by omega : i.val + 1 ≤ 16)
        rw [Nat.succ_mul] at this
        omega
      · rw [Nat.pow_succ, Nat.add_mul, Nat.mul_assoc, Nat.mul_comm (16 ^ h), Nat.add_assoc]
      · rw [saAt_succ, index, saAt_same _ low]
        exact is
    · rintro ⟨some, r, below, rfl, is⟩
      rw [Nat.pow_succ] at below ⊢
      have digit : r / 16 ^ h < 16 := (Nat.div_lt_iff_lt_mul pos).mpr (by omega)
      refine ⟨saIndex r h, some, r % 16 ^ h, Nat.mod_lt _ pos, ?_, ?_⟩
      · rw [saIndex_val, Nat.mod_eq_of_lt digit, Nat.add_mul, Nat.mul_assoc, Nat.mul_comm 16,
          Nat.add_assoc, Nat.div_add_mod']
      · rw [saAt_succ] at is
        rw [saAt_same _ (Nat.mod_mod r (16 ^ h))]
        exact is

theorem saEntries_ascending (h base : Nat) (p : SaPtr α) :
    (saEntries h base p).Pairwise fun a b => a.1 < b.1 := by
  induction h generalizing base p with
  | zero =>
    rw [saEntries]
    split
    · exact List.Pairwise.nil
    · exact pairwise_singleton _ _
  | succ h ih =>
    rw [saEntries, pairwise_flatMap]
    refine ⟨fun i _ => ih _ _, ?_⟩
    apply List.Pairwise.imp _ (pairwise_lt_finRange saBlockMax)
    rintro i j less ⟨m, q⟩ left ⟨n, q'⟩ right
    obtain ⟨_, r, below, rfl, _⟩ := (mem_saEntries ..).mp left
    obtain ⟨_, r', below', rfl, _⟩ := (mem_saEntries ..).mp right
    have := mul_le_mul_right (16 ^ h) (by omega : base * 16 + i.val + 1 ≤ base * 16 + j.val)
    rw [succ_mul] at this
    omega

def Walks (levels : Nat) (walk : SaWalk α) (calls : List (Nat × SaPtr α)) (next : SaWalk α) :
    Prop :=
  ∃ rounds, ∀ fuel, saDoallRounds levels (fuel + rounds) walk =
    (saDoallRounds levels fuel next).map (calls ++ ·)

theorem walks_trans {first second third : SaWalk α} {calls more : List (Nat × SaPtr α)}
    (left : Walks levels first calls second) (right : Walks levels second more third) :
    Walks levels first (calls ++ more) third := by
  obtain ⟨n, left⟩ := left
  obtain ⟨m, right⟩ := right
  refine ⟨m + n, ?_⟩
  intro fuel
  rw [← add_assoc, left, right, Option.map_map]
  congr 1
  funext rest
  exact (append_assoc ..).symm

theorem walks_round {walk next : SaWalk α} {calls : List (Nat × SaPtr α)}
    (round : saDoallRound levels walk = some (next, calls)) : Walks levels walk calls next := by
  refine ⟨1, ?_⟩
  intro fuel
  rw [saDoallRounds, round]

theorem drop_finRange (inside : n < saBlockMax) :
    (finRange saBlockMax).drop n = ⟨n, inside⟩ :: (finRange saBlockMax).drop (n + 1) := by
  rw [drop_eq_getElem_cons (by rw [length_finRange]; exact inside), getElem_finRange]
  rfl

theorem index_above (idx : Nat) (inside : n < saBlockMax) :
    (idx / 16 * 16 + n) / 16 = idx / 16 := by
  have max : saBlockMax = 16 := rfl
  omega

theorem index_below (idx : Nat) (inside : n < saBlockMax) :
    ((idx >>> saBlockBits) <<< saBlockBits) ||| n = idx / 16 * 16 + n := by
  rw [shiftRight_eq_div_pow]
  exact shifted_or inside _

theorem walks_end (last : n + 0 = saBlockMax) (idx : Nat) (c : SaPtr α)
    (rest : List (Nat × SaPtr α)) (calls : Fin saBlockMax → List (Nat × SaPtr α)) :
    Walks levels ⟨idx, (n, c) :: rest⟩ (((finRange saBlockMax).drop n).flatMap calls)
      ⟨idx / 16, rest⟩ := by
  have done : (finRange saBlockMax).drop n = [] :=
    drop_eq_nil_of_le (by rw [length_finRange]; omega)
  rw [done]
  apply walks_round
  rw [saDoallRound]
  dsimp only
  rw [dif_neg (by omega), shiftRight_eq_div_pow]
  rfl

theorem walks_skip {inside : n < saBlockMax} (null : (c.get ⟨n, inside⟩).isNull) (idx : Nat)
    (rest : List (Nat × SaPtr α)) :
    Walks levels ⟨idx, (n, c) :: rest⟩ [] ⟨idx, (n + 1, c) :: rest⟩ := by
  apply walks_round
  rw [saDoallRound]
  dsimp only
  rw [dif_pos inside, if_pos null]

/-- The loop passes through the rest of a block, and through all that is below it. -/
theorem walks_block (most : levels ≤ saBlockMaxLevels) (h : Nat) (shaped : Shaped (h + 1) c)
    (rest : List (Nat × SaPtr α)) (level : rest.length + h + 1 = levels) (left n idx : Nat)
    (which : n + left = saBlockMax) (small : idx / 16 < 16 ^ rest.length) :
    Walks levels ⟨idx, (n, c) :: rest⟩
      (((finRange saBlockMax).drop n).flatMap fun i : Fin saBlockMax =>
        saEntries h (idx / 16 * 16 + i.val) (c.get i)) ⟨idx / 16, rest⟩ := by
  induction h generalizing c rest left n idx with
  | zero =>
    induction left generalizing n idx with
    | zero => exact walks_end which idx c rest _
    | succ left ih =>
      have inside : n < saBlockMax := by omega
      rw [drop_finRange inside, flatMap_cons]
      by_cases null : (c.get ⟨n, inside⟩).isNull
      · rw [(isNull_iff _).mp null, saEntries_null]
        exact walks_trans (walks_skip null idx rest) (ih (n + 1) idx (by omega) small)
      · have same := index_above idx inside
        have next := ih (n + 1) (idx / 16 * 16 + n) (by omega) (by rw [same]; exact small)
        rw [same] at next
        apply walks_trans _ next
        apply walks_round
        rw [saDoallRound, saEntries, if_neg null]
        dsimp only
        rw [dif_pos inside, if_neg null, index_below idx inside, if_neg (by omega)]
  | succ h outer =>
    induction left generalizing n idx with
    | zero => exact walks_end which idx c rest _
    | succ left ih =>
      have inside : n < saBlockMax := by omega
      rw [drop_finRange inside, flatMap_cons]
      by_cases null : (c.get ⟨n, inside⟩).isNull
      · rw [(isNull_iff _).mp null, saEntries_null]
        exact walks_trans (walks_skip null idx rest) (ih (n + 1) idx (by omega) small)
      · have same := index_above idx inside
        have next := ih (n + 1) (idx / 16 * 16 + n) (by omega) (by rw [same]; exact small)
        rw [same] at next
        apply walks_trans _ next
        have room : (idx / 16 * 16 + n) * 16 < 2 ^ 64 := by
          have digits : 16 ^ (rest.length + 2) ≤ 2 ^ 64 :=
            le_trans (Nat.pow_le_pow_right (by decide) (by omega))
              (by decide : 16 ^ saBlockMaxLevels ≤ 2 ^ 64)
          rw [pow_succ, pow_succ] at digits
          omega
        have deeper : (idx / 16 * 16 + n) <<< saBlockBits % 2 ^ 64 = (idx / 16 * 16 + n) * 16 := by
          rw [shiftLeft_eq, show 2 ^ saBlockBits = 16 from rfl, mod_eq_of_lt room]
        have down : Walks levels ⟨idx, (n, c) :: rest⟩ []
            ⟨(idx / 16 * 16 + n) * 16, (0, c.get ⟨n, inside⟩) :: (n + 1, c) :: rest⟩ := by
          apply walks_round
          rw [saDoallRound]
          dsimp only
          rw [dif_pos inside, if_neg null, index_below idx inside, if_pos (by omega), deeper]
        have back : (idx / 16 * 16 + n) * 16 / 16 = idx / 16 * 16 + n :=
          Nat.mul_div_cancel _ (by decide)
        have bounded : idx / 16 * 16 + n < 16 ^ (rest.length + 1) := by
          rw [pow_succ]
          omega
        have through := outer (shaped_get shaped ⟨n, inside⟩) ((n + 1, c) :: rest)
          (by rw [length_cons]; omega) saBlockMax 0 ((idx / 16 * 16 + n) * 16) (by omega)
          (by rw [back, length_cons]; exact bounded)
        rw [back, drop_zero] at through
        have both := walks_trans down through
        rw [nil_append] at both
        exact both

theorem walks_null (left n idx : Nat) (which : n + left = saBlockMax)
    (rest : List (Nat × SaPtr α)) : Walks levels ⟨idx, (n, .null) :: rest⟩ [] ⟨idx / 16, rest⟩ := by
  induction left generalizing n with
  | zero =>
    have calls : Walks levels _ _ _ := walks_end which idx (.null : SaPtr α) rest fun _ => []
    rw [flatMap_eq_nil_iff.mpr fun _ _ => rfl] at calls
    exact calls
  | succ left ih =>
    have inside : n < saBlockMax := by omega
    have null : ((.null : SaPtr α).get ⟨n, inside⟩).isNull := rfl
    exact walks_trans (walks_skip null idx rest) (ih (n + 1) (by omega))

/-- The loop ends, with a call for all that the tree holds. -/
theorem osslSaDoall_holds (holds : SaHolds sa content) :
    ∃ rounds, ∀ fuel, osslSaDoall (fuel + rounds) sa = some (saEntries sa.levels 0 sa.nodes) := by
  have through : Walks sa.levels ⟨0, [(0, sa.nodes)]⟩ (saEntries sa.levels 0 sa.nodes) ⟨0, []⟩ := by
    by_cases levels : sa.levels = 0
    · rw [holds.tree.none levels, saEntries_null]
      exact walks_null saBlockMax 0 0 (zero_add _) []
    · obtain ⟨h, is⟩ : ∃ h, sa.levels = h + 1 := ⟨sa.levels - 1, by omega⟩
      have shaped := holds.tree.shaped
      have most := holds.levels
      rw [is] at shaped most ⊢
      have walks := walks_block most h shaped [] (by rw [length_nil]; omega) saBlockMax 0 0
        (zero_add _) Nat.zero_lt_one
      exact walks
  obtain ⟨rounds, reaches⟩ := through
  refine ⟨rounds + 1, ?_⟩
  intro fuel
  rw [osslSaDoall, add_comm rounds, ← add_assoc, reaches, saDoallRounds]
  simp [saDoallRound]

def saLast (ops : List (UInt64 × Option α)) (n : Nat) : Option α :=
  ops.foldl (fun value op => if op.1.toNat = n then op.2 else value) none

def saRun (ops : List (UInt64 × Option α)) : SparseArray α :=
  ops.foldl (fun sa op => osslSaSet sa op.1.toNat (.ofValue op.2)) osslSaNew

theorem saRun_holds (ops : List (UInt64 × Option α)) : SaHolds (saRun ops) (saLast ops) := by
  induction ops using reverseRecOn with
  | nil => exact osslSaNew_holds
  | append_singleton ops op ih =>
    have set := osslSaSet_holds ih op.1.toNat_lt op.2
    have made : saRun (ops ++ [op]) = osslSaSet (saRun ops) op.1.toNat (.ofValue op.2) := by
      rw [saRun, foldl_append]
      rfl
    have last : saLast (ops ++ [op]) = update (saLast ops) op.1.toNat op.2 := by
      funext n
      rw [saLast, foldl_append, update_apply, eq_comm]
      simp only [foldl_cons, foldl_nil, saLast, eq_comm]
    rw [made, last]
    exact set

/-- After any calls of ossl_sa_set, ossl_sa_get finds what was set last, ossl_sa_num is the number
    of indices with a value, and ossl_sa_doall ends after one call for each of them, ascending. -/
theorem sparse_array_map (ops : List (UInt64 × Option α)) :
    (∀ n : UInt64, osslSaGet (saRun ops) n.toNat = .ofValue (saLast ops n.toNat)) ∧
    osslSaNum (saRun ops) = {n : UInt64 | saLast ops n.toNat ≠ none}.ncard ∧
    ∃ calls : List (Nat × SaPtr α),
      (∃ rounds, ∀ fuel, osslSaDoall (fuel + rounds) (saRun ops) = some calls) ∧
      (calls.Pairwise fun a b => a.1 < b.1) ∧
      ∀ n p, (n, p) ∈ calls ↔ ∃ v, saLast ops n = some v ∧ p = .val v := by
  have holds := saRun_holds ops
  refine ⟨fun n => osslSaGet_holds holds n.toNat, ?_, ?_⟩
  · have below : ∀ n, saLast ops n ≠ none → n < 2 ^ 64 := by
      intro n held
      have room := holds.tree.inside n held
      have levels : 16 ^ (saRun ops).levels ≤ 16 ^ 16 :=
        Nat.pow_le_pow_right (by decide) holds.levels
      exact Nat.lt_of_lt_of_le room levels
    have image : {n | saLast ops n ≠ none} =
        UInt64.toNat '' {n : UInt64 | saLast ops n.toNat ≠ none} := by
      ext n
      constructor
      · intro held
        have is : (ofNat n).toNat = n := toNat_ofNat_of_lt' (below n held)
        exact ⟨ofNat n, (congrArg (fun m => saLast ops m ≠ none) is).mpr held, is⟩
      · rintro ⟨m, held, rfl⟩
        exact held
    rw [osslSaNum, holds.count, image]
    exact Set.ncard_image_of_injective _ fun _ _ => UInt64.toNat_inj.mp
  · refine ⟨_, osslSaDoall_holds holds, saEntries_ascending _ _ _, ?_⟩
    intro n p
    rw [mem_saEntries]
    constructor
    · rintro ⟨some, r, below, rfl, is⟩
      rw [holds.tree.value r below] at is
      rw [Nat.zero_mul, Nat.zero_add]
      cases held : saLast ops r with
      | none =>
        rw [held] at is
        exact absurd is.symm some
      | some v =>
        rw [held] at is
        exact ⟨v, rfl, is.symm⟩
    · rintro ⟨v, held, rfl⟩
      have room := holds.tree.inside n (by rw [held]; exact fun is => nomatch is)
      refine ⟨(fun is => nomatch is), n, room, by rw [Nat.zero_mul, Nat.zero_add], ?_⟩
      rw [holds.tree.value n room, held]
      rfl

end Ossl
