import OpenSSL.MemSecLaws

/- Splitting and merging keep the tree a tiling of the arena with no two free buddies. -/
namespace Ossl
open Option Function Slots Buddy

variable {sh : Sh} {n depth l l' p q x c : Nat} {free : Nat → Bool}

theorem near_split (near : NearBuddies free c) :
    NearBuddies (update (update (update free c false) (2 * c) true)
      (2 * c + 1) true) (2 * c + 1) := by
  intro b some lower upper
  by_cases same : b = c
  · exact .inr (by rw [same])
  · have even : 2 * b ≠ 2 * c ∧ 2 * b ≠ 2 * c + 1 := by omega
    have odd : 2 * b + 1 ≠ 2 * c ∧ 2 * b + 1 ≠ 2 * c + 1 := by omega
    rw [update_of_ne even.2, update_of_ne even.1] at lower
    rw [update_of_ne odd.2, update_of_ne odd.1] at upper
    have left : 2 * b ≠ c := fun equal => by simp [equal] at lower
    have right : 2 * b + 1 ≠ c := fun equal => by simp [equal] at upper
    rw [update_of_ne left] at lower
    rw [update_of_ne right] at upper
    obtain rfl | rfl := near b some lower upper
    · exact absurd rfl left
    · exact absurd rfl right

theorem none_taken (near : NearBuddies free c) : NoBuddies (update free c false) := by
  intro b some lower
  by_contra upper
  have upper : update free c false (2 * b + 1) = true := by simpa using upper
  have left : 2 * b ≠ c := fun equal => by simp [equal] at lower
  have right : 2 * b + 1 ≠ c := fun equal => by simp [equal] at upper
  rw [update_of_ne left] at lower
  rw [update_of_ne right] at upper
  obtain rfl | rfl := near b some lower upper
  · exact left rfl
  · exact right rfl

variable {b c' : Nat}

theorem near_merge {c : Nat} (near : NearBuddies free c)
    (halves : (c = 2 * b ∧ c' = 2 * b + 1) ∨ (c = 2 * b + 1 ∧ c' = 2 * b)) :
    NearBuddies (update (update (update free c false) c' false) b true) b := by
  intro d some lower upper
  by_cases left : 2 * d = b
  · exact .inl left.symm
  by_cases right : 2 * d + 1 = b
  · exact .inr right.symm
  have other : ∀ e, e ≠ b → update (update (update free c false)
      c' false) b true e = true → free e = true ∧ e ≠ c := by
    intro e notB is
    rw [update_of_ne notB] at is
    have notC' : e ≠ c' := fun equal => by simp [equal] at is
    rw [update_of_ne notC'] at is
    have notC : e ≠ c := fun equal => by simp [equal] at is
    exact ⟨by rwa [update_of_ne notC] at is, notC⟩
  obtain ⟨isLower, notLower⟩ := other _ left lower
  obtain ⟨isUpper, notUpper⟩ := other _ right upper
  obtain rfl | rfl := near d some isLower isUpper
  · exact absurd rfl notLower
  · exact absurd rfl notUpper

theorem child_clear (tiled : Tiled n depth sh.bittable) (level : l < depth) (inside : x < 2 ^ n)
    (is : sh.bittable (node n l x) = true) : sh.bittable (node n (l + 1) x) = false := by
  by_contra set
  have := tiled.once inside (show l ≤ depth by omega) level is (by simpa using set)
  omega

theorem parent_clear (tiled : Tiled n depth sh.bittable) (level : l < depth) (inside : x < 2 ^ n)
    (is : sh.bittable (node n (l + 1) x) = true) : sh.bittable (node n l x) = false := by
  by_contra set
  have := tiled.once inside (show l ≤ depth by omega) level (by simpa using set) is
  omega

theorem unmarked_off (kept : HeapKept sh n depth) (clear : sh.bittable b = false) :
    sh.bitmalloc b = false := by
  by_contra malloced
  exact Bool.false_ne_true (clear.symm.trans (kept.sub (by simpa using malloced)))

theorem splitEntry_keeps (kept : HeapKept sh n depth) (tiled : Tiled n depth sh.bittable)
    (level : l < depth) (head : sh.freelist l = some p)
    (near : NearBuddies (freeBit sh) (node n l p)) :
    ∃ sh', splitEntry sh l = some sh' ∧ HeapKept sh' n depth ∧ Tiled n depth sh'.bittable ∧
      sh'.bitmalloc = sh.bitmalloc ∧ ∃ p', sh'.freelist (l + 1) = some p' ∧
      NearBuddies (freeBit sh') (node n (l + 1) p') := by
  obtain ⟨block, is⟩ := head_free kept head
  obtain ⟨set, off⟩ := freeBit_iff.mp is
  have deep := kept.shaped.deep
  have fits : l < n := by omega
  have positive : 0 < node n l p := (tiled.range set).1
  have lower := node_lower fits block.2.2
  have upper := node_upper fits block.2.2
  have blockP := block_lower deep block level
  have blockU := block_upper deep block level
  have inU : node n l (p + 2 ^ (n - (l + 1))) = node n l p := by
    have := node_half fits (p + 2 ^ (n - (l + 1)))
    omega
  have clearP := lower ▸ child_clear tiled level block.2.1 set
  have clearU := upper ▸ child_clear tiled level blockU.2.1 (inU ▸ set)
  obtain ⟨sh₁, taken, kept₁, table₁, same₁, gone⟩ :=
    takeFree_keeps kept block (freeBit_iff.mp is).2 block is
  obtain ⟨sh₂, added, kept₂, table₂, same₂, -⟩ := addFree_keeps kept₁ blockP (by
    intro l' level'
    rw [table₁]
    exact bare_cleared tiled block.1 block.2.1 set level')
  rw [lower] at table₂
  obtain ⟨sh₃, added', kept₃, table₃, same₃, front⟩ := addFree_keeps kept₂ blockU (by
    intro l' level'
    have notLower : node n l' (p + 2 ^ (n - (l + 1))) ≠ 2 * node n l p := fun equal => by
      obtain ⟨rfl, -⟩ := path_child deep level block.2.1 blockU.2.1 level' (.inl equal)
      omega
    have cleared := bare_cleared tiled block.1 blockU.2.1 (inU ▸ set) level'
    rw [table₂, update_of_ne notLower, table₁]
    rwa [inU] at cleared)
  rw [upper] at table₃
  have offP := unmarked_off kept clearP
  have offU := unmarked_off kept clearU
  have tables : sh₃.bittable = update (update (update sh.bittable
      (node n l p) false) (2 * node n l p) true) (2 * node n l p + 1) true := by
    rw [table₃, table₂, table₁]
  have same : sh₃.bitmalloc = sh.bitmalloc := same₃.trans (same₂.trans same₁)
  have frees : freeBit sh₃ = update (update (update (freeBit sh)
      (node n l p) false) (2 * node n l p) true) (2 * node n l p + 1) true := by
    rw [freeBit_bittable table₃ same₃ (by rw [same₂, same₁, offU]),
      freeBit_bittable table₂ same₂ (by rw [same₁, offP]), freeBit_bittable table₁ same₁ off]
  refine ⟨sh₃, ?_, kept₃, ?_, same, _, front, ?_⟩
  · have cells₂ := shaped_cells kept₂.shaped level
    have cells₃ := shaped_cells kept₃.shaped level
    have buddy := shFindMyBuddy_eq (p := p + 2 ^ (n - (l + 1))) kept₃.shaped blockP
      (by rw [upper, lower, xor_one_upper])
    rw [frees, lower, update_of_ne (by omega), update_self, if_pos rfl] at buddy
    simp [splitEntry, head, taken, opensslAssert, gone.symm, added, cells₂, added', cells₃, buddy]
  · refine tiled_split tiled deep level block.2.1 set ?_ ?_ ?_ ?_
    · rw [tables, update_of_ne (by omega), update_of_ne (by omega), update_self]
    · rw [tables, update_of_ne (by omega), update_self]
    · rw [tables, update_self]
    · intro b notC notLower notUpper
      rw [tables, update_of_ne notUpper, update_of_ne notLower, update_of_ne notC]
  · rw [upper, frees]
    exact near_split near

theorem splitLoop_keeps {steps : Nat} (kept : HeapKept sh n depth)
    (tiled : Tiled n depth sh.bittable) (level : l + steps ≤ depth)
    (head : sh.freelist l = some p) (near : NearBuddies (freeBit sh) (node n l p)) :
    ∃ sh', splitLoop sh steps l = some sh' ∧ HeapKept sh' n depth ∧ Tiled n depth sh'.bittable ∧
      sh'.bitmalloc = sh.bitmalloc ∧ ∃ p', sh'.freelist (l + steps) = some p' ∧
      NearBuddies (freeBit sh') (node n (l + steps) p') := by
  induction steps generalizing sh l p with
  | zero => exact ⟨sh, rfl, kept, tiled, rfl, p, head, near⟩
  | succ steps ih =>
    obtain ⟨sh₁, split, kept₁, tiled₁, same₁, p₁, head₁, near₁⟩ :=
      splitEntry_keeps kept tiled (by omega) head near
    obtain ⟨sh₂, rest, kept₂, tiled₂, same₂, p₂, head₂, near₂⟩ :=
      ih kept₁ tiled₁ (by omega) head₁ near₁
    rw [show l + 1 + steps = l + (steps + 1) by omega] at head₂ near₂
    refine ⟨sh₂, ?_, kept₂, tiled₂, same₂.trans same₁, p₂, head₂, near₂⟩
    simp [splitLoop, split, rest]

theorem block_halves (deep : depth ≤ n) (level : l < depth) (block : Block n depth (l + 1) p) :
    ∃ p₀, Block n depth l p₀ ∧ (p = p₀ ∨ p = p₀ + 2 ^ (n - (l + 1))) := by
  obtain ⟨-, inside, k, rfl⟩ := block
  have halves := cells_halve (show l < n by omega)
  have whole : 2 ^ (n - l) * (k / 2) = 2 ^ (n - (l + 1)) * (2 * (k / 2)) := by
    rw [halves, mul_assoc]
  have start : Block n depth l (2 ^ (n - l) * (k / 2)) := by
    refine ⟨by omega, ?_, dvd_mul_right _ _⟩
    have : 2 ^ (n - (l + 1)) * (2 * (k / 2)) ≤ 2 ^ (n - (l + 1)) * k :=
      Nat.mul_le_mul_left _ (by omega)
    omega
  refine ⟨_, start, ?_⟩
  rw [whole]
  obtain even | odd := Nat.mod_two_eq_zero_or_one k
  · exact .inl (by rw [show 2 * (k / 2) = k by omega])
  · refine .inr ?_
    rw [← Nat.mul_succ, show (2 * (k / 2)).succ = k by omega]

theorem buddy_block (deep : depth ≤ n) (level : l < depth) (block : Block n depth (l + 1) p) :
    ∃ q, Block n depth (l + 1) q ∧ Block n depth l (min p q) ∧
      max p q = min p q + 2 ^ (n - (l + 1)) ∧
      ((node n (l + 1) p = 2 * node n l (min p q) ∧ node n (l + 1) q = 2 * node n l (min p q) + 1) ∨
        (node n (l + 1) p = 2 * node n l (min p q) + 1 ∧
          node n (l + 1) q = 2 * node n l (min p q))) := by
  obtain ⟨p₀, start, rfl | rfl⟩ := block_halves deep level block
  · refine ⟨p + 2 ^ (n - (l + 1)), block_upper deep start level, ?_⟩
    rw [min_eq_left (Nat.le_add_right _ _), max_eq_right (Nat.le_add_right _ _)]
    exact ⟨start, rfl, .inl ⟨node_lower (by omega) start.2.2, node_upper (by omega) start.2.2⟩⟩
  · refine ⟨p₀, block_lower deep start level, ?_⟩
    rw [min_eq_right (Nat.le_add_right _ _), max_eq_left (Nat.le_add_right _ _)]
    exact ⟨start, rfl, .inr ⟨node_upper (by omega) start.2.2, node_lower (by omega) start.2.2⟩⟩

theorem bare_both (tiled : Tiled n depth sh.bittable) (level : l ≤ depth) (inside : x < 2 ^ n)
    (is : sh.bittable (node n l x) = true) (one : node n l x = c ∨ node n l x = c')
    (level' : l' ≤ depth) (path : node n l' x = b) :
    update (update sh.bittable c false) c' false b = false := by
  by_cases second : b = c'
  · simp [second]
  rw [update_of_ne second]
  by_cases first : b = c
  · simp [first]
  rw [update_of_ne first]
  by_contra set
  obtain rfl := tiled.once inside level level' is (by rw [path]; simpa using set)
  obtain mine | mine := one
  · exact first (path.symm.trans mine)
  · exact second (path.symm.trans mine)

theorem mergeWith_keeps (kept : HeapKept sh n depth) (tiled : Tiled n depth sh.bittable)
    (level : l < depth) (block : Block n depth (l + 1) p)
    (is : freeBit sh (node n (l + 1) p) = true)
    (near : NearBuddies (freeBit sh) (node n (l + 1) p))
    (found : shFindMyBuddy sh p (l + 1) = some q) :
    ∃ sh', mergeWith sh p q l = some sh' ∧ HeapKept sh' n depth ∧ Tiled n depth sh'.bittable ∧
      sh'.bitmalloc = sh.bitmalloc ∧ Block n depth l (min p q) ∧
      freeBit sh' (node n l (min p q)) = true ∧
      NearBuddies (freeBit sh') (node n l (min p q)) := by
  have deep := kept.shaped.deep
  obtain ⟨q', block', start, top, halves⟩ := buddy_block deep level block
  have other : node n (l + 1) p ^^^ 1 = node n (l + 1) q' := by
    obtain ⟨left, right⟩ | ⟨left, right⟩ := halves
    · rw [left, right, xor_one_lower]
    · rw [left, right, xor_one_upper]
  have other' : node n (l + 1) q' ^^^ 1 = node n (l + 1) p := by
    rw [← other, Nat.xor_assoc, Nat.xor_self, Nat.xor_zero]
  rw [shFindMyBuddy_eq kept.shaped block' other] at found
  obtain ⟨is', rfl⟩ : freeBit sh (node n (l + 1) q') = true ∧ q' = q := by
    split at found
    · exact ⟨‹_›, some.inj found⟩
    · cases found
  have back := shFindMyBuddy_eq kept.shaped block other'
  rw [if_pos is] at back
  have apart : node n (l + 1) q' ≠ node n (l + 1) p := by omega
  have clear := (freeBit_iff.mp is).2
  obtain ⟨sh₁, taken, kept₁, table₁, same₁, -⟩ := takeFree_keeps kept block clear block is
  have frees₁ := freeBit_bittable table₁ same₁ clear
  obtain ⟨sh₂, taken', kept₂, table₂, same₂, -⟩ := takeFree_keeps kept₁ block
    (same₁ ▸ clear) block' (by rw [frees₁, update_of_ne apart, is'])
  rw [table₁] at table₂
  have same₂ : sh₂.bitmalloc = sh.bitmalloc := same₂.trans same₁
  have frees₂ : freeBit sh₂ = update (update (freeBit sh)
      (node n (l + 1) p) false) (node n (l + 1) q') false := by
    have off := (freeBit_iff.mp is').2
    rw [← frees₁]
    exact freeBit_bittable (by rw [table₂, table₁]) (same₂.trans same₁.symm) (by rw [same₁, off])
  have marks : ∀ x, x = p ∨ x = q' → sh.bittable (node n (l + 1) x) = true := by
    rintro x (rfl | rfl)
    · exact (freeBit_iff.mp is).1
    · exact (freeBit_iff.mp is').1
  have bare : ∀ x, x = p ∨ x = q' → Bare sh₂ n depth x := by
    intro x one l' level'
    have inside : x < 2 ^ n := by
      obtain rfl | rfl := one
      · exact block.2.1
      · exact block'.2.1
    rw [table₂]
    exact bare_both tiled level inside (marks x one) (one.imp (by rintro rfl; rfl)
      (by rintro rfl; rfl)) level' rfl
  have kept₃ := write_keeps (p := max p q') kept₂ (by
    rintro l' ⟨inside, free'⟩
    have clear := bare (max p q') (max_choice p q') l' inside.1
    exact Bool.false_ne_true (clear.symm.trans (freeBit_iff.mp free').1)) zeroedNode
  obtain ⟨sh₄, added, kept₄, table₄, same₄, -⟩ := addFree_keeps kept₃ start
    (bare (min p q') (min_choice p q'))
  have parent : sh.bittable (node n l (min p q')) = false := by
    refine parent_clear tiled level start.2.1 ?_
    exact marks _ (min_choice p q')
  have offParent := unmarked_off kept parent
  have tables : sh₄.bittable = update (update (update sh.bittable
      (node n (l + 1) p) false) (node n (l + 1) q') false) (node n l (min p q')) true := by
    rw [table₄]
    exact congrArg (fun t => update t _ true) table₂
  have frees : freeBit sh₄ = update (update (update (freeBit sh)
      (node n (l + 1) p) false) (node n (l + 1) q') false) (node n l (min p q')) true := by
    rw [← frees₂]
    exact freeBit_bittable table₄ same₄ (by rw [same₂, offParent])
  have positive : 0 < node n l (min p q') :=
    lt_of_lt_of_le (Nat.two_pow_pos l) (node_range (by omega) start.2.1).1
  refine ⟨sh₄, ?_, kept₄, ?_, same₄.trans same₂, start, ?_, ?_⟩
  · simp [mergeWith, back, opensslAssert, taken, taken', added]
  · have lower := marks (min p q') (min_choice p q')
    rw [node_lower (by omega) start.2.2] at lower
    have upper := marks (max p q') (max_choice p q')
    rw [top, node_upper (by omega) start.2.2] at upper
    refine tiled_merge tiled deep level start.2.1 lower upper ?_ ?_ ?_ ?_
    · rw [tables, update_self]
    · rw [tables, update_of_ne (by omega)]
      obtain ⟨left, right⟩ | ⟨left, right⟩ := halves
      · rw [update_of_ne (by omega), left, update_self]
      · rw [right, update_self]
    · rw [tables, update_of_ne (by omega)]
      obtain ⟨left, right⟩ | ⟨left, right⟩ := halves
      · rw [right, update_self]
      · rw [update_of_ne (by omega), left, update_self]
    · intro b notB notLower notUpper
      rw [tables, update_of_ne notB, update_of_ne (by omega), update_of_ne (by omega)]
  · rw [frees, update_self]
  · rw [frees]
    exact near_merge near halves

theorem no_buddy_none {p : Nat} (kept : HeapKept sh n depth) (level : l < depth)
    (block : Block n depth (l + 1) p) (near : NearBuddies (freeBit sh) (node n (l + 1) p))
    (none_ : shFindMyBuddy sh p (l + 1) = none) : NoBuddies (freeBit sh) := by
  obtain ⟨q, block', -, -, halves⟩ := buddy_block kept.shaped.deep level block
  have other : node n (l + 1) p ^^^ 1 = node n (l + 1) q := by
    obtain ⟨left, right⟩ | ⟨left, right⟩ := halves
    · rw [left, right, xor_one_lower]
    · rw [left, right, xor_one_upper]
  rw [shFindMyBuddy_eq kept.shaped block' other] at none_
  have off : freeBit sh (node n (l + 1) q) ≠ true := fun is => by simp [is] at none_
  intro b some lower
  by_contra upper
  obtain mine | mine := near b some lower (by simpa using upper)
  · rw [← other, mine, xor_one_lower] at off
    exact upper (by simpa using off)
  · rw [← other, mine, xor_one_upper] at off
    exact off lower

theorem coalesce_keeps (kept : HeapKept sh n depth) (tiled : Tiled n depth sh.bittable)
    (block : Block n depth l p) (is : freeBit sh (node n l p) = true)
    (near : NearBuddies (freeBit sh) (node n l p)) :
    ∃ sh', coalesce sh p l = some sh' ∧ HeapKept sh' n depth ∧ Tiled n depth sh'.bittable ∧
      sh'.bitmalloc = sh.bitmalloc ∧ NoBuddies (freeBit sh') := by
  induction l generalizing sh p with
  | zero =>
    have top : node n 0 p = 1 := by simp [node, Nat.div_eq_of_lt block.2.1]
    have zero : sh.bittable 0 = false := by
      by_contra set
      exact absurd (tiled.range (by simpa using set)).1 (by omega)
    refine ⟨sh, ?_, kept, tiled, rfl, ?_⟩
    · simp [coalesce, shFindMyBuddy, tableBit_eq kept.shaped (Nat.zero_le _), top, zero]
    · intro b some lower
      by_contra upper
      have := near b some lower (by simpa using upper)
      omega
  | succ l ih =>
    have level : l < depth := block.1
    cases found : shFindMyBuddy sh p (l + 1) with
    | none =>
      exact ⟨sh, by simp [coalesce, found], kept, tiled, rfl,
        no_buddy_none kept level block near found⟩
    | some q =>
      obtain ⟨sh₁, merged, kept₁, tiled₁, same₁, block₁, is₁, near₁⟩ :=
        mergeWith_keeps kept tiled level block is near found
      obtain ⟨sh₂, rest, kept₂, tiled₂, same₂, none₂⟩ := ih kept₁ tiled₁ block₁ is₁ near₁
      exact ⟨sh₂, by simp [coalesce, found, merged, rest], kept₂, tiled₂, same₂.trans same₁, none₂⟩

/- Up from the leaf of a block's first cell, the block's own bit is the first that is set. -/
theorem getlistLoop_finds (deep : depth ≤ n) (tiled : Tiled n depth sh.bittable)
    (block : Block n depth l p) (is : sh.bittable (node n l p) = true) {fuel k : Nat}
    (level : l + k ≤ depth) (enough : k < fuel) :
    getlistLoop sh fuel (node n (l + k) p) (l + k) = some l := by
  induction k generalizing fuel with
  | zero =>
    obtain ⟨rest, rfl⟩ : ∃ rest, fuel = rest + 1 := ⟨fuel - 1, by omega⟩
    simp [getlistLoop, is]
  | succ k ih =>
    obtain ⟨rest, rfl⟩ : ∃ rest, fuel = rest + 1 := ⟨fuel - 1, by omega⟩
    have clear : sh.bittable (node n (l + (k + 1)) p) = false := by
      by_contra set
      have := tiled.once block.2.1 level block.1 (by simpa using set) is
      omega
    have dvd : 2 ^ (n - (l + k)) ∣ p := (pow_dvd_pow 2 (by omega)).trans block.2.2
    have lower : node n (l + (k + 1)) p = 2 * node n (l + k) p :=
      node_lower (show l + k < n by omega) dvd
    have positive : 0 < node n (l + k) p :=
      lt_of_lt_of_le (Nat.two_pow_pos _) (node_range (by omega) block.2.1).1
    have half : node n (l + (k + 1)) p >>> 1 = node n (l + k) p := by
      rw [Nat.shiftRight_one, lower]
      omega
    have even : node n (l + (k + 1)) p &&& 1 = 0 := by
      rw [Nat.and_one_is_mod, lower]
      omega
    have some : node n (l + (k + 1)) p ≠ 0 := by omega
    rw [getlistLoop, if_neg some, if_neg (by simp [clear]), half]
    simp only [opensslAssert, even, decide_true, if_true, bind_eq_bind, bind_some]
    exact ih (by omega) (by omega)

theorem shGetlist_finds (shaped : HeapShaped sh n depth) (tiled : Tiled n depth sh.bittable)
    (block : Block n depth l p) (is : sh.bittable (node n l p) = true) :
    shGetlist sh p = some l := by
  have leaf : (sh.arenaSize + p) / sh.minsize = node n depth p := by
    have split : 2 ^ n = 2 ^ (n - depth) * 2 ^ depth := by
      rw [← pow_add, Nat.sub_add_cancel shaped.deep]
    rw [shaped.arena, shaped.smallest, split, Nat.mul_add_div (Nat.two_pow_pos _)]
    rfl
  obtain ⟨k, rfl⟩ := Nat.exists_eq_add_of_le block.1
  unfold shGetlist
  rw [leaf, shaped.lists, Nat.add_sub_cancel]
  exact getlistLoop_finds shaped.deep tiled block is (le_refl _) (by omega)

theorem near_add (none_ : NoBuddies free) : NearBuddies (update free c true) c := by
  intro b some lower upper
  by_cases left : 2 * b = c
  · exact .inl left.symm
  by_cases right : 2 * b + 1 = c
  · exact .inr right.symm
  rw [update_of_ne left] at lower
  rw [update_of_ne right, none_ b some lower] at upper
  cases upper

theorem shFree_keeps (kept : HeapKept sh n depth) (tiled : Tiled n depth sh.bittable)
    (none_ : NoBuddies (freeBit sh)) (block : Block n depth l p)
    (live : sh.bitmalloc (node n l p) = true) :
    ∃ sh', shFree sh (some p) = some sh' ∧ HeapKept sh' n depth ∧ Tiled n depth sh'.bittable ∧
      sh'.bitmalloc = update sh.bitmalloc (node n l p) false ∧
      NoBuddies (freeBit sh') := by
  obtain ⟨fam, hung, family⟩ := kept.listed
  have shaped := kept.shaped
  have set := kept.sub live
  have off : ∀ l', p ∉ fam l' := by
    intro l' member
    obtain ⟨block', free'⟩ := (family l' p).mp member
    obtain ⟨set', off⟩ := freeBit_iff.mp free'
    obtain rfl := tiled.once block.2.1 block'.1 block.1 set' set
    exact Bool.false_ne_true (off.symm.trans live)
  let released : Sh := { sh with bitmalloc := update sh.bitmalloc (node n l p) false }
  have shaped' : HeapShaped released n depth := shaped.retabled _ _ _
  have added := shAddToList_ok shaped' hung family block off
  let listed : Sh := { released with lists := sh.lists.insert l p }
  have frees : freeBit listed = update (freeBit sh) (node n l p) !false :=
    freeBit_bitmalloc rfl rfl set
  have kept' : HeapKept listed n depth := by
    refine ⟨shaped.retabled _ _ _, ⟨_, hung_insert hung off l, ?_⟩, ?_⟩
    · rw [frees]
      exact family_add shaped.deep family block
    · intro b malloced
      by_cases same : b = node n l p
      · exact same ▸ set
      · exact kept.sub (by simpa [listed, released, same] using malloced)
  obtain ⟨sh', merged, kept₁, tiled₁, same₁, none₁⟩ :=
    coalesce_keeps kept' tiled block (by simp [frees]) (by rw [frees]; exact near_add none_)
  refine ⟨sh', ?_, kept₁, tiled₁, same₁, none₁⟩
  have arena : withinArena sh p = true := by
    simpa [withinArena, shaped.arena] using block.2.1
  have merged : coalesce { released with lists := released.lists.insert l p } p l = some sh' :=
    merged
  simp only [shFree, arena, opensslAssert, if_true, shGetlist_finds shaped tiled block set,
    shTestbit_ok shaped block, set, shClearbit_ok shaped block live, bind_eq_bind,
    bind_some]
  rw [added, bind_some, merged]

theorem listFor_finds {size k : Nat} {list : Int} {m : Nat} {fuel : Nat}
    (enough : size ≤ 2 ^ (m + k) + fuel) :
    ∃ j : Nat, listFor size fuel (2 ^ (m + k)) list = list - j ∧ size ≤ 2 ^ (m + k + j) ∧
      (j = 0 ∨ 2 ^ (m + k + j - 1) < size) := by
  induction fuel generalizing k list with
  | zero => exact ⟨0, by simp [listFor], enough, .inl rfl⟩
  | succ fuel ih =>
    by_cases less : 2 ^ (m + k) < size
    · have positive := Nat.two_pow_pos (m + k)
      have next : 2 ^ (m + k) <<< 1 = 2 ^ (m + (k + 1)) := by
        rw [Nat.shiftLeft_eq, ← pow_succ]
        rfl
      obtain ⟨j, found, fits, least⟩ := @ih (k + 1) (list - 1) (by omega)
      refine ⟨j + 1, ?_, ?_, .inr ?_⟩
      · rw [listFor, if_pos less, next, found]
        omega
      · rwa [show m + k + (j + 1) = m + (k + 1) + j by omega]
      · obtain rfl | above := least
        · exact less
        · rwa [show m + k + (j + 1) - 1 = m + (k + 1) + j - 1 by omega]
    · exact ⟨0, by simp [listFor, less], not_lt.mp less, .inl rfl⟩

theorem findList_some {s : Nat} (found : findList sh l = some s) :
    s ≤ l ∧ ∃ p, sh.freelist s = some p := by
  induction l with
  | zero =>
    unfold findList at found
    split at found
    · cases found
      exact ⟨le_refl _, isSome_iff_exists.mp ‹_›⟩
    · cases found
  | succ l ih =>
    unfold findList at found
    split at found
    · cases found
      exact ⟨le_refl _, isSome_iff_exists.mp ‹_›⟩
    · obtain ⟨le, some⟩ := ih found
      exact ⟨by omega, some⟩

theorem findList_none (found : findList sh l = none) (below : l' ≤ l) :
    sh.freelist l' = none := by
  induction l with
  | zero =>
    obtain rfl : l' = 0 := by omega
    unfold findList at found
    split at found
    · cases found
    · rename_i empty
      simpa using empty
  | succ l ih =>
    unfold findList at found
    split at found
    · cases found
    · by_cases last : l' = l + 1
      · subst last
        rename_i empty
        simpa using empty
      · exact ih found (by omega)

/- What sh_malloc's answer means: no free block is large enough, or a large enough block that was
   not handed out is now. -/
def Served (sh sh' : Sh) (n depth size : Nat) : Option Nat → Prop
  | none => sh' = sh ∧ ∀ l p, Block n depth l p → freeBit sh (node n l p) = true →
      2 ^ (n - l) < size
  | some p => ∃ l, Block n depth l p ∧ size ≤ 2 ^ (n - l) ∧
      sh.bitmalloc (node n l p) = false ∧
      sh'.bitmalloc = update sh.bitmalloc (node n l p) true

theorem free_listed (kept : HeapKept sh n depth) (block : Block n depth l p)
    (is : freeBit sh (node n l p) = true) : sh.freelist l ≠ none := by
  obtain ⟨fam, hung, family⟩ := kept.listed
  have member : p ∈ fam l := (family l p).mpr ⟨block, is⟩
  rw [Sh.freelist, hung_head hung l]
  intro empty
  rw [List.head?_eq_none_iff.mp empty] at member
  cases member

theorem shMalloc_serves (kept : HeapKept sh n depth) (tiled : Tiled n depth sh.bittable)
    (none_ : NoBuddies (freeBit sh)) (size : Nat) :
    ∃ r sh', shMalloc sh size = some (r, sh') ∧ HeapKept sh' n depth ∧ Tiled n depth sh'.bittable ∧
      NoBuddies (freeBit sh') ∧ Served sh sh' n depth size r := by
  have shaped := kept.shaped
  have deep := shaped.deep
  by_cases large : size > sh.arenaSize
  · refine ⟨none, sh, by simp [shMalloc, large], kept, tiled, none_, rfl, ?_⟩
    intro l p block _
    rw [shaped.arena] at large
    exact lt_of_le_of_lt (Nat.pow_le_pow_right (by decide) (Nat.sub_le _ _)) large
  obtain ⟨j, found, fits, least⟩ := @listFor_finds size 0 (sh.freelistSize - 1) (n - depth) size
    (Nat.le_add_left _ _)
  rw [add_zero, ← shaped.smallest] at found
  rw [add_zero] at fits least
  have within : j ≤ depth := by
    by_contra beyond
    rw [shaped.arena] at large
    obtain rfl | above := least
    · omega
    · have := Nat.pow_le_pow_right (n := 2) (by decide) (show n ≤ n - depth + j - 1 by omega)
      omega
  have list : listFor size size sh.minsize (sh.freelistSize - 1) = ((depth - j : Nat) : Int) := by
    rw [found, shaped.lists]
    omega
  rw [show n - depth + j = n - (depth - j) by omega] at fits
  have negative : ¬((depth - j : Nat) : Int) < 0 := by omega
  cases search : findList sh (depth - j) with
  | none =>
    refine ⟨none, sh, ?_, kept, tiled, none_, rfl, ?_⟩
    · simp only [shMalloc, large, if_false, list, negative, Int.toNat_natCast, search]
    · intro l p block is
      have deeper : ¬l ≤ depth - j := fun le =>
        free_listed kept block is (findList_none search le)
      have inside := block.1
      obtain rfl | above := least
      · omega
      · refine lt_of_le_of_lt (Nat.pow_le_pow_right (by decide) ?_) above
        omega
  | some s =>
    obtain ⟨le, p, head⟩ := findList_some search
    obtain ⟨sh₁, split, kept₁, tiled₁, same₁, p₁, head₁, near₁⟩ :=
      @splitLoop_keeps sh n depth s p (depth - j - s) kept tiled (by omega) head
        (near_of_none none_)
    rw [show s + (depth - j - s) = depth - j by omega] at head₁ near₁
    obtain ⟨block₁, is₁⟩ := head_free kept₁ head₁
    obtain ⟨set₁, off₁⟩ := freeBit_iff.mp is₁
    obtain ⟨sh₂, peeled, kept₂, table₂, malloced₂⟩ := peelOff_keeps kept₁ tiled₁ head₁
    refine ⟨some p₁, sh₂, ?_, kept₂, table₂ ▸ tiled₁, ?_, depth - j, block₁, fits, ?_, ?_⟩
    · simp only [shMalloc, large, if_false, list, negative, Int.toNat_natCast, search, split,
        bind_eq_bind, bind_some, peeled]
      rfl
    · rw [freeBit_bitmalloc malloced₂ table₂ set₁]
      exact none_taken near₁
    · rw [← same₁, off₁]
    · rw [malloced₂, same₁]

end Ossl
