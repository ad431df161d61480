import OpenSSL.MemSec
import OpenSSL.Lib.Buddy

/- One block of the secure heap: the tables and the free lists agree before and after it is
   taken, split, merged or handed out. -/
namespace Ossl
open Function Slots Buddy

structure HeapShaped (sh : Sh) (n depth : Nat) : Prop where
  arena : sh.arenaSize = 2 ^ n
  smallest : sh.minsize = 2 ^ (n - depth)
  deep : depth ≤ n
  lists : sh.freelistSize = depth + 1
  bits : sh.bittableSize = 2 ^ (depth + 1)

def Block (n depth l p : Nat) : Prop := l ≤ depth ∧ p < 2 ^ n ∧ 2 ^ (n - l) ∣ p

def freeBit (sh : Sh) (b : Nat) : Bool := sh.bittable b && !sh.bitmalloc b

theorem HeapShaped.retabled {sh : Sh} {n depth : Nat} (shaped : HeapShaped sh n depth)
    (bittable bitmalloc : Nat → Bool) (lists : Slots.Store Nat Nat) :
    HeapShaped { sh with bittable := bittable, bitmalloc := bitmalloc, lists := lists } n depth :=
  { shaped with }

def Family (n depth : Nat) (fam : Nat → List Nat) (free : Nat → Bool) : Prop :=
  ∀ l p, p ∈ fam l ↔ Block n depth l p ∧ free (node n l p) = true

structure HeapKept (sh : Sh) (n depth : Nat) : Prop where
  shaped : HeapShaped sh n depth
  listed : ∃ fam, Hung sh.lists fam ∧ Family n depth fam (freeBit sh)
  sub : ∀ {b}, sh.bitmalloc b = true → sh.bittable b = true

variable {sh : Sh} {n depth l l' p q x : Nat} {fam : Nat → List Nat} {free : Nat → Bool}

theorem block_node_inj (deep : depth ≤ n) (block : Block n depth l p)
    (block' : Block n depth l' q) (same : node n l p = node n l' q) : l = l' ∧ p = q := by
  obtain ⟨level, inside, dvd⟩ := block
  obtain ⟨level', inside', dvd'⟩ := block'
  obtain rfl := node_level (by omega) (by omega) inside inside' same
  exact ⟨rfl, node_inj dvd dvd' same⟩

theorem shaped_cells (shaped : HeapShaped sh n depth) (level : l ≤ depth) :
    sh.arenaSize >>> l = 2 ^ (n - l) := by
  have deep := shaped.deep
  rw [shaped.arena, Nat.shiftRight_eq_div_pow, Nat.pow_div (by omega) (by decide)]

theorem tableBit_eq (shaped : HeapShaped sh n depth) (level : l ≤ depth) :
    tableBit sh p l = node n l p := by
  unfold tableBit node
  rw [shaped_cells shaped level, Nat.one_shiftLeft]

theorem checkBit_ok (shaped : HeapShaped sh n depth) (block : Block n depth l p) :
    checkBit sh p l = some (node n l p) := by
  obtain ⟨level, inside, dvd⟩ := block
  have deep := shaped.deep
  obtain ⟨low, high⟩ := node_range (show l ≤ n by omega) inside
  have below : 2 ^ (l + 1) ≤ 2 ^ (depth + 1) := Nat.pow_le_pow_right (by decide) (by omega)
  have listed : withinFreelist sh l = true := by
    simp only [withinFreelist, shaped.lists, decide_eq_true_eq]
    omega
  have aligned : p &&& (2 ^ (n - l) - 1) = 0 := by
    rw [Nat.and_two_pow_sub_one_eq_mod]
    exact Nat.mod_eq_zero_of_dvd dvd
  have inTable : 0 < node n l p ∧ node n l p < sh.bittableSize := by
    rw [shaped.bits]
    omega
  simp [checkBit, listed, opensslAssert, shaped_cells shaped level, aligned,
    tableBit_eq shaped level, inTable]

theorem shTestbit_ok (shaped : HeapShaped sh n depth) (block : Block n depth l p)
    (table : Nat → Bool) : shTestbit sh p l table = some (table (node n l p)) := by
  simp [shTestbit, checkBit_ok shaped block]

variable {table : Nat → Bool} {sh' : Sh} {v : Bool}

theorem shClearbit_ok (shaped : HeapShaped sh n depth) (block : Block n depth l p)
    (is : table (node n l p) = true) :
    shClearbit sh p l table = some (update table (node n l p) false) := by
  simp [shClearbit, checkBit_ok shaped block, opensslAssert, is]

theorem shSetbit_ok (shaped : HeapShaped sh n depth) (block : Block n depth l p)
    (off : table (node n l p) = false) :
    shSetbit sh p l table = some (update table (node n l p) true) := by
  simp [shSetbit, checkBit_ok shaped block, opensslAssert, off]

theorem shAddToList_ok (shaped : HeapShaped sh n depth) (hung : Hung sh.lists fam)
    (family : Family n depth fam free) (block : Block n depth l p) (off : ∀ l', p ∉ fam l') :
    shAddToList sh l p = some { sh with lists := sh.lists.insert l p } := by
  have listed : withinFreelist sh l = true := by
    simp only [withinFreelist, shaped.lists, decide_eq_true_eq]
    exact Nat.lt_succ_of_le block.1
  have inside : ∀ {q}, q < 2 ^ n → withinArena sh q = true := by
    intro q less
    simpa [withinArena, shaped.arena] using less
  have head : sh.freelist l = (fam l).head? := hung_head hung l
  have linked := hung.linked l
  cases shape : fam l with
  | nil =>
    rw [shape] at head
    simp [shAddToList, opensslAssert, listed, inside block.2.1, head]
  | cons first rest =>
    rw [shape] at head linked
    have member : first ∈ fam l := by simp [shape]
    have other : first ≠ p := fun same => off l (same ▸ member)
    have arena : withinArena sh first = true := inside ((family l first).mp member).1.2.1
    simp [shAddToList, opensslAssert, listed, inside block.2.1, head, arena, other, linked.2.1]

theorem shRemoveFromList_ok (shaped : HeapShaped sh n depth) (hung : Hung sh.lists fam)
    (family : Family n depth fam free) (member : p ∈ fam l) :
    ∃ lists, shRemoveFromList sh p = some { sh with lists := lists } ∧
      Hung lists (update fam l ((fam l).erase p)) := by
  obtain ⟨lists, removed, hung', taken⟩ := hung_remove hung member
  refine ⟨lists, ?_, hung'⟩
  cases after : (lists.nodes p).next with
  | none => simp [shRemoveFromList, removed, after]
  | some temp2 =>
    have place : withinEither sh (sh.lists.back p) = true := by
      obtain isHead | ⟨y, before, isNext⟩ := linked_back (hung.linked l) member
      · have := ((family l p).mp member).1.1
        simp only [isHead, withinEither, withinFreelist, shaped.lists, decide_eq_true_eq]
        omega
      · have := ((family l y).mp before).1.2.1
        simpa [isNext, withinEither, withinArena, shaped.arena] using this
    simp [shRemoveFromList, removed, after, opensslAssert, taken temp2 after, place]

theorem family_take (deep : depth ≤ n) (hung : Hung sh.lists fam)
    (family : Family n depth fam free) (block : Block n depth l p) :
    Family n depth (update fam l ((fam l).erase p)) (update free (node n l p) false) := by
  intro l' q
  by_cases level : l' = l
  · subst level
    rw [update_self, (hung.nodup l').mem_erase_iff, family l' q]
    by_cases same : q = p
    · simp [same]
    · have other : Block n depth l' q → node n l' q ≠ node n l' p :=
        fun block' equal => same (block_node_inj deep block' block equal).2
      constructor
      · rintro ⟨-, block', is⟩
        exact ⟨block', by rwa [update_of_ne (other block')]⟩
      · rintro ⟨block', is⟩
        rw [update_of_ne (other block')] at is
        exact ⟨same, block', is⟩
  · rw [update_of_ne level, family l' q]
    refine and_congr_right fun block' => ?_
    rw [update_of_ne]
    exact fun equal => level (block_node_inj deep block' block equal).1

theorem family_add (deep : depth ≤ n) (family : Family n depth fam free)
    (block : Block n depth l p) :
    Family n depth (update fam l (p :: fam l)) (update free (node n l p) true) := by
  intro l' q
  by_cases mine : l' = l ∧ q = p
  · obtain ⟨rfl, rfl⟩ := mine
    simp [block]
  · have other : Block n depth l' q → node n l' q ≠ node n l p :=
      fun block' equal => mine (block_node_inj deep block' block equal)
    have kept : q ∈ update fam l (p :: fam l) l' ↔ q ∈ fam l' := by
      by_cases level : l' = l
      · subst level
        have : q ≠ p := fun same => mine ⟨rfl, same⟩
        simp [this]
      · rw [update_of_ne level]
    rw [kept, family l' q]
    exact and_congr_right fun block' => by rw [update_of_ne (other block')]

variable {b : Nat}

theorem freeBit_bittable {sh : Sh} (table : sh'.bittable = update sh.bittable b v)
    (same : sh'.bitmalloc = sh.bitmalloc) (off : sh.bitmalloc b = false) :
    freeBit sh' = update (freeBit sh) b v := by
  funext c
  by_cases equal : c = b
  · subst equal
    simp [freeBit, table, same, off]
  · simp [freeBit, table, same, equal]

theorem freeBit_bitmalloc {sh : Sh} (table : sh'.bitmalloc = update sh.bitmalloc b v)
    (same : sh'.bittable = sh.bittable) (is : sh.bittable b = true) :
    freeBit sh' = update (freeBit sh) b (!v) := by
  funext c
  by_cases equal : c = b
  · subst equal
    simp [freeBit, table, same, is]
  · simp [freeBit, table, same, equal]

theorem freeBit_iff : freeBit sh b = true ↔ sh.bittable b = true ∧ sh.bitmalloc b = false := by
  simp [freeBit]

def Bare (sh : Sh) (n depth x : Nat) : Prop := ∀ l ≤ depth, sh.bittable (node n l x) = false

theorem bare_off (family : Family n depth fam (freeBit sh)) (bare : Bare sh n depth p)
    (l : Nat) : p ∉ fam l := by
  intro member
  obtain ⟨block, is⟩ := (family l p).mp member
  exact Bool.false_ne_true ((bare l block.1).symm.trans (freeBit_iff.mp is).1)

theorem takeFree_keeps {tested : Nat} (kept : HeapKept sh n depth) (aside : Block n depth l tested)
    (clear : sh.bitmalloc (node n l tested) = false) (block : Block n depth l p)
    (is : freeBit sh (node n l p) = true) :
    ∃ sh', takeFree sh tested p l = some sh' ∧ HeapKept sh' n depth ∧
      sh'.bittable = update sh.bittable (node n l p) false ∧
      sh'.bitmalloc = sh.bitmalloc ∧ sh'.freelist l ≠ some p := by
  obtain ⟨fam, hung, family⟩ := kept.listed
  obtain ⟨set, off⟩ := freeBit_iff.mp is
  have shaped := kept.shaped
  let cleared : Sh := { sh with bittable := update sh.bittable (node n l p) false }
  have shaped' : HeapShaped cleared n depth := shaped.retabled _ _ _
  have member : p ∈ fam l := (family l p).mpr ⟨block, is⟩
  obtain ⟨lists, removed, hung'⟩ := shRemoveFromList_ok shaped' hung family member
  refine ⟨{ cleared with lists := lists }, ?_, ⟨shaped.retabled _ _ _, ?_, ?_⟩, rfl, rfl, ?_⟩
  · simp only [takeFree, shTestbit_ok shaped aside, clear, shClearbit_ok shaped block set]
    exact removed
  · refine ⟨_, hung', ?_⟩
    have frees : freeBit { cleared with lists := lists } =
        update (freeBit sh) (node n l p) false := freeBit_bittable rfl rfl off
    rw [frees]
    exact family_take shaped.deep hung family block
  · intro b malloced
    have other : b ≠ node n l p := fun same => by
      rw [same] at malloced
      exact Bool.false_ne_true (off.symm.trans malloced)
    simpa [cleared, other] using kept.sub malloced
  · show lists.heads l ≠ some p
    rw [hung_head hung' l]
    exact fun first => erased_off hung member l (List.mem_of_head? first)

theorem addFree_keeps (kept : HeapKept sh n depth) (block : Block n depth l p)
    (bare : Bare sh n depth p) :
    ∃ sh', addFree sh p l = some sh' ∧ HeapKept sh' n depth ∧
      sh'.bittable = update sh.bittable (node n l p) true ∧
      sh'.bitmalloc = sh.bitmalloc ∧ sh'.freelist l = some p := by
  obtain ⟨fam, hung, family⟩ := kept.listed
  have shaped := kept.shaped
  have clear := bare l block.1
  have off : sh.bitmalloc (node n l p) = false := by
    by_contra malloced
    exact Bool.false_ne_true (clear.symm.trans (kept.sub (by simpa using malloced)))
  let marked : Sh := { sh with bittable := update sh.bittable (node n l p) true }
  have shaped' : HeapShaped marked n depth := shaped.retabled _ _ _
  have added := shAddToList_ok shaped' hung family block (bare_off family bare)
  have hung' := hung_insert hung (bare_off family bare) l
  have front : (sh.lists.insert l p).heads l = some p := by
    rw [hung_head hung' l]
    simp
  refine ⟨{ marked with lists := sh.lists.insert l p }, ?_,
    ⟨shaped.retabled _ _ _, ?_, ?_⟩, rfl, rfl, front⟩
  · simp only [addFree, shTestbit_ok shaped block, off, shSetbit_ok shaped block clear]
    show (do
      opensslAssert true
      let sh ← shAddToList marked l p
      opensslAssert (sh.freelist l = some p)
      pure sh) = _
    rw [added]
    simp [opensslAssert, Sh.freelist, marked, front]
  · refine ⟨_, hung', ?_⟩
    have frees : freeBit { marked with lists := sh.lists.insert l p } =
        update (freeBit sh) (node n l p) true := freeBit_bittable rfl rfl off
    rw [frees]
    exact family_add shaped.deep family block
  · intro b malloced
    by_cases same : b = node n l p
    · simp [marked, same]
    · simpa [marked, same] using kept.sub malloced

theorem head_free (kept : HeapKept sh n depth) (head : sh.freelist l = some p) :
    Block n depth l p ∧ freeBit sh (node n l p) = true := by
  obtain ⟨fam, hung, family⟩ := kept.listed
  exact (family l p).mp (List.mem_of_head? ((hung_head hung l).symm.trans head))

theorem write_keeps (kept : HeapKept sh n depth)
    (off : ∀ l, ¬(Block n depth l p ∧ freeBit sh (node n l p) = true)) (node : ShList) :
    HeapKept { sh with lists := sh.lists.write p node } n depth := by
  obtain ⟨fam, hung, family⟩ := kept.listed
  have shaped := kept.shaped
  refine ⟨shaped.retabled _ _ _, ⟨fam, ?_, family⟩, kept.sub⟩
  exact hung_write hung (fun l member => off l ((family l p).mp member)) node

theorem peelOff_keeps (kept : HeapKept sh n depth) (tiled : Tiled n depth sh.bittable)
    (head : sh.freelist l = some p) :
    ∃ sh', peelOff sh l = some (p, sh') ∧ HeapKept sh' n depth ∧ sh'.bittable = sh.bittable ∧
      sh'.bitmalloc = update sh.bitmalloc (node n l p) true := by
  obtain ⟨block, is⟩ := head_free kept head
  obtain ⟨fam, hung, family⟩ := kept.listed
  obtain ⟨set, off⟩ := freeBit_iff.mp is
  have shaped := kept.shaped
  let handed : Sh := { sh with bitmalloc := update sh.bitmalloc (node n l p) true }
  have shaped' : HeapShaped handed n depth := shaped.retabled _ _ _
  have member : p ∈ fam l := (family l p).mpr ⟨block, is⟩
  obtain ⟨lists, removed, hung'⟩ := shRemoveFromList_ok shaped' hung family member
  have arena : withinArena sh p = true := by
    simpa [withinArena, shaped.arena] using block.2.1
  have frees : freeBit { handed with lists := lists } =
      update (freeBit sh) (node n l p) !true := freeBit_bitmalloc rfl rfl set
  have kept' : HeapKept { handed with lists := lists } n depth := by
    refine ⟨shaped.retabled _ _ _, ⟨_, hung', ?_⟩, ?_⟩
    · rw [frees]
      exact family_take shaped.deep hung family block
    · intro b malloced
      by_cases same : b = node n l p
      · exact same ▸ set
      · exact kept.sub (by simpa [handed, same] using malloced)
  refine ⟨{ handed with lists := lists.write p zeroedNode }, ?_,
    write_keeps kept' ?_ zeroedNode, rfl, rfl⟩
  · simp only [peelOff, head, Option.bind_eq_bind, Option.bind_some,
      shTestbit_ok shaped block, set, shSetbit_ok shaped block off]
    show (do
      opensslAssert true
      let sh ← shRemoveFromList handed p
      opensslAssert (withinArena sh p)
      pure (p, { sh with lists := sh.lists.write p zeroedNode })) = _
    rw [removed]
    have arena' : withinArena { handed with lists := lists } p = true := arena
    simp [opensslAssert, arena', handed]
  · rintro l' ⟨block', free'⟩
    rw [frees] at free'
    by_cases same : node n l' p = node n l p
    · simp [same] at free'
    · rw [update_of_ne same] at free'
      have level := tiled.once block.2.1 block'.1 block.1 (freeBit_iff.mp free').1 set
      exact same (by rw [level])

theorem xor_one_lower (c : Nat) : 2 * c ^^^ 1 = 2 * c + 1 := by
  apply Nat.eq_of_testBit_eq
  intro i
  cases i with
  | zero => simp [Nat.testBit_zero]
  | succ i =>
    have half : (2 * c + 1) / 2 = c := by omega
    simp [Nat.testBit_succ, Nat.xor_div_two, half]

theorem xor_one_upper (c : Nat) : (2 * c + 1) ^^^ 1 = 2 * c := by
  rw [← xor_one_lower, Nat.xor_assoc, Nat.xor_self, Nat.xor_zero]

theorem shFindMyBuddy_eq (shaped : HeapShaped sh n depth) (buddy : Block n depth l q)
    (other : node n l p ^^^ 1 = node n l q) :
    shFindMyBuddy sh p l = if freeBit sh (node n l q) then some q else none := by
  have deep := shaped.deep
  obtain ⟨level, inside, dvd⟩ := buddy
  obtain ⟨low, high⟩ := node_range (show l ≤ n by omega) inside
  have index : node n l q &&& (2 ^ l - 1) = node n l q - 2 ^ l := by
    rw [Nat.and_two_pow_sub_one_eq_mod, Nat.mod_eq_sub_mod low]
    rw [pow_succ] at high
    exact Nat.mod_eq_of_lt (by omega)
  have start : (node n l q &&& (1 <<< l - 1)) * sh.arenaSize >>> l = q := by
    rw [Nat.one_shiftLeft, index, shaped_cells shaped level, node_start dvd]
  simp only [shFindMyBuddy, tableBit_eq shaped level, other, start]
  rfl

def NearBuddies (free : Nat → Bool) (c : Nat) : Prop :=
  ∀ b, 0 < b → free (2 * b) = true → free (2 * b + 1) = true → c = 2 * b ∨ c = 2 * b + 1

def NoBuddies (free : Nat → Bool) : Prop :=
  ∀ b, 0 < b → free (2 * b) = true → free (2 * b + 1) = false

theorem near_of_none {c : Nat} (none : NoBuddies free) : NearBuddies free c :=
  fun b some lower upper => absurd (none b some lower) (by simp [upper])

theorem block_lower (deep : depth ≤ n) (block : Block n depth l p) (level : l < depth) :
    Block n depth (l + 1) p := by
  refine ⟨level, block.2.1, ?_⟩
  exact (pow_dvd_pow 2 (by omega)).trans block.2.2

theorem block_end (deep : depth ≤ n) (block : Block n depth l p) : p + 2 ^ (n - l) ≤ 2 ^ n := by
  obtain ⟨level, inside, k, rfl⟩ := block
  have split : 2 ^ n = 2 ^ (n - l) * 2 ^ l := by
    rw [← pow_add]
    congr 1
    omega
  rw [split] at inside ⊢
  have less : k < 2 ^ l := Nat.lt_of_mul_lt_mul_left inside
  calc 2 ^ (n - l) * k + 2 ^ (n - l) = 2 ^ (n - l) * (k + 1) := by ring
    _ ≤ 2 ^ (n - l) * 2 ^ l := Nat.mul_le_mul_left _ less

theorem block_upper (deep : depth ≤ n) (block : Block n depth l p) (level : l < depth) :
    Block n depth (l + 1) (p + 2 ^ (n - (l + 1))) := by
  have ends := block_end deep block
  have halves := cells_halve (show l < n by omega)
  have positive := Nat.two_pow_pos (n - (l + 1))
  exact ⟨level, by omega, (Nat.dvd_add_right (block_lower deep block level).2.2).mpr (dvd_refl _)⟩

/- Once the block that holds a cell is unmarked, no block with the cell is marked. -/
theorem bare_cleared (tiled : Tiled n depth sh.bittable) (level : l ≤ depth) (inside : x < 2 ^ n)
    (is : sh.bittable (node n l x) = true) (level' : l' ≤ depth) :
    update sh.bittable (node n l x) false (node n l' x) = false := by
  by_cases same : node n l' x = node n l x
  · simp [same]
  · rw [update_of_ne same]
    by_contra set
    exact same (by rw [tiled.once inside level' level (by simpa using set) is])

end Ossl
