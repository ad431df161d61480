import OpenSSL.MemSecSteps
import OpenSSL.Lib.Runs

/- The secure heap through whole runs of allocations and releases. -/
namespace Ossl
open Prod Nat List Option Slots Buddy Function

/- The heap, and what has been handed out of it and not given back: the pointers with the sizes
   that were asked for. -/
structure Heap where
  sh : Sh
  live : List (Nat × Nat)

/- The holder of a live block may write what it likes to it, over the places of list headers too. -/
inductive HeapOp where
  | malloc (size : Nat)
  | free (ptr : Option Nat)
  | write (ptr : Nat) (node : ShList)

def IsBlock (sh : Sh) (list ptr : Nat) : Prop :=
  list < sh.freelistSize ∧ ptr < sh.arenaSize ∧ sh.arenaSize >>> list ∣ ptr

def InUse (sh : Sh) (list ptr : Nat) : Prop :=
  IsBlock sh list ptr ∧ sh.bitmalloc (tableBit sh ptr list) = true

def IsFree (sh : Sh) (list ptr : Nat) : Prop :=
  IsBlock sh list ptr ∧ sh.bittable (tableBit sh ptr list) = true ∧
    sh.bitmalloc (tableBit sh ptr list) = false

def heapStep : Option Heap → HeapOp → Option Heap
  | none, _ => none
  | some h, .malloc size =>
    (shMalloc h.sh size).map fun
      | (none, sh) => ⟨sh, h.live⟩
      | (some ptr, sh) => ⟨sh, (ptr, size) :: h.live⟩
  | some h, .free ptr => (shFree h.sh ptr).map fun sh => ⟨sh, h.live.filter (some ·.1 ≠ ptr)⟩
  | some h, .write ptr node => some ⟨{ h.sh with lists := h.sh.lists.write ptr node }, h.live⟩

def HeapAllowed : Option Heap → HeapOp → Prop
  | some h, .free (some ptr) => ptr ∈ h.live.map fst
  | some h, .write ptr _ => ∃ a ∈ h.live, ∃ list, InUse h.sh list a.1 ∧
      a.1 ≤ ptr ∧ ptr < a.1 + h.sh.arenaSize >>> list
  | _, _ => True

/-- What is promised of the heap in every state of a run. -/
structure BuddyHeap (h : Heap) : Prop where
  partition : ∀ x < h.sh.arenaSize, ∃! list, list < h.sh.freelistSize ∧
    h.sh.bittable (tableBit h.sh x list) = true
  blocks : ∀ bit, h.sh.bittable bit = true → ∃ list ptr, IsBlock h.sh list ptr ∧
    bit = tableBit h.sh ptr list
  freelists : ∃ lists, Hung h.sh.lists lists ∧ ∀ list ptr, ptr ∈ lists list ↔ IsFree h.sh list ptr
  marked : ∀ bit, h.sh.bitmalloc bit = true → h.sh.bittable bit = true
  live : ∀ a ∈ h.live, ∃ list, InUse h.sh list a.1 ∧ a.2 ≤ h.sh.arenaSize >>> list
  owned : ∀ list ptr, InUse h.sh list ptr → ptr ∈ h.live.map fst
  disjoint : h.live.Pairwise fun a b => ∀ list list', InUse h.sh list a.1 → InUse h.sh list' b.1 →
    a.1 + h.sh.arenaSize >>> list ≤ b.1 ∨ b.1 + h.sh.arenaSize >>> list' ≤ a.1
  noBuddies : NoBuddies (freeBit h.sh)
  serves : ∀ size, ∃ ret sh, shMalloc h.sh size = some (ret, sh) ∧ (ret = none →
    ∀ list ptr, IsFree h.sh list ptr → h.sh.arenaSize >>> list < size)
  emptied : h.live = [] → (∀ bit, h.sh.bittable bit = true ↔ bit = 1) ∧
    ∀ list, h.sh.freelist list = if list = 0 then some 0 else none

structure Sound (h : Heap) (n depth : Nat) : Prop where
  kept : HeapKept h.sh n depth
  tiled : Tiled n depth h.sh.bittable
  none_ : NoBuddies (freeBit h.sh)
  held : ∀ a ∈ h.live, ∃ l, Block n depth l a.1 ∧ h.sh.bitmalloc (node n l a.1) = true ∧
    a.2 ≤ 2 ^ (n - l)
  nodup : (h.live.map fst).Nodup
  owned : ∀ l p, Block n depth l p → h.sh.bitmalloc (node n l p) = true → p ∈ h.live.map fst

variable {sh : Sh} {h : Heap} {n depth l l' p q x : Nat}

theorem malloc_sound (sound : Sound h n depth) (size : Nat) :
    ∃ h', heapStep (some h) (.malloc size) = some h' ∧ Sound h' n depth := by
  obtain ⟨r, sh', served, kept, tiled, none_, answer⟩ :=
    shMalloc_serves sound.kept sound.tiled sound.none_ size
  cases r with
  | none =>
    obtain ⟨rfl, -⟩ := answer
    exact ⟨h, by simp [heapStep, served], sound⟩
  | some p =>
    obtain ⟨l, block, fits, off, malloced⟩ := answer
    refine ⟨⟨sh', (p, size) :: h.live⟩, by simp [heapStep, served], kept, tiled, none_, ?_, ?_, ?_⟩
    · intro a member
      obtain rfl | member := mem_cons.mp member
      · exact ⟨l, block, by simp [malloced], fits⟩
      · obtain ⟨l', block', is, large⟩ := sound.held a member
        refine ⟨l', block', ?_, large⟩
        rw [malloced, update_apply, is, ite_self]
    · refine nodup_cons.mpr ⟨?_, sound.nodup⟩
      intro member
      obtain ⟨a, live, same⟩ := mem_map.mp member
      obtain ⟨l', block', is, -⟩ := sound.held a live
      rw [show a.1 = p from same] at block' is
      have both : sh'.bitmalloc (node n l' p) = true := by
        rw [malloced, update_apply, is, ite_self]
      have mine : sh'.bitmalloc (node n l p) = true := by simp [malloced]
      obtain rfl := tiled.once block.2.1 block'.1 block.1 (kept.sub both) (kept.sub mine)
      exact Bool.false_ne_true (off.symm.trans is)
    · intro l' q block' is
      by_cases same : node n l' q = node n l p
      · have := (block_node_inj kept.shaped.deep block' block same).2
        simp [this]
      · rw [malloced, update_of_ne same] at is
        exact mem_cons_of_mem _ (sound.owned l' q block' is)

theorem free_sound (sound : Sound h n depth) (live : p ∈ h.live.map fst) :
    ∃ h', heapStep (some h) (.free (some p)) = some h' ∧ Sound h' n depth := by
  obtain ⟨a, member, rfl⟩ := List.mem_map.mp live
  obtain ⟨l, block, is, -⟩ := sound.held a member
  obtain ⟨sh', freed, kept, tiled, released, none_⟩ :=
    shFree_keeps sound.kept sound.tiled sound.none_ block is
  have deep := kept.shaped.deep
  refine ⟨⟨sh', h.live.filter (some ·.1 ≠ some a.1)⟩, by simp [heapStep, freed],
    kept, tiled, none_, ?_, ?_, ?_⟩
  · intro b member
    obtain ⟨member, other⟩ := mem_filter.mp member
    obtain ⟨l', block', is', large⟩ := sound.held b member
    have apart : node n l' b.1 ≠ node n l a.1 := by
      intro same
      simp [(block_node_inj deep block' block same).2] at other
    exact ⟨l', block', by rwa [released, update_of_ne apart], large⟩
  · exact sound.nodup.sublist (filter_sublist.map fst)
  · intro l' q block' is'
    have apart : node n l' q ≠ node n l a.1 := fun same => by
      rw [released, same, update_self] at is'
      cases is'
    rw [released, update_of_ne apart] at is'
    obtain ⟨b, member, rfl⟩ := List.mem_map.mp (sound.owned l' q block' is')
    refine List.mem_map.mpr ⟨b, mem_filter.mpr ⟨member, ?_⟩, rfl⟩
    have other : b.1 ≠ a.1 := by
      intro same
      rw [same] at block' is' apart
      have set := sound.kept.sub is
      have set' := sound.kept.sub is'
      exact apart (by rw [sound.tiled.once block.2.1 block'.1 block.1 set' set])
    simpa using other

theorem isBlock_iff (shaped : HeapShaped sh n depth) : IsBlock sh l p ↔ Block n depth l p := by
  unfold IsBlock Block
  rw [shaped.lists, shaped.arena, Nat.lt_succ_iff]
  refine and_congr_right fun level => ?_
  have cells := shaped_cells shaped level
  rw [shaped.arena] at cells
  rw [cells]

theorem inUse_iff (shaped : HeapShaped sh n depth) :
    InUse sh l p ↔ Block n depth l p ∧ sh.bitmalloc (node n l p) = true := by
  unfold InUse
  rw [isBlock_iff shaped]
  exact and_congr_right fun block => by rw [tableBit_eq shaped block.1]

theorem isFree_iff (shaped : HeapShaped sh n depth) :
    IsFree sh l p ↔ Block n depth l p ∧ freeBit sh (node n l p) = true := by
  unfold IsFree
  rw [isBlock_iff shaped, freeBit_iff]
  exact and_congr_right fun block => by rw [tableBit_eq shaped block.1]

theorem write_sound (sound : Sound h n depth) {q : Nat} (node_ : ShList)
    (allowed : HeapAllowed (some h) (.write q node_)) :
    ∃ h', heapStep (some h) (.write q node_) = some h' ∧ Sound h' n depth := by
  obtain ⟨a, member, l, used, start, ends⟩ := allowed
  have shaped := sound.kept.shaped
  obtain ⟨block, is⟩ := (inUse_iff shaped).mp used
  rw [shaped_cells shaped block.1] at ends
  have mine : node n l q = node n l a.1 := (node_eq_iff block.2.2).mpr ⟨start, ends⟩
  have kept := write_keeps (p := q) sound.kept (by
    rintro l' ⟨block', free'⟩
    obtain ⟨set, off⟩ := freeBit_iff.mp free'
    have own := sound.kept.sub is
    rw [← mine] at own is
    obtain rfl := sound.tiled.once block'.2.1 block'.1 block.1 set own
    exact Bool.false_ne_true (off.symm.trans is)) node_
  exact ⟨_, rfl, kept, sound.tiled, sound.none_, sound.held, sound.nodup, sound.owned⟩

theorem step_sound (sound : Sound h n depth) (op : HeapOp) (allowed : HeapAllowed (some h) op) :
    ∃ h', heapStep (some h) op = some h' ∧ Sound h' n depth := by
  cases op with
  | malloc size => exact malloc_sound sound size
  | free ptr =>
    cases ptr with
    | none => exact ⟨_, by simp [heapStep, shFree], sound⟩
    | some p => exact free_sound sound allowed
  | write q node_ => exact write_sound sound node_ allowed

theorem node_of_bit (deep : depth ≤ n) {bit : Nat} (some_ : 0 < bit)
    (small : bit < 2 ^ (depth + 1)) : ∃ l p, Block n depth l p ∧ node n l p = bit := by
  have low := log2_self_le (n := bit) (by omega)
  have high := lt_log2_self (n := bit)
  have level : bit.log2 ≤ depth := by
    by_contra beyond
    have := Nat.pow_le_pow_right (n := 2) (by decide) (show depth + 1 ≤ bit.log2 by omega)
    omega
  have cells := Nat.two_pow_pos (n - bit.log2)
  have split : 2 ^ n = 2 ^ (n - bit.log2) * 2 ^ bit.log2 := by
    rw [← pow_add]
    congr 1
    omega
  refine ⟨bit.log2, 2 ^ (n - bit.log2) * (bit - 2 ^ bit.log2),
    ⟨level, ?_, Nat.dvd_mul_right _ _⟩, ?_⟩
  · rw [split]
    refine Nat.mul_lt_mul_of_pos_left ?_ cells
    rw [pow_succ] at high
    omega
  · rw [node, Nat.mul_div_cancel_left _ cells]
    omega

variable {k minsize size : Nat}

theorem node_above (deep : l + k ≤ n) {y : Nat} (same : node n (l + k) x = node n (l + k) y) :
    node n l x = node n l y := by
  induction k with
  | zero => exact same
  | succ k ih =>
    refine ih (by omega) ?_
    rw [← node_half (show l + k < n by omega) x, ← node_half (show l + k < n by omega) y]
    exact congrArg (· / 2) same

theorem whole_marked {marked : Nat → Bool} (deep : depth ≤ n) (tiled : Tiled n depth marked)
    (none_ : NoBuddies marked) (k : Nat) {l p : Nat} (last : depth < l + k)
    (block : Block n depth l p) (is : marked (node n l p) = true) : l = 0 := by
  induction k generalizing l p with
  | zero => exact absurd block.1 (by omega)
  | succ k ih =>
    cases l with
    | zero => rfl
    | succ l =>
      exfalso
      have level : l < depth := block.1
      obtain ⟨q, buddy, -, -, halves⟩ := buddy_block deep level block
      have shared : node n l q = node n l p := by
        have left := node_half (show l < n by omega) p
        have right := node_half (show l < n by omega) q
        omega
      obtain ⟨m, levelM, marks⟩ := tiled.covers buddy.2.1
      obtain above | rfl | below := lt_trichotomy m (l + 1)
      · obtain ⟨j, rfl⟩ := Nat.exists_eq_add_of_le (Nat.lt_succ_iff.mp above)
        rw [node_above (show m + j ≤ n by omega) shared] at marks
        have := tiled.once block.2.1 levelM block.1 marks is
        omega
      · obtain ⟨left, right⟩ | ⟨left, right⟩ := halves
        · rw [left] at is
          rw [right, none_ _ (by have := (tiled.range is).1; omega) is] at marks
          cases marks
        · rw [right] at marks
          rw [left, none_ _ (by have := (tiled.range marks).1; omega) marks] at is
          cases is
      · have deeper : Block n depth m q :=
          ⟨levelM, buddy.2.1, (pow_dvd_pow 2 (by omega)).trans buddy.2.2⟩
        have := ih (by omega) deeper marks
        omega

theorem emptied_whole (sound : Sound h n depth) (empty : h.live = []) :
    (∀ bit, h.sh.bittable bit = true ↔ bit = 1) ∧
      ∀ list, h.sh.freelist list = if list = 0 then some 0 else none := by
  have deep := sound.kept.shaped.deep
  have tiled := sound.tiled
  have unused : ∀ bit, h.sh.bitmalloc bit = false := by
    intro bit
    by_contra malloced
    have malloced : h.sh.bitmalloc bit = true := by simpa using malloced
    obtain ⟨some, small⟩ := tiled.range (sound.kept.sub malloced)
    obtain ⟨l, p, block, rfl⟩ := node_of_bit deep some small
    have := sound.owned l p block malloced
    simp [empty] at this
  have all : freeBit h.sh = h.sh.bittable := by
    funext bit
    simp [freeBit, unused]
  have none_ := sound.none_
  rw [all] at none_
  have top : ∀ l p, Block n depth l p → h.sh.bittable (node n l p) = true → l = 0 ∧ p = 0 := by
    intro l p block is
    obtain rfl := whole_marked deep tiled none_ (depth + 1) (by omega) block is
    refine ⟨rfl, eq_zero_of_dvd_of_lt block.2.2 ?_⟩
    simpa using block.2.1
  have root : ∀ x, x < 2 ^ n → node n 0 x = 1 := fun x inside => by
    simp [node, div_eq_of_lt inside]
  have whole : ∀ bit, h.sh.bittable bit = true ↔ bit = 1 := by
    intro bit
    constructor
    · intro is
      obtain ⟨some, small⟩ := tiled.range is
      obtain ⟨l, p, block, rfl⟩ := node_of_bit deep some small
      obtain ⟨rfl, -⟩ := top l p block is
      exact root p block.2.1
    · rintro rfl
      have start : 0 < 2 ^ n := Nat.two_pow_pos n
      obtain ⟨l, level, is⟩ := tiled.covers start
      have block : Block n depth l 0 := ⟨level, start, dvd_zero _⟩
      obtain ⟨rfl, -⟩ := top l 0 block is
      rwa [root 0 start] at is
  refine ⟨whole, fun list => ?_⟩
  obtain ⟨fam, hung, family⟩ := sound.kept.listed
  rw [all] at family
  have start : Block n depth 0 0 := ⟨zero_le _, Nat.two_pow_pos n, Nat.dvd_zero _⟩
  have member : 0 ∈ fam 0 := (family 0 0).mpr ⟨start, (whole _).mpr (root 0 start.2.1)⟩
  have only : ∀ l p, p ∈ fam l → l = 0 ∧ p = 0 := by
    intro l p inside
    obtain ⟨block, is⟩ := (family l p).mp inside
    exact top l p block is
  rw [Sh.freelist, hung_head hung list]
  cases shape : fam list with
  | nil =>
    have other : list ≠ 0 := by
      rintro rfl
      simp [shape] at member
    simp [other]
  | cons first rest =>
    obtain ⟨rfl, rfl⟩ := only list first (by simp [shape])
    simp

theorem blocks_apart {l₁ l₂ p₁ p₂ : Nat} {marked : Nat → Bool}
    (tiled : Tiled n depth marked) (block₁ : Block n depth l₁ p₁) (block₂ : Block n depth l₂ p₂)
    (is₁ : marked (node n l₁ p₁) = true) (is₂ : marked (node n l₂ p₂) = true)
    (other : p₁ ≠ p₂) : p₁ + 2 ^ (n - l₁) ≤ p₂ ∨ p₂ + 2 ^ (n - l₂) ≤ p₁ := by
  by_contra meet
  rw [not_or, not_le, not_le] at meet
  have positive₁ := Nat.two_pow_pos (n - l₁)
  have positive₂ := Nat.two_pow_pos (n - l₂)
  -- a cell of both, the later of the two starts
  have inside : max p₁ p₂ < 2 ^ n := max_lt block₁.2.1 block₂.2.1
  have mine₁ : node n l₁ (max p₁ p₂) = node n l₁ p₁ := (node_eq_iff block₁.2.2).mpr (by omega)
  have mine₂ : node n l₂ (max p₁ p₂) = node n l₂ p₂ := (node_eq_iff block₂.2.2).mpr (by omega)
  obtain rfl := tiled.once inside block₁.1 block₂.1 (by rw [mine₁, is₁]) (by rw [mine₂, is₂])
  exact other (node_inj block₁.2.2 block₂.2.2 (mine₁.symm.trans mine₂))

theorem sound_buddyHeap (sound : Sound h n depth) : BuddyHeap h := by
  have kept := sound.kept
  have shaped := kept.shaped
  have deep := shaped.deep
  have tiled := sound.tiled
  refine ⟨?_, ?_, ?_, fun bit => kept.sub, ?_, ?_, ?_, sound.none_, ?_, emptied_whole sound⟩
  · intro x inside
    rw [shaped.arena] at inside
    rw [shaped.lists]
    obtain ⟨l, level, is⟩ := tiled.covers inside
    refine ⟨l, ⟨lt_succ_of_le level, by rw [tableBit_eq shaped level, is]⟩, ?_⟩
    rintro l' ⟨level', is'⟩
    rw [tableBit_eq shaped (le_of_lt_succ level')] at is'
    exact tiled.once inside (le_of_lt_succ level') level is' is
  · intro bit is
    obtain ⟨some, small⟩ := tiled.range is
    obtain ⟨l, p, block, rfl⟩ := node_of_bit deep some small
    exact ⟨l, p, (isBlock_iff shaped).mpr block, (tableBit_eq shaped block.1).symm⟩
  · obtain ⟨fam, hung, family⟩ := kept.listed
    exact ⟨fam, hung, fun l p => (family l p).trans (isFree_iff shaped).symm⟩
  · intro a member
    obtain ⟨l, block, is, fits⟩ := sound.held a member
    refine ⟨l, (inUse_iff shaped).mpr ⟨block, is⟩, ?_⟩
    rwa [shaped_cells shaped block.1]
  · intro l p used
    obtain ⟨block, is⟩ := (inUse_iff shaped).mp used
    exact sound.owned l p block is
  · have apart := pairwise_map.mp sound.nodup
    refine apart.imp fun {a b} other l l' used used' => ?_
    obtain ⟨block, is⟩ := (inUse_iff shaped).mp used
    obtain ⟨block', is'⟩ := (inUse_iff shaped).mp used'
    rw [shaped_cells shaped block.1, shaped_cells shaped block'.1]
    exact blocks_apart tiled block block' (kept.sub is) (kept.sub is') other
  · intro size
    obtain ⟨r, sh', served, -, -, -, answer⟩ := shMalloc_serves kept tiled sound.none_ size
    refine ⟨r, sh', served, ?_⟩
    rintro rfl l p free'
    obtain ⟨block, is⟩ := (isFree_iff shaped).mp free'
    rw [shaped_cells shaped block.1]
    exact answer.2 l p block is

theorem halvings_pow (k : Nat) {fuel : Nat} (enough : k < fuel) :
    halvings fuel (2 ^ k) = k + 1 := by
  induction k generalizing fuel with
  | zero =>
    obtain ⟨rest, rfl⟩ : ∃ rest, fuel = rest + 1 := ⟨fuel - 1, by omega⟩
    cases rest <;> simp [halvings]
  | succ k ih =>
    obtain ⟨rest, rfl⟩ : ∃ rest, fuel = rest + 1 := ⟨fuel - 1, by omega⟩
    have some := Nat.two_pow_pos (k + 1)
    have half : 2 ^ (k + 1) >>> 1 = 2 ^ k := by
      rw [shiftRight_one, pow_succ]
      omega
    rw [halvings, if_neg (by omega), half, ih (by omega)]

theorem power_of_mask (some : 0 < k) (mask : k &&& (k - 1) = 0) : ∃ m, k = 2 ^ m :=
  (and_sub_one_eq_zero_iff_isPowerOfTwo (by omega)).mp mask

theorem assert_bind {α : Type} {holds : Bool} {rest : Unit → Option α} {r : α} :
    (opensslAssert holds).bind rest = some r ↔ holds = true ∧ rest () = some r := by
  cases holds <;> simp [opensslAssert]

theorem checkedMinsize_pow {m : Nat} (accepted : checkedMinsize minsize = some m) :
    ∃ k, m = 2 ^ k := by
  unfold checkedMinsize at accepted
  split at accepted
  · exact ⟨4, (some.inj accepted).symm⟩
  · simp only [bind_eq_bind, assert_bind, decide_eq_true_eq] at accepted
    obtain rfl : minsize = m := some.inj accepted.2
    exact power_of_mask (by omega) accepted.1

theorem kept_empty (shaped : HeapShaped sh n depth) (marks : ∀ b, sh.bittable b = false)
    (mallocs : ∀ b, sh.bitmalloc b = false) (heads : ∀ list, sh.lists.heads list = none) :
    HeapKept sh n depth := by
  refine ⟨shaped, ⟨fun _ => [], ⟨fun l => heads l, fun _ => nodup_nil, ?_⟩, ?_⟩, ?_⟩
  · intro l l' p member
    cases member
  · intro l p
    simp [freeBit, marks]
  · intro b malloced
    rw [mallocs b] at malloced
    cases malloced

theorem shInit_sound (accepted : shInit size minsize = some sh) :
    ∃ n depth, 2 ^ n = size ∧ Sound ⟨sh, []⟩ n depth := by
  simp only [shInit, bind_eq_bind, assert_bind, decide_eq_true_eq] at accepted
  obtain ⟨some, mask, accepted⟩ := accepted
  obtain ⟨m, checked, accepted⟩ := bind_eq_some_iff.mp accepted
  obtain ⟨n, rfl⟩ := power_of_mask some mask
  obtain ⟨k, rfl⟩ := checkedMinsize_pow checked
  split at accepted
  · cases accepted
  rename_i large
  have fits : k ≤ n := by
    by_contra beyond
    have := Nat.pow_lt_pow_right (a := 2) (by decide) (show n < k by omega)
    exact large (by simp [div_eq_of_lt this])
  have bits : 2 ^ n / 2 ^ k * 2 = 2 ^ (n - k + 1) := by
    rw [Nat.pow_div fits (by decide), pow_succ]
  have lists : halvings (2 ^ n / 2 ^ k * 2) (2 ^ n / 2 ^ k * 2) - 1 = n - k + 1 := by
    rw [bits, halvings_pow _ Nat.lt_two_pow_self]
    rfl
  rw [lists, bits] at accepted
  let empty : Sh := ⟨2 ^ n, 2 ^ k, n - k + 1, 2 ^ (n - k + 1), fun _ => false, fun _ => false,
    ⟨fun _ => none, fun _ => zeroedNode⟩⟩
  have accepted : (shSetbit empty 0 0 empty.bittable).bind
      (fun bittable => shAddToList { empty with bittable } 0 0) = .some sh := accepted
  have shaped : HeapShaped empty n (n - k) :=
    ⟨rfl, by simp [empty, Nat.sub_sub_self fits], sub_le _ _, rfl, rfl⟩
  have kept := kept_empty shaped (fun _ => rfl) (fun _ => rfl) (fun _ => rfl)
  have block : Block n (n - k) 0 0 := ⟨zero_le _, some, dvd_zero _⟩
  obtain ⟨sh', added, kept', table, same, -⟩ := addFree_keeps kept block (fun _ _ => rfl)
  have root : node n 0 0 = 1 := by simp [node]
  obtain rfl : sh' = sh := by
    simp only [addFree, shTestbit_ok shaped block, bind_eq_bind, bind_some, assert_bind] at added
    obtain ⟨-, added⟩ := added
    obtain ⟨table', set, added⟩ := bind_eq_some_iff.mp added
    obtain ⟨final, listed, added⟩ := bind_eq_some_iff.mp added
    rw [set, bind_some, listed] at accepted
    rw [assert_bind] at added
    exact (Option.some.inj added.2).symm.trans (Option.some.inj accepted)
  have frees := freeBit_bittable table same rfl
  refine ⟨n, n - k, rfl, kept', ?_, ?_, by simp, by simp, ?_⟩
  · have whole : sh'.bittable = fun b => b == 1 := by
      rw [table, root]
      funext b
      by_cases one : b = 1 <;> simp [one, empty]
    exact whole ▸ tiled_whole n (n - k)
  · intro b some lower
    rw [frees, root, update_of_ne (by omega)] at lower
    cases lower
  · intro l p _ malloced
    rw [same] at malloced
    cases malloced

theorem run_sound (accepted : shInit size minsize = some sh) (ops : List HeapOp)
    (allowed : Runs.Admissible heapStep HeapAllowed (some ⟨sh, []⟩) ops) :
    ∃ h n depth, Runs.run heapStep (some ⟨sh, []⟩) ops = some h ∧ 2 ^ n = size ∧
      Sound h n depth := by
  obtain ⟨n, depth, arena, sound⟩ := shInit_sound accepted
  have invariant := @Runs.run_invariant _ _ heapStep HeapAllowed
    (fun s => ∃ h, s = some h ∧ Sound h n depth) (by
      rintro _ op ⟨h, rfl, sound⟩ allowed
      exact step_sound sound op allowed) (some ⟨sh, []⟩) ops ⟨_, rfl, sound⟩ allowed
  obtain ⟨h, reached, sound⟩ := invariant
  exact ⟨h, n, depth, reached, arena, sound⟩

/-- In no run does an assertion fail, and every state it reaches is a correct buddy heap. -/
theorem secure_heap_is_buddy_allocator {size minsize : Nat} {sh : Sh}
    (accepted : shInit size minsize = some sh) (ops : List HeapOp)
    (allowed : Runs.Admissible heapStep HeapAllowed (some ⟨sh, []⟩) ops) :
    ∃ h, Runs.run heapStep (some ⟨sh, []⟩) ops = some h ∧ h.sh.arenaSize = size ∧ BuddyHeap h := by
  obtain ⟨h, n, depth, reached, arena, sound⟩ := run_sound accepted ops allowed
  exact ⟨h, reached, sound.kept.shaped.arena.trans arena, sound_buddyHeap sound⟩

theorem free_allowed {s : Option Heap} {ptr : Nat}
    (live : (s.map fun h => decide (ptr ∈ h.live.map fst)) = some true) :
    HeapAllowed s (.free (some ptr)) := by
  cases s with
  | none => trivial
  | some h => simpa [HeapAllowed] using live

theorem secure_heap_three_blocks : ∃ sh h, shInit 256 16 = some sh ∧
    Runs.run heapStep (some ⟨sh, []⟩) [.malloc 20, .malloc 100, .free (some 0)] = some h ∧
    h.sh.arenaSize = 256 ∧ BuddyHeap h := by
  have accepted : shInit 256 16 = some ((shInit 256 16).get (by decide +kernel)) :=
    (some_get _).symm
  obtain ⟨h, reached, heap⟩ := secure_heap_is_buddy_allocator accepted
    [.malloc 20, .malloc 100, .free (some 0)]
    ⟨trivial, trivial, free_allowed (by decide +kernel), trivial⟩
  exact ⟨_, h, accepted, reached, heap⟩

end Ossl
