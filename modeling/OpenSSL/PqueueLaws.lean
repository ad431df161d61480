import OpenSSL.Pqueue

/- The priority queue is a heap whose handles stay valid: the items it holds with
   their handles, and what each operation does to them. -/
namespace Ossl
open Option Nat List Function BinHeap
variable {α : Type}

/-- compare is a total preorder. -/
structure Comparator (compare : α → α → Int) : Prop where
  flips : ∀ a b, 0 < compare a b ↔ compare b a < 0
  trans : ∀ a b c, compare a b ≤ 0 → compare b c ≤ 0 → compare a c ≤ 0

def NotAfter (compare : α → α → Int) (x y : PqHeap α) : Prop := compare x.data y.data ≤ 0

theorem notAfter_refl {compare : α → α → Int} (total : Comparator compare) (x : PqHeap α) :
    NotAfter compare x x := by
  have flips := total.flips x.data x.data
  unfold NotAfter
  omega

theorem notAfter_trans {compare : α → α → Int} (total : Comparator compare) (x y z : PqHeap α)
    (first : NotAfter compare x y) (second : NotAfter compare y z) : NotAfter compare x z :=
  total.trans _ _ _ first second

def freeList (elements : Nat → Nat) : Nat → Nat → List Nat
  | _, 0 => []
  | m, k + 1 => m :: freeList elements (elements m) k

theorem freeList_length (elements : Nat → Nat) (m k : Nat) :
    (freeList elements m k).length = k := by
  induction k generalizing m with
  | zero => rfl
  | succ k ih => rw [freeList, length_cons, ih]

variable {elements : Nat → Nat} {current i k m target : Nat} {x : PqHeap α} {mem : Bool}

theorem freeList_congr {elements' : Nat → Nat}
    (same : ∀ i ∈ freeList elements m k, elements' i = elements i) :
    freeList elements' m k = freeList elements m k := by
  induction k generalizing m with
  | zero => rfl
  | succ k ih =>
    have first : elements' m = elements m := by
      apply same
      exact mem_cons_self
    rw [freeList, freeList, first]
    congr 1
    apply ih
    intro i later
    apply same
    exact mem_cons_of_mem m later

variable {elem : Nat} {pq pq' : OsslPqueue α} {spare : List Nat}

theorem freeList_update (posn : Nat) (outside : elem ∉ freeList elements m k) :
    freeList (update elements elem posn) m k = freeList elements m k := by
  apply freeList_congr
  intro i member
  apply update_of_ne
  intro same
  subst same
  exact outside member

def pqueueMembers (pq : OsslPqueue α) : List (PqHeap α) := items pq.htop pq.heap

def pqueueUsed (pq : OsslPqueue α) : List Nat := (pqueueMembers pq).map PqHeap.index

/-- Every allocated element is in use, on the free list or one of the spare ones,
    and the elements in use know their place in the heap. -/
structure PqueueSlots (spare : List Nat) (pq : OsslPqueue α) : Prop where
  size : minNodes ≤ pq.hmax ∧ pq.hmax ≤ maxNodes
  placed : ∀ i, i < pq.htop → pq.elements (pq.heap i).index = i
  shared : (pqueueUsed pq ++ (spare ++
    freeList pq.elements pq.freelist (pq.hmax - pq.htop - spare.length))).Perm (List.range pq.hmax)

structure PqueueOk (compare : α → α → Int) (pq : OsslPqueue α) : Prop where
  slots : PqueueSlots [] pq
  ordered : Ordered (NotAfter compare) pq.htop pq.heap

theorem mem_members : x ∈ pqueueMembers pq ↔ ∃ i, i < pq.htop ∧ pq.heap i = x := mem_items

theorem used_member (inside : i < pq.htop) : (pq.heap i).index ∈ pqueueUsed pq :=
  mem_map_of_mem (mem_members.mpr ⟨i, inside, rfl⟩)

theorem used_length (pq : OsslPqueue α) : (pqueueUsed pq).length = pq.htop := by
  rw [pqueueUsed, length_map, pqueueMembers, items_length]

section
variable {spare : List Nat} {pq : OsslPqueue α} (slots : PqueueSlots spare pq)
include slots

theorem slots_nodup : (pqueueUsed pq ++ (spare ++
    freeList pq.elements pq.freelist (pq.hmax - pq.htop - spare.length))).Nodup :=
  slots.shared.nodup_iff.mpr nodup_range

theorem slots_room : pq.htop + spare.length ≤ pq.hmax := by
  have count := slots.shared.length_eq
  rw [length_append, length_append, used_length, freeList_length, length_range] at count
  omega

variable {elem : Nat}

theorem slots_bound (used : elem ∈ pqueueUsed pq) : elem < pq.hmax := by
  apply mem_range.mp
  apply slots.shared.subset
  exact mem_append_left _ used

theorem slots_injective {i j : Nat} (left : i < pq.htop) (right : j < pq.htop)
    (same : (pq.heap i).index = (pq.heap j).index) : i = j := by
  have first := slots.placed i left
  have second := slots.placed j right
  rw [same, second] at first
  exact first.symm

theorem used_not_free (used : elem ∈ pqueueUsed pq) :
    elem ∉ freeList pq.elements pq.freelist (pq.hmax - pq.htop - spare.length) := by
  intro free
  have apart := (nodup_append.mp (slots_nodup slots)).2.2
  exact apart elem used elem (mem_append_right _ free) rfl

theorem spare_not_used (member : elem ∈ spare) : elem ∉ pqueueUsed pq := by
  intro used
  have apart := (nodup_append.mp (slots_nodup slots)).2.2
  exact apart elem used elem (mem_append_left _ member) rfl

theorem spare_not_free (member : elem ∈ spare) :
    elem ∉ freeList pq.elements pq.freelist (pq.hmax - pq.htop - spare.length) := by
  intro free
  have later := (nodup_append.mp (slots_nodup slots)).2.1
  have apart := (nodup_append.mp later).2.2
  exact apart elem member elem free rfl

end

/-- The same items with the same handles, in other places. -/
structure Reseated (spare : List Nat) (pq pq' : OsslPqueue α) : Prop where
  slots : PqueueSlots spare pq'
  htop : pq'.htop = pq.htop
  members : (pqueueMembers pq').Perm (pqueueMembers pq)

theorem reseated_refl (slots : PqueueSlots spare pq) : Reseated spare pq pq :=
  ⟨slots, rfl, List.Perm.refl _⟩

theorem reseated_trans {pq'' : OsslPqueue α} (first : Reseated spare pq pq')
    (second : Reseated spare pq' pq'') : Reseated spare pq pq'' :=
  ⟨second.slots, second.htop.trans first.htop, second.members.trans first.members⟩

theorem swap_reseated (slots : PqueueSlots spare pq) {j : Nat} (left : i < pq.htop)
    (right : j < pq.htop) (apart : i ≠ j) : Reseated spare pq (pqueueSwapElem i j pq) := by
  have members : (pqueueMembers (pqueueSwapElem i j pq)).Perm (pqueueMembers pq) :=
    items_swap pq.heap left right
  have atLeft : (swapAt pq.heap i j i).index = (pq.heap j).index := by rw [swapAt_left]
  have atRight : (swapAt pq.heap i j j).index = (pq.heap i).index := by rw [swapAt_right]
  have free : freeList (pqueueSwapElem i j pq).elements pq.freelist
      (pq.hmax - pq.htop - spare.length) =
        freeList pq.elements pq.freelist (pq.hmax - pq.htop - spare.length) := by
    apply freeList_congr
    intro k member
    have notLeft : k ≠ (pq.heap i).index := by
      intro same
      subst same
      exact used_not_free slots (used_member left) member
    have notRight : k ≠ (pq.heap j).index := by
      intro same
      subst same
      exact used_not_free slots (used_member right) member
    rw [pqueueSwapElem]
    dsimp only
    rw [atLeft, atRight, update_of_ne notLeft, update_of_ne notRight]
  constructor
  · constructor
    · exact slots.size
    · intro k inside
      rw [pqueueSwapElem] at inside ⊢
      dsimp only at inside ⊢
      by_cases here : k = j
      · subst here
        exact update_self ..
      · by_cases there : k = i
        · subst there
          rw [update_of_ne, update_self]
          rw [atLeft, atRight]
          intro same
          exact here (slots_injective slots inside right same.symm)
        · rw [swapAt_other pq.heap there here, atLeft, atRight, update_of_ne, update_of_ne]
          · exact slots.placed k inside
          · intro same
            exact here (slots_injective slots inside right same)
          · intro same
            exact there (slots_injective slots inside left same)
    · have sameFree := congrArg (spare ++ ·) free
      have used : (pqueueUsed (pqueueSwapElem i j pq)).Perm (pqueueUsed pq) :=
        members.map PqHeap.index
      apply List.Perm.trans _ slots.shared
      apply List.Perm.append used
      exact List.Perm.of_eq sameFree
  · rfl
  · exact members

/- The loops. -/

section
variable {compare : α → α → Int} (total : Comparator compare) {spare : List Nat}
include total

variable {n : Nat} {pq : OsslPqueue α}

theorem forceBottom_forced (fuel : Nat) (slots : PqueueSlots spare pq) (inside : n < pq.htop)
    (enough : n < fuel) (parted : Parted (NotAfter compare) pq.htop pq.heap n) :
    let pq' := pqueueForceBottom fuel n pq
    Reseated spare pq pq' ∧ Parted (NotAfter compare) pq'.htop pq'.heap 0 ∧
      pq'.heap 0 = pq.heap n := by
  induction fuel generalizing n pq with
  | zero => omega
  | succ fuel ih =>
    rw [pqueueForceBottom]
    by_cases pos : 0 < n
    · have up := parent_lt pos
      have moved := swap_reseated slots inside (by omega : parent n < pq.htop) (by omega)
      have next := parted_up (notAfter_trans total) parted pos inside
      rw [if_pos pos]
      obtain ⟨same, root, first⟩ := ih moved.slots
        (by rw [moved.htop]; omega : parent n < (pqueueSwapElem n (parent n) pq).htop)
        (by omega) next
      constructor
      · exact reseated_trans moved same
      · constructor
        · exact root
        · rw [first]
          exact swapAt_right ..
    · have root : n = 0 := by omega
      subst root
      rw [if_neg pos]
      exact ⟨reseated_refl slots, parted, rfl⟩

theorem moveDown_restores (fuel : Nat) (slots : PqueueSlots spare pq) (inside : n < pq.htop)
    (enough : n < fuel) (parted : Parted (NotAfter compare) pq.htop pq.heap n)
    (leads : Leads (NotAfter compare) pq.htop pq.heap n) :
    let pq' := pqueueMoveDown compare fuel n pq
    Reseated spare pq pq' ∧ Ordered (NotAfter compare) pq'.htop pq'.heap := by
  induction fuel generalizing n pq with
  | zero => omega
  | succ fuel ih =>
    rw [pqueueMoveDown]
    by_cases pos : 0 < n
    · rw [if_pos pos]
      by_cases settled : 0 ≤ compare (pq.heap n).data (pq.heap (parent n)).data
      · have follows : Follows (NotAfter compare) pq.heap n := by
          intro _
          have flips := total.flips (pq.heap (parent n)).data (pq.heap n).data
          unfold NotAfter
          omega
        rw [if_pos settled]
        exact ⟨reseated_refl slots, ordered_of_parted parted leads follows⟩
      · have up := parent_lt pos
        have before : NotAfter compare (pq.heap n) (pq.heap (parent n)) := by
          unfold NotAfter
          omega
        have moved := swap_reseated slots inside (by omega : parent n < pq.htop) (by omega)
        have next := parted_up (notAfter_trans total) parted pos inside
        have nextLeads := leads_up (notAfter_trans total) parted pos before
        rw [if_neg settled]
        obtain ⟨same, ordered⟩ := ih moved.slots
          (by rw [moved.htop]; omega : parent n < (pqueueSwapElem n (parent n) pq).htop)
          (by omega) next nextLeads
        exact ⟨reseated_trans moved same, ordered⟩
    · have follows : Follows (NotAfter compare) pq.heap n := fun root => absurd root pos
      rw [if_neg pos]
      exact ⟨reseated_refl slots, ordered_of_parted parted leads follows⟩

theorem lesserChild_least (n : Nat) (pq : OsslPqueue α) :
    let p := pqueueLesserChild compare n pq
    0 < p ∧ parent p = n ∧ n < p ∧ ∀ i, 0 < i → i < pq.htop → parent i = n →
      p < pq.htop ∧ NotAfter compare (pq.heap p) (pq.heap i) := by
  intro p
  have whichever : p = pqueueLesserChild compare n pq := rfl
  unfold pqueueLesserChild at whichever
  dsimp only at whichever
  split at whichever
  · rename_i right
    rw [whichever]
    refine ⟨by omega, by unfold parent; omega, by omega, ?_⟩
    intro i pos low child
    unfold parent at child
    constructor
    · exact right.1
    · by_cases first : i = n * 2 + 1
      · subst first
        have flips := total.flips (pq.heap (n * 2 + 1)).data (pq.heap (n * 2 + 1 + 1)).data
        unfold NotAfter
        omega
      · have second : i = n * 2 + 1 + 1 := by omega
        rw [second]
        exact notAfter_refl total _
  · rename_i left
    rw [whichever]
    refine ⟨by omega, by unfold parent; omega, by omega, ?_⟩
    intro i pos low child
    unfold parent at child
    constructor
    · omega
    · by_cases first : i = n * 2 + 1
      · rw [first]
        exact notAfter_refl total _
      · have second : i = n * 2 + 1 + 1 := by omega
        subst second
        unfold NotAfter
        omega

theorem moveUp_restores (fuel : Nat) (slots : PqueueSlots spare pq) (inside : n < pq.htop)
    (enough : pq.htop ≤ n + fuel) (parted : Parted (NotAfter compare) pq.htop pq.heap n)
    (follows : Follows (NotAfter compare) pq.heap n) : let pq' := pqueueMoveUp compare fuel n pq
    Reseated spare pq pq' ∧ Ordered (NotAfter compare) pq'.htop pq'.heap := by
  induction fuel generalizing n pq with
  | zero => omega
  | succ fuel ih =>
    obtain ⟨pos, child, below, least⟩ := lesserChild_least total n pq
    rw [pqueueMoveUp]
    generalize pqueueLesserChild compare n pq = p at pos child below least
    by_cases lower : p < pq.htop ∧ compare (pq.heap p).data (pq.heap n).data < 0
    · have before : NotAfter compare (pq.heap p) (pq.heap n) := Int.le_of_lt lower.2
      have moved := swap_reseated slots lower.1 inside (by omega : p ≠ n)
      have next := parted_down parted pos lower.1 child
        (fun i iPos low sibling => (least i iPos low sibling).2)
      have nextFollows : Follows (NotAfter compare) (pqueueSwapElem p n pq).heap p :=
        follows_down child before
      rw [if_pos lower]
      obtain ⟨same, ordered⟩ := ih moved.slots
        (by rw [moved.htop]; exact lower.1 : p < (pqueueSwapElem p n pq).htop)
        (by rw [moved.htop]; omega) next nextFollows
      exact ⟨reseated_trans moved same, ordered⟩
    · have leads : Leads (NotAfter compare) pq.htop pq.heap n := by
        intro i iPos low iChild
        obtain ⟨exists', first⟩ := least i iPos low iChild
        have flips := total.flips (pq.heap n).data (pq.heap p).data
        apply notAfter_trans total _ _ _ _ first
        unfold NotAfter
        omega
      rw [if_neg lower]
      exact ⟨reseated_refl slots, ordered_of_parted parted leads follows⟩

end

/- The operations. -/

theorem cut_slots (slots : PqueueSlots [] pq) (nonempty : 0 < pq.htop) :
    PqueueSlots [(pq.heap (pq.htop - 1)).index] { pq with htop := pq.htop - 1 } := by
  have whole : items pq.htop pq.heap =
      items (pq.htop - 1) pq.heap ++ [pq.heap (pq.htop - 1)] := by
    rw [← items_succ]
    congr 1
    omega
  have shared := slots.shared
  constructor
  · exact slots.size
  · intro i inside
    exact slots.placed i (lt_of_lt_of_le inside (sub_le ..))
  · rw [pqueueUsed, pqueueMembers, whole, map_append, append_assoc] at shared
    have count : pq.hmax - (pq.htop - 1) - 1 = pq.hmax - pq.htop - 0 := by omega
    rw [pqueueUsed, pqueueMembers]
    dsimp only [length_singleton]
    rw [count]
    exact shared

theorem freeElem_slots (slots : PqueueSlots (elem :: spare) pq) :
    PqueueSlots spare (pqueueFreeElem elem pq) := by
  have room := slots_room slots
  rw [length_cons] at room
  have outside := spare_not_free slots (mem_cons_self : elem ∈ elem :: spare)
  have unused := spare_not_used slots (mem_cons_self : elem ∈ elem :: spare)
  have count : pq.hmax - pq.htop - spare.length =
      (pq.hmax - pq.htop - (elem :: spare).length) + 1 := by
    rw [length_cons]
    omega
  constructor
  · exact slots.size
  · intro i inside
    rw [pqueueFreeElem]
    dsimp only
    rw [update_of_ne]
    · exact slots.placed i inside
    · intro same
      rw [← same] at unused
      exact unused (used_member inside)
  · have free : freeList (pqueueFreeElem elem pq).elements elem
        (pq.hmax - pq.htop - spare.length) =
          elem :: freeList pq.elements pq.freelist
            (pq.hmax - pq.htop - (elem :: spare).length) := by
      rw [count, freeList, pqueueFreeElem]
      dsimp only
      rw [update_self, freeList_update _ outside]
    apply List.Perm.trans _ slots.shared
    apply List.Perm.append (List.Perm.refl _)
    rw [pqueueFreeElem] at free ⊢
    rw [free]
    exact perm_middle

theorem moveElem_slots (slots : PqueueSlots [] pq) (several : pq.htop - 1 ≠ 0) :
    let filled := pqueueMoveElem (pq.htop - 1) 0 { pq with htop := pq.htop - 1 }
    PqueueSlots [(pq.heap 0).index] filled ∧
      (pqueueMembers pq).Perm (pq.heap 0 :: pqueueMembers filled) := by
  have nonempty : 0 < pq.htop := by omega
  have last : pq.htop - 1 < pq.htop := by omega
  have members : (items pq.htop pq.heap).Perm (pq.heap 0 ::
      items (pq.htop - 1) (update pq.heap 0 (pq.heap (pq.htop - 1)))) := by
    have cut := items_cut pq.heap (Nat.pos_of_ne_zero several)
    rw [Nat.sub_add_cancel nonempty] at cut
    exact cut
  have free : freeList (update pq.elements (pq.heap (pq.htop - 1)).index 0) pq.freelist
      (pq.hmax - pq.htop) = freeList pq.elements pq.freelist (pq.hmax - pq.htop) :=
    freeList_update _ (used_not_free slots (used_member last))
  intro filled
  constructor
  · constructor
    · exact slots.size
    · intro i inside
      change i < pq.htop - 1 at inside
      change update pq.elements (pq.heap (pq.htop - 1)).index 0
        (update pq.heap 0 (pq.heap (pq.htop - 1)) i).index = i
      cases i with
      | zero => rw [update_self, update_self]
      | succ i =>
        rw [update_of_ne (by omega : i + 1 ≠ 0), update_of_ne]
        · exact slots.placed (i + 1) (by omega)
        · intro same
          have equal := slots_injective slots (by omega) last same
          omega
    · have count : pq.hmax - (pq.htop - 1) - 1 = pq.hmax - pq.htop := by omega
      have shared := slots.shared
      rw [pqueueUsed, pqueueMembers] at shared
      change ((items (pq.htop - 1) (update pq.heap 0 (pq.heap (pq.htop - 1)))).map
        PqHeap.index ++ ([(pq.heap 0).index] ++
          freeList (update pq.elements (pq.heap (pq.htop - 1)).index 0) pq.freelist
            (pq.hmax - (pq.htop - 1) - 1))).Perm (range pq.hmax)
      rw [count, free]
      apply List.Perm.trans _ shared
      apply List.Perm.trans perm_middle
      exact (List.Perm.append (members.map PqHeap.index).symm (List.Perm.refl _))
  · exact members

theorem pop_done {compare : α → α → Int} (total : Comparator compare) (slots : PqueueSlots [] pq)
    (parted : Parted (NotAfter compare) pq.htop pq.heap 0) (nonempty : 0 < pq.htop) :
    let popped := pqueuePop compare pq
    popped.1 = some (pq.heap 0).data ∧ PqueueOk compare popped.2 ∧
      (pqueueMembers pq).Perm (pq.heap 0 :: pqueueMembers popped.2) := by
  have none : ¬ pq.htop = 0 := by omega
  unfold pqueuePop
  rw [if_neg none]
  dsimp only
  by_cases several : pq.htop - 1 ≠ 0
  · obtain ⟨moved, members⟩ := moveElem_slots slots several
    have room : 0 < (pqueueMoveElem (pq.htop - 1) 0 { pq with htop := pq.htop - 1 }).htop :=
      Nat.pos_of_ne_zero several
    have root : Parted (NotAfter compare) (pq.htop - 1)
        (update pq.heap 0 (pq.heap (pq.htop - 1))) 0 :=
      parted_root parted (sub_le ..) _
    obtain ⟨same, ordered⟩ := moveUp_restores total (pq.htop - 1 + 1) moved room
      (by change pq.htop - 1 ≤ _; omega) root (fun pos => absurd pos (lt_irrefl 0))
    rw [if_pos several]
    constructor
    · rfl
    · constructor
      · exact ⟨freeElem_slots same.slots, ordered⟩
      · exact members.trans (same.members.symm.cons _)
  · have single : pq.htop - 1 = 0 := by omega
    have cut := cut_slots slots nonempty
    have whole : pqueueMembers pq = [pq.heap 0] := by
      have one : pq.htop = 1 := by omega
      rw [pqueueMembers, one]
      rfl
    rw [if_neg several]
    rw [single] at cut ⊢
    constructor
    · rfl
    · constructor
      · constructor
        · exact freeElem_slots cut
        · intro i pos inside
          exact absurd inside (not_lt_zero i)
      · rw [whole]
        exact List.Perm.refl _

theorem peek_least {compare : α → α → Int} (total : Comparator compare) (ok : PqueueOk compare pq)
    {x : α} (first : pqueuePeek pq = some x) : 0 < pq.htop ∧ x = (pq.heap 0).data ∧
      ∀ y ∈ pqueueMembers pq, compare x y.data ≤ 0 := by
  unfold pqueuePeek at first
  split at first
  · rename_i nonempty
    have same := (some.inj first).symm
    constructor
    · exact nonempty
    · constructor
      · exact same
      · intro y member
        obtain ⟨i, inside, rfl⟩ := mem_members.mp member
        rw [same]
        exact root_first (notAfter_refl total) (notAfter_trans total) ok.ordered i inside
  · cases first

theorem peek_none_iff (pq : OsslPqueue α) : pqueuePeek pq = none ↔ pqueueMembers pq = [] := by
  rw [← length_eq_zero_iff, pqueueMembers, items_length]
  unfold pqueuePeek
  split
  · constructor
    · intro absent
      cases absent
    · intro empty
      omega
  · constructor
    · intro _
      omega
    · intro _
      rfl

theorem remove_done {compare : α → α → Int} (total : Comparator compare)
    (ok : PqueueOk compare pq) (member : x ∈ pqueueMembers pq) :
    let removed := pqueueRemove compare x.index pq
    removed.1 = some x.data ∧ PqueueOk compare removed.2 ∧
      (pqueueMembers pq).Perm (x :: pqueueMembers removed.2) := by
  obtain ⟨n, inside, rfl⟩ := mem_members.mp member
  have bound := slots_bound ok.slots (used_member inside)
  have valid : ¬ (pq.hmax ≤ (pq.heap n).index ∨ pq.htop = 0) := by omega
  unfold pqueueRemove
  rw [if_neg valid]
  rw [ok.slots.placed n inside]
  by_cases last : n = pq.htop - 1
  · have cut := cut_slots ok.slots (by omega)
    have whole : pqueueMembers pq = items n pq.heap ++ [pq.heap n] := by
      rw [pqueueMembers, ← items_succ]
      congr 1
      omega
    rw [if_pos last]
    rw [← last] at cut ⊢
    constructor
    · rfl
    · constructor
      · constructor
        · exact freeElem_slots cut
        · intro i pos low
          exact ok.ordered i pos (lt_trans low inside)
      · rw [whole]
        exact perm_append_singleton ..
  · rw [if_neg last]
    by_cases pos : 0 < n
    · have parted := parted_of_ordered (notAfter_trans total) ok.ordered inside
      obtain ⟨same, root, first⟩ :=
        forceBottom_forced total (n + 1) ok.slots inside (lt_succ_self n) parted
      obtain ⟨data, good, members⟩ := pop_done total same.slots root (by rw [same.htop]; omega)
      rw [if_pos pos]
      rw [first] at data members
      exact ⟨data, good, same.members.symm.trans members⟩
    · have root : n = 0 := by omega
      subst root
      rw [if_neg pos]
      have parted := parted_of_ordered (notAfter_trans total) ok.ordered inside
      exact pop_done total ok.slots parted inside

theorem growth_rounds (fuel : Nat) (several : 2 ≤ current) (top : current ≤ maxNodes)
    (enough : target < current + fuel) : let grown := computePqueueGrowthRounds target fuel current
    grown = 0 ∨ (target ≤ grown ∧ grown ≤ maxNodes) := by
  induction fuel generalizing current with
  | zero =>
    right
    rw [computePqueueGrowthRounds]
    omega
  | succ fuel ih =>
    rw [computePqueueGrowthRounds]
    by_cases reached : target ≤ current
    · rw [if_pos reached]
      exact .inr ⟨reached, top⟩
    · rw [if_neg reached]
      by_cases full : maxNodes ≤ current
      · rw [if_pos full]
        exact .inl rfl
      · have limit : maxNodes = maxU64 / 16 := rfl
        have word : maxU64 = 2 ^ 64 - 1 := rfl
        have exactly : safeMuldivU64 current 8 5 = (current * 8 / 5, false) := by
          have fits : ¬ 2 ^ 64 ≤ current * 8 := by omega
          have small : mulU64 current 8 = current * 8 := mod_eq_of_lt (by omega)
          have product : safeMulU64 current 8 = (current * 8, false) := by
            rw [safeMulU64, small, decide_eq_false fits]
          rw [safeMuldivU64, if_neg (by omega : ¬ 5 = 0), product]
          exact if_pos rfl
        rw [if_neg full, exactly]
        apply ih
        · omega
        · exact min_le_right ..
        · omega

theorem growth_enough (several : 2 ≤ current) (top : current ≤ maxNodes) :
    let grown := computePqueueGrowth target current
    grown = 0 ∨ (target ≤ grown ∧ grown ≤ maxNodes) :=
  growth_rounds (target - current + 1) several top (by omega)

theorem addFreelist_chain (pq : OsslPqueue α) {start : Nat} (count : Nat)
    (inside : start + count < pq.hmax) (k : Nat) :
    let elements := (pqueueAddFreelist start pq).elements
    freeList elements (start + count) (count + 1 + k) =
      (range' start (count + 1)).reverse ++ freeList elements pq.freelist k := by
  intro elements
  induction count with
  | zero =>
    have first : elements start = pq.freelist := if_pos rfl
    rw [zero_add, add_comm 1 k, freeList, add_zero, first]
    rfl
  | succ count ih =>
    have above : elements (start + (count + 1)) = start + count := by
      have other : ¬ start + (count + 1) = start := by omega
      have between : start < start + (count + 1) ∧ start + (count + 1) < pq.hmax := by omega
      change (if start + (count + 1) = start then _ else if _ then _ else _) = _
      rw [if_neg other, if_pos between]
      omega
    have more : count + 1 + 1 + k = (count + 1 + k) + 1 := by omega
    have last : range' start (count + 1 + 1) =
        range' start (count + 1) ++ [start + (count + 1)] := by
      rw [range'_concat]
      simp
    rw [more, freeList, above, ih (by omega), last, reverse_append]
    rfl

theorem addFreelist_slots (slots : PqueueSlots [] pq) {hmax : Nat} (larger : pq.hmax < hmax)
    (top : hmax ≤ maxNodes) : PqueueSlots [] (pqueueAddFreelist pq.hmax { pq with hmax }) := by
  have room := slots_room slots
  rw [length_nil] at room
  have old (i : Nat) (low : i < pq.hmax) :
      (pqueueAddFreelist pq.hmax { pq with hmax }).elements i = pq.elements i := by
    have below : ¬ i = pq.hmax := by omega
    have outside : ¬ (pq.hmax < i ∧ i < hmax) := by omega
    change (if i = pq.hmax then _ else if _ then _ else _) = _
    rw [if_neg below, if_neg outside]
  have kept : freeList (pqueueAddFreelist pq.hmax { pq with hmax }).elements pq.freelist
      (pq.hmax - pq.htop) = freeList pq.elements pq.freelist (pq.hmax - pq.htop) := by
    apply freeList_congr
    intro i free
    apply old
    apply mem_range.mp
    apply slots.shared.subset
    exact mem_append_right _ free
  have chain : freeList (pqueueAddFreelist pq.hmax { pq with hmax }).elements (hmax - 1)
      (hmax - pq.htop) = (range' pq.hmax (hmax - pq.hmax)).reverse ++
        freeList pq.elements pq.freelist (pq.hmax - pq.htop) := by
    have linked := addFreelist_chain { pq with hmax } (hmax - 1 - pq.hmax)
      (by change pq.hmax + _ < hmax; omega) (pq.hmax - pq.htop)
    have last : pq.hmax + (hmax - 1 - pq.hmax) = hmax - 1 := by omega
    have added : hmax - 1 - pq.hmax + 1 = hmax - pq.hmax := by omega
    have count : hmax - pq.hmax + (pq.hmax - pq.htop) = hmax - pq.htop := by omega
    dsimp only at linked
    rw [last, added, count, kept] at linked
    exact linked
  constructor
  · exact ⟨le_trans slots.size.1 (le_of_lt larger), top⟩
  · intro i inside
    have bound : (pq.heap i).index < pq.hmax := slots_bound slots (used_member inside)
    exact (old _ bound).trans (slots.placed i inside)
  · have whole : range hmax = range pq.hmax ++ range' pq.hmax (hmax - pq.hmax) := by
      have joined := @range'_append_1 0 pq.hmax (hmax - pq.hmax)
      rw [zero_add, add_sub_of_le (le_of_lt larger)] at joined
      rw [range_eq_range', range_eq_range', joined]
    change (pqueueUsed pq ++ ([] ++ freeList (pqueueAddFreelist pq.hmax { pq with hmax }).elements
      (hmax - 1) (hmax - pq.htop - 0))).Perm (range hmax)
    rw [Nat.sub_zero, chain, whole, nil_append]
    apply List.Perm.trans (perm_append_comm_assoc ..)
    apply List.Perm.trans perm_append_comm
    exact List.Perm.append slots.shared (reverse_perm _)

theorem reserve_done (slots : PqueueSlots [] pq) (reserved : pqueueReserve mem 1 pq = some pq') :
    PqueueSlots [] pq' ∧ pq'.htop < pq'.hmax ∧ pq'.htop = pq.htop ∧ pq'.heap = pq.heap := by
  have room := slots_room slots
  rw [length_nil] at room
  unfold pqueueReserve at reserved
  split at reserved
  · obtain rfl := some.inj reserved
    exact ⟨slots, by omega, rfl, rfl⟩
  · have least : minNodes = 8 := rfl
    have size := slots.size
    dsimp only at reserved
    split at reserved
    · cases reserved
    · rename_i grows
      split at reserved
      · cases reserved
      · have grown : computePqueueGrowth (1 + pq.hmax) pq.hmax = 0 ∨ _ :=
          growth_enough (by omega) size.2
        cases grown with
        | inl failed => exact absurd failed grows
        | inr enough =>
          obtain rfl := some.inj reserved
          exact ⟨addFreelist_slots slots (by omega) enough.2, by
            change pq.htop < computePqueueGrowth (1 + pq.hmax) pq.hmax; omega, rfl, rfl⟩

theorem push_done {compare : α → α → Int} (total : Comparator compare) (ok : PqueueOk compare pq)
    {data : α} (pushed : pqueuePush compare mem data pq = some (pq', elem)) :
    PqueueOk compare pq' ∧ elem ∉ pqueueUsed pq ∧
      (pqueueMembers pq').Perm ({ data, index := elem } :: pqueueMembers pq) := by
  unfold pqueuePush at pushed
  cases reserved : pqueueReserve mem 1 pq with
  | none =>
    rw [reserved] at pushed
    cases pushed
  | some larger =>
    obtain ⟨slots, room, htop, heap⟩ := reserve_done ok.slots reserved
    have members : pqueueMembers larger = pqueueMembers pq := by
      rw [pqueueMembers, htop, heap, pqueueMembers]
    have ordered : Ordered (NotAfter compare) larger.htop larger.heap := by
      rw [htop, heap]
      exact ok.ordered
    rw [reserved] at pushed
    obtain ⟨rfl, rfl⟩ := Prod.mk.inj (some.inj pushed)
    rw [pqueueUsed, ← members]
    have count : larger.hmax - larger.htop = (larger.hmax - (larger.htop + 1)) + 1 := by omega
    have shared := slots.shared
    have free : larger.freelist ∈
        freeList larger.elements larger.freelist (larger.hmax - larger.htop) := by
      rw [count, freeList]
      exact mem_cons_self
    have unused : larger.freelist ∉ pqueueUsed larger := by
      intro used
      exact used_not_free slots used free
    have rest : larger.freelist ∉ freeList larger.elements (larger.elements larger.freelist)
        (larger.hmax - (larger.htop + 1)) := by
      have nodup := (nodup_append.mp (slots_nodup slots)).2.1
      dsimp only [length_nil] at nodup
      rw [nil_append, Nat.sub_zero, count, freeList] at nodup
      exact (nodup_cons.mp nodup).1
    have same : items larger.htop
        (update larger.heap larger.htop { data, index := larger.freelist }) =
          pqueueMembers larger := by
      apply items_congr
      intro i inside
      exact update_of_ne (by omega) ..
    have added : items (larger.htop + 1)
        (update larger.heap larger.htop { data, index := larger.freelist }) =
          pqueueMembers larger ++ [{ data, index := larger.freelist }] := by
      rw [items_succ, same, update_self]
    have inserted : PqueueSlots []
        { larger with
          htop := larger.htop + 1
          freelist := larger.elements larger.freelist
          heap := update larger.heap larger.htop { data, index := larger.freelist }
          elements := update larger.elements larger.freelist larger.htop } := by
      constructor
      · exact slots.size
      · intro i inside
        dsimp only at inside ⊢
        by_cases last : i = larger.htop
        · subst last
          rw [update_self]
          exact update_self ..
        · have low : i < larger.htop := by omega
          rw [update_of_ne last, update_of_ne]
          · exact slots.placed i low
          · intro equal
            rw [← equal] at unused
            exact unused (used_member low)
      · rw [pqueueUsed, pqueueMembers]
        dsimp only [length_nil] at shared ⊢
        rw [added, nil_append, Nat.sub_zero, freeList_update _ rest]
        rw [nil_append, Nat.sub_zero, count, freeList, pqueueUsed] at shared
        apply List.Perm.trans _ shared
        rw [map_append, append_assoc]
        exact List.Perm.refl _
    have parted : Parted (NotAfter compare) (larger.htop + 1)
        (update larger.heap larger.htop { data, index := larger.freelist }) larger.htop := by
      constructor
      · intro i pos inside here above
        rw [update_of_ne here, update_of_ne above]
        exact ordered i pos (by omega)
      · intro _ i pos inside child
        have up := parent_lt pos
        omega
    have leads : Leads (NotAfter compare) (larger.htop + 1)
        (update larger.heap larger.htop { data, index := larger.freelist }) larger.htop := by
      intro i pos inside child
      have up := parent_lt pos
      omega
    obtain ⟨settled, restored⟩ := moveDown_restores total (larger.htop + 1) inserted
      (lt_succ_self _) (lt_succ_self _) parted leads
    constructor
    · exact ⟨settled.slots, restored⟩
    · constructor
      · exact unused
      · apply List.Perm.trans settled.members
        rw [pqueueMembers]
        rw [added]
        exact perm_append_singleton ..

theorem pqueueNew_ok [Inhabited α] (compare : α → α → Int) :
    PqueueOk compare (pqueueNew : OsslPqueue α) ∧
      pqueueMembers (pqueueNew : OsslPqueue α) = [] := by
  constructor
  · constructor
    · constructor
      · change minNodes ≤ minNodes ∧ minNodes ≤ maxNodes
        decide
      · intro i inside
        exact absurd inside (not_lt_zero i)
      · change (freeList (fun i => if i = 0 then 0 else if 0 < i ∧ i < minNodes then i - 1 else 0)
          (minNodes - 1) minNodes).Perm (range minNodes)
        decide
    · intro i _ inside
      exact absurd inside (not_lt_zero i)
  · rfl

theorem pqueueOk_congr {compare compare' : α → α → Int} (ok : PqueueOk compare pq)
    (same : ∀ x ∈ pqueueMembers pq, ∀ y ∈ pqueueMembers pq,
      compare' x.data y.data = compare x.data y.data) : PqueueOk compare' pq := by
  constructor
  · exact ok.slots
  · intro i pos inside
    have up := parent_lt pos
    have above := mem_members.mpr ⟨parent i, (by omega : parent i < pq.htop), rfl⟩
    unfold NotAfter
    rw [same _ above _ (mem_members.mpr ⟨i, inside, rfl⟩)]
    exact ok.ordered i pos inside

end Ossl
