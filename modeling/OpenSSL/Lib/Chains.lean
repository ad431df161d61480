import Mathlib.Data.List.Nodup
import Mathlib.Logic.Function.Basic

/- Singly linked lists threaded through nodes, and tables of them: every member node is
   on the chain of its key, each chain sorted by descending rank. -/
namespace Chains
open List Function
variable {Node Key : Type*}

/-- Following `next` from `head` passes the nodes of the list and ends. -/
def Linked (next : Node → Option Node) : Option Node → List Node → Prop
  | head, [] => head = none
  | head, a :: rest => head = some a ∧ Linked next (next a) rest

variable {head : Option Node}

variable {nodes : List Node}

theorem linked_congr {next next' : Node → Option Node} (same : ∀ a ∈ nodes, next' a = next a)
    (linked : Linked next head nodes) : Linked next' head nodes := by
  induction nodes generalizing head with
  | nil => exact linked
  | cons a rest ih =>
    constructor
    · exact linked.1
    · rw [same a mem_cons_self]
      apply ih
      · intro b member
        exact same b (mem_cons_of_mem a member)
      · exact linked.2

theorem linked_head {next : Node → Option Node} (linked : Linked next head nodes) :
    head = nodes.head? := by
  cases nodes with
  | nil => exact linked
  | cons a rest => exact linked.1

theorem linked_next {next : Node → Option Node} {xs ys : List Node} {a : Node}
    (linked : Linked next head (xs ++ a :: ys)) : Linked next (next a) ys := by
  induction xs generalizing head with
  | nil => exact linked.2
  | cons b rest ih => exact ih linked.2

section
variable [DecidableEq Node]

def linkIn (next : Node → Option Node) (head : Option Node) (a : Node) :
    Option Node → (Node → Option Node) × Option Node
  | none => (update next a head, some a)
  | some p => (update (update next a (next p)) p (some a), head)

def linkOut (next : Node → Option Node) (head : Option Node) (a : Node) :
    Option Node → (Node → Option Node) × Option Node
  | none => (next, next a)
  | some p => (update next p (next a), head)

variable {head : Option Node} {xs ys : List Node} {a : Node}

variable {p : Node} {next : Node → Option Node}

theorem linkAfter_linked (linked : Linked next head (xs ++ p :: ys))
    (nodup : (xs ++ p :: ys).Nodup) (outside : a ∉ xs ++ p :: ys) :
    Linked (update (update next a (next p)) p (some a)) head (xs ++ p :: a :: ys) := by
  induction xs generalizing head with
  | nil =>
    have apart : a ≠ p := fun same => outside (same ▸ mem_cons_self)
    have later := (nodup_cons.mp nodup).1
    constructor
    · exact linked.1
    · constructor
      · exact update_self ..
      · rw [update_of_ne apart, update_self]
        apply linked_congr _ linked.2
        intro b member
        have notNew : b ≠ a := fun same => outside (same ▸ mem_cons_of_mem p member)
        have notHolder : b ≠ p := fun same => later (same ▸ member)
        rw [update_of_ne notHolder, update_of_ne notNew]
  | cons b rest ih =>
    have notNew : b ≠ a := fun same => outside (same ▸ mem_cons_self)
    have notHolder : b ≠ p := by
      intro same
      apply (nodup_cons.mp nodup).1
      rw [same]
      exact mem_append_right _ mem_cons_self
    constructor
    · exact linked.1
    · rw [update_of_ne notHolder, update_of_ne notNew]
      apply ih linked.2 (nodup_cons.mp nodup).2
      intro member
      exact outside (mem_cons_of_mem b member)

theorem linkIn_linked (linked : Linked next head (xs ++ ys))
    (nodup : (xs ++ ys).Nodup) (outside : a ∉ xs ++ ys) :
    Linked (linkIn next head a xs.getLast?).1 (linkIn next head a xs.getLast?).2
      (xs ++ a :: ys) := by
  cases eq : xs.getLast? with
  | none =>
    obtain rfl := getLast?_eq_none_iff.mp eq
    constructor
    · rfl
    · rw [linkIn]
      dsimp only
      rw [update_self]
      apply linked_congr _ linked
      intro b member
      apply update_of_ne
      exact fun same => outside (same ▸ member)
  | some p =>
    obtain ⟨init, rfl⟩ := getLast?_eq_some_iff.mp eq
    rw [append_assoc] at linked nodup outside ⊢
    exact linkAfter_linked linked nodup outside

theorem linkPast_linked
    (linked : Linked next head (xs ++ p :: a :: ys)) (nodup : (xs ++ p :: a :: ys).Nodup) :
    Linked (update next p (next a)) head (xs ++ p :: ys) := by
  induction xs generalizing head with
  | nil =>
    have later := (nodup_cons.mp nodup).1
    constructor
    · exact linked.1
    · rw [update_self]
      apply linked_congr _ linked.2.2
      intro b member
      apply update_of_ne
      exact fun same => later (same ▸ mem_cons_of_mem a member)
  | cons b rest ih =>
    constructor
    · exact linked.1
    · rw [update_of_ne]
      · exact ih linked.2 (nodup_cons.mp nodup).2
      · intro same
        apply (nodup_cons.mp nodup).1
        rw [same]
        exact mem_append_right _ mem_cons_self

theorem linkOut_linked (linked : Linked next head (xs ++ a :: ys))
    (nodup : (xs ++ a :: ys).Nodup) :
    Linked (linkOut next head a xs.getLast?).1 (linkOut next head a xs.getLast?).2 (xs ++ ys) := by
  cases eq : xs.getLast? with
  | none =>
    obtain rfl := getLast?_eq_none_iff.mp eq
    exact linked.2
  | some p =>
    obtain ⟨init, rfl⟩ := getLast?_eq_some_iff.mp eq
    rw [append_assoc] at linked nodup ⊢
    exact linkPast_linked linked nodup

end

/-- Every member is on the chain that its key's head leads to. -/
structure Indexed (next : Node → Option Node) (head : Key → Option Node) (keyOf : Node → Key)
    (rank : Node → Nat) (member : Node → Prop) (lists : Key → List Node) : Prop where
  linked : ∀ k, Linked next (head k) (lists k)
  mem : ∀ k a, a ∈ lists k ↔ member a ∧ keyOf a = k
  nodup : ∀ k, (lists k).Nodup
  sorted : ∀ k, (lists k).Pairwise (fun a b => rank b ≤ rank a)

section
variable {next next' : Node → Option Node} {head head' : Key → Option Node}
  {keyOf keyOf' : Node → Key} {rank rank' : Node → Nat} {member member' : Node → Prop}
  {lists : Key → List Node}

theorem indexed_congr (ix : Indexed next head keyOf rank member lists)
    (members : ∀ a, member' a ↔ member a) (nexts : ∀ a, member a → next' a = next a)
    (heads : ∀ k, head' k = head k) (keys : ∀ a, member a → keyOf' a = keyOf a)
    (ranks : ∀ a, member a → rank' a = rank a) :
    Indexed next' head' keyOf' rank' member' lists := by
  have inside (k : Key) (a : Node) (here : a ∈ lists k) : member a := ((ix.mem k a).mp here).1
  constructor
  · intro k
    rw [heads k]
    apply linked_congr _ (ix.linked k)
    intro a here
    exact nexts a (inside k a here)
  · intro k a
    rw [ix.mem, members a]
    constructor
    · intro old
      rw [keys a old.1]
      exact old
    · intro new
      rw [keys a new.1] at new
      exact new
  · exact ix.nodup
  · intro k
    apply List.Pairwise.imp_of_mem _ (ix.sorted k)
    intro a b aHere bHere order
    rw [ranks a (inside k a aHere), ranks b (inside k b bHere)]
    exact order

/-- Going through the chains of all keys meets every member once. -/
theorem indexed_all (ix : Indexed next head keyOf rank member lists) {keys : List Key}
    (nodup : keys.Nodup) (covers : ∀ k, head k ≠ none → k ∈ keys) :
    (keys.flatMap lists).Nodup ∧ ∀ a, a ∈ keys.flatMap lists ↔ member a := by
  constructor
  · rw [nodup_flatMap]
    constructor
    · intro k _
      exact ix.nodup k
    · apply List.Pairwise.imp _ nodup
      intro k l apart a first second
      exact apart (((ix.mem k a).mp first).2.symm.trans ((ix.mem l a).mp second).2)
  · intro a
    rw [mem_flatMap]
    constructor
    · intro somewhere
      obtain ⟨k, _, here⟩ := somewhere
      exact ((ix.mem k a).mp here).1
    · intro inside
      have here := (ix.mem (keyOf a) a).mpr ⟨inside, rfl⟩
      exists keyOf a
      constructor
      · apply covers
        intro absent
        have first := linked_head (ix.linked (keyOf a))
        rw [absent] at first
        rw [head?_eq_none_iff.mp first.symm] at here
        cases here
      · exact here

variable [DecidableEq Key]

/-- A chain changes, and the nodes it gains or loses are the members gained or lost. -/
theorem indexed_relink (ix : Indexed next head keyOf rank member lists) {k : Key}
    {nodes : List Node} {first : Option Node} (linked : Linked next' first nodes)
    (outside : ∀ a, a ∉ nodes → a ∉ lists k → next' a = next a)
    (mem : ∀ a, a ∈ nodes ↔ member' a ∧ keyOf a = k)
    (others : ∀ a, keyOf a ≠ k → (member' a ↔ member a))
    (nodup : nodes.Nodup) (sorted : nodes.Pairwise (fun a b => rank b ≤ rank a)) :
    Indexed next' (update head k first) keyOf rank member' (update lists k nodes) := by
  constructor
  · intro l
    by_cases here : l = k
    · subst here
      rw [update_self, update_self]
      exact linked
    · rw [update_of_ne here, update_of_ne here]
      apply linked_congr _ (ix.linked l)
      intro a there
      have key := ((ix.mem l a).mp there).2
      apply outside a
      · intro new
        exact here (key.symm.trans ((mem a).mp new).2)
      · intro old
        exact here (key.symm.trans ((ix.mem k a).mp old).2)
  · intro l a
    by_cases here : l = k
    · subst here
      rw [update_self]
      exact mem a
    · rw [update_of_ne here, ix.mem]
      constructor
      · intro old
        exact ⟨(others a (fun same => here (old.2.symm.trans same))).mpr old.1, old.2⟩
      · intro new
        exact ⟨(others a (fun same => here (new.2.symm.trans same))).mp new.1, new.2⟩
  · intro l
    by_cases here : l = k
    · subst here
      rw [update_self]
      exact nodup
    · rw [update_of_ne here]
      exact ix.nodup l
  · intro l
    by_cases here : l = k
    · subst here
      rw [update_self]
      exact sorted
    · rw [update_of_ne here]
      exact ix.sorted l

variable [DecidableEq Node]

variable {a : Node} {xs ys : List Node}

theorem indexed_insert (ix : Indexed next head keyOf rank member lists) (new : ¬ member a)
    (split : lists (keyOf a) = xs ++ ys) (above : ∀ b ∈ xs, rank a ≤ rank b)
    (below : ∀ b ∈ ys, rank b ≤ rank a) : let linked := linkIn next (head (keyOf a)) a xs.getLast?
    Indexed linked.1 (update head (keyOf a) linked.2) keyOf rank
      (fun b => member b ∨ b = a) (update lists (keyOf a) (xs ++ a :: ys)) := by
  have chain := ix.linked (keyOf a)
  have nodup := ix.nodup (keyOf a)
  have sorted := ix.sorted (keyOf a)
  have mem := ix.mem (keyOf a)
  rw [split] at chain nodup sorted mem
  have outside : a ∉ xs ++ ys := by
    intro old
    exact new ((mem a).mp old).1
  apply indexed_relink ix (linkIn_linked chain nodup outside)
  · intro b notNew notOld
    have other : b ≠ a := by
      intro same
      subst same
      exact notNew (mem_append_right _ mem_cons_self)
    cases eq : xs.getLast? with
    | none => exact update_of_ne other ..
    | some p =>
      have holder : b ≠ p := by
        intro same
        subst same
        apply notNew
        exact mem_append_left _ (mem_of_getLast? eq)
      rw [linkIn]
      dsimp only
      rw [update_of_ne holder, update_of_ne other]
  · intro b
    rw [mem_append, mem_cons]
    have old := mem b
    rw [mem_append] at old
    constructor
    · intro here
      by_cases same : b = a
      · subst same
        exact ⟨.inr rfl, rfl⟩
      · have was : b ∈ xs ∨ b ∈ ys := by tauto
        exact ⟨.inl (old.mp was).1, (old.mp was).2⟩
    · intro here
      cases here.1 with
      | inl was =>
        tauto
      | inr same => exact .inr (.inl same)
  · intro b other
    constructor
    · intro either
      cases either with
      | inl was => exact was
      | inr same =>
        subst same
        exact absurd rfl other
    · intro was
      exact .inl was
  · rw [nodup_middle]
    exact nodup_cons.mpr ⟨outside, nodup⟩
  · rw [pairwise_append] at sorted ⊢
    constructor
    · exact sorted.1
    · constructor
      · exact pairwise_cons.mpr ⟨below, sorted.2.1⟩
      · intro b bHere c cHere
        cases mem_cons.mp cHere with
        | inl same =>
          subst same
          exact above b bHere
        | inr later => exact sorted.2.2 b bHere c later

theorem indexed_remove (ix : Indexed next head keyOf rank member lists)
    (split : lists (keyOf a) = xs ++ a :: ys) :
    let linked := linkOut next (head (keyOf a)) a xs.getLast?
    Indexed linked.1 (update head (keyOf a) linked.2) keyOf rank
      (fun b => member b ∧ b ≠ a) (update lists (keyOf a) (xs ++ ys)) := by
  have chain := ix.linked (keyOf a)
  have nodup := ix.nodup (keyOf a)
  have sorted := ix.sorted (keyOf a)
  have mem := ix.mem (keyOf a)
  rw [split] at chain nodup sorted mem
  have gone : a ∉ xs ++ ys := by
    rw [nodup_middle] at nodup
    exact (nodup_cons.mp nodup).1
  apply indexed_relink ix (linkOut_linked chain nodup)
  · intro b notLeft notOld
    cases eq : xs.getLast? with
    | none => rfl
    | some p =>
      apply update_of_ne
      intro same
      subst same
      apply notLeft
      exact mem_append_left _ (mem_of_getLast? eq)
  · intro b
    have old := mem b
    rw [mem_append, mem_cons] at old
    constructor
    · intro here
      have other : b ≠ a := fun same => gone (same ▸ here)
      have was := old.mp (by rw [mem_append] at here; tauto)
      exact ⟨⟨was.1, other⟩, was.2⟩
    · intro here
      have was := old.mpr ⟨here.1.1, here.2⟩
      rw [mem_append]
      have other := here.1.2
      tauto
  · intro b other
    constructor
    · intro both
      exact both.1
    · intro was
      exact ⟨was, fun same => other (same ▸ rfl)⟩
  · rw [nodup_middle] at nodup
    exact (nodup_cons.mp nodup).2
  · rw [pairwise_append] at sorted ⊢
    constructor
    · exact sorted.1
    · constructor
      · exact (pairwise_cons.mp sorted.2.1).2
      · intro b bHere c cHere
        exact sorted.2.2 b bHere c (mem_cons_of_mem a cHere)

end

end Chains
