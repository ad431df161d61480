import OpenSSL.HashtableLaws
import OpenSSL.Lib.Runs

/- Runs of the hash table against a map from key bytes to values. The table is that map as long as
   no stored key shares the hash of an operation's key and differs from it in size. -/
namespace Ossl
open Prod Option Function Runs
variable {α : Type}

structure Ht.Holds (t : Ht α) (map : List UInt8 → Option α) : Prop where
  sound : t.Sound
  entries : ∀ key value, map key = some value ↔
    ∃ n j entry, t.slots n j = some entry ∧ entry.key = key ∧ entry.value = value
  finite : {key | map key ≠ none}.Finite
  count : htCount t = {key | map key ≠ none}.ncard

variable {t : Ht α} {map : List UInt8 → Option α} {j n : Nat} {entry : HtEntry α} {key : List UInt8}

theorem absent_iff (holds : t.Holds map) : t.Absent key ↔ map key = none := by
  constructor
  · intro absent
    cases held : map key with
    | none => rfl
    | some value =>
      obtain ⟨n, j, entry, slot, mine, _⟩ := (holds.entries key value).mp held
      exact absurd mine (absent n j entry slot)
  · intro none_ n j entry slot mine
    rw [(holds.entries key entry.value).mpr ⟨n, j, entry, slot, mine, rfl⟩] at none_
    cases none_

theorem held_value (holds : t.Holds map) (slot : t.slots n j = some entry) :
    map entry.key = some entry.value :=
  (holds.entries entry.key entry.value).mpr ⟨n, j, entry, slot, rfl, rfl⟩

theorem slot_entries {t : Ht α} {map : List UInt8 → Option α} {key : List UInt8} {n j : Nat}
    {content : Option (HtEntry α)} (holds : t.Holds map)
    (own : ∀ entry, content = some entry → entry.key = key)
    (was : ∀ entry, t.slots n j = some entry → entry.key = key)
    (alone : ∀ n' j' entry, ¬(n' = n ∧ j' = j) → t.slots n' j' = some entry → entry.key ≠ key)
    (k : List UInt8) (v : α) :
    update map key (content.map (·.value)) k = some v ↔
      ∃ n' j' entry, setSlot t.slots n j content n' j' = some entry ∧ entry.key = k ∧
        entry.value = v := by
  by_cases same : k = key
  · subst same
    rw [update_self]
    constructor
    · intro mine
      obtain ⟨entry, is, value⟩ := map_eq_some_iff.mp mine
      exact ⟨n, j, entry, (if_pos ⟨rfl, rfl⟩).trans is, own entry is, value⟩
    · rintro ⟨n', j', entry, slot, mine, rfl⟩
      rcases setSlot_cases slot with ⟨_, _, new⟩ | ⟨away, old⟩
      · rw [new]
        rfl
      · exact absurd mine (alone n' j' entry away old)
  · rw [update_of_ne same, holds.entries]
    constructor
    · rintro ⟨n', j', entry, slot, mine, what⟩
      refine ⟨n', j', entry, ?_, mine, what⟩
      unfold setSlot
      rw [if_neg]
      · exact slot
      · rintro ⟨rfl, rfl⟩
        exact same (mine.symm.trans (was entry slot))
    · rintro ⟨n', j', entry, slot, mine, what⟩
      rcases setSlot_cases slot with ⟨_, _, new⟩ | ⟨_, old⟩
      · exact absurd (mine.symm.trans (own entry new)) same
      · exact ⟨n', j', entry, old, mine, what⟩

theorem insert_holds {value : α} (holds : t.Holds map)
    (place : t.Place key n j) (absent : t.Absent key) : Ht.Holds { t with
        slots := setSlot t.slots n j (some ⟨t.hashFn key, key, value⟩)
        valueCount := t.valueCount + 1 } (update map key (some value)) := by
  have none_ : map key = none := (absent_iff holds).mp absent
  have keys : {k | update map key (some value) k ≠ none} =
      insert key {k | map k ≠ none} := by
    ext k
    by_cases same : k = key
    · simp [same]
    · simp [same]
  refine ⟨insert_sound holds.sound place absent, ?_, ?_, ?_⟩
  · refine @slot_entries _ t map key n j (some ⟨t.hashFn key, key, value⟩) holds ?_ ?_ ?_
    · rintro _ ⟨⟩
      rfl
    · intro entry slot
      rw [place.empty] at slot
      cases slot
    · exact fun n' j' entry _ old => absent n' j' entry old
  · rw [keys]
    exact holds.finite.insert key
  · rw [keys, Set.ncard_insert_of_notMem (by simp [none_]) holds.finite, ← holds.count]
    rfl

theorem replace_holds {value : α} (holds : t.Holds map) (slot : t.slots n j = some entry) :
    Ht.Holds { t with
        slots := setSlot t.slots n j (some ⟨t.hashFn entry.key, entry.key, value⟩) }
      (update map entry.key (some value)) := by
  have held := held_value holds slot
  have keys : {k | update map entry.key (some value) k ≠ none} =
      {k | map k ≠ none} := by
    ext k
    by_cases same : k = entry.key
    · simp [same, held]
    · simp [update_of_ne same]
  refine ⟨replace_sound holds.sound slot rfl, ?_, ?_, ?_⟩
  · refine @slot_entries _ t map entry.key n j (some ⟨t.hashFn entry.key, entry.key, value⟩) holds
      ?_ ?_ ?_
    · rintro _ ⟨⟩
      rfl
    · intro other there
      rw [slot] at there
      cases there
      rfl
    · exact fun n' j' other away old mine =>
        away (holds.sound.unique _ _ _ _ _ _ old slot mine)
  · rw [keys]
    exact holds.finite
  · rw [keys, ← holds.count]
    rfl

theorem delete_holds (holds : t.Holds map) (unlocked : t.lockless = false)
    (slot : t.slots n j = some entry) :
    Ht.Holds { t with slots := setSlot t.slots n j none, valueCount := t.valueCount - 1 }
      (update map entry.key none) := by
  have held := held_value holds slot
  have keys : {k | update map entry.key none k ≠ none} =
      {k | map k ≠ none} \ {entry.key} := by
    ext k
    by_cases same : k = entry.key
    · simp [same]
    · simp [same]
  refine ⟨delete_sound holds.sound unlocked, ?_, ?_, ?_⟩
  · refine @slot_entries _ t map entry.key n j none holds ?_ ?_ ?_
    · rintro _ ⟨⟩
    · intro other there
      rw [slot] at there
      cases there
      rfl
    · exact fun n' j' other away old mine =>
        away (holds.sound.unique _ _ _ _ _ _ old slot mine)
  · rw [keys]
    exact holds.finite.sdiff
  · rw [keys, Set.ncard_sdiff_singleton_of_mem (by simp [held]), ← holds.count]
    rfl

theorem empty_holds (power : ∃ k, t.mask + 1 = 2 ^ k) (rows : t.neighborhoodsLen = t.mask + 1)
    (empty : t.slots = fun _ _ => none) (count : t.valueCount = 0) : t.Holds fun _ => none := by
  refine ⟨⟨power, rows, ?_, ?_, ?_, ?_⟩, ?_, ?_, ?_⟩
  all_goals simp [empty, htCount, count]

theorem growHashtable_holds (holds : t.Holds map) (unlocked : t.lockless = false) (fuel : Nat) :
    ∃ t', growHashtable (fuel + 1) t t.neighborhoodsLen = some t' ∧ t'.Holds map ∧
      t'.lockless = t.lockless ∧ ∀ key, t.Apart key → t'.Apart key := by
  obtain ⟨slots, rehashed, sound, entries⟩ := grow_keeps holds.sound unlocked
  refine ⟨_, ?_, ⟨sound, ?_, holds.finite, holds.count⟩, rfl, ?_⟩
  · rw [growHashtable]
    simp only [unlocked, rehashed]
    rfl
  · intro key value
    rw [holds.entries]
    constructor
    · rintro ⟨n, j, entry, slot, mine⟩
      obtain ⟨n', j', slot'⟩ := (entries entry).mpr ⟨n, j, slot⟩
      exact ⟨n', j', entry, slot', mine⟩
    · rintro ⟨n, j, entry, slot, mine⟩
      obtain ⟨n', j', slot'⟩ := (entries entry).mp ⟨n, j, slot⟩
      exact ⟨n', j', entry, slot', mine⟩
  · intro key apart n j entry slot
    obtain ⟨n', j', slot'⟩ := (entries entry).mp ⟨n, j, slot⟩
    exact apart n' j' entry slot'

/-- What an insertion comes to: no room, a key that is there already, or the
    value in the map with the old one handed back. -/
def Inserts (map : List UInt8 → Option α) (key : List UInt8) (value : α) (wanted : Bool)
    (result : Ht α × Int × Option α) : Prop :=
  (result.2 = (-1, none) ∧ map key = none ∧ result.1.Holds map) ∨
  (result.2 = (0, none) ∧ map key ≠ none ∧ wanted = false ∧ result.1.Holds map) ∨
  (result.2 = (1, map key) ∧ (map key = none ∨ wanted = true) ∧
    result.1.Holds (update map key (some value)))

theorem htInsertLocked_inserts (value : α) (wanted : Bool)
    (holds : t.Holds map) (apart : t.Apart key) :
    Inserts map key value wanted (htInsertLocked t key value wanted) ∧
      ((htInsertLocked t key value wanted).2.1 = -1 →
        (htInsertLocked t key value wanted).1 = t) := by
  unfold htInsertLocked
  rcases scan_cases holds.sound apart with
    ⟨n, j, entry, found, slot, rfl⟩ | ⟨n, j, free, place, absent⟩ | ⟨n, full, absent⟩
  · have held := held_value holds slot
    rw [found]
    cases wanted with
    | false =>
      refine ⟨.inr (.inl ⟨rfl, ?_, rfl, holds⟩), fun _ => rfl⟩
      rw [held]
      exact some_ne_none _
    | true =>
      refine ⟨.inr (.inr ⟨?_, .inr rfl, replace_holds holds slot⟩), ?_⟩
      · rw [held]
        rfl
      · intro fails
        have wrong : (1 : Int) = -1 := fails
        exact absurd wrong (by decide)
  · rw [free]
    refine ⟨.inr (.inr ⟨?_, .inl ((absent_iff holds).mp absent),
      insert_holds holds place absent⟩), ?_⟩
    · rw [(absent_iff holds).mp absent]
    · intro fails
      have wrong : (1 : Int) = -1 := fails
      exact absurd wrong (by decide)
  · rw [full]
    exact ⟨.inl ⟨rfl, (absent_iff holds).mp absent, holds⟩, fun _ => rfl⟩

theorem htInsertLoop_inserts {map : List UInt8 → Option α} {key : List UInt8} (value : α)
    (wanted : Bool) (left : Nat) :
    ∀ {t : Ht α}, t.Holds map → t.Apart key →
      Inserts map key value wanted (htInsertLoop key value wanted left t) := by
  induction left with
  | zero =>
    intro t holds apart
    exact (htInsertLocked_inserts value wanted holds apart).1
  | succ left ih =>
    intro t holds apart
    obtain ⟨inserts, same⟩ := htInsertLocked_inserts value wanted holds apart
    rw [htInsertLoop]
    generalize htInsertLocked t key value wanted = result at inserts same
    obtain ⟨t', rc, old⟩ := result
    dsimp only at same ⊢
    by_cases full : rc = -1
    · obtain rfl := same full
      subst full
      rw [if_pos rfl]
      have absent : map key = none := by
        rcases inserts with ⟨_, none_, _⟩ | ⟨one, _⟩ | ⟨one, _⟩
        · exact none_
        · have wrong : (-1 : Int) = 0 := congrArg fst one
          exact absurd wrong (by decide)
        · have wrong : (-1 : Int) = 1 := congrArg fst one
          exact absurd wrong (by decide)
      cases lock : t'.lockless with
      | true =>
        have refused : growHashtable 64 t' t'.neighborhoodsLen = none := by
          rw [growHashtable]
          exact if_pos lock
        rw [refused]
        exact .inl ⟨rfl, absent, holds⟩
      | false =>
        obtain ⟨grown, grows, holds', _, apart'⟩ := growHashtable_holds holds lock 63
        rw [grows]
        exact ih holds' (apart' key apart)
    · rw [if_neg full]
      exact inserts

theorem htGet_answers (holds : t.Holds map) (apart : t.Apart key) :
    htGet t key = map key := by
  unfold htGet
  rcases scan_cases holds.sound apart with
    ⟨n, j, entry, found, slot, rfl⟩ | ⟨n, j, free, _, absent⟩ | ⟨n, full, absent⟩
  · rw [found, held_value holds slot]
  · rw [free, (absent_iff holds).mp absent]
  · rw [full, (absent_iff holds).mp absent]

theorem htDelete_answers (holds : t.Holds map)
    (apart : t.lockless = false → t.Apart key) :
    ((htDelete t key).2 = 1 ∧ t.lockless = false ∧ map key ≠ none ∧
      (htDelete t key).1.Holds (update map key none)) ∨
    (htDelete t key = (t, 0) ∧ (t.lockless = true ∨ map key = none)) := by
  unfold htDelete
  by_cases lock : t.lockless = true
  · rw [if_pos lock]
    exact .inr ⟨rfl, .inl lock⟩
  · have unlocked : t.lockless = false := by simpa using lock
    rw [if_neg lock]
    rcases scan_cases holds.sound (apart unlocked) with
      ⟨n, j, entry, found, slot, rfl⟩ | ⟨n, j, free, _, absent⟩ | ⟨n, full, absent⟩
    · rw [found]
      refine .inl ⟨rfl, unlocked, ?_, delete_holds holds unlocked slot⟩
      rw [held_value holds slot]
      exact some_ne_none _
    · rw [free]
      exact .inr ⟨rfl, .inr ((absent_iff holds).mp absent)⟩
    · rw [full]
      exact .inr ⟨rfl, .inr ((absent_iff holds).mp absent)⟩

inductive HtOp (α : Type) where
  | insert (key : List UInt8) (value : Option α) (wanted : Bool)
  | get (key : List UInt8)
  | delete (key : List UInt8)
  | flush

/-- The return code of a call, the olddata it hands back and the value it gets. -/
structure HtAnswer (α : Type) where
  rc : Int
  old : Option α
  got : Option α

def HtOp.call (t : Ht α) : HtOp α → Ht α × HtAnswer α
  | .insert key value wanted =>
    let (t, rc, old) := htInsert t key value wanted
    (t, ⟨rc, old, none⟩)
  | .get key => (t, ⟨1, none, htGet t key⟩)
  | .delete key =>
    let (t, rc) := htDelete t key
    (t, ⟨rc, none, none⟩)
  | .flush =>
    let (t, rc) := htFlush t
    (t, ⟨rc, none, none⟩)

def HtOp.Apart (t : Ht α) : HtOp α → Prop
  | .insert key (some _) _ => t.Apart key
  | .insert _ none _ => True
  | .get key => t.Apart key
  | .delete key => t.lockless = false → t.Apart key
  | .flush => True

/-- What a map answers; an insertion of a new key may find no room. -/
def HtOp.Right (map : List UInt8 → Option α) (lockless : Bool) (answer : HtAnswer α) :
    HtOp α → Prop
  | .insert _ none _ => answer.rc = 0
  | .insert key (some _) wanted =>
    (map key ≠ none → wanted = true → answer.rc = 1 ∧ answer.old = map key) ∧
    (map key ≠ none → wanted = false → answer.rc = 0 ∧ answer.old = none) ∧
    (map key = none → (answer.rc = 1 ∨ answer.rc = -1) ∧ answer.old = none)
  | .get key => answer.got = map key
  | .delete key => answer.rc = if lockless = false ∧ (map key).isSome then 1 else 0
  | .flush => answer.rc = 1

/-- The map after an operation; an insertion that found no room changes nothing. -/
def HtOp.next (map : List UInt8 → Option α) (lockless : Bool) (rc : Int) :
    HtOp α → List UInt8 → Option α
  | .insert key (some value) wanted =>
    if rc ≠ -1 ∧ ((map key).isNone ∨ wanted) then update map key (some value) else map
  | .insert _ none _ => map
  | .get _ => map
  | .delete key => if lockless then map else update map key none
  | .flush => fun _ => none

structure HtRun (α : Type) where
  table : Ht α
  map : List UInt8 → Option α

def HtRun.step (s : HtRun α) (op : HtOp α) : HtRun α :=
  let result := op.call s.table
  ⟨result.1, op.next s.map s.table.lockless result.2.rc⟩

def HtRun.Apart (s : HtRun α) (op : HtOp α) : Prop := op.Apart s.table

theorem insert_right {value : α} {wanted lockless : Bool}
    {result : Ht α × Int × Option α} (inserts : Inserts map key value wanted result) :
    HtOp.Right map lockless ⟨result.2.1, result.2.2, none⟩ (.insert key (some value) wanted) ∧
      result.1.Holds (HtOp.next map lockless result.2.1 (.insert key (some value) wanted)) := by
  obtain ⟨t', rc, old⟩ := result
  unfold HtOp.Right HtOp.next
  dsimp only [Inserts] at inserts ⊢
  rcases inserts with ⟨answer, none_, held⟩ | ⟨answer, some_, refused, held⟩ | ⟨answer, fresh, held⟩
  · obtain ⟨rfl, rfl⟩ := mk.inj answer
    refine ⟨⟨fun held => absurd none_ held, fun held => absurd none_ held,
      fun _ => ⟨.inr rfl, rfl⟩⟩, ?_⟩
    rw [if_neg (by simp)]
    exact held
  · obtain ⟨rfl, rfl⟩ := mk.inj answer
    refine ⟨⟨fun _ yes => ?_, fun _ _ => ⟨rfl, rfl⟩, fun none_ => absurd none_ some_⟩, ?_⟩
    · rw [refused] at yes
      cases yes
    · rw [if_neg (by simp [refused, isNone_iff_eq_none, some_])]
      exact held
  · obtain ⟨rfl, rfl⟩ := mk.inj answer
    refine ⟨⟨fun _ _ => ⟨rfl, rfl⟩, fun some_ no => ?_, fun none_ => ⟨.inl rfl, none_⟩⟩, ?_⟩
    · rcases fresh with none_ | yes
      · exact absurd none_ some_
      · rw [no] at yes
        cases yes
    · rw [if_pos]
      · exact held
      · refine ⟨by decide, ?_⟩
        simpa [isNone_iff_eq_none] using fresh

theorem call_right (op : HtOp α) (holds : t.Holds map) (apart : op.Apart t) :
    op.Right map t.lockless (op.call t).2 ∧
      (op.call t).1.Holds (op.next map t.lockless (op.call t).2.rc) := by
  cases op with
  | insert key value wanted =>
    cases value with
    | none => exact ⟨rfl, holds⟩
    | some value =>
      have inserts := @htInsertLoop_inserts α map key value wanted 4 t holds apart
      exact insert_right inserts
  | get key => exact ⟨htGet_answers holds apart, holds⟩
  | delete key =>
    unfold HtOp.call HtOp.Right HtOp.next
    dsimp only
    rcases htDelete_answers holds apart with ⟨rc, unlocked, some_, held⟩ | ⟨same, stays⟩
    · refine ⟨?_, ?_⟩
      · rw [rc, if_pos ⟨unlocked, isSome_iff_ne_none.mpr some_⟩]
      · rw [unlocked]
        exact held
    · rw [same]
      refine ⟨?_, ?_⟩
      · rw [if_neg]
        rintro ⟨unlocked, some_⟩
        rcases stays with locked | none_
        · rw [unlocked] at locked
          cases locked
        · exact absurd none_ (isSome_iff_ne_none.mp some_)
      · cases lock : t.lockless with
        | true => exact holds
        | false =>
          have none_ : map key = none := stays.resolve_left (by simp [lock])
          have unchanged : update map key none = map := by
            rw [← none_, update_eq_self]
          rw [if_neg (by simp), unchanged]
          exact holds
  | flush => exact ⟨rfl, empty_holds ⟨4, rfl⟩ rfl rfl rfl⟩

/-- In every run whose operations find no stored key of the same hash and another size, the table
    holds the map, answers and counts as the map does, and grows without starting again. -/
theorem ht_refines_map (lockless : Bool) (hashFn : List UInt8 → UInt64) (k : Nat)
    (ops : List (HtOp α))
    (apart : Admissible HtRun.step HtRun.Apart ⟨htNew lockless hashFn k, fun _ => none⟩ ops) :
    ∀ s ∈ visited HtRun.step ⟨htNew lockless hashFn k, fun _ => none⟩ ops,
      s.table.Holds s.map ∧
      (s.table.lockless = false → ∃ t, growHashtable 1 s.table s.table.neighborhoodsLen = some t ∧
        t.Holds s.map) ∧
      ∀ op : HtOp α, op.Apart s.table → op.Right s.map s.table.lockless (op.call s.table).2 := by
  have start : (htNew lockless hashFn k : Ht α).Holds fun _ => none := by
    have rows : 2 ^ k - 1 + 1 = 2 ^ k := Nat.sub_add_cancel (Nat.two_pow_pos k)
    exact empty_holds ⟨k, rows⟩ rows.symm rfl rfl
  have keeps : ∀ (s : HtRun α) (op : HtOp α), s.table.Holds s.map → s.Apart op →
      (s.step op).table.Holds (s.step op).map := fun s op holds apart =>
    (call_right op holds apart).2
  intro s member
  have holds : s.table.Holds s.map :=
    @visited_invariant _ _ HtRun.step HtRun.Apart (fun s => s.table.Holds s.map) keeps _ _ start
      apart s member
  refine ⟨holds, ?_, fun op apart => (call_right op holds apart).1⟩
  intro unlocked
  obtain ⟨t, grows, held, _⟩ := growHashtable_holds holds unlocked 0
  exact ⟨t, grows, held⟩

/-- Two keys of one size and one hash. -/
theorem ht_refines_map_collision :
    let fresh : HtRun Nat := ⟨htNew false (fun _ => 0) 4, fun _ => none⟩
    let ops : List (HtOp Nat) := [.insert [1] (some 7) false, .get [2]]
    ∀ s ∈ visited HtRun.step fresh ops, s.table.Holds s.map ∧
      (s.table.lockless = false → ∃ t, growHashtable 1 s.table s.table.neighborhoodsLen = some t ∧
        t.Holds s.map) ∧
      ∀ op : HtOp Nat, op.Apart s.table → op.Right s.map s.table.lockless (op.call s.table).2 := by
  refine ht_refines_map false (fun _ => 0) 4 _ ⟨?_, ?_, trivial⟩
  · intro n j entry slot
    cases slot
  · intro n j entry slot _
    rcases setSlot_cases slot with ⟨_, _, same⟩ | ⟨_, old⟩
    · cases same
      rfl
    · cases old

/-- A key of one byte is stored, and a key of two bytes with the same hash is
    taken for it by every call. -/
theorem ht_sizes_confused :
    let t : Ht Nat := (htInsert (htNew false (fun _ => 0) 4) [1] (some 7) false).1
    htGet t [1, 2] = some 7 ∧ (htInsert t [1, 2] (some 8) false).2.1 = 0 ∧
      (htInsert t [1, 2] (some 8) true).2.2 = some 7 ∧ (htDelete t [1, 2]).2 = 1 := by
  decide

end Ossl
