import OpenSSL.Hashtable
import Mathlib.Data.Set.Card

/- What the searches of the hash table find, and what growing does to it. -/
namespace Ossl
open Option Nat List
variable {α : Type}

theorem matchKey_self (key : List UInt8) : matchKey key key = true := by simp [matchKey]

theorem matchKey_sized {a b : List UInt8} (sized : a.length = b.length) :
    matchKey a b = true ↔ a = b := by simp [matchKey, sized]

def Ht.home (t : Ht α) (key : List UInt8) : Nat := (t.hashFn key).toNat % (t.mask + 1)

/-- Slot j of row n holds an entry that does not match. -/
def Ht.Other (t : Ht α) (hash : UInt64) (key : List UInt8) (n j : Nat) : Prop :=
  ∃ entry, t.slots n j = some entry ∧ ¬(hash = entry.hash ∧ matchKey key entry.key = true)

/-- Slot j of row n holds an entry that matches. -/
def Ht.Matches (t : Ht α) (hash : UInt64) (key : List UInt8) (n j : Nat)
    (entry : HtEntry α) : Prop :=
  t.slots n j = some entry ∧ hash = entry.hash ∧ matchKey key entry.key = true

theorem scanRow_cases (t : Ht α) (hash : UInt64) (key : List UInt8) (n : Nat) (left : Nat) :
    ∀ {j : Nat} {empty : Option Nat}, j + left = neighborhoodLen →
      (∀ i, empty = some i → t.slots n i = none ∧ i < neighborhoodLen) →
      (t.lockless = true → empty = none) →
      (∃ j' entry, scanRow t hash key n left j empty = .found n j' entry ∧
        t.Matches hash key n j' entry) ∨
      (∃ j', scanRow t hash key n left j empty = .free n j' ∧ t.slots n j' = none ∧
        j' < neighborhoodLen ∧
        (t.lockless = true → ∀ i, j ≤ i → i < j' → t.Other hash key n i) ∧
        (t.lockless = false → ∀ i, j ≤ i → i < neighborhoodLen → t.slots n i ≠ none →
          t.Other hash key n i)) ∨
      (scanRow t hash key n left j empty = .full n ∧ empty = none ∧
        ∀ i, j ≤ i → i < neighborhoodLen → t.Other hash key n i) := by
  induction left with
  | zero =>
    intro j empty ends blank lockless
    cases empty with
    | none => exact .inr (.inr ⟨rfl, rfl, fun i low high => by omega⟩)
    | some i =>
      have unlocked : t.lockless = false := by
        by_contra locked
        cases lockless (by simpa using locked)
      refine .inr (.inl ⟨i, rfl, (blank i rfl).1, (blank i rfl).2, ?_, ?_⟩)
      · intro locked
        rw [unlocked] at locked
        cases locked
      · intro _ i low high
        omega
  | succ left ih =>
    intro j empty ends blank lockless
    rw [scanRow]
    cases slot : t.slots n j with
    | none =>
      by_cases locked : t.lockless = true
      · rw [if_pos locked]
        refine .inr (.inl ⟨j, rfl, slot, by omega, fun _ i low high => by omega, ?_⟩)
        intro unlocked
        rw [unlocked] at locked
        cases locked
      · rw [if_neg locked]
        have next := @ih (j + 1) (some j) (by omega)
          (fun i same => some.inj same ▸ ⟨slot, by omega⟩)
          (fun yes => absurd yes locked)
        rcases next with found | ⟨j', free, none_, inside, _, others⟩ | ⟨_, nothing, _⟩
        · exact .inl found
        · refine .inr (.inl ⟨j', free, none_, inside, fun yes => absurd yes locked, ?_⟩)
          intro unlocked i low high held
          by_cases here : i = j
          · rw [here] at held
            exact absurd slot held
          · exact others unlocked i (by omega) high held
        · cases nothing
    | some entry =>
      dsimp only
      by_cases same : hash = entry.hash ∧ matchKey key entry.key = true
      · rw [if_pos same]
        exact .inl ⟨j, entry, rfl, slot, same⟩
      · rw [if_neg same]
        have other : t.Other hash key n j := ⟨entry, slot, same⟩
        rcases @ih (j + 1) empty (by omega) blank lockless with
          found | ⟨j', free, none_, inside, before, others⟩ | ⟨full, nothing, others⟩
        · exact .inl found
        · refine .inr (.inl ⟨j', free, none_, inside, ?_, ?_⟩)
          · intro locked i low high
            by_cases here : i = j
            · exact here ▸ other
            · exact before locked i (by omega) high
          · intro unlocked i low high held
            by_cases here : i = j
            · exact here ▸ other
            · exact others unlocked i (by omega) high held
        · refine .inr (.inr ⟨full, nothing, ?_⟩)
          intro i low high
          by_cases here : i = j
          · exact here ▸ other
          · exact others i (by omega) high

/-- The row d places behind the start of a search. -/
def Ht.rowAt (t : Ht α) (start d : Nat) : Nat := (start + d) % (t.mask + 1)

/-- The search has passed the row: no slot of it is empty or matches. -/
def Ht.Passed (t : Ht α) (hash : UInt64) (key : List UInt8) (n : Nat) : Prop :=
  ∀ i, i < neighborhoodLen → t.Other hash key n i

variable {t : Ht α} {j k n : Nat} {entry : HtEntry α}

theorem mask_and (power : t.mask + 1 = 2 ^ k) (x : Nat) : x &&& t.mask = x % (t.mask + 1) := by
  have mask : t.mask = 2 ^ k - 1 := by omega
  rw [power, mask, and_two_pow_sub_one_eq_mod]

theorem rowAt_next (power : t.mask + 1 = 2 ^ k) (start d : Nat) :
    (t.rowAt start d + 1) &&& t.mask = t.rowAt start (d + 1) := by
  rw [mask_and power, Ht.rowAt, Ht.rowAt, mod_add_mod, add_assoc]

/-- With lockless reads the search goes through the rows until it finds an empty slot. -/
theorem scanRows_cases {t : Ht α} {k : Nat} (power : t.mask + 1 = 2 ^ k)
    (locked : t.lockless = true) (hash : UInt64) (key : List UInt8) {start : Nat}
    (first : start < t.mask + 1) (fuel : Nat) :
    ∀ {d : Nat}, d + fuel = t.mask + 1 → 0 < fuel →
      (∀ d' < d, t.Passed hash key (t.rowAt start d')) →
      (∃ n j entry, scanRows t hash key start fuel (t.rowAt start d) = .found n j entry ∧
        t.Matches hash key n j entry) ∨
      (∃ e j, scanRows t hash key start fuel (t.rowAt start d) = .free (t.rowAt start e) j ∧
        e < t.mask + 1 ∧ t.slots (t.rowAt start e) j = none ∧ j < neighborhoodLen ∧
        (∀ d' < e, t.Passed hash key (t.rowAt start d')) ∧
        ∀ i < j, t.Other hash key (t.rowAt start e) i) ∨
      (∃ n, scanRows t hash key start fuel (t.rowAt start d) = .full n ∧
        ∀ d' < t.mask + 1, t.Passed hash key (t.rowAt start d')) := by
  induction fuel with
  | zero =>
    intro d _ some_
    omega
  | succ fuel ih =>
    intro d ends _ passed
    rw [scanRows]
    rcases @scanRow_cases α t hash key (t.rowAt start d) neighborhoodLen 0 none (by omega)
      (fun i nothing => by cases nothing) (fun _ => rfl) with
      ⟨j, entry, found, here⟩ | ⟨j, free, none_, inside, before, _⟩ | ⟨full, _, others⟩
    · rw [found]
      exact .inl ⟨_, j, entry, rfl, here⟩
    · rw [free]
      exact .inr (.inl ⟨d, j, rfl, by omega, none_, inside, passed,
        fun i less => before locked i (zero_le i) less⟩)
    · rw [full]
      rw [if_pos locked, rowAt_next power]
      have passed' : ∀ d' < d + 1, t.Passed hash key (t.rowAt start d') := by
        intro d' less
        by_cases last : d' = d
        · exact last ▸ fun i inside => others i (zero_le i) inside
        · exact passed d' (by omega)
      by_cases round : d + 1 = t.mask + 1
      · have back : t.rowAt start (d + 1) = start := by
          rw [Ht.rowAt, round, add_mod_right, mod_eq_of_lt first]
        rw [if_pos back]
        exact .inr (.inr ⟨_, rfl, fun d' less => passed' d' (by omega)⟩)
      · have away : t.rowAt start (d + 1) ≠ start := by
          intro back
          rw [Ht.rowAt] at back
          by_cases wrap : start + (d + 1) < t.mask + 1
          · rw [mod_eq_of_lt wrap] at back
            omega
          · rw [mod_eq_sub_mod (by omega), mod_eq_of_lt (by omega)] at back
            omega
        rw [if_neg away]
        exact ih (by omega) (by omega) passed'

/-- Every entry is where a search for its key comes upon it, and no key has two. -/
structure Ht.Sound (t : Ht α) : Prop where
  power : ∃ k, t.mask + 1 = 2 ^ k
  rows : t.neighborhoodsLen = t.mask + 1
  routed : ∀ n j entry, t.slots n j = some entry →
    n < t.mask + 1 ∧ j < neighborhoodLen ∧ entry.hash = t.hashFn entry.key
  home : t.lockless = false → ∀ n j entry, t.slots n j = some entry → n = t.home entry.key
  chained : t.lockless = true → ∀ n j entry, t.slots n j = some entry →
    ∃ d < t.mask + 1, n = t.rowAt (t.home entry.key) d ∧
      (∀ d' < d, ∀ i < neighborhoodLen, t.slots (t.rowAt (t.home entry.key) d') i ≠ none) ∧
      ∀ i < j, t.slots n i ≠ none
  unique : ∀ n j entry n' j' entry', t.slots n j = some entry → t.slots n' j' = some entry' →
    entry.key = entry'.key → n = n' ∧ j = j'

/-- No stored key has the hash of the key and another size. -/
def Ht.Apart (t : Ht α) (key : List UInt8) : Prop :=
  ∀ n j entry, t.slots n j = some entry → entry.hash = t.hashFn key → key.length = entry.key.length

def Ht.Absent (t : Ht α) (key : List UInt8) : Prop :=
  ∀ n j entry, t.slots n j = some entry → entry.key ≠ key

variable {key : List UInt8}

theorem matches_key (apart : t.Apart key)
    (here : t.Matches (t.hashFn key) key n j entry) : entry.key = key := by
  obtain ⟨slot, hash, same⟩ := here
  exact ((matchKey_sized (apart n j entry slot hash.symm)).mp same).symm

theorem other_key (sound : t.Sound) (other : t.Other (t.hashFn key) key n j)
    (slot : t.slots n j = some entry) : entry.key ≠ key := by
  rintro rfl
  obtain ⟨entry', slot', differs⟩ := other
  obtain rfl := some.inj (slot.symm.trans slot')
  exact differs ⟨(sound.routed n j entry slot).2.2.symm, matchKey_self _⟩

/-- The empty slot a search ends at is where the key belongs. -/
structure Ht.Place (t : Ht α) (key : List UInt8) (n j : Nat) : Prop where
  empty : t.slots n j = none
  row : n < t.mask + 1
  slot : j < neighborhoodLen
  home : t.lockless = false → n = t.home key
  chained : t.lockless = true → ∃ d < t.mask + 1, n = t.rowAt (t.home key) d ∧
    (∀ d' < d, ∀ i < neighborhoodLen, t.slots (t.rowAt (t.home key) d') i ≠ none) ∧
    ∀ i < j, t.slots n i ≠ none

theorem other_held {hash : UInt64} (other : t.Other hash key n j) :
    t.slots n j ≠ none := by
  obtain ⟨entry, slot, _⟩ := other
  rw [slot]
  exact some_ne_none entry

theorem scan_cases (sound : t.Sound) (apart : t.Apart key) :
    (∃ n j entry, scan t key = .found n j entry ∧ t.slots n j = some entry ∧ entry.key = key) ∨
    (∃ n j, scan t key = .free n j ∧ t.Place key n j ∧ t.Absent key) ∨
    (∃ n, scan t key = .full n ∧ t.Absent key) := by
  obtain ⟨k, power⟩ := sound.power
  have below : t.home key < t.mask + 1 := mod_lt _ (succ_pos _)
  have start : (t.hashFn key).toNat &&& t.mask = t.home key := mask_and power _
  have scan_ : scan t key =
      scanRows t (t.hashFn key) key (t.home key) (t.mask + 1) (t.home key) := by
    unfold scan
    rw [start]
  rw [scan_]
  cases lock : t.lockless with
  | true =>
    have zero : t.rowAt (t.home key) 0 = t.home key := mod_eq_of_lt below
    have rows := @scanRows_cases α t k power lock (t.hashFn key) key (t.home key) below
      (t.mask + 1) 0 (zero_add _) (succ_pos _) (fun d' less => by omega)
    rw [zero] at rows
    rcases rows with ⟨n, j, entry, found, here⟩ |
      ⟨d, j, free, few, none_, inside, passed, before⟩ | ⟨n, full, passed⟩
    · exact .inl ⟨n, j, entry, found, here.1, matches_key apart here⟩
    · refine .inr (.inl ⟨_, j, free, ⟨none_, mod_lt _ (succ_pos _), inside, ?_, ?_⟩, ?_⟩)
      · intro unlocked
        rw [lock] at unlocked
        cases unlocked
      · intro _
        exact ⟨d, few, rfl, fun d' less i small => other_held (passed d' less i small),
          fun i less => other_held (before i less)⟩
      · rintro n' j' entry slot rfl
        obtain ⟨_, inside', _⟩ := sound.routed n' j' entry slot
        obtain ⟨d', few', rfl, full, held⟩ := sound.chained lock n' j' entry slot
        rcases lt_trichotomy d' d with less | rfl | more
        · exact other_key sound (passed d' less j' inside') slot rfl
        · rcases lt_trichotomy j' j with less | rfl | more
          · exact other_key sound (before j' less) slot rfl
          · rw [none_] at slot
            cases slot
          · exact held j more none_
        · exact full d more j inside none_
    · refine .inr (.inr ⟨n, full, ?_⟩)
      rintro n' j' entry slot rfl
      obtain ⟨_, inside', _⟩ := sound.routed n' j' entry slot
      obtain ⟨d', few', rfl, _⟩ := sound.chained lock n' j' entry slot
      exact other_key sound (passed d' few' j' inside') slot rfl
  | false =>
    rw [scanRows]
    have absent : (∀ i, i < neighborhoodLen → t.slots (t.home key) i ≠ none →
        t.Other (t.hashFn key) key (t.home key) i) → t.Absent key := by
      rintro others n j entry slot rfl
      obtain ⟨_, inside, _⟩ := sound.routed n j entry slot
      have home := sound.home lock n j entry slot
      rw [home] at slot
      exact other_key sound (others j inside (by rw [slot]; exact some_ne_none _)) slot rfl
    rcases @scanRow_cases α t (t.hashFn key) key (t.home key) neighborhoodLen 0 none (by omega)
      (fun i nothing => by cases nothing) (fun _ => rfl) with
      ⟨j, entry, found, here⟩ | ⟨j, free, none_, inside, _, others⟩ | ⟨full, _, others⟩
    · rw [found]
      exact .inl ⟨_, j, entry, rfl, here.1, matches_key apart here⟩
    · rw [free]
      refine .inr (.inl ⟨_, j, rfl, ⟨none_, below, inside, fun _ => rfl, ?_⟩, ?_⟩)
      · intro locked
        rw [lock] at locked
        cases locked
      · exact absent fun i small held => others lock i (zero_le i) small held
    · rw [full]
      rw [if_neg (by simp [lock])]
      exact .inr (.inr ⟨_, rfl, absent fun i small _ => others i (zero_le i) small⟩)

variable {slots : Nat → Nat → Option (HtEntry α)} {j' n' : Nat}

theorem setSlot_cases {entry : Option (HtEntry α)} {found : HtEntry α}
    (slot : setSlot slots n j entry n' j' = some found) : (n' = n ∧ j' = j ∧ entry = some found) ∨
      (¬(n' = n ∧ j' = j) ∧ slots n' j' = some found) := by
  unfold setSlot at slot
  split at slot
  · rename_i here
    exact .inl ⟨here.1, here.2, slot⟩
  · rename_i away
    exact .inr ⟨away, slot⟩

theorem setSlot_held (held : slots n' j' ≠ none) : setSlot slots n j (some entry) n' j' ≠ none := by
  unfold setSlot
  split
  · exact some_ne_none entry
  · exact held

theorem insert_sound {value : α} {count : Nat} (sound : t.Sound)
    (place : t.Place key n j) (absent : t.Absent key) : Ht.Sound { t with
      slots := setSlot t.slots n j (some ⟨t.hashFn key, key, value⟩), valueCount := count } := by
  refine ⟨sound.power, sound.rows, ?_, ?_, ?_, ?_⟩
  · intro n' j' entry slot
    rcases setSlot_cases slot with ⟨rfl, rfl, same⟩ | ⟨_, old⟩
    · cases same
      exact ⟨place.row, place.slot, rfl⟩
    · exact sound.routed n' j' entry old
  · intro unlocked n' j' entry slot
    rcases setSlot_cases slot with ⟨rfl, rfl, same⟩ | ⟨_, old⟩
    · cases same
      exact place.home unlocked
    · exact sound.home unlocked n' j' entry old
  · intro locked n' j' entry slot
    rcases setSlot_cases slot with ⟨rfl, rfl, same⟩ | ⟨_, old⟩
    · cases same
      obtain ⟨d, few, row, full, before⟩ := place.chained locked
      exact ⟨d, few, row, fun d' less i small => setSlot_held (full d' less i small),
        fun i less => setSlot_held (before i less)⟩
    · obtain ⟨d, few, row, full, before⟩ := sound.chained locked n' j' entry old
      exact ⟨d, few, row, fun d' less i small => setSlot_held (full d' less i small),
        fun i less => setSlot_held (before i less)⟩
  · intro n₁ j₁ e₁ n₂ j₂ e₂ first second same
    rcases setSlot_cases first with ⟨rfl, rfl, new⟩ | ⟨_, old⟩ <;>
      rcases setSlot_cases second with ⟨rfl, rfl, new'⟩ | ⟨_, old'⟩
    · exact ⟨rfl, rfl⟩
    · cases new
      exact absurd same.symm (absent _ _ _ old')
    · cases new'
      exact absurd same (absent _ _ _ old)
    · exact sound.unique _ _ _ _ _ _ old old' same

theorem replace_sound {value : α} (sound : t.Sound)
    (slot : t.slots n j = some entry) (mine : entry.key = key) :
    Ht.Sound { t with slots := setSlot t.slots n j (some ⟨t.hashFn key, key, value⟩) } := by
  subst mine
  refine ⟨sound.power, sound.rows, ?_, ?_, ?_, ?_⟩
  · intro n' j' entry' slot'
    rcases setSlot_cases slot' with ⟨rfl, rfl, same⟩ | ⟨_, old⟩
    · cases same
      obtain ⟨row, inside, _⟩ := sound.routed n' j' entry slot
      exact ⟨row, inside, rfl⟩
    · exact sound.routed n' j' entry' old
  · intro unlocked n' j' entry' slot'
    rcases setSlot_cases slot' with ⟨rfl, rfl, same⟩ | ⟨_, old⟩
    · cases same
      exact sound.home unlocked n' j' entry slot
    · exact sound.home unlocked n' j' entry' old
  · intro locked n' j' entry' slot'
    have old : ∃ old, t.slots n' j' = some old ∧ old.key = entry'.key := by
      rcases setSlot_cases slot' with ⟨rfl, rfl, same⟩ | ⟨_, old⟩
      · cases same
        exact ⟨entry, slot, rfl⟩
      · exact ⟨entry', old, rfl⟩
    obtain ⟨old, before, key⟩ := old
    obtain ⟨d, few, row, full, held⟩ := sound.chained locked n' j' old before
    rw [key] at row full
    exact ⟨d, few, row, fun d' less i small => setSlot_held (full d' less i small),
      fun i less => setSlot_held (held i less)⟩
  · intro n₁ j₁ e₁ n₂ j₂ e₂ first second same
    rcases setSlot_cases first with ⟨rfl, rfl, new⟩ | ⟨_, old⟩ <;>
      rcases setSlot_cases second with ⟨rfl, rfl, new'⟩ | ⟨_, old'⟩
    · exact ⟨rfl, rfl⟩
    · cases new
      exact sound.unique _ _ _ _ _ _ slot old' same
    · cases new'
      exact sound.unique _ _ _ _ _ _ old slot same
    · exact sound.unique _ _ _ _ _ _ old old' same

theorem delete_sound {count : Nat} (sound : t.Sound) (unlocked : t.lockless = false) :
    Ht.Sound { t with slots := setSlot t.slots n j none, valueCount := count } := by
  have kept : ∀ n' j' entry, setSlot t.slots n j none n' j' = some entry →
      t.slots n' j' = some entry := by
    intro n' j' entry slot
    rcases setSlot_cases slot with ⟨_, _, nothing⟩ | ⟨_, old⟩
    · cases nothing
    · exact old
  refine ⟨sound.power, sound.rows, ?_, ?_, ?_, ?_⟩
  · exact fun n' j' entry slot => sound.routed n' j' entry (kept n' j' entry slot)
  · exact fun _ n' j' entry slot => sound.home unlocked n' j' entry (kept n' j' entry slot)
  · intro locked
    rw [unlocked] at locked
    cases locked
  · exact fun n₁ j₁ e₁ n₂ j₂ e₂ first second =>
      sound.unique _ _ _ _ _ _ (kept _ _ _ first) (kept _ _ _ second)

def rowEntries (mask : Nat) (entries : List (HtEntry α)) (n : Nat) : List (HtEntry α) :=
  entries.filter fun entry => entry.hash.toNat &&& mask = n

/-- The rows a rehash has filled with the entries it has moved. -/
def filledRows (mask : Nat) (entries : List (HtEntry α)) : Nat → Nat → Option (HtEntry α) :=
  fun n j => (rowEntries mask entries n)[j]?

theorem freeSlot_list (entries : List (HtEntry α)) (left : Nat) :
    ∀ {j : Nat}, j ≤ entries.length → entries.length < j + left →
      freeSlot (fun j => entries[j]?) left j = some entries.length := by
  induction left with
  | zero =>
    intro j low high
    omega
  | succ left ih =>
    intro j low high
    rw [freeSlot]
    by_cases last : j = entries.length
    · rw [if_pos (by simp [last]), last]
    · rw [if_neg (by simp; omega)]
      exact ih (by omega) (by omega)

/-- No row overflows when it is given at most neighborhoodLen entries. -/
theorem rehash_fills (mask : Nat) (entries : List (HtEntry α)) :
    ∀ {moved : List (HtEntry α)},
      (∀ n, (rowEntries mask (moved ++ entries) n).length ≤ neighborhoodLen) →
      rehash mask entries (filledRows mask moved) = some (filledRows mask (moved ++ entries)) := by
  induction entries with
  | nil =>
    intro moved _
    rw [append_nil]
    rfl
  | cons entry entries ih =>
    intro moved few
    have mine := few (entry.hash.toNat &&& mask)
    have split_ : rowEntries mask (moved ++ entry :: entries) (entry.hash.toNat &&& mask) =
        rowEntries mask moved (entry.hash.toNat &&& mask) ++
          entry :: rowEntries mask entries (entry.hash.toNat &&& mask) := by
      simp [rowEntries]
    rw [split_, length_append, length_cons] at mine
    have free : freeSlot (filledRows mask moved (entry.hash.toNat &&& mask)) neighborhoodLen 0 =
        some (rowEntries mask moved (entry.hash.toNat &&& mask)).length :=
      freeSlot_list _ neighborhoodLen (zero_le _) (by omega)
    have next : setSlot (filledRows mask moved) (entry.hash.toNat &&& mask)
        (rowEntries mask moved (entry.hash.toNat &&& mask)).length (some entry) =
        filledRows mask (moved ++ [entry]) := by
      funext n j
      unfold setSlot filledRows
      by_cases row : n = entry.hash.toNat &&& mask
      · have more : rowEntries mask (moved ++ [entry]) n = rowEntries mask moved n ++ [entry] := by
          simp [rowEntries, row]
        rw [more, getElem?_append, row]
        by_cases slot : j = (rowEntries mask moved (entry.hash.toNat &&& mask)).length
        · rw [if_pos ⟨rfl, slot⟩, if_neg (by omega), slot]
          simp
        · rw [if_neg (fun both => slot both.2)]
          split
          · rfl
          · rw [getElem?_eq_none (by omega), getElem?_eq_none (by simp; omega)]
      · have same : rowEntries mask (moved ++ [entry]) n = rowEntries mask moved n := by
          simp [rowEntries, Ne.symm row]
        rw [same, if_neg (fun both => row both.1)]
    rw [rehash]
    simp only [free]
    rw [next, @ih (moved ++ [entry]) (by simpa using few)]
    simp

def oldRow (t : Ht α) (n : Nat) : List (HtEntry α) :=
  (List.range neighborhoodLen).filterMap fun j => t.slots n j

theorem mem_oldRow (sound : t.Sound) : entry ∈ oldRow t n ↔ ∃ j, t.slots n j = some entry := by
  unfold oldRow
  rw [mem_filterMap]
  constructor
  · rintro ⟨j, _, slot⟩
    exact ⟨j, slot⟩
  · rintro ⟨j, slot⟩
    exact ⟨j, mem_range.mpr (sound.routed n j entry slot).2.1, slot⟩

theorem mem_oldEntries (sound : t.Sound) :
    entry ∈ oldEntries t ↔ ∃ n j, t.slots n j = some entry := by
  have rows : oldEntries t = (range t.neighborhoodsLen).flatMap (oldRow t) := rfl
  rw [rows, mem_flatMap]
  constructor
  · rintro ⟨n, _, here⟩
    exact ⟨n, (mem_oldRow sound).mp here⟩
  · rintro ⟨n, j, slot⟩
    refine ⟨n, mem_range.mpr ?_, (mem_oldRow sound).mpr ⟨j, slot⟩⟩
    rw [sound.rows]
    exact (sound.routed n j entry slot).1

theorem oldEntries_distinct (sound : t.Sound) :
    (oldEntries t).Pairwise fun a b => a.key ≠ b.key := by
  have rows : oldEntries t = (range t.neighborhoodsLen).flatMap (oldRow t) := rfl
  rw [rows, pairwise_flatMap]
  constructor
  · intro n _
    unfold oldRow
    rw [pairwise_filterMap]
    apply pairwise_lt_range.imp
    intro j j' less a first b second same
    have := (sound.unique _ _ _ _ _ _ first second same).2
    omega
  · apply pairwise_lt_range.imp
    intro n n' less a first b second same
    obtain ⟨j, slot⟩ := (mem_oldRow sound).mp first
    obtain ⟨j', slot'⟩ := (mem_oldRow sound).mp second
    have := (sound.unique _ _ _ _ _ _ slot slot' same).1
    omega

/-- Of lists that each keep to their own index, one passes a test for an index. -/
theorem filter_flatMap_le {β : Type} (rows : Nat → List β) (index : β → Nat) (limit m : Nat)
    (own : ∀ n, ∀ x ∈ rows n, index x = n) (few : ∀ n, (rows n).length ≤ limit) (count : Nat) :
    (((range count).flatMap rows).filter (index · = m)).length ≤
      if m < count then limit else 0 := by
  induction count with
  | zero => simp
  | succ count ih =>
    rw [range_succ, flatMap_append, filter_append, length_append]
    have last : ([count].flatMap rows) = rows count := by simp
    rw [last]
    by_cases here : m = count
    · have short := (length_filter_le (index · = m) (rows count)).trans (few count)
      rw [if_neg (by omega)] at ih
      rw [if_pos (by omega)]
      omega
    · have nothing : (rows count).filter (index · = m) = [] := by
        rw [filter_eq_nil_iff]
        intro x member
        have := own count x member
        simp
        omega
      rw [nothing, length_nil]
      split at ih <;> split <;> omega

/-- A row of the table doubled takes its entries from one row of the old one. -/
theorem rowEntries_few (sound : t.Sound) (power : t.mask + 1 = 2 ^ k)
    (unlocked : t.lockless = false) (n : Nat) :
    (rowEntries (2 ^ (k + 1) - 1) (oldEntries t) n).length ≤ neighborhoodLen := by
  have own : ∀ m, ∀ entry ∈ oldRow t m, entry.hash.toNat % 2 ^ k = m := by
    intro m entry member
    obtain ⟨j, slot⟩ := (mem_oldRow sound).mp member
    rw [sound.home unlocked m j entry slot, (sound.routed m j entry slot).2.2, ← power]
    rfl
  have few : ∀ m, (oldRow t m).length ≤ neighborhoodLen := by
    intro m
    exact (length_filterMap_le _ _).trans (by simp)
  have limit := filter_flatMap_le (oldRow t) (fun entry => entry.hash.toNat % 2 ^ k)
    neighborhoodLen (n % 2 ^ k) own few t.neighborhoodsLen
  have subset : (rowEntries (2 ^ (k + 1) - 1) (oldEntries t) n).length ≤
      ((oldEntries t).filter fun entry => entry.hash.toNat % 2 ^ k = n % 2 ^ k).length := by
    apply List.Sublist.length_le
    apply monotone_filter_right
    intro entry here
    simp only [decide_eq_true_eq] at here ⊢
    rw [← here, and_two_pow_sub_one_eq_mod, mod_mod_of_dvd _ (pow_dvd_pow 2 (le_succ k))]
  refine subset.trans (limit.trans ?_)
  split <;> simp

/-- The table grown: the entries are kept, and the branch that grows again is not taken. -/
theorem grow_keeps (sound : t.Sound) (unlocked : t.lockless = false) :
    ∃ slots, rehash (t.neighborhoodsLen * 2 - 1) (oldEntries t) (fun _ _ => none) = some slots ∧
      Ht.Sound { t with
        slots := slots
        mask := t.neighborhoodsLen * 2 - 1
        neighborhoodsLen := t.neighborhoodsLen * 2 } ∧
      ∀ entry, (∃ n j, slots n j = some entry) ↔ ∃ n j, t.slots n j = some entry := by
  obtain ⟨k, power⟩ := sound.power
  have size : t.neighborhoodsLen * 2 = 2 ^ (k + 1) := by rw [sound.rows, power, pow_succ]
  rw [size]
  have some_ : 2 ^ (k + 1) - 1 + 1 = 2 ^ (k + 1) := Nat.sub_add_cancel (Nat.two_pow_pos _)
  have fills := @rehash_fills α (2 ^ (k + 1) - 1) (oldEntries t) []
    (fun n => rowEntries_few sound power unlocked n)
  have empty : filledRows (2 ^ (k + 1) - 1) ([] : List (HtEntry α)) = fun _ _ => none := by
    funext n j
    simp [filledRows, rowEntries]
  rw [empty, nil_append] at fills
  have here : ∀ n j entry, filledRows (2 ^ (k + 1) - 1) (oldEntries t) n j = some entry →
      entry ∈ oldEntries t ∧ entry.hash.toNat &&& (2 ^ (k + 1) - 1) = n := by
    intro n j entry slot
    have member := mem_of_getElem? slot
    simpa [rowEntries] using member
  refine ⟨_, fills, ⟨⟨k + 1, some_⟩, some_.symm, ?_, ?_, ?_, ?_⟩, ?_⟩
  · intro n j entry slot
    obtain ⟨member, row⟩ := here n j entry slot
    obtain ⟨n', j', old⟩ := (mem_oldEntries sound).mp member
    refine ⟨?_, ?_, (sound.routed n' j' entry old).2.2⟩
    · rw [← row, and_two_pow_sub_one_eq_mod, some_]
      exact mod_lt _ (Nat.two_pow_pos _)
    · have inside : j < (rowEntries (2 ^ (k + 1) - 1) (oldEntries t) n).length :=
        (List.getElem?_eq_some_iff.mp slot).1
      exact inside.trans_le (rowEntries_few sound power unlocked n)
  · intro _ n j entry slot
    obtain ⟨member, row⟩ := here n j entry slot
    obtain ⟨n', j', old⟩ := (mem_oldEntries sound).mp member
    show n = (t.hashFn entry.key).toNat % (2 ^ (k + 1) - 1 + 1)
    rw [← row, (sound.routed n' j' entry old).2.2, and_two_pow_sub_one_eq_mod, some_]
  · intro locked
    rw [show t.lockless = true from locked] at unlocked
    cases unlocked
  · intro n j e n' j' e' first second same
    obtain ⟨_, row⟩ := here n j e first
    obtain ⟨_, row'⟩ := here n' j' e' second
    have hash : ∀ e, e ∈ oldEntries t → e.hash = t.hashFn e.key := by
      intro e member
      obtain ⟨n, j, slot⟩ := (mem_oldEntries sound).mp member
      exact (sound.routed n j e slot).2.2
    have rows : n = n' := by
      rw [← row, ← row', hash e (here n j e first).1, hash e' (here n' j' e' second).1, same]
    subst rows
    refine ⟨rfl, ?_⟩
    have distinct : (rowEntries (2 ^ (k + 1) - 1) (oldEntries t) n).Pairwise
        fun a b => a.key ≠ b.key := (oldEntries_distinct sound).sublist filter_sublist
    obtain ⟨inside, at_⟩ := List.getElem?_eq_some_iff.mp first
    obtain ⟨inside', at'⟩ := List.getElem?_eq_some_iff.mp second
    rw [pairwise_iff_getElem] at distinct
    by_contra differ
    rcases lt_or_gt_of_ne differ with less | more
    · exact distinct j j' inside inside' less (by rw [at_, at', same])
    · exact distinct j' j inside' inside more (by rw [at_, at', same])
  · intro entry
    rw [← mem_oldEntries sound]
    constructor
    · rintro ⟨n, j, slot⟩
      exact (here n j entry slot).1
    · intro member
      have row : entry ∈ rowEntries (2 ^ (k + 1) - 1) (oldEntries t)
          (entry.hash.toNat &&& (2 ^ (k + 1) - 1)) := by
        simpa [rowEntries] using member
      obtain ⟨j, slot⟩ := mem_iff_getElem?.mp row
      exact ⟨_, j, slot⟩

end Ossl
