import Mathlib.Data.List.AList

/- A hash table of crypto/lhash/lhash.c as the finite map it maintains, from what the comparison
   looks at to the stored pointer; insertion replaces. The order of the entries is that of a
   traversal, which the C code leaves open. -/
namespace Ossl
open Function
variable {Key Item : Type} [DecidableEq Key]

abbrev Lhash (Key Item : Type) : Type := AList (fun _ : Key => Item)

def lhNew : Lhash Key Item := ∅

def lhRetrieve (key : Key) (lh : Lhash Key Item) : Option Item := lh.lookup key

def lhInsert (key : Key) (item : Item) (lh : Lhash Key Item) : Lhash Key Item := lh.insert key item

def lhDelete (key : Key) (lh : Lhash Key Item) : Lhash Key Item := lh.erase key

theorem lhInsert_retrieve (key : Key) (item : Item) (lh : Lhash Key Item) :
    (fun k => lhRetrieve k (lhInsert key item lh)) =
      update (fun k => lhRetrieve k lh) key (some item) := by
  funext k
  by_cases same : k = key
  · subst same
    rw [update_self]
    exact AList.lookup_insert lh
  · rw [update_of_ne same]
    exact AList.lookup_insert_ne same

theorem lhDelete_retrieve (key : Key) (lh : Lhash Key Item) :
    (fun k => lhRetrieve k (lhDelete key lh)) = update (fun k => lhRetrieve k lh) key none := by
  funext k
  by_cases same : k = key
  · subst same
    rw [update_self]
    exact AList.lookup_erase k lh
  · rw [update_of_ne same]
    exact AList.lookup_erase_ne same

theorem lhRetrieve_insert (k key : Key) (item : Item) (lh : Lhash Key Item) :
    lhRetrieve k (lhInsert key item lh) = if k = key then some item else lhRetrieve k lh := by
  have all := congrFun (lhInsert_retrieve key item lh) k
  rw [update_apply] at all
  exact all

theorem lhRetrieve_delete (k key : Key) (lh : Lhash Key Item) :
    lhRetrieve k (lhDelete key lh) = if k = key then none else lhRetrieve k lh := by
  have all := congrFun (lhDelete_retrieve key lh) k
  rw [update_apply] at all
  exact all

theorem lhRetrieve_new (k : Key) : lhRetrieve k (lhNew : Lhash Key Item) = none :=
  AList.lookup_empty k

def lhItems (lh : Lhash Key Item) : List Item := lh.entries.map (fun entry => entry.2)

variable {lh : Lhash Key Item} {item : Item}

theorem mem_lhItems : item ∈ lhItems lh ↔ ∃ key, lhRetrieve key lh = some item := by
  rw [lhItems, List.mem_map]
  constructor
  · intro somewhere
    obtain ⟨entry, member, rfl⟩ := somewhere
    exact ⟨entry.1, AList.mem_lookup_iff.mpr member⟩
  · intro somewhere
    obtain ⟨key, found⟩ := somewhere
    exact ⟨⟨key, item⟩, AList.mem_lookup_iff.mp found, rfl⟩

theorem lhItems_nodup
    (apart : ∀ k l item, lhRetrieve k lh = some item → lhRetrieve l lh = some item → k = l) :
    (lhItems lh).Nodup := by
  apply List.Nodup.map_on _ lh.nodupKeys.nodup
  intro x xHere y yHere same
  have first := AList.mem_lookup_iff.mpr xHere
  have second := AList.mem_lookup_iff.mpr yHere
  rw [← same] at second
  obtain ⟨k, item⟩ := x
  obtain ⟨l, item'⟩ := y
  obtain rfl := apart k l item first second
  obtain rfl : item = item' := same
  rfl

def lhNumItems (lh : Lhash Key Item) : Nat := lh.keys.length

theorem lhInsert_numItems {key : Key} (absent : lhRetrieve key lh = none) :
    lhNumItems (lhInsert key item lh) = lhNumItems lh + 1 := by
  have outside : key ∉ lh.keys := AList.lookup_eq_none.mp absent
  rw [lhNumItems, lhInsert, AList.keys_insert, List.erase_of_not_mem outside]
  rfl

theorem lhDelete_numItems {key : Key} (found : lhRetrieve key lh = some item) :
    lhNumItems (lhDelete key lh) + 1 = lhNumItems lh := by
  have inside : key ∈ lh.keys := AList.lookup_isSome.mp (Option.isSome_of_mem found)
  rw [lhNumItems, lhDelete, AList.keys_erase, List.length_erase_of_mem inside]
  exact Nat.sub_add_cancel (List.length_pos_of_mem inside)

end Ossl
