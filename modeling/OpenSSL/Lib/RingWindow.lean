import Mathlib.Data.List.GetD
import Mathlib.Data.Set.Basic
import Mathlib.Tactic.Common
import Mathlib.Order.Interval.Set.Basic

/- A stream of values kept in a buffer of cap cells, the value at offset x in cell x % cap. Offsets
   in one window of cap offsets never share a cell, so a chunk written inside the window leaves the
   rest of it alone. -/
namespace RingWindow
open Nat List
variable {α : Type*}

theorem no_alias {cap lo x y : Nat} (hx : lo ≤ x ∧ x < lo + cap) (hy : lo ≤ y ∧ y < lo + cap)
    (cell : x % cap = y % cap) : x = y := by
  have ex := div_add_mod x cap
  have ey := div_add_mod y cap
  rw [cell] at ex
  rcases lt_trichotomy (x / cap) (y / cap) with less | same | more
  · have : cap * (x / cap + 1) ≤ cap * (y / cap) := mul_le_mul_left cap less
    rw [Nat.mul_add] at this
    omega
  · rw [same] at ex; omega
  · have : cap * (y / cap + 1) ≤ cap * (x / cap) := mul_le_mul_left cap more
    rw [Nat.mul_add] at this
    omega

variable {cap i len off : Nat} {mem stream : Nat → α} {values : List α} {P : Set Nat}

theorem add_mod_inside (inside : off % cap + i < cap) : (off + i) % cap = off % cap + i := by
  rw [add_mod, mod_eq_of_lt (by omega : i < cap), mod_eq_of_lt inside]

def writeCells (mem : Nat → α) (idx : Nat) (values : List α) : Nat → α :=
  fun i => if idx ≤ i then values.getD (i - idx) (mem i) else mem i

def readCells (mem : Nat → α) (idx len : Nat) : List α := (List.range len).map (mem <| idx + ·)

@[simp] theorem readCells_length (mem : Nat → α) (idx len : Nat) :
    (readCells mem idx len).length = len := by simp [readCells]

/-- The values are those of the stream from the offset on. -/
def Carries (stream : Nat → α) (off : Nat) (values : List α) : Prop :=
  ∀ i (h : i < values.length), values[i] = stream (off + i)

/-- The cells of the offsets hold the values of the stream. -/
def Holds (cap : Nat) (mem stream : Nat → α) (offsets : Set Nat) : Prop :=
  ∀ x ∈ offsets, mem (x % cap) = stream x

theorem carries_nil (stream : Nat → α) (off : Nat) : Carries stream off [] := by
  intro i h; simp at h

variable {xs ys : List α}

theorem carries_append :
    Carries stream off (xs ++ ys) ↔ Carries stream off xs ∧ Carries stream (off + xs.length) ys := by
  constructor
  · intro both
    constructor
    · intro i h
      have := both i (by simp; omega)
      rwa [getElem_append_left h] at this
    · intro i h
      have := both (xs.length + i) (by simp; omega)
      rw [getElem_append_right (by omega)] at this
      simpa [Nat.add_assoc] using this
  · rintro ⟨left, right⟩ i h
    by_cases first : i < xs.length
    · rw [getElem_append_left first]; exact left i first
    · rw [getElem_append_right (by omega), right]
      congr 1; omega

theorem carries_take (n : Nat) (all : Carries stream off values) :
    Carries stream off (values.take n) := by
  intro i h
  rw [getElem_take]
  exact all i _

theorem carries_drop {n : Nat} (all : Carries stream off values) :
    Carries stream (off + n) (values.drop n) := by
  intro i h
  rw [getElem_drop, all]
  congr 1; omega

/-- Two lists of one length that carry the stream from one offset are the same. -/
theorem carries_unique (hx : Carries stream off xs) (hy : Carries stream off ys)
    (len : xs.length = ys.length) : xs = ys := by
  apply ext_getElem len
  intro i first second
  rw [hx i first, hy i second]

theorem holds_mono {Q : Set Nat} (sub : Q ⊆ P) (holds : Holds cap mem stream P) :
    Holds cap mem stream Q :=
  fun x hx => holds x (sub hx)

theorem holds_congr {f g : Nat → α} (same : ∀ x ∈ P, f x = g x) (holds : Holds cap mem f P) :
    Holds cap mem g P :=
  fun x hx => (holds x hx).trans (same x hx)

/-- A read that does not pass the last cell returns the stream. -/
theorem readCells_carries (holds : Holds cap mem stream P) (room : off % cap + len ≤ cap)
    (sub : ∀ x, off ≤ x → x < off + len → x ∈ P) :
    Carries stream off (readCells mem (off % cap) len) := by
  intro i h
  simp only [readCells_length] at h
  simp only [readCells, getElem_map, getElem_range]
  rw [← add_mod_inside (by omega : off % cap + i < cap)]
  exact holds _ (sub _ (by omega) (by omega))

/-- What a chunk that does not pass the last cell writes at the offsets of the
    window: its own values at its own offsets, and nothing elsewhere. -/
theorem writeCells_at {lo x : Nat} (room : off % cap + values.length ≤ cap) (low : lo ≤ off)
    (high : off + values.length ≤ lo + cap) (hx : lo ≤ x ∧ x < lo + cap) :
    writeCells mem (off % cap) values (x % cap) =
      if off ≤ x then values.getD (x - off) (mem (x % cap)) else mem (x % cap) := by
  have inside : ∀ i, i < values.length → (off + i) % cap = off % cap + i :=
    fun i h => add_mod_inside (by omega)
  by_cases mine : off ≤ x ∧ x < off + values.length
  · have cell : x % cap = off % cap + (x - off) := by
      rw [← inside (x - off) (by omega)]; congr 1; omega
    have start : off % cap ≤ x % cap := by omega
    have index : x % cap - off % cap = x - off := by omega
    simp only [writeCells, if_pos start, if_pos mine.1, index]
  · have miss : (if off ≤ x then values.getD (x - off) (mem (x % cap)) else mem (x % cap)) =
        mem (x % cap) := by
      split
      · exact getD_eq_default _ _ (by omega)
      · rfl
    rw [miss, writeCells]
    split
    · rename_i start
      apply getD_eq_default
      by_contra short
      have cell : x % cap = (off + (x % cap - off % cap)) % cap := by
        rw [inside _ (by omega)]; omega
      have := no_alias hx (by omega : lo ≤ off + (x % cap - off % cap) ∧ _) cell
      exact mine (by omega)
    · rfl

theorem holds_untouched {lo : Nat} (room : off % cap + values.length ≤ cap) (low : lo ≤ off)
    (high : off + values.length ≤ lo + cap) (window : ∀ x ∈ P, lo ≤ x ∧ x < lo + cap)
    (apart : ∀ x ∈ P, x < off ∨ off + values.length ≤ x) (holds : Holds cap mem stream P) :
    Holds cap (writeCells mem (off % cap) values) stream P := by
  intro x hx
  rw [writeCells_at room low high (window x hx)]
  split
  · rw [getD_eq_default _ _ (by have := apart x hx; omega)]
    exact holds x hx
  · exact holds x hx

theorem holds_write {lo : Nat} (room : off % cap + values.length ≤ cap) (low : lo ≤ off)
    (high : off + values.length ≤ lo + cap) (window : ∀ x ∈ P, lo ≤ x ∧ x < lo + cap)
    (holds : Holds cap mem stream P) (carries : Carries stream off values) :
    Holds cap (writeCells mem (off % cap) values) stream
      (P ∪ Set.Ico off (off + values.length)) := by
  intro x hx
  by_cases mine : off ≤ x ∧ x < off + values.length
  · rw [writeCells_at room low high ⟨by omega, by omega⟩, if_pos mine.1,
      getD_eq_getElem _ _ (by omega : x - off < values.length), carries]
    congr 1; omega
  · have old : x ∈ P := hx.resolve_right mine
    rw [writeCells_at room low high (window x old)]
    split
    · rw [getD_eq_default _ _ (by omega)]
      exact holds x old
    · exact holds x old

/-- The len values of the ring from cell off on. -/
def readRing (cap : Nat) (mem : Nat → α) (off len : Nat) : List α :=
  (List.range len).map fun i => mem ((off + i) % cap)

@[simp] theorem readRing_zero (cap : Nat) (mem : Nat → α) (off : Nat) :
    readRing cap mem off 0 = [] := rfl

end RingWindow
