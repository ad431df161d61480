import Mathlib.Data.Nat.Basic
import Mathlib.Logic.Function.Basic
import Mathlib.Tactic.Ring

/- The binary tree of the aligned blocks of a space of 2^n cells. The blocks of level l
   have 2^(n-l) cells; they are numbered from 2^l on, and the halves of b are 2b and 2b+1. -/
namespace Buddy
variable {n depth l l' x y p q b : Nat}

def node (n l x : Nat) : Nat := 2 ^ l + x / 2 ^ (n - l)

theorem cells_halve (fits : l < n) : 2 ^ (n - l) = 2 ^ (n - (l + 1)) * 2 := by
  rw [← pow_succ]
  congr 1
  omega

theorem node_range (fits : l ≤ n) (inside : x < 2 ^ n) :
    2 ^ l ≤ node n l x ∧ node n l x < 2 ^ (l + 1) := by
  have split : 2 ^ n = 2 ^ (n - l) * 2 ^ l := by
    rw [← pow_add]
    congr 1
    omega
  have index : x / 2 ^ (n - l) < 2 ^ l := Nat.div_lt_of_lt_mul (split ▸ inside)
  unfold node
  generalize x / 2 ^ (n - l) = i at *
  rw [pow_succ]
  omega

theorem node_level (fits : l ≤ n) (fits' : l' ≤ n) (inside : x < 2 ^ n) (inside' : y < 2 ^ n)
    (same : node n l x = node n l' y) : l = l' := by
  obtain ⟨low, high⟩ := node_range fits inside
  obtain ⟨low', high'⟩ := node_range fits' inside'
  have above : ¬l < l' := fun less => by
    have := Nat.pow_le_pow_right (n := 2) (by decide) (Nat.succ_le_of_lt less)
    omega
  have below : ¬l' < l := fun less => by
    have := Nat.pow_le_pow_right (n := 2) (by decide) (Nat.succ_le_of_lt less)
    omega
  omega

theorem node_half (fits : l < n) (x : Nat) : node n (l + 1) x / 2 = node n l x := by
  unfold node
  rw [cells_halve fits, ← Nat.div_div_eq_div_mul, pow_succ]
  omega

theorem node_child (fits : l < n) (x : Nat) :
    node n (l + 1) x = 2 * node n l x ∨ node n (l + 1) x = 2 * node n l x + 1 := by
  have := node_half fits x
  omega

theorem node_start (dvd : 2 ^ (n - l) ∣ p) : (node n l p - 2 ^ l) * 2 ^ (n - l) = p := by
  unfold node
  rw [Nat.add_sub_cancel_left]
  exact Nat.div_mul_cancel dvd

theorem node_inj (dvd : 2 ^ (n - l) ∣ p) (dvd' : 2 ^ (n - l) ∣ q)
    (same : node n l p = node n l q) : p = q := by
  rw [← node_start dvd, ← node_start dvd', same]

theorem node_lower (fits : l < n) (dvd : 2 ^ (n - l) ∣ p) :
    node n (l + 1) p = 2 * node n l p := by
  obtain ⟨k, rfl⟩ := dvd
  unfold node
  rw [Nat.mul_div_cancel_left _ (Nat.two_pow_pos _), cells_halve fits, mul_assoc,
    Nat.mul_div_cancel_left _ (Nat.two_pow_pos _), pow_succ]
  omega

theorem node_upper (fits : l < n) (dvd : 2 ^ (n - l) ∣ p) :
    node n (l + 1) (p + 2 ^ (n - (l + 1))) = 2 * node n l p + 1 := by
  have lower := node_lower fits dvd
  unfold node at *
  rw [Nat.add_div_right _ (Nat.two_pow_pos _)]
  omega

theorem node_eq_iff (dvd : 2 ^ (n - l) ∣ p) :
    node n l x = node n l p ↔ p ≤ x ∧ x < p + 2 ^ (n - l) := by
  obtain ⟨k, rfl⟩ := dvd
  have cells := Nat.two_pow_pos (n - l)
  unfold node
  rw [Nat.mul_div_cancel_left _ cells, Nat.add_left_cancel_iff, Nat.div_eq_iff cells]
  have : k * 2 ^ (n - l) = 2 ^ (n - l) * k := mul_comm _ _
  omega

/-- The marked blocks partition the space: every cell is in a block of exactly one level. -/
structure Tiled (n depth : Nat) (marked : Nat → Bool) : Prop where
  range : ∀ {b}, marked b = true → 0 < b ∧ b < 2 ^ (depth + 1)
  covers : ∀ {x}, x < 2 ^ n → ∃ l ≤ depth, marked (node n l x) = true
  once : ∀ {x l l'}, x < 2 ^ n → l ≤ depth → l' ≤ depth → marked (node n l x) = true →
    marked (node n l' x) = true → l = l'

theorem tiled_whole (n depth : Nat) : Tiled n depth fun b => b == 1 := by
  have top : ∀ x, x < 2 ^ n → node n 0 x = 1 := fun x inside => by
    simp [node, Nat.div_eq_of_lt inside]
  refine ⟨fun is => ?_, fun inside => ⟨0, Nat.zero_le _, by simp [top _ inside]⟩, ?_⟩
  · have : 1 < 2 ^ (depth + 1) := Nat.one_lt_two_pow (by omega)
    simp only [beq_iff_eq] at is
    omega
  · intro x l l' inside _ _ is is'
    have zero : ∀ k, (node n k x == 1) = true → k = 0 := by
      intro k one
      by_contra some
      have := Nat.one_lt_two_pow some
      simp only [node, beq_iff_eq] at one
      generalize x / 2 ^ (n - k) = i at *
      omega
    rw [zero l is, zero l' is']

variable {marked marked' : Nat → Bool}

/- What is left of a marked block's numbers on the path of a cell: the block's two halves are
   one level below it. -/
theorem path_child (deep : depth ≤ n) (level : l < depth) (inside : p < 2 ^ n)
    (cell : x < 2 ^ n) (level' : l' ≤ depth)
    (is : node n l' x = 2 * node n l p ∨ node n l' x = 2 * node n l p + 1) :
    l' = l + 1 ∧ node n l x = node n l p := by
  obtain ⟨low, high⟩ := node_range (show l ≤ n by omega) inside
  obtain ⟨low', high'⟩ := node_range (show l' ≤ n by omega) cell
  rw [pow_succ] at high high'
  have above : ¬l' ≤ l := fun le => by
    have := Nat.pow_le_pow_right (n := 2) (by decide) le
    omega
  have below : ¬l + 2 ≤ l' := fun le => by
    have := Nat.pow_le_pow_right (n := 2) (by decide) le
    rw [pow_succ, pow_succ] at this
    omega
  obtain rfl : l' = l + 1 := by omega
  have half := node_half (show l < n by omega) x
  exact ⟨rfl, by omega⟩

theorem tiled_split (tiled : Tiled n depth marked) (deep : depth ≤ n) (level : l < depth)
    (inside : p < 2 ^ n) (is : marked (node n l p) = true) (off : marked' (node n l p) = false)
    (lower : marked' (2 * node n l p) = true) (upper : marked' (2 * node n l p + 1) = true)
    (same : ∀ b, b ≠ node n l p → b ≠ 2 * node n l p → b ≠ 2 * node n l p + 1 →
      marked' b = marked b) : Tiled n depth marked' := by
  have child : ∀ {x l'}, x < 2 ^ n → l' ≤ depth →
      (node n l' x = 2 * node n l p ∨ node n l' x = 2 * node n l p + 1) →
      l' = l + 1 ∧ node n l x = node n l p :=
    fun cell level' => path_child deep level inside cell level'
  obtain ⟨low, high⟩ := node_range (show l ≤ n by omega) inside
  have small : 2 ^ (l + 1) ≤ 2 ^ depth := Nat.pow_le_pow_right (by decide) (by omega)
  have old : ∀ {x l'}, x < 2 ^ n → l' ≤ depth → marked' (node n l' x) = true →
      (l' = l + 1 ∧ node n l x = node n l p) ∨
        (marked (node n l' x) = true ∧ node n l' x ≠ node n l p) := by
    intro x l' cell level' marks
    by_cases half : node n l' x = 2 * node n l p ∨ node n l' x = 2 * node n l p + 1
    · exact .inl (child cell level' half)
    · have notParent : node n l' x ≠ node n l p := fun equal => by
        rw [equal, off] at marks
        cases marks
      refine .inr ⟨?_, notParent⟩
      rwa [same _ notParent (fun h => half (.inl h)) (fun h => half (.inr h))] at marks
  refine ⟨?_, ?_, ?_⟩
  · intro b marks
    by_cases half : b = 2 * node n l p ∨ b = 2 * node n l p + 1
    · have := Nat.two_pow_pos l
      rw [pow_succ] at *
      omega
    · by_cases parent : b = node n l p
      · rw [parent, off] at marks
        cases marks
      · rw [same b parent (fun h => half (.inl h)) (fun h => half (.inr h))] at marks
        exact tiled.range marks
  · intro x cell
    by_cases mine : node n l x = node n l p
    · refine ⟨l + 1, level, ?_⟩
      obtain left | right := node_child (show l < n by omega) x
      · rw [left, mine, lower]
      · rw [right, mine, upper]
    · obtain ⟨l', level', marks⟩ := tiled.covers cell
      refine ⟨l', level', ?_⟩
      rw [same _ ?_ ?_ ?_]
      · exact marks
      · intro equal
        exact mine ((node_level (by omega) (by omega) cell inside equal) ▸ equal)
      · exact fun equal => mine (child cell level' (.inl equal)).2
      · exact fun equal => mine (child cell level' (.inr equal)).2
  · intro x a c cell levelA levelC marksA marksC
    have alone : ∀ {k}, k ≤ depth → node n l x = node n l p → marked (node n k x) = true →
        node n k x ≠ node n l p → False := by
      intro k levelK mine marks other
      have : k = l := tiled.once cell levelK (by omega) marks (by rw [mine]; exact is)
      exact other (this ▸ mine)
    obtain ⟨rfl, mineA⟩ | ⟨oldA, otherA⟩ := old cell levelA marksA
    · obtain ⟨rfl, -⟩ | ⟨oldC, otherC⟩ := old cell levelC marksC
      · rfl
      · exact (alone levelC mineA oldC otherC).elim
    · obtain ⟨rfl, mineC⟩ | ⟨oldC, otherC⟩ := old cell levelC marksC
      · exact (alone levelA mineC oldA otherA).elim
      · exact tiled.once cell levelA levelC oldA oldC

theorem tiled_merge (tiled : Tiled n depth marked) (deep : depth ≤ n) (level : l < depth)
    (inside : p < 2 ^ n) (lower : marked (2 * node n l p) = true)
    (upper : marked (2 * node n l p + 1) = true) (is : marked' (node n l p) = true)
    (offLower : marked' (2 * node n l p) = false)
    (offUpper : marked' (2 * node n l p + 1) = false)
    (same : ∀ b, b ≠ node n l p → b ≠ 2 * node n l p → b ≠ 2 * node n l p + 1 →
      marked' b = marked b) : Tiled n depth marked' := by
  obtain ⟨low, high⟩ := node_range (show l ≤ n by omega) inside
  have small : 2 ^ (l + 1) ≤ 2 ^ depth := Nat.pow_le_pow_right (by decide) (by omega)
  have halves : ∀ {x}, x < 2 ^ n → node n l x = node n l p →
      marked (node n (l + 1) x) = true := by
    intro x cell mine
    obtain left | right := node_child (show l < n by omega) x
    · rw [left, mine, lower]
    · rw [right, mine, upper]
  have old : ∀ {x l'}, x < 2 ^ n → l' ≤ depth → marked' (node n l' x) = true →
      (l' = l ∧ node n l x = node n l p) ∨ (marked (node n l' x) = true ∧
        node n l' x ≠ 2 * node n l p ∧ node n l' x ≠ 2 * node n l p + 1) := by
    intro x l' cell level' marks
    by_cases parent : node n l' x = node n l p
    · have same := node_level (show l' ≤ n by omega) (show l ≤ n by omega) cell inside parent
      exact .inl ⟨same, same ▸ parent⟩
    · have notLower : node n l' x ≠ 2 * node n l p := fun equal => by
        rw [equal, offLower] at marks
        cases marks
      have notUpper : node n l' x ≠ 2 * node n l p + 1 := fun equal => by
        rw [equal, offUpper] at marks
        cases marks
      exact .inr ⟨by rwa [same _ parent notLower notUpper] at marks, notLower, notUpper⟩
  refine ⟨?_, ?_, ?_⟩
  · intro b marks
    by_cases parent : b = node n l p
    · rw [pow_succ] at *
      omega
    · by_cases half : b = 2 * node n l p ∨ b = 2 * node n l p + 1
      · obtain rfl | rfl := half
        · rw [offLower] at marks
          cases marks
        · rw [offUpper] at marks
          cases marks
      · rw [same b parent (fun h => half (.inl h)) (fun h => half (.inr h))] at marks
        exact tiled.range marks
  · intro x cell
    by_cases mine : node n l x = node n l p
    · exact ⟨l, by omega, by rw [mine, is]⟩
    · obtain ⟨l', level', marks⟩ := tiled.covers cell
      have child := fun is => (path_child deep level inside cell level' is).2
      refine ⟨l', level', ?_⟩
      rw [same _ ?_ (fun equal => mine (child (.inl equal)))
        (fun equal => mine (child (.inr equal)))]
      · exact marks
      · intro equal
        exact mine ((node_level (by omega) (by omega) cell inside equal) ▸ equal)
  · intro x a c cell levelA levelC marksA marksC
    have alone : ∀ {k}, k ≤ depth → node n l x = node n l p → marked (node n k x) = true →
        node n k x ≠ 2 * node n l p → node n k x ≠ 2 * node n l p + 1 → False := by
      intro k levelK mine marks notLower notUpper
      obtain rfl : k = l + 1 := tiled.once cell levelK level marks (halves cell mine)
      obtain left | right := node_child (show l < n by omega) x
      · exact notLower (by rw [left, mine])
      · exact notUpper (by rw [right, mine])
    obtain ⟨rfl, mineA⟩ | ⟨oldA, notA, notA'⟩ := old cell levelA marksA
    · obtain ⟨rfl, -⟩ | ⟨oldC, notC, notC'⟩ := old cell levelC marksC
      · rfl
      · exact (alone levelC mineA oldC notC notC').elim
    · obtain ⟨rfl, mineC⟩ | ⟨oldC, notC, notC'⟩ := old cell levelC marksC
      · exact (alone levelA mineC oldA notA notA').elim
      · exact tiled.once cell levelA levelC oldA oldC

end Buddy
