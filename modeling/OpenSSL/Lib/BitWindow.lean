import Mathlib.Data.Nat.Bitwise

/- A window over the natural numbers in a word of bits: bit k is for the number k below the
   largest one, and tells whether that number was seen. -/
namespace BitWindow
open Nat

def Marks (width map top : Nat) (seen : List Nat) : Prop :=
  ∀ k < width, map.testBit k = true ↔ k ≤ top ∧ top - k ∈ seen

theorem marks_zero (width : Nat) : Marks width 0 0 [] := by
  intro k _
  simp

variable {width map top s : Nat} {seen : List Nat}

/-- The window moves on to a number that is not far above. -/
theorem marks_slide (marks : Marks width map top seen) (below : ∀ x ∈ seen, x ≤ top)
    (above : top < s) : Marks width (map <<< (s - top) % 2 ^ width ||| 1) s (s :: seen) := by
  intro k inside
  rw [testBit_or, testBit_mod_two_pow, testBit_shiftLeft, Bool.or_eq_true,
    testBit_one_eq_true_iff_self_eq_zero, decide_eq_true inside, Bool.true_and, Bool.and_eq_true,
    decide_eq_true_iff, List.mem_cons]
  by_cases first : k = 0
  · simp [first]
  · by_cases far : s - top ≤ k
    · have same := marks (k - (s - top)) (by omega)
      rw [same, show top - (k - (s - top)) = s - k by omega]
      constructor
      · intro either
        cases either with
        | inl old => exact ⟨by omega, .inr old.2.2⟩
        | inr zero => exact absurd zero first
      · intro both
        obtain ⟨le, here⟩ := both
        cases here with
        | inl now => omega
        | inr old =>
          exact .inl ⟨far, by omega, old⟩
    · constructor
      · intro either
        cases either with
        | inl old => exact absurd old.1 far
        | inr zero => exact absurd zero first
      · intro both
        obtain ⟨le, here⟩ := both
        cases here with
        | inl now => omega
        | inr old =>
          have := below _ old
          omega

/-- Nothing is left of the window if the number is far above. -/
theorem marks_jump (below : ∀ x ∈ seen, x ≤ top) (far : top + width ≤ s) :
    Marks width 1 s (s :: seen) := by
  intro k inside
  rw [testBit_one_eq_true_iff_self_eq_zero, List.mem_cons]
  constructor
  · intro first
    exact ⟨by omega, .inl (by omega)⟩
  · intro both
    obtain ⟨le, here⟩ := both
    cases here with
    | inl now => omega
    | inr old =>
      have := below _ old
      omega

theorem marks_set (marks : Marks width map top seen) (le : s ≤ top) :
    Marks width (map ||| 1 <<< (top - s)) top (s :: seen) := by
  intro k inside
  have same := marks k inside
  rw [testBit_or, one_shiftLeft, testBit_two_pow, Bool.or_eq_true, same,
    decide_eq_true_iff, List.mem_cons]
  constructor
  · intro either
    cases either with
    | inl old => exact ⟨old.1, .inr old.2⟩
    | inr now => exact ⟨by omega, .inl (by omega)⟩
  · intro both
    obtain ⟨low, here⟩ := both
    cases here with
    | inl now => exact .inr (by omega)
    | inr old => exact .inl ⟨low, old⟩

/-- A number below the window leaves no mark. -/
theorem marks_stale (marks : Marks width map top seen) (stale : s + width ≤ top) :
    Marks width map top (s :: seen) := by
  intro k inside
  have same := marks k inside
  rw [same, List.mem_cons]
  constructor
  · intro old
    exact ⟨old.1, .inr old.2⟩
  · intro both
    obtain ⟨low, here⟩ := both
    cases here with
    | inl now => omega
    | inr old => exact ⟨low, old⟩

end BitWindow
