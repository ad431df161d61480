import Mathlib.Tactic.Common

/- Loops that run until a round ends them, with the rules that carry an
   invariant through the rounds and a measure that bounds them. -/
namespace Rounds

variable {σ ρ : Type*}

def rounds (step : σ → ρ ⊕ σ) : Nat → σ → Option ρ
  | 0, _ => none
  | fuel + 1, s =>
    match step s with
    | .inl r => some r
    | .inr s => rounds step fuel s

variable {step : σ → ρ ⊕ σ}

variable {s : σ}

variable {post : ρ → Prop} {fuel : Nat}

/-- The invariant holds of what the loop ends with, however many rounds it takes. -/
theorem rounds_sound (inv : σ → Prop) (ends : ∀ s r, inv s → step s = .inl r → post r)
    (goes : ∀ s t, inv s → step s = .inr t → inv t) {r : ρ} (start : inv s)
    (done : rounds step fuel s = some r) : post r := by
  induction fuel generalizing s with
  | zero => contradiction
  | succ fuel ih =>
    simp only [rounds] at done
    cases next : step s with
    | inl r' =>
      rw [next] at done
      exact ends s r start (next.trans (by rw [Option.some.inj done]))
    | inr t =>
      rw [next] at done
      exact ih (goes s t start next) done

/-- A measure that falls in every round bounds the rounds. -/
theorem rounds_total (inv : σ → Prop) (measure : σ → Nat)
    (ends : ∀ s r, inv s → step s = .inl r → post r)
    (goes : ∀ s t, inv s → step s = .inr t → inv t ∧ measure t < measure s) (start : inv s)
    (enough : measure s < fuel) : ∃ r, rounds step fuel s = some r ∧ post r := by
  induction fuel generalizing s with
  | zero => omega
  | succ fuel ih =>
    cases next : step s with
    | inl r => exact ⟨r, by simp [rounds, next], ends s r start next⟩
    | inr t =>
      obtain ⟨kept, less⟩ := goes s t start next
      obtain ⟨r, done, post_⟩ := ih kept (by omega)
      exact ⟨r, by simp [rounds, next, done], post_⟩

/-- Two loops whose rounds agree where the invariant holds are one loop. -/
theorem rounds_congr (inv : σ → Prop) {other : σ → ρ ⊕ σ} (same : ∀ s, inv s → step s = other s)
    (goes : ∀ s t, inv s → step s = .inr t → inv t) (fuel : Nat) (start : inv s) :
    rounds step fuel s = rounds other fuel s := by
  induction fuel generalizing s with
  | zero => rfl
  | succ fuel ih =>
    simp only [rounds, ← same s start]
    cases next : step s with
    | inl r => rfl
    | inr t => exact ih (goes s t start next)

end Rounds
