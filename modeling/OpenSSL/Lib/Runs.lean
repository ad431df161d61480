import Mathlib.Data.List.Basic

/- Runs of a step function over a list of operations, with the induction rules
   that carry a step fact to every state a run passes through. -/
namespace Runs
open List
variable {State Op : Type*}

def run (step : State → Op → State) (s : State) (ops : List Op) : State := ops.foldl step s

/-- Every operation is admissible in the state it is applied to. -/
def Admissible (step : State → Op → State) (ok : State → Op → Prop) : State → List Op → Prop
  | _, [] => True
  | s, op :: rest => ok s op ∧ Admissible step ok (step s op) rest

/-- The states a run passes through, the first and the last included. -/
def visited (step : State → Op → State) (s : State) : List Op → List State
  | [] => [s]
  | op :: rest => s :: visited step (step s op) rest

@[simp] theorem run_nil (step : State → Op → State) (s : State) : run step s [] = s := rfl

@[simp] theorem run_cons (step : State → Op → State) (s : State) (op : Op) (ops : List Op) :
    run step s (op :: ops) = run step (step s op) ops := rfl

theorem run_append (step : State → Op → State) (s : State) (xs ys : List Op) :
    run step s (xs ++ ys) = run step (run step s xs) ys := foldl_append

variable {ok : State → Op → Prop} {s : State} {Inv : State → Prop}

theorem admissible_append {step : State → Op → State} {xs ys : List Op} :
    Admissible step ok s (xs ++ ys) ↔
      Admissible step ok s xs ∧ Admissible step ok (run step s xs) ys := by
  induction xs generalizing s with
  | nil => simp [Admissible]
  | cons op rest ih => simp [Admissible, ih, and_assoc]

theorem admissible_of_forall {step : State → Op → State} {ok : Op → Prop} {ops : List Op}
    (all : ∀ op ∈ ops, ok op) : Admissible step (fun _ op => ok op) s ops := by
  induction ops generalizing s with
  | nil => trivial
  | cons op rest ih => exact ⟨all op (by simp), ih (fun x hx => all x (by simp [hx]))⟩

/-- A step invariant holds in the last state of every admissible run. -/
theorem run_invariant {step : State → Op → State} {ok : State → Op → Prop} {Inv : State → Prop}
    (keeps : ∀ s op, Inv s → ok s op → Inv (step s op)) {s : State} {ops : List Op}
    (start : Inv s) (adm : Admissible step ok s ops) : Inv (run step s ops) := by
  induction ops generalizing s with
  | nil => exact start
  | cons op rest ih => exact ih (keeps s op start adm.1) adm.2

/-- A step invariant holds in every state of an admissible run. -/
theorem visited_invariant {step : State → Op → State} {ok : State → Op → Prop}
    {Inv : State → Prop} (keeps : ∀ s op, Inv s → ok s op → Inv (step s op)) {s : State}
    {ops : List Op} (start : Inv s) (adm : Admissible step ok s ops) :
    ∀ t ∈ visited step s ops, Inv t := by
  induction ops generalizing s with
  | nil =>
    intro t member
    cases mem_singleton.mp member
    exact start
  | cons op rest ih =>
    intro t member
    cases mem_cons.mp member with
    | inl here =>
      rw [here]
      exact start
    | inr later => exact ih (keeps s op start adm.1) adm.2 t later

/-- An invariant of every step holds in every state of any run. -/
theorem visited_always {step : State → Op → State} (keeps : ∀ s op, Inv s → Inv (step s op))
    (start : Inv s) (ops : List Op) : ∀ t ∈ visited step s ops, Inv t :=
  visited_invariant (fun s op inv _ => keeps s op inv) start
    (admissible_of_forall (fun _ _ => trivial))

theorem run_mem_visited (step : State → Op → State) (s : State) (ops : List Op) :
    run step s ops ∈ visited step s ops := by
  induction ops generalizing s with
  | nil => exact mem_singleton.mpr rfl
  | cons op rest ih => exact mem_cons_of_mem s (ih (step s op))

/-- A preorder that every admissible step climbs relates the ends of a run. -/
theorem run_climbs {step : State → Op → State} {R : State → State → Prop} (refl : ∀ s, R s s)
    (trans : ∀ s t u, R s t → R t u → R s u) (keeps : ∀ s op, Inv s → ok s op → Inv (step s op))
    (climbs : ∀ s op, Inv s → ok s op → R s (step s op)) {ops : List Op} (start : Inv s)
    (adm : Admissible step ok s ops) : R s (run step s ops) := by
  induction ops generalizing s with
  | nil => exact refl s
  | cons op rest ih =>
    exact trans _ _ _ (climbs s op start adm.1) (ih (keeps s op start adm.1) adm.2)

/-- If, from good states, a step lands in a good state exactly when a condition
    on the step holds, then a run stays good exactly when all its steps meet
    the condition. -/
theorem visited_good_iff {step : State → Op → State} {cond : State → Op → Prop}
    {Good : State → Prop} (keeps : ∀ s op, Inv s → ok s op → Inv (step s op))
    (exactly : ∀ s op, Inv s → Good s → ok s op → (Good (step s op) ↔ cond s op)) {ops : List Op}
    (start : Inv s) (good : Good s) (adm : Admissible step ok s ops) :
    (∀ t ∈ visited step s ops, Good t) ↔ Admissible step cond s ops := by
  induction ops generalizing s with
  | nil => simp [visited, Admissible, good]
  | cons op rest ih =>
    have here := exactly s op start good adm.1
    simp only [visited, mem_cons, forall_eq_or_imp, Admissible]
    constructor
    · rintro ⟨_, later⟩
      have next : Good (step s op) := later _ (by cases rest <;> simp [visited])
      exact ⟨here.mp next, (ih (keeps s op start adm.1) next adm.2).mp later⟩
    · rintro ⟨now, later⟩
      exact ⟨good, (ih (keeps s op start adm.1) (here.mpr now) adm.2).mpr later⟩

/-- The same with an invariant that a weaker one is to show: a step that keeps even the weaker one
    meets the condition, and a step that meets it keeps the invariant. -/
theorem visited_weak_iff {step : State → Op → State} {cond : State → Op → Prop}
    {Weak : State → Prop} (weaken : ∀ s, Inv s → Weak s)
    (keeps : ∀ s op, Inv s → ok s op → cond s op → Inv (step s op))
    (needs : ∀ s op, Inv s → ok s op → Weak (step s op) → cond s op) {ops : List Op}
    (start : Inv s) (adm : Admissible step ok s ops) :
    (∀ t ∈ visited step s ops, Weak t) ↔ Admissible step cond s ops := by
  induction ops generalizing s with
  | nil => simp [visited, Admissible, weaken s start]
  | cons op rest ih =>
    simp only [visited, mem_cons, forall_eq_or_imp, Admissible]
    constructor
    · rintro ⟨_, later⟩
      have next : Weak (step s op) := later _ (by cases rest <;> simp [visited])
      have now := needs s op start adm.1 next
      exact ⟨now, (ih (keeps s op start adm.1 now) adm.2).mp later⟩
    · rintro ⟨now, later⟩
      exact ⟨weaken s start, (ih (keeps s op start adm.1 now) adm.2).mpr later⟩

end Runs
