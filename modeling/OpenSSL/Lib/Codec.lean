import Mathlib.Tactic.Common

/- Readers that take a prefix off a list and writers that append to one, as state
   transformers that may fail, and the rules that chain them. -/
namespace Codec
open List
variable {β σ α γ : Type}

/-- In front of the rest, the reader takes exactly the bytes and returns the value. -/
def Reads (p : StateT (List β) Option α) (bytes : List β) (x : α) (rest : List β) : Prop :=
  p.run (bytes ++ rest) = some (x, rest)

theorem reads_pure (x : α) (rest : List β) : Reads (pure x) [] x rest := rfl

variable {p : StateT (List β) Option α} {rest xs ys : List β} {x : α} {y : γ} {c d : Prop}
    {w : StateT σ Option α} {f : α → StateT σ Option γ}

theorem reads_bind {f : α → StateT (List β) Option γ} (first : Reads p xs x (ys ++ rest))
    (later : Reads (f x) ys y rest) : Reads (p >>= f) (xs ++ ys) y rest := by
  unfold Reads at *
  rw [StateT.run_bind, append_assoc, first]
  exact later

/-- A reading of the position takes nothing. -/
theorem reads_look {f : α → StateT (List β) Option γ} (first : Reads p [] x (ys ++ rest))
    (later : Reads (f x) ys y rest) : Reads (p >>= f) ys y rest := reads_bind first later

theorem reads_whole (reads : Reads p (xs ++ []) x rest) : Reads p xs x rest := by
  rwa [append_nil] at reads

theorem reads_guard [Decidable c] (holds : c) (rest : List β) : Reads (guard c) [] () rest := by
  rw [guard, if_pos holds]
  rfl

theorem reads_guard_bind [Decidable c] {f : Unit → StateT (List β) Option γ} (holds : c)
    (later : Reads (f ()) ys y rest) :
    Reads (guard c >>= f) ys y rest := reads_bind (reads_guard holds _) later

theorem reads_last {g : α → γ} (first : Reads p xs x rest) :
    Reads (p >>= fun a => pure (g a)) xs (g x) rest :=
  reads_whole (reads_bind first (reads_pure (g x) rest))

/- Where a writer has put its output, and the states it may run in. -/
structure Output (σ β : Type) where
  out : σ → List β
  ready : σ → Prop

/-- A run that succeeds meets the condition and appends the bytes. -/
def Emits (o : Output σ β) (w : StateT σ Option α) (cond : Prop) (bytes : List β) : Prop :=
  ∀ s x s', o.ready s → w.run s = some (x, s') → cond ∧ o.ready s' ∧ o.out s' = o.out s ++ bytes

theorem emits_pure (o : Output σ β) (x : α) : Emits o (pure x) True [] := by
  intro s y s' ready run
  obtain ⟨rfl, rfl⟩ := Prod.mk.inj (Option.some.inj run)
  exact ⟨trivial, ready, (append_nil _).symm⟩

variable {o : Output σ β}

theorem emits_bind (first : Emits o w c xs) (later : ∀ x, Emits o (f x) d ys) :
    Emits o (w >>= f) (c ∧ d) (xs ++ ys) := by
  intro s y t ready run
  rw [StateT.run_bind] at run
  obtain ⟨⟨x, mid⟩, half, rest⟩ := Option.bind_eq_some_iff.mp run
  obtain ⟨hc, ready', out⟩ := first s x mid ready half
  obtain ⟨hd, ready'', out'⟩ := later x mid y t ready' rest
  exact ⟨⟨hc, hd⟩, ready'', by rw [out', out, append_assoc]⟩

theorem emits_guard (o : Output σ β) (c : Prop) [Decidable c] : Emits o (guard c) c [] := by
  intro s x s' ready run
  by_cases holds : c
  · rw [guard, if_pos holds] at run
    exact ⟨holds, (emits_pure o _ s x s' ready run).2⟩
  · rw [guard, if_neg holds] at run
    contradiction

theorem emits_guard_bind [Decidable c] {f : Unit → StateT σ Option γ}
    (later : c → Emits o (f ()) d ys) : Emits o (guard c >>= f) (c ∧ d) ys := by
  intro s y t ready run
  rw [StateT.run_bind] at run
  obtain ⟨⟨x, mid⟩, half, rest⟩ := Option.bind_eq_some_iff.mp run
  obtain ⟨holds, ready', out⟩ := emits_guard o c s x mid ready half
  obtain ⟨hd, ready'', out'⟩ := later holds mid y t ready' rest
  exact ⟨⟨holds, hd⟩, ready'', by rw [out', out, append_nil]⟩

theorem emits_last {g : α → γ} (first : Emits o w c xs) :
    Emits o (w >>= fun x => pure (g x)) c xs := by
  intro s y t ready run
  rw [StateT.run_bind] at run
  obtain ⟨⟨x, mid⟩, half, rest⟩ := Option.bind_eq_some_iff.mp run
  obtain ⟨rfl, rfl⟩ := Prod.mk.inj (Option.some.inj rest)
  exact first s x _ ready half

theorem emits_ite {b : Prop} [Decidable b] {v : StateT σ Option α} (yes : b → Emits o v c xs)
    (no : ¬ b → Emits o w d ys) :
    Emits o (if b then v else w) (if b then c else d) (if b then xs else ys) := by
  by_cases holds : b
  · simpa only [if_pos holds] using yes holds
  · simpa only [if_neg holds] using no holds

theorem emits_mono {bytes : List β} (weaker : c → d) (emits : Emits o w c bytes) :
    Emits o w d bytes := by
  intro s x s' ready run
  obtain ⟨holds, rest⟩ := emits s x s' ready run
  exact ⟨weaker holds, rest⟩

/-- From behind the output so far, a run that succeeds also returns the value. -/
def Yields (o : Output σ β) (w : StateT σ Option α) (before : List β) (cond : Prop)
    (bytes : List β) (x : α) : Prop :=
  ∀ s y s', o.ready s → o.out s = before → w.run s = some (y, s') →
    cond ∧ o.ready s' ∧ o.out s' = before ++ bytes ∧ y = x

theorem yields_of_emits {w : StateT σ Option Unit} {bytes : List β} (emits : Emits o w c bytes)
    (before : List β) : Yields o w before c bytes () := by
  intro s y s' ready out run
  obtain ⟨holds, ready', out'⟩ := emits s y s' ready run
  exact ⟨holds, ready', by rw [out', out], rfl⟩

theorem yields_pure (o : Output σ β) (before : List β) (x : α) :
    Yields o (pure x) before True [] x := by
  intro s y s' ready out run
  obtain ⟨rfl, rfl⟩ := Prod.mk.inj (Option.some.inj run)
  exact ⟨trivial, ready, by rw [out, append_nil], rfl⟩

variable {before : List β}

theorem yields_bind (first : Yields o w before c xs x)
    (later : Yields o (f x) (before ++ xs) d ys y) :
    Yields o (w >>= f) before (c ∧ d) (xs ++ ys) y := by
  intro s z t ready out run
  rw [StateT.run_bind] at run
  obtain ⟨⟨a, mid⟩, half, rest⟩ := Option.bind_eq_some_iff.mp run
  obtain ⟨hc, ready', out', rfl⟩ := first s a mid ready out half
  obtain ⟨hd, ready'', out'', same⟩ := later mid z t ready' out' rest
  exact ⟨⟨hc, hd⟩, ready'', by rw [out'', append_assoc], same⟩

theorem yields_read (first : Yields o w before c [] x)
    (later : Yields o (f x) before d ys y) : Yields o (w >>= f) before (c ∧ d) ys y := by
  have both := yields_bind first (by rwa [append_nil])
  rwa [nil_append] at both

/-- So does one of anything, if what follows does not depend on it. -/
theorem yields_any (reads : ∀ s, ∃ x, w.run s = some (x, s))
    (later : ∀ x, Yields o (f x) before d ys y) : Yields o (w >>= f) before d ys y := by
  intro s z t ready out run
  obtain ⟨x, first⟩ := reads s
  rw [StateT.run_bind, first] at run
  exact later x s z t ready out run

theorem yields_last (first : Yields o w before c xs x)
    (later : Yields o (f x) (before ++ xs) d [] y) : Yields o (w >>= f) before (c ∧ d) xs y := by
  have both := yields_bind first later
  rwa [append_nil] at both

theorem yields_guard_bind [Decidable c] {f : Unit → StateT σ Option γ}
    (later : c → Yields o (f ()) before d ys y) : Yields o (guard c >>= f) before (c ∧ d) ys y := by
  by_cases holds : c
  · exact yields_read (yields_of_emits (emits_guard o c) before) (later holds)
  · intro s z t ready out run
    rw [StateT.run_bind, guard, if_neg holds] at run
    contradiction

theorem yields_mono {before bytes : List β} (weaker : c → d)
    (yields : Yields o w before c bytes x) : Yields o w before d bytes x := by
  intro s y s' ready out run
  obtain ⟨holds, rest⟩ := yields s y s' ready out run
  exact ⟨weaker holds, rest⟩

end Codec
