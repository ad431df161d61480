import Mathlib.Data.List.Perm.Basic

/- A search in a list whose test becomes another one for good once an element
   of some kind has been met, and when its answer depends on the order. -/
namespace StickyScan
open List

variable {α : Type*} (switch raw conv : α → Bool)

def stickyAny : Bool → List α → Bool
  | _, [] => false
  | switched, g :: rest =>
    (if switched || switch g then conv g else raw g) || stickyAny (switched || switch g) rest

/- What makes the answer the same in every order. -/
structure Unstable (l : List α) : Prop where
  switched : ∃ g ∈ l, switch g = true
  missed : ∀ g ∈ l, switch g = true → conv g = false
  some_ : ∃ g ∈ l, switch g = false ∧ (raw g = true ∨ conv g = true)
  never_both : ∀ g ∈ l, switch g = false → ¬(raw g = true ∧ conv g = true)

variable {switch raw conv}

@[simp] theorem stickyAny_true (l : List α) : stickyAny switch raw conv true l = l.any conv := by
  induction l with
  | nil => rfl
  | cons g rest ih => simp [stickyAny, ih]

theorem stickyAny_append (b : Bool) (l m : List α) :
    stickyAny switch raw conv b (l ++ m) =
      (stickyAny switch raw conv b l || stickyAny switch raw conv (b || l.any switch) m) := by
  induction l generalizing b with
  | nil => simp [stickyAny]
  | cons g rest ih => simp [stickyAny, ih, Bool.or_assoc]

variable {l : List α} {b : Bool}

theorem stickyAny_plain (plain : ∀ g ∈ l, switch g = false) :
    stickyAny switch raw conv false l = l.any raw := by
  induction l with
  | nil => rfl
  | cons g rest ih =>
    have first := plain g mem_cons_self
    simp [stickyAny, first, ih fun h mem => plain h (mem_cons_of_mem g mem)]

theorem stickyAny_switches (all : ∀ g ∈ l, switch g = true) :
    stickyAny switch raw conv b l = l.any conv := by
  cases l with
  | nil => rfl
  | cons g rest =>
    have first := all g mem_cons_self
    simp [stickyAny, first]

theorem stickyAny_hit {g : α} (mem : g ∈ l) (hit : conv g = true)
    (also : switch g = true ∨ raw g = true) : stickyAny switch raw conv b l = true := by
  obtain ⟨front, back, rfl⟩ := append_of_mem mem
  rw [stickyAny_append]
  simp only [stickyAny, Bool.or_eq_true]
  cases also with
  | inl switch_ => exact .inr (.inl (by simp [switch_, hit]))
  | inr raw_ => exact .inr (.inl (by simp [raw_, hit]))

theorem stickyAny_none (missed : ∀ g ∈ l, raw g = false ∧ conv g = false) :
    stickyAny switch raw conv b l = false := by
  induction l generalizing b with
  | nil => rfl
  | cons g rest ih =>
    have first := missed g mem_cons_self
    simp [stickyAny, first, ih fun h mem => missed h (mem_cons_of_mem g mem)]

/-- A list that is not unstable has one answer for all its orders. -/
theorem stickyAny_perm (same : ∀ g, switch g = true → raw g = conv g) {m : List α}
    (perm : m.Perm l) (stable : ¬ Unstable switch raw conv l) :
    stickyAny switch raw conv false m = stickyAny switch raw conv false l := by
  by_cases switched : ∃ g ∈ l, switch g = true
  · by_cases missed : ∀ g ∈ l, switch g = true → conv g = false
    · by_cases some_ : ∃ g ∈ l, switch g = false ∧ (raw g = true ∨ conv g = true)
      · have both : ¬ ∀ g ∈ l, switch g = false → ¬(raw g = true ∧ conv g = true) :=
          fun never_both => stable ⟨switched, missed, some_, never_both⟩
        push Not at both
        obtain ⟨g, mem, -, raw_, conv_⟩ := both
        rw [stickyAny_hit mem conv_ (.inr raw_),
          stickyAny_hit (perm.mem_iff.mpr mem) conv_ (.inr raw_)]
      · have none_ : ∀ g ∈ l, raw g = false ∧ conv g = false := by
          intro g mem
          cases kind : switch g with
          | true =>
            have conv_ := missed g mem kind
            exact ⟨by rw [same g kind, conv_], conv_⟩
          | false =>
            push Not at some_
            simpa using some_ g mem kind
        rw [stickyAny_none none_, stickyAny_none fun g mem => none_ g (perm.mem_iff.mp mem)]
    · push Not at missed
      obtain ⟨g, mem, switch_, conv_⟩ := missed
      have hit : conv g = true := by simpa using conv_
      rw [stickyAny_hit mem hit (.inl switch_),
        stickyAny_hit (perm.mem_iff.mpr mem) hit (.inl switch_)]
  · have plain : ∀ g ∈ l, switch g = false := by simpa using switched
    rw [stickyAny_plain plain, stickyAny_plain fun g mem => plain g (perm.mem_iff.mp mem)]
    exact perm.any_eq

/-- An unstable list has an order in which something is found. -/
theorem unstable_found (unstable : Unstable switch raw conv l) :
    ∃ m, m.Perm l ∧ stickyAny switch raw conv false m = true := by
  obtain ⟨g, mem, plain, hit⟩ := unstable.some_
  have apart := filter_append_perm switch l
  cases raw_ : raw g with
  | true =>
    refine ⟨l.filter (fun h => !switch h) ++ l.filter switch, perm_append_comm.trans apart, ?_⟩
    rw [stickyAny_append, stickyAny_plain (by simp)]
    have found : (l.filter fun h => !switch h).any raw = true :=
      any_eq_true.mpr ⟨g, by simp [mem, plain], raw_⟩
    rw [found, Bool.true_or]
  | false =>
    have conv_ : conv g = true := by simpa [raw_] using hit
    refine ⟨l.filter switch ++ l.filter (fun h => !switch h), apart, ?_⟩
    obtain ⟨s, smem, switch_⟩ := unstable.switched
    have leaked : (l.filter switch).any switch = true :=
      any_eq_true.mpr ⟨s, by simp [smem, switch_], switch_⟩
    have found : (l.filter fun h => !switch h).any conv = true :=
      any_eq_true.mpr ⟨g, by simp [mem, plain], conv_⟩
    rw [stickyAny_append, leaked, Bool.or_true, stickyAny_true, found, Bool.or_true]

/-- An unstable list has an order in which nothing is found. -/
theorem unstable_missed (unstable : Unstable switch raw conv l) :
    ∃ m, m.Perm l ∧ stickyAny switch raw conv false m = false := by
  -- those that raw does not find come first, then the switches, then the others
  let early : α → Bool := fun g => !switch g && !raw g
  let late := l.filter fun g => !early g
  refine ⟨l.filter early ++ (late.filter switch ++ late.filter fun g => !switch g), ?_, ?_⟩
  · exact ((filter_append_perm switch late).append_left _).trans (filter_append_perm early l)
  · have first : stickyAny switch raw conv false (l.filter early) = false := by
      rw [stickyAny_plain (by simp [early]; tauto)]
      simp [early]
    have plain : (l.filter early).any switch = false := by
      simp [early]
      tauto
    have second : (late.filter switch).any conv = false := by
      simp only [any_eq_false, late, mem_filter]
      intro g mem
      simp [unstable.missed g mem.1.1 mem.2]
    have third : (late.filter fun g => !switch g).any conv = false := by
      simp only [any_eq_false, late, mem_filter]
      rintro g ⟨⟨mem, kind⟩, other⟩
      have switch_ : switch g = false := by simpa using other
      have raw_ : raw g = true := by simpa [early, switch_] using kind
      exact fun conv_ => unstable.never_both g mem switch_ ⟨raw_, conv_⟩
    have leaked : (late.filter switch).any switch = true := by
      obtain ⟨s, mem, switch_⟩ := unstable.switched
      exact any_eq_true.mpr ⟨s, by simp [late, early, mem, switch_], switch_⟩
    rw [stickyAny_append, first, plain, Bool.false_or, Bool.or_false, stickyAny_append,
      stickyAny_switches (by simp), second, leaked, Bool.or_true, stickyAny_true, third]
    rfl

end StickyScan
