import OpenSSL.X509.V3Utl
import Mathlib.Data.List.Forall2

/- Which host names a pattern with a wildcard matches. -/
namespace Ossl
open Nat List Option

def ldh (c : UInt8) : Bool := alnum c || c == hyphenChar

def SameNocase (xs ys : List UInt8) : Prop := xs.map toLower = ys.map toLower

structure GoodLabel (l : List UInt8) : Prop where
  some_ : l ≠ []
  chars : ∀ c ∈ l, ldh c = true
  first : l.head? ≠ some hyphenChar
  last : l.getLast? ≠ some hyphenChar

def behind (others : List (List UInt8)) : List UInt8 := others.flatMap (dotChar :: ·)

structure LegalStar (flags : X509CheckFlags) (front back : List UInt8)
    (others : List (List UInt8)) : Prop where
  chars : ∀ c ∈ front ++ back, ldh c = true
  place : front = [] ∨ back = []
  whole : flags.noPartialWildcards = true → front = [] ∧ back = []
  idna : hasIdnaPrefix (front ++ starChar :: back) = false
  first : front.head? ≠ some hyphenChar
  before : front.getLast? ≠ some hyphenChar
  last : back.getLast? ≠ some hyphenChar
  good : ∀ l ∈ others, GoodLabel l
  three : 2 ≤ others.length

def StarMatches (front back : List UInt8) (others : List (List UInt8)) (subject : List UInt8) :
    Prop :=
  ∃ front' part back' others', subject = front' ++ part ++ back' ++ behind others' ∧
    SameNocase front front' ∧ SameNocase back back' ∧ List.Forall₂ SameNocase others others' ∧
    (∀ c ∈ part, ldh c = true) ∧
    if front = [] ∧ back = [] then part ≠ []
    else hasIdnaPrefix (front' ++ part ++ back') = false

theorem dot_not_ldh : ldh dotChar = false := by decide
theorem star_not_ldh : ldh starChar = false := by decide
theorem hyphen_not_alnum : alnum hyphenChar = false := by decide

theorem alnum_ldh {c : UInt8} (is : alnum c = true) : ldh c = true := by
  rw [ldh, is, Bool.true_or]

theorem alnum_ne {c d : UInt8} (is : alnum c = true) (other : alnum d = false) : c ≠ d := by
  intro same
  rw [same, other] at is
  contradiction

/-- What comes behind a dot or a star makes no difference to the prefix. -/
theorem idna_stop (p : List UInt8) {c : UInt8} (stop : c = dotChar ∨ c = starChar)
    (rest : List UInt8) : hasIdnaPrefix (p ++ c :: rest) = hasIdnaPrefix p := by
  have low : toLower c ≠ 120 ∧ toLower c ≠ 110 ∧ toLower c ≠ 45 := by
    cases stop with
    | inl dot =>
      rw [dot]
      decide
    | inr star =>
      rw [star]
      decide
  obtain ⟨x, n, h⟩ := low
  match p with
  | [] => simp [hasIdnaPrefix, x]
  | [a] => simp [hasIdnaPrefix, n]
  | [a, b] => simp [hasIdnaPrefix, h]
  | [a, b, d] => simp [hasIdnaPrefix, h]
  | a :: b :: d :: e :: p => simp [hasIdnaPrefix]

theorem behind_cons (o : List UInt8) (os : List (List UInt8)) :
    behind (o :: os) = dotChar :: (o ++ behind os) := rfl

variable {others : List (List UInt8)} {front p q : List UInt8}

theorem behind_nil (empty : behind others = []) : others = [] := by
  cases others with
  | nil => rfl
  | cons o os => contradiction

def TailLang (start hyphen : Bool) (dots : Nat) (tail : List UInt8) : Prop :=
  ∃ l others, tail = l ++ behind others ∧ (∀ c ∈ l, ldh c = true) ∧
    (start = true → l ≠ [] ∧ l.head? ≠ some hyphenChar) ∧
    (l = [] → hyphen = false) ∧ l.getLast? ≠ some hyphenChar ∧
    (∀ o ∈ others, GoodLabel o) ∧ 2 ≤ dots + others.length

variable {start hyphen : Bool} {dots : Nat} {c : UInt8} {rest : List UInt8}

theorem tail_nil : TailLang start hyphen dots [] ↔ start = false ∧ hyphen = false ∧ 2 ≤ dots := by
  constructor
  · intro lang
    obtain ⟨l, others, split, _, first, empty, _, _, three⟩ := lang
    obtain ⟨rfl, none⟩ := append_eq_nil_iff.mp split.symm
    rw [behind_nil none] at three
    refine ⟨?_, empty rfl, three⟩
    cases start with
    | false => rfl
    | true => exact absurd rfl (first rfl).1
  · intro ready
    obtain ⟨rfl, rfl, three⟩ := ready
    refine ⟨[], [], rfl, ?_, ?_, fun _ => rfl, ?_, ?_, three⟩
    · intro c member
      contradiction
    · intro yes
      contradiction
    · intro last
      contradiction
    · intro o member
      contradiction

theorem last_cons {l : List UInt8} (some_ : l ≠ []) (c : UInt8) : (c :: l).getLast? = l.getLast? := by
  cases l with
  | nil => contradiction
  | cons d l => rfl

/-- A letter, a digit or a hyphen is part of the label. -/
theorem tail_char (is : ldh c = true) : TailLang start hyphen dots (c :: rest) ↔
    (start = true → c ≠ hyphenChar) ∧ TailLang false (c == hyphenChar) dots rest := by
  constructor
  · intro lang
    obtain ⟨l, others, split, chars, first, empty, last, good, three⟩ := lang
    cases l with
    | nil =>
      cases others with
      | nil => nomatch split
      | cons o os =>
        have dot := (cons.inj split).1
        rw [dot, dot_not_ldh] at is
        contradiction
    | cons d l =>
      obtain ⟨rfl, tail⟩ := cons.inj split
      refine ⟨?_, l, others, tail, ?_, ?_, ?_, ?_, good, three⟩
      · intro begun same
        rw [same] at first
        exact (first begun).2 rfl
      · intro d member
        exact chars d (mem_cons_of_mem c member)
      · intro yes
        contradiction
      · intro none
        rw [none] at last
        exact beq_eq_false_iff_ne.mpr fun same => last (congrArg some same)
      · intro bad
        cases l with
        | nil => contradiction
        | cons e l => exact last bad
  · intro both
    obtain ⟨begun, l, others, tail, chars, _, empty, last, good, three⟩ := both
    refine ⟨c :: l, others, by rw [tail]; rfl, ?_, ?_, ?_, ?_, good, three⟩
    · intro d member
      cases mem_cons.mp member with
      | inl here =>
        rw [here]
        exact is
      | inr later => exact chars d later
    · intro yes
      refine ⟨cons_ne_nil _ _, ?_⟩
      intro same
      exact begun yes (some.inj same)
    · intro none
      contradiction
    · by_cases none : l = []
      · rw [none]
        intro same
        exact beq_eq_false_iff_ne.mp (empty none) (some.inj same)
      · rw [last_cons none]
        exact last

theorem tail_dot : TailLang start hyphen dots (dotChar :: rest) ↔
    start = false ∧ hyphen = false ∧ TailLang true false (dots + 1) rest := by
  constructor
  · intro lang
    obtain ⟨l, others, split, chars, first, empty, last, good, three⟩ := lang
    cases l with
    | nil =>
      cases others with
      | nil => nomatch split
      | cons o os =>
        have label := good o mem_cons_self
        refine ⟨?_, empty rfl, o, os, (cons.inj split).2, label.chars, ?_, ?_, label.last, ?_, ?_⟩
        · cases start with
          | false => rfl
          | true => exact absurd rfl (first rfl).1
        · intro _
          exact ⟨label.some_, label.first⟩
        · intro _
          rfl
        · intro o' member
          exact good o' (mem_cons_of_mem o member)
        · rw [length_cons] at three
          omega
    | cons d l =>
      have dot := (cons.inj split).1
      have is := chars d mem_cons_self
      rw [← dot, dot_not_ldh] at is
      contradiction
  · intro ready
    obtain ⟨rfl, rfl, l, others, tail, chars, first, _, last, good, three⟩ := ready
    refine ⟨[], l :: others, by rw [tail]; rfl, ?_, ?_, fun _ => rfl, ?_, ?_, ?_⟩
    · intro c member
      contradiction
    · intro yes
      contradiction
    · intro last
      contradiction
    · intro o member
      cases mem_cons.mp member with
      | inl here =>
        rw [here]
        exact ⟨(first rfl).1, chars, (first rfl).2, last⟩
      | inr later => exact good o later
    · rw [length_cons]
      omega

theorem tail_other (not : ldh c = false) (dot : c ≠ dotChar) :
    ¬ TailLang start hyphen dots (c :: rest) := by
  intro lang
  obtain ⟨l, others, split, chars, _⟩ := lang
  cases l with
  | nil =>
    cases others with
    | nil => nomatch split
    | cons o os => exact dot (cons.inj split).1
  | cons d l =>
    have is := chars d mem_cons_self
    rw [← (cons.inj split).1, not] at is
    contradiction

def starVerdict (r : Option StarState) : Option Nat :=
  match r with
  | none => none
  | some s => if s.start = true ∨ s.hyphen = true ∨ s.dots < 2 then none else s.star

theorem validStar_verdict (p : List UInt8) (flags : X509CheckFlags) :
    validStar p flags = starVerdict (validStarRounds flags p 0 ⟨true, false, false, 0, none⟩) := rfl

variable {flags : X509CheckFlags}

/-- Once there is a star the rest decides whether it is legal. -/
theorem rounds_tail (tail : List UInt8) (i : Nat) (start hyphen idna : Bool) (dots k k' : Nat) :
    starVerdict (validStarRounds flags tail i ⟨start, hyphen, idna, dots, some k⟩) = some k' ↔
      k' = k ∧ TailLang start hyphen dots tail := by
  induction tail generalizing i start hyphen idna dots with
  | nil =>
    rw [validStarRounds, starVerdict, tail_nil]
    split_ifs with bad
    · constructor
      · intro none
        contradiction
      · intro both
        obtain ⟨_, rfl, rfl, three⟩ := both
        simp at bad
        omega
    · simp only [not_or, Bool.not_eq_true, Nat.not_lt] at bad
      constructor
      · intro same
        exact ⟨(some.inj same).symm, bad⟩
      · intro both
        rw [both.1]
  | cons c rest ih =>
    rw [validStarRounds]
    by_cases star : c = starChar
    · rw [if_pos star, star]
      rw [if_pos (.inl isSome_some)]
      constructor
      · intro none
        contradiction
      · intro both
        exact absurd both.2 (tail_other star_not_ldh (by decide))
    rw [if_neg star]
    by_cases letter : alnum c = true
    · have other : c ≠ hyphenChar := alnum_ne letter hyphen_not_alnum
      rw [if_pos letter, ih, tail_char (alnum_ldh letter), beq_eq_false_iff_ne.mpr other]
      constructor
      · intro both
        exact ⟨both.1, fun _ => other, both.2⟩
      · intro all
        exact ⟨all.1, all.2.2⟩
    rw [if_neg letter]
    by_cases dot : c = dotChar
    · rw [if_pos dot, dot, tail_dot]
      split_ifs with bad
      · constructor
        · intro none
          contradiction
        · intro all
          obtain ⟨_, rfl, rfl, _⟩ := all
          simp at bad
      · simp only [not_or, Bool.not_eq_true] at bad
        rw [ih]
        constructor
        · intro both
          exact ⟨both.1, bad.2, bad.1, both.2⟩
        · intro all
          exact ⟨all.1, all.2.2.2⟩
    rw [if_neg dot]
    by_cases dash : c = hyphenChar
    · have is : ldh c = true := by
        rw [dash]
        decide
      rw [if_pos dash, tail_char is, beq_iff_eq.mpr dash]
      cases start with
      | true =>
        rw [if_pos rfl]
        constructor
        · intro none
          contradiction
        · intro all
          exact absurd dash (all.2.1 rfl)
      | false =>
        rw [if_neg Bool.false_ne_true, ih]
        constructor
        · intro both
          exact ⟨both.1, fun yes => absurd yes Bool.false_ne_true, both.2⟩
        · intro all
          exact ⟨all.1, all.2.2⟩
    · rw [if_neg dash]
      have not : ldh c = false := by
        rw [ldh, Bool.eq_false_iff.mpr letter, beq_eq_false_iff_ne.mpr dash]
        rfl
      constructor
      · intro none
        contradiction
      · intro both
        exact absurd both.2 (tail_other not dot)

/-- There is no star after the first label. -/
theorem rounds_late (rest : List UInt8) (i : Nat) (s : StarState) (none_ : s.star = none)
    (late : s.dots ≠ 0) : starVerdict (validStarRounds flags rest i s) = none := by
  induction rest generalizing i s with
  | nil =>
    rw [validStarRounds, starVerdict]
    split_ifs
    · rfl
    · exact none_
  | cons c rest ih =>
    rw [validStarRounds]
    by_cases star : c = starChar
    · rw [if_pos star]
      rw [if_pos (.inr (.inr late))]
      rfl
    rw [if_neg star]
    by_cases letter : alnum c = true
    · rw [if_pos letter]
      exact ih _ _ none_ late
    rw [if_neg letter]
    by_cases dot : c = dotChar
    · rw [if_pos dot]
      by_cases bad : s.hyphen = true ∨ s.start = true
      · rw [if_pos bad]
        rfl
      · rw [if_neg bad]
        exact ih _ _ none_ (succ_ne_zero _)
    rw [if_neg dot]
    by_cases dash : c = hyphenChar
    · rw [if_pos dash]
      by_cases begun : s.start = true
      · rw [if_pos begun]
        rfl
      · rw [if_neg begun]
        exact ih _ _ none_ late
    · rw [if_neg dash]
      rfl

/- What may come before the star, and what the star finds. -/
structure FrontOk (flags : X509CheckFlags) (start hyphen idna : Bool) (front tail : List UInt8) :
    Prop where
  chars : ∀ c ∈ front, ldh c = true
  first : start = true → front.head? ≠ some hyphenChar
  idna : idna = false ∧ ¬ (start = true ∧ hasIdnaPrefix front = true)
  whole : flags.noPartialWildcards = true → (start = true ∧ front = []) ∧
    (tail = [] ∨ tail.headD 0 = dotChar)
  place : (start = true ∧ front = []) ∨ (tail = [] ∨ tail.headD 0 = dotChar)
  tail : TailLang false (if front = [] then hyphen else front.getLast? == some hyphenChar) 0 tail

theorem frontOk_cons {idna : Bool} {tail : List UInt8} (is : ldh c = true) :
    FrontOk flags start hyphen idna (c :: front) tail ↔ (start = true → c ≠ hyphenChar) ∧
      FrontOk flags false (c == hyphenChar) (idna || start && hasIdnaPrefix (c :: front)) front
        tail := by
  have last : (if c :: front = [] then hyphen else (c :: front).getLast? == some hyphenChar) =
      if front = [] then c == hyphenChar else front.getLast? == some hyphenChar := by
    rw [if_neg (cons_ne_nil c front)]
    by_cases none : front = []
    · rw [if_pos none, none]
      rfl
    · rw [if_neg none, last_cons none]
  constructor
  · intro ok
    refine ⟨fun begun same => ok.first begun (congrArg some same), ?_, ?_, ?_, ?_, ?_, ?_⟩
    · intro d member
      exact ok.chars d (mem_cons_of_mem c member)
    · intro yes
      contradiction
    · constructor
      · rw [ok.idna.1, Bool.false_or]
        exact Bool.eq_false_iff.mpr fun both => ok.idna.2 (Bool.and_eq_true_iff.mp both)
      · intro both
        exact Bool.false_ne_true both.1
    · intro flag
      exact absurd (ok.whole flag).1.2 (cons_ne_nil c front)
    · exact .inr (ok.place.resolve_left fun both => cons_ne_nil c front both.2)
    · rw [← last]
      exact ok.tail
  · intro both
    obtain ⟨begun, ok⟩ := both
    obtain ⟨clear, none⟩ := Bool.or_eq_false_iff.mp ok.idna.1
    have atEnd := ok.place.resolve_left fun bad => Bool.false_ne_true bad.1
    refine ⟨?_, ?_, ?_, ?_, .inr atEnd, ?_⟩
    · intro d member
      cases mem_cons.mp member with
      | inl here =>
        rw [here]
        exact is
      | inr later => exact ok.chars d later
    · intro yes same
      exact begun yes (some.inj same)
    · refine ⟨clear, fun bad => ?_⟩
      rw [bad.1, bad.2] at none
      contradiction
    · intro flag
      exact absurd (ok.whole flag).1.1 Bool.false_ne_true
    · rw [last]
      exact ok.tail

theorem rounds_front (rest : List UInt8) (i : Nat) (start hyphen idna : Bool) (k : Nat) :
    starVerdict (validStarRounds flags rest i ⟨start, hyphen, idna, 0, none⟩) = some k ↔
      ∃ front tail, rest = front ++ starChar :: tail ∧ k = i + front.length ∧
        FrontOk flags start hyphen idna front tail := by
  induction rest generalizing i start hyphen idna with
  | nil =>
    have short : starVerdict (validStarRounds flags [] i ⟨start, hyphen, idna, 0, none⟩) = none := by
      rw [validStarRounds, starVerdict]
      split_ifs <;> rfl
    rw [short]
    constructor
    · intro none
      contradiction
    · intro found
      obtain ⟨front, tail, split, _⟩ := found
      cases front <;> contradiction
  | cons c rest ih =>
    rw [validStarRounds]
    by_cases star : c = starChar
    · rw [if_pos star]
      dsimp only
      have only : ∀ front tail, c :: rest = front ++ starChar :: tail →
          FrontOk flags start hyphen idna front tail → front = [] ∧ tail = rest := by
        intro front tail split ok
        cases front with
        | nil => exact ⟨rfl, (List.cons.inj split).2.symm⟩
        | cons d front =>
          have is := ok.chars d mem_cons_self
          rw [← (List.cons.inj split).1, star, star_not_ldh] at is
          contradiction
      have atEnd : (decide (rest = []) || rest.headD 0 == dotChar) = true ↔
          rest = [] ∨ rest.headD 0 = dotChar := by
        rw [Bool.or_eq_true, decide_eq_true_iff, beq_iff_eq]
      constructor
      · intro found
        split_ifs at found with busy partial_ between
        · contradiction
        · contradiction
        · contradiction
        · obtain ⟨here, lang⟩ := (rounds_tail rest (i + 1) false hyphen idna 0 i k).mp found
          simp only [isSome_none, Bool.false_eq_true, false_or, ne_eq, not_true_eq_false,
            or_false, Bool.not_eq_true] at busy
          refine ⟨[], rest, by rw [star]; rfl, here, ?_, ?_, ⟨busy, ?_⟩, ?_, ?_, lang⟩
          · intro d member
            contradiction
          · intro _ bad
            contradiction
          · intro both
            exact absurd both.2 (by decide)
          · intro flag
            have both := not_or.mp fun bad => partial_ ⟨flag, bad⟩
            simp only [Bool.not_eq_false] at both
            exact ⟨⟨both.1, rfl⟩, atEnd.mp both.2⟩
          · by_cases begun : start = true
            · exact .inl ⟨begun, rfl⟩
            · refine .inr (atEnd.mp ?_)
              by_contra not
              exact between ⟨Bool.eq_false_iff.mpr begun, Bool.eq_false_iff.mpr not⟩
      · intro found
        obtain ⟨front, tail, split, here, ok⟩ := found
        obtain ⟨rfl, rfl⟩ := only front tail split ok
        have busy : ¬ ((none : Option Nat).isSome = true ∨ idna = true ∨ (0 : Nat) ≠ 0) := by
          rw [ok.idna.1]
          simp
        have partial_ : ¬ (flags.noPartialWildcards = true ∧ (start = false ∨
            (decide (tail = []) || tail.headD 0 == dotChar) = false)) := by
          intro bad
          obtain ⟨begun, ends⟩ := ok.whole bad.1
          rw [begun.1, atEnd.mpr ends] at bad
          simp at bad
        have between : ¬ (start = false ∧
            (decide (tail = []) || tail.headD 0 == dotChar) = false) := by
          intro bad
          cases ok.place with
          | inl begun =>
            rw [begun.1] at bad
            exact absurd bad.1.symm Bool.false_ne_true
          | inr ends =>
            rw [atEnd.mpr ends] at bad
            exact absurd bad.2.symm Bool.false_ne_true
        rw [if_neg busy, if_neg partial_, if_neg between]
        exact (rounds_tail tail (i + 1) false hyphen idna 0 i k).mpr ⟨here, ok.tail⟩
    rw [if_neg star]
    -- the other characters that may come before the star go to the front
    have grows : ldh c = true → ∀ idna' : Bool, (start = true → c ≠ hyphenChar) →
        (∀ front tail, rest = front ++ starChar :: tail →
          idna' = (idna || start && hasIdnaPrefix (c :: front))) →
        ((∃ front tail, rest = front ++ starChar :: tail ∧ k = i + 1 + front.length ∧
            FrontOk flags false (c == hyphenChar) idna' front tail) ↔
          ∃ front tail, c :: rest = front ++ starChar :: tail ∧ k = i + front.length ∧
            FrontOk flags start hyphen idna front tail) := by
      intro is idna' begun same
      constructor
      · intro found
        obtain ⟨front, tail, split, here, ok⟩ := found
        rw [same front tail split] at ok
        refine ⟨c :: front, tail, by rw [split]; rfl, ?_, (frontOk_cons is).mpr ⟨begun, ok⟩⟩
        rw [length_cons]
        omega
      · intro found
        obtain ⟨front, tail, split, here, ok⟩ := found
        cases front with
        | nil => exact absurd (List.cons.inj split).1 star
        | cons d front =>
          obtain ⟨rfl, split'⟩ := List.cons.inj split
          refine ⟨front, tail, split', ?_, ?_⟩
          · rw [length_cons] at here
            omega
          · rw [same front tail split']
            exact ((frontOk_cons is).mp ok).2
    have never : ldh c = false → ¬ ∃ front tail, c :: rest = front ++ starChar :: tail ∧
        k = i + front.length ∧ FrontOk flags start hyphen idna front tail := by
      intro not found
      obtain ⟨front, tail, split, _, ok⟩ := found
      cases front with
      | nil => exact star (List.cons.inj split).1
      | cons d front =>
        have is := ok.chars d mem_cons_self
        rw [← (List.cons.inj split).1, not] at is
        contradiction
    by_cases letter : alnum c = true
    · have other : c ≠ hyphenChar := alnum_ne letter hyphen_not_alnum
      rw [if_pos letter]
      rw [ih, ← grows (alnum_ldh letter) (idna || start && hasIdnaPrefix (c :: rest))
        (fun _ => other), beq_eq_false_iff_ne.mpr other]
      intro front tail split
      rw [split, ← cons_append, idna_stop _ (.inr rfl)]
    rw [if_neg letter]
    by_cases dot : c = dotChar
    · rw [if_pos dot]
      have not := never (by rw [dot]; exact dot_not_ldh)
      split_ifs
      · exact iff_of_false (fun bad => by contradiction) not
      · rw [rounds_late rest (i + 1) _ rfl (succ_ne_zero _)]
        exact iff_of_false (fun bad => by contradiction) not
    rw [if_neg dot]
    by_cases dash : c = hyphenChar
    · rw [if_pos dash]
      have is : ldh c = true := by
        rw [dash]
        decide
      have plain : ∀ front : List UInt8, hasIdnaPrefix (c :: front) = false := by
        intro front
        have low : toLower hyphenChar ≠ 120 := by decide
        rw [dash]
        simp [hasIdnaPrefix, low]
      cases begun : start with
      | true =>
        rw [if_pos rfl]
        have not : ¬ ∃ front tail, c :: rest = front ++ starChar :: tail ∧
            k = i + front.length ∧ FrontOk flags true hyphen idna front tail := by
          intro found
          obtain ⟨front, tail, split, _, ok⟩ := found
          cases front with
          | nil => exact star (List.cons.inj split).1
          | cons d front =>
            apply ok.first rfl
            rw [← (List.cons.inj split).1, dash]
            rfl
        exact iff_of_false (fun bad => by contradiction) not
      | false =>
        rw [if_neg Bool.false_ne_true, ih, ← begun, ← grows is idna
          (fun yes => absurd (begun.symm.trans yes) Bool.false_ne_true), begun,
          beq_iff_eq.mpr dash]
        intro front tail _
        rw [plain, Bool.and_false, Bool.or_false]
    · rw [if_neg dash]
      have not : ldh c = false := by
        rw [ldh, Bool.eq_false_iff.mpr letter, beq_eq_false_iff_ne.mpr dash]
        rfl
      exact iff_of_false (fun bad => by contradiction) (never not)

theorem frontOk_legal {tail : List UInt8} : FrontOk flags true false false front tail ↔
      ∃ back others, tail = back ++ behind others ∧ LegalStar flags front back others := by
  have apart : hasIdnaPrefix front = false → ∀ back, hasIdnaPrefix (front ++ starChar :: back) = false := by
    intro plain back
    rw [idna_stop _ (.inr rfl)]
    exact plain
  constructor
  · intro ok
    obtain ⟨back, others, split, chars, _, empty, last, good, three⟩ := ok.tail
    have heads : tail = [] ∨ tail.headD 0 = dotChar → back = [] := by
      intro either
      cases back with
      | nil => rfl
      | cons d back =>
        have is := chars d mem_cons_self
        rw [split] at either
        cases either with
        | inl none => contradiction
        | inr dot =>
          have same : d = dotChar := dot
          rw [same, dot_not_ldh] at is
          contradiction
    refine ⟨back, others, split, ?_, ?_, ?_, apart ?_ back, ok.first rfl, ?_, last, good, by omega⟩
    · intro c member
      cases mem_append.mp member with
      | inl here => exact ok.chars c here
      | inr there => exact chars c there
    · cases ok.place with
      | inl begun => exact .inl begun.2
      | inr ends => exact .inr (heads ends)
    · intro flag
      exact ⟨(ok.whole flag).1.2, heads (ok.whole flag).2⟩
    · exact Bool.eq_false_iff.mpr fun bad => ok.idna.2 ⟨rfl, bad⟩
    · by_cases none : front = []
      · rw [none]
        exact fun bad => by contradiction
      · intro same
        -- then the star stands at the end, and the hyphen before it is the last of the label
        have ends := ok.place.resolve_left fun bad => none bad.2
        have hyphen := empty (heads ends)
        rw [if_neg none, same] at hyphen
        contradiction
  · intro found
    obtain ⟨back, others, split, legal⟩ := found
    have ends : back = [] → tail = [] ∨ tail.headD 0 = dotChar := by
      intro none
      rw [split, none]
      cases others with
      | nil => exact .inl rfl
      | cons o os => exact .inr rfl
    constructor
    · intro c member
      exact legal.chars c (mem_append_left _ member)
    · intro _
      exact legal.first
    · refine ⟨rfl, fun bad => ?_⟩
      have plain := legal.idna
      rw [idna_stop _ (.inr rfl), bad.2] at plain
      contradiction
    · intro flag
      obtain ⟨front', back'⟩ := legal.whole flag
      exact ⟨⟨rfl, front'⟩, ends back'⟩
    · cases legal.place with
      | inl front' => exact .inl ⟨rfl, front'⟩
      | inr back' => exact .inr (ends back')
    · refine ⟨back, others, split, ?_, fun yes => absurd yes Bool.false_ne_true, ?_, legal.last,
        legal.good, by have := legal.three; omega⟩
      · intro c member
        exact legal.chars c (mem_append_right _ member)
      · intro _
        split_ifs
        · rfl
        · exact beq_eq_false_iff_ne.mpr legal.before

theorem validStar_iff (pattern : List UInt8) (k : Nat) :
    validStar pattern flags = some k ↔
      ∃ front back others, pattern = front ++ starChar :: (back ++ behind others) ∧
        k = front.length ∧ LegalStar flags front back others := by
  rw [validStar_verdict, rounds_front]
  constructor
  · intro found
    obtain ⟨front, tail, split, here, ok⟩ := found
    obtain ⟨back, others, is, legal⟩ := frontOk_legal.mp ok
    exact ⟨front, back, others, by rw [split, is], by omega, legal⟩
  · intro found
    obtain ⟨front, back, others, split, here, legal⟩ := found
    exact ⟨front, _, split, by omega, frontOk_legal.mpr ⟨back, others, rfl, legal⟩⟩

theorem toLower_toNat (c : UInt8) :
    (toLower c).toNat = if 65 ≤ c.toNat ∧ c.toNat ≤ 90 then c.toNat + 32 else c.toNat := by
  rw [toLower]
  split_ifs with upper
  · have down : (65 : UInt8).toNat = 65 := rfl
    have up : (97 : UInt8).toNat = 97 := rfl
    rw [UInt8.toNat_add, UInt8.toNat_sub, down, up]
    omega
  · rfl

theorem toLower_only {c d : UInt8} (low : d.toNat < 65) (same : toLower d = toLower c) : c = d := by
  have one := toLower_toNat c
  have two := toLower_toNat d
  rw [same] at two
  rw [if_neg (by omega)] at two
  apply UInt8.toNat_inj.mp
  split_ifs at one <;> omega

theorem nocase_iff (size : p.length = q.length) (nul : 0 ∉ p ∨ 0 ∉ q) :
    nocaseRounds p q = true ↔ SameNocase p q := by
  induction p generalizing q with
  | nil =>
    rw [length_eq_zero_iff.mp size.symm]
    exact iff_of_true rfl rfl
  | cons l p ih =>
    cases q with
    | nil => contradiction
    | cons r q =>
      rw [nocaseRounds, SameNocase, map_cons, map_cons]
      have rest : 0 ∉ p ∨ 0 ∉ q := by
        cases nul with
        | inl left => exact .inl fun member => left (mem_cons_of_mem l member)
        | inr right => exact .inr fun member => right (mem_cons_of_mem r member)
      by_cases zero : l = 0
      · rw [if_pos zero]
        constructor
        · intro bad
          contradiction
        · intro same
          have head := (cons.inj same).1
          rw [zero] at head
          have is : r = 0 := toLower_only (by decide) head
          cases nul with
          | inl left => exact absurd (by rw [zero]; exact mem_cons_self) left
          | inr right => exact absurd (by rw [is]; exact mem_cons_self) right
      · rw [if_neg zero]
        by_cases same : toLower l = toLower r
        · rw [if_neg fun bad => bad.2 same, ih (succ.inj size) rest, SameNocase, same,
            cons_inj_right]
        · rw [if_pos ⟨fun is => same (is ▸ rfl), same⟩]
          exact iff_of_false Bool.false_ne_true fun bad => same (List.cons.inj bad).1

theorem same_length (same : SameNocase p q) : p.length = q.length := by
  have lengths := congrArg length same
  rw [length_map, length_map] at lengths
  exact lengths

theorem equalNocase_iff (plain : flags.dotSubdomains = false) (nul : 0 ∉ p ∨ 0 ∉ q) :
    equalNocase p q flags = true ↔ SameNocase p q := by
  rw [equalNocase, skipPrefix, if_pos plain]
  by_cases size : p.length = q.length
  · rw [if_neg (not_not.mpr size)]
    exact nocase_iff size nul
  · rw [if_pos size]
    exact iff_of_false Bool.false_ne_true fun same => size (same_length same)

theorem same_append {xs ys zs : List UInt8} :
    SameNocase (xs ++ ys) zs ↔
      ∃ xs' ys', zs = xs' ++ ys' ∧ SameNocase xs xs' ∧ SameNocase ys ys' := by
  constructor
  · intro same
    rw [SameNocase, map_append] at same
    obtain ⟨xs', ys', split, left, right⟩ := map_eq_append_iff.mp same.symm
    exact ⟨xs', ys', split, left.symm, right.symm⟩
  · intro parts
    obtain ⟨xs', ys', split, left, right⟩ := parts
    rw [split, SameNocase, map_append, map_append, left, right]

theorem same_behind {zs : List UInt8} : SameNocase (behind others) zs ↔
      ∃ others', zs = behind others' ∧ List.Forall₂ SameNocase others others' := by
  induction others generalizing zs with
  | nil =>
    constructor
    · intro same
      refine ⟨[], ?_, List.Forall₂.nil⟩
      exact length_eq_zero_iff.mp (same_length same).symm
    · intro found
      obtain ⟨others', is, all⟩ := found
      rw [forall₂_nil_left_iff.mp all] at is
      rw [is]
      rfl
  | cons o os ih =>
    constructor
    · intro same
      cases zs with
      | nil => exact absurd (same_length same) (by rw [behind_cons]; exact succ_ne_zero _)
      | cons c zs =>
        rw [behind_cons, SameNocase, map_cons, map_cons] at same
        obtain ⟨head, tail⟩ := cons.inj same
        have dot : c = dotChar := toLower_only (by decide) head
        obtain ⟨o', rest, split, first, later⟩ := same_append.mp tail
        obtain ⟨os', is, all⟩ := ih.mp later
        exact ⟨o' :: os', by rw [dot, split, is]; rfl, List.Forall₂.cons first all⟩
    · intro found
      obtain ⟨others', is, all⟩ := found
      cases all with
      | cons first later =>
        rw [is, behind_cons, behind_cons, SameNocase, map_cons, map_cons]
        exact congrArg _ (same_append.mpr ⟨_, _, rfl, first, ih.mpr ⟨_, rfl, later⟩⟩)

theorem idna_same (same : SameNocase p q) : hasIdnaPrefix p = hasIdnaPrefix q := by
  rw [hasIdnaPrefix, hasIdnaPrefix, same_length same, map_take, map_take, same]

/-- The three parts of a subject as wildcard_match looks at them. -/
theorem wildcardMatch_parts (plain : flags.dotSubdomains = false)
    (single : flags.multiLabelWildcards = false) {suffix front' part suffix' : List UInt8}
    (nul : 0 ∉ front' ++ part ++ suffix') (left : front.length = front'.length)
    (right : suffix.length = suffix'.length) :
    wildcardMatch front suffix (front' ++ part ++ suffix') flags = true ↔
      SameNocase front front' ∧ SameNocase suffix suffix' ∧
        (front = [] ∧ suffix.headD 0 = dotChar → part ≠ []) ∧
        (¬ (front = [] ∧ suffix.headD 0 = dotChar) →
          hasIdnaPrefix (front' ++ part ++ suffix') = false) ∧
        (part = [starChar] ∨ ∀ c ∈ part, ldh c = true) := by
  have size : (front' ++ part ++ suffix').length = front.length + part.length + suffix.length := by
    rw [length_append, length_append, left, right]
  have first : (front' ++ part ++ suffix').take front.length = front' := by
    rw [left, append_assoc, take_left]
  have last : (front' ++ part ++ suffix').drop
      ((front' ++ part ++ suffix').length - suffix.length) = suffix' := by
    rw [size, Nat.add_sub_cancel, left, ← length_append, drop_left]
  have middle : ((front' ++ part ++ suffix').drop front.length).take
      ((front' ++ part ++ suffix').length - suffix.length - front.length) = part := by
    rw [size, Nat.add_sub_cancel, Nat.add_sub_cancel_left, left, append_assoc, drop_left, take_left]
  have nul1 : 0 ∉ front' := fun member =>
    nul (mem_append_left _ (mem_append_left _ member))
  have nul2 : 0 ∉ suffix' := fun member => nul (mem_append_right _ member)
  have one := equalNocase_iff plain (p := front) (.inr nul1)
  have two := equalNocase_iff plain (q := suffix) (.inl nul2)
  have turned : SameNocase suffix' suffix ↔ SameNocase suffix suffix' := eq_comm
  have whole : (decide (front.length = 0) && suffix.headD 0 == dotChar) = true ↔
      front = [] ∧ suffix.headD 0 = dotChar := by
    rw [Bool.and_eq_true, decide_eq_true_iff, length_eq_zero_iff, beq_iff_eq]
  have permitted : (part.all fun p => alnum p || p == hyphenChar || (false && p == dotChar)) = true ↔
      ∀ c ∈ part, ldh c = true := by
    rw [List.all_eq_true]
    simp only [Bool.false_and, Bool.or_false, ldh]
  rw [wildcardMatch, if_neg (by omega), first]
  rw [last, middle, single]
  dsimp only
  rw [Bool.and_false]
  by_cases same1 : SameNocase front front'
  · rw [if_neg (by rw [one.mpr same1]; decide), and_iff_right same1]
    by_cases same2 : SameNocase suffix suffix'
    · rw [if_neg (by rw [two.mpr (turned.mpr same2)]; decide), and_iff_right same2]
      generalize (decide (front.length = 0) && suffix.headD 0 == dotChar) = w at whole
      by_cases all : front = [] ∧ suffix.headD 0 = dotChar
      · rw [whole.mpr all]
        by_cases none : part = []
        · rw [if_pos ⟨rfl, none⟩]
          exact iff_of_false Bool.false_ne_true fun both => both.1 all none
        · rw [if_neg fun bad => none bad.2, if_neg fun bad => Bool.false_ne_true bad.1.symm]
          split_ifs with star
          · exact iff_of_true rfl ⟨fun _ => none, fun not => absurd all not, .inl star⟩
          · rw [permitted]
            constructor
            · intro chars
              exact ⟨fun _ => none, fun not => absurd all not, .inr chars⟩
            · intro both
              exact both.2.2.resolve_left star
      · have not : w = false := Bool.eq_false_iff.mpr fun yes => all (whole.mp yes)
        rw [not, if_neg fun bad => Bool.false_ne_true bad.1]
        by_cases idna : hasIdnaPrefix (front' ++ part ++ suffix') = true
        · rw [if_pos ⟨rfl, idna⟩]
          refine iff_of_false Bool.false_ne_true fun both => ?_
          rw [both.2.1 all] at idna
          contradiction
        · rw [if_neg fun bad => idna bad.2]
          have clear := Bool.eq_false_iff.mpr idna
          split_ifs with star
          · exact iff_of_true rfl ⟨fun yes => absurd yes all, fun _ => clear, .inl star⟩
          · rw [permitted]
            constructor
            · intro chars
              exact ⟨fun yes => absurd yes all, fun _ => clear, .inr chars⟩
            · intro both
              exact both.2.2.resolve_left star
    · rw [if_pos (Bool.eq_false_iff.mpr fun bad => same2 (turned.mp (two.mp bad)))]
      exact iff_of_false Bool.false_ne_true fun both => same2 both.1
  · rw [if_pos (Bool.eq_false_iff.mpr fun bad => same1 (one.mp bad))]
    exact iff_of_false Bool.false_ne_true fun both => same1 both.1

/-- With a legal star a subject matches that is the pattern or has something in place of the star. -/
theorem wildcardMatch_iff (plain : flags.dotSubdomains = false)
    (single : flags.multiLabelWildcards = false) {back subject : List UInt8}
    (legal : LegalStar flags front back others) (nul : 0 ∉ subject) :
    wildcardMatch front (back ++ behind others) subject flags = true ↔
      SameNocase (front ++ starChar :: (back ++ behind others)) subject ∨
        StarMatches front back others subject := by
  have whole : front = [] ∧ (back ++ behind others).headD 0 = dotChar ↔ front = [] ∧ back = [] := by
    constructor
    · intro both
      refine ⟨both.1, ?_⟩
      cases back with
      | nil => rfl
      | cons d back =>
        have is := legal.chars d (mem_append_right _ mem_cons_self)
        have same : d = dotChar := both.2
        rw [same, dot_not_ldh] at is
        contradiction
    · intro both
      refine ⟨both.1, ?_⟩
      have three := legal.three
      cases others with
      | nil => contradiction
      | cons o os =>
        rw [both.2]
        rfl
  constructor
  · intro matched
    have long : front.length + (back ++ behind others).length ≤ subject.length := by
      by_contra short
      rw [wildcardMatch, if_pos (by omega)] at matched
      contradiction
    obtain ⟨front', part, suffix', split, left, right⟩ : ∃ front' part suffix',
        subject = front' ++ part ++ suffix' ∧ front.length = front'.length ∧
          (back ++ behind others).length = suffix'.length := by
      refine ⟨subject.take front.length,
        (subject.drop front.length).take (subject.length - (back ++ behind others).length - front.length),
        (subject.drop front.length).drop (subject.length - (back ++ behind others).length - front.length),
        ?_, ?_, ?_⟩
      · rw [append_assoc, take_append_drop, take_append_drop]
      · rw [length_take]
        omega
      · rw [length_drop, length_drop]
        omega
    rw [split] at matched nul ⊢
    obtain ⟨same1, same2, some_, clear, chars⟩ :=
      (wildcardMatch_parts plain single nul left right).mp matched
    cases chars with
    | inl star =>
      left
      rw [star, append_assoc]
      apply same_append.mpr
      refine ⟨front', [starChar] ++ suffix', rfl, same1, ?_⟩
      rw [SameNocase, singleton_append, map_cons, map_cons, same2]
    | inr chars =>
      right
      obtain ⟨back', rest, tail, sameBack, sameRest⟩ := same_append.mp same2
      obtain ⟨others', is, all⟩ := same_behind.mp sameRest
      refine ⟨front', part, back', others', ?_, same1, sameBack, all, chars, ?_⟩
      · rw [tail, is, append_assoc, append_assoc, append_assoc]
      · by_cases star : front = [] ∧ back = []
        · rw [if_pos star]
          exact some_ (whole.mpr star)
        · rw [if_neg star]
          have idna := clear fun yes => star (whole.mp yes)
          rw [tail, is] at idna
          have three := legal.three
          cases all with
          | nil => contradiction
          | cons _ _ =>
            rw [behind_cons, ← append_assoc, idna_stop _ (.inl rfl)] at idna
            exact idna
  · intro either
    cases either with
    | inl same =>
      obtain ⟨front', rest, split, same1, sameRest⟩ := same_append.mp same
      obtain ⟨star, suffix', rfl, sameStar, same2⟩ := same_append.mp
        (show SameNocase ([starChar] ++ (back ++ behind others)) rest from sameRest)
      obtain ⟨c, rfl⟩ := length_eq_one_iff.mp (same_length sameStar).symm
      have is : c = starChar := toLower_only (by decide) (cons.inj sameStar).1
      rw [is] at split
      have clear : hasIdnaPrefix subject = false := by
        rw [← idna_same same, idna_stop _ (.inr rfl), ← idna_stop front (.inr rfl) back]
        exact legal.idna
      rw [← append_assoc] at split
      rw [split] at nul clear ⊢
      exact (wildcardMatch_parts plain single nul (same_length same1) (same_length same2)).mpr
        ⟨same1, same2, fun _ => cons_ne_nil _ _, fun _ => clear, .inl rfl⟩
    | inr found =>
      obtain ⟨front', part, back', others', split, same1, sameBack, all, chars, star⟩ := found
      have same2 : SameNocase (back ++ behind others) (back' ++ behind others') :=
        same_append.mpr ⟨_, _, rfl, sameBack, same_behind.mpr ⟨_, rfl, all⟩⟩
      have parts : subject = front' ++ part ++ (back' ++ behind others') := by
        rw [split, append_assoc]
      have three := legal.three
      have clear : ¬ (front = [] ∧ back = []) → hasIdnaPrefix subject = false := by
        intro not
        rw [if_neg not] at star
        rw [split]
        cases all with
        | nil => contradiction
        | cons _ _ =>
          rw [behind_cons, idna_stop _ (.inl rfl)]
          exact star
      have some_ : front = [] ∧ back = [] → part ≠ [] := by
        intro yes
        rw [if_pos yes] at star
        exact star
      rw [parts] at nul clear ⊢
      exact (wildcardMatch_parts plain single nul (same_length same1) (same_length same2)).mpr
        ⟨same1, same2, fun yes => some_ (whole.mp yes), fun not => clear fun yes => not (whole.mpr yes),
          .inr chars⟩

/-- A name matches if it is the pattern, or if the star of the pattern is legal and something of
    its own label stands for it. -/
theorem equalWildcard_iff (flags : X509CheckFlags) (single : flags.multiLabelWildcards = false)
    (pattern : List UInt8) {subject : List UInt8} (nul : 0 ∉ subject)
    (noDot : subject.head? ≠ some dotChar) :
    equalWildcard pattern subject (checkDnsFlags subject flags) = true ↔
      SameNocase pattern subject ∨
        ∃ front back others, pattern = front ++ starChar :: (back ++ behind others) ∧
          LegalStar flags front back others ∧ StarMatches front back others subject := by
  have first : ¬ (1 < subject.length ∧ subject.headD 0 = dotChar) := by
    intro bad
    apply noDot
    cases subject with
    | nil => exact absurd bad.1 (by decide)
    | cons c subject => exact congrArg some bad.2
  have plain : (checkDnsFlags subject flags).dotSubdomains = false := decide_eq_false first
  have legal_iff : ∀ front back others, LegalStar (checkDnsFlags subject flags) front back others ↔
      LegalStar flags front back others := by
    intro front back others
    constructor
    · intro legal
      exact ⟨legal.chars, legal.place, legal.whole, legal.idna, legal.first, legal.before,
        legal.last, legal.good, legal.three⟩
    · intro legal
      exact ⟨legal.chars, legal.place, legal.whole, legal.idna, legal.first, legal.before,
        legal.last, legal.good, legal.three⟩
  rw [equalWildcard, if_neg first]
  cases star : validStar pattern (checkDnsFlags subject flags) with
  | none =>
    rw [equalNocase_iff plain (.inr nul)]
    constructor
    · exact .inl
    · intro either
      cases either with
      | inl same => exact same
      | inr found =>
        obtain ⟨front, back, others, split, legal, _⟩ := found
        have there := (validStar_iff pattern front.length).mpr
          ⟨front, back, others, split, rfl, (legal_iff front back others).mpr legal⟩
        rw [star] at there
        contradiction
  | some k =>
    have at_ : ∀ front back others, pattern = front ++ starChar :: (back ++ behind others) →
        LegalStar flags front back others →
        (wildcardMatch (pattern.take k) (pattern.drop (k + 1)) subject (checkDnsFlags subject flags) =
            true ↔
          SameNocase pattern subject ∨ StarMatches front back others subject) := by
      intro front back others split legal
      have legal := (legal_iff front back others).mpr legal
      have there := (validStar_iff pattern front.length).mpr ⟨front, back, others, split, rfl, legal⟩
      have here : k = front.length := some.inj (star.symm.trans there)
      have before : pattern.take k = front := by rw [split, here, take_left]
      have after : pattern.drop (k + 1) = back ++ behind others := by
        rw [split, here, ← drop_drop, drop_left]
        rfl
      rw [before, after, wildcardMatch_iff plain single legal nul, ← split]
    obtain ⟨front, back, others, split, _, legal⟩ := (validStar_iff pattern k).mp star
    have legal := (legal_iff front back others).mp legal
    constructor
    · intro matched
      cases (at_ front back others split legal).mp matched with
      | inl same => exact .inl same
      | inr found => exact .inr ⟨front, back, others, split, legal, found⟩
    · intro either
      cases either with
      | inl same => exact (at_ front back others split legal).mpr (.inl same)
      | inr found =>
        obtain ⟨front1, back1, others1, split1, legal1, found⟩ := found
        exact (at_ front1 back1 others1 split1 legal1).mpr (.inr found)

/-- *.a.bc and x.a.bc. -/
theorem equalWildcard_iff_sample :
    equalWildcard [42, 46, 97, 46, 98, 99] [120, 46, 97, 46, 98, 99]
        (checkDnsFlags [120, 46, 97, 46, 98, 99] ⟨false, false, false, false⟩) = true ↔
      SameNocase [42, 46, 97, 46, 98, 99] [120, 46, 97, 46, 98, 99] ∨
        ∃ front back others, [42, 46, 97, 46, 98, 99] =
            front ++ starChar :: (back ++ behind others) ∧
          LegalStar ⟨false, false, false, false⟩ front back others ∧
          StarMatches front back others [120, 46, 97, 46, 98, 99] :=
  equalWildcard_iff ⟨false, false, false, false⟩ rfl [42, 46, 97, 46, 98, 99] (by decide) (by decide)

end Ossl
