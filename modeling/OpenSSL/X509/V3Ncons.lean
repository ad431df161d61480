import OpenSSL.Ulabel

/- The e-mail name constraints of crypto/x509/v3_ncons.c. -/
namespace Ossl
open Nat List RingWindow

inductive NcVerdict where
  | ok
  | permittedViolation
  | unsupportedNameSyntax
  | unspecified
  deriving DecidableEq

def vAsn1Utf8String : Nat := 12
def atSign : UInt8 := 64

structure Asn1Type where
  type : Nat
  value : List UInt8

def ia5memrchrRounds (str : List UInt8) (c : UInt8) : Nat → Option Nat
  | 0 => none
  | i + 1 => if str.getD i 0 ≠ c then ia5memrchrRounds str c i else some i

def ia5memrchr (str : List UInt8) (c : UInt8) : Option Nat := ia5memrchrRounds str c str.length

def ia5lower (c : UInt8) : UInt8 := if 0x41 ≤ c.toNat ∧ c.toNat ≤ 0x5A then c + 0x20 else c

def ia5ncasecmp (s1 s2 : List UInt8) : Nat → Int
  | 0 => 0
  | n + 1 =>
    let c1 := ia5lower (s1.headD 0)
    let c2 := ia5lower (s2.headD 0)
    if s1.headD 0 = s2.headD 0 ∨ c1 = c2 then ia5ncasecmp s1.tail s2.tail n
    else if c1.toNat < c2.toNat then -1
    else 1

def strlenRounds (data : Nat → UInt8) (start : Nat) : Nat → Nat
  | 0 => 0
  | rounds + 1 => if data start = 0 then 0 else strlenRounds data (start + 1) rounds + 1

def ulabelSize : Nat := 256

def ulabelString (ulabel : Nat → UInt8) : List UInt8 :=
  readCells ulabel 0 (strlenRounds ulabel 0 ulabelSize)

def ncEmailEai (ulabel : Nat → UInt8) (emltype : Asn1Type) (base : List UInt8) : NcVerdict :=
  if 0 < base.length ∧ 0 ∈ base then .unsupportedNameSyntax
  else if emltype.type ≠ vAsn1Utf8String then .unsupportedNameSyntax
  else
    let eml := emltype.value
    match ia5memrchr eml atSign with
    | none => .unsupportedNameSyntax
    | some emlat =>
      if base.headD 0 = labelDot then
        let ulabel := writeCells ulabel 0 [labelDot]
        let (result, behind) := a2ulabel base (fun i => ulabel (i + 1)) (ulabelSize - 1)
        if result ≤ 0 then .unspecified
        else
          let ulabel := ulabelString fun i => if i = 0 then ulabel 0 else behind (i - 1)
          if ulabel.length < eml.length ∧
              ia5ncasecmp ulabel (eml.drop (eml.length - ulabel.length)) ulabel.length = 0 then .ok
          else .permittedViolation
      else
        let (result, ulabel) := a2ulabel base ulabel ulabelSize
        if result ≤ 0 then .unspecified
        else
          let ulabel := ulabelString ulabel
          let emlhost := eml.drop (emlat + 1)
          if emlhost.length ≠ ulabel.length ∨ ia5ncasecmp ulabel emlhost emlhost.length ≠ 0 then
            .permittedViolation
          else .ok

def strncmpRounds (s1 s2 : List UInt8) : Nat → Int
  | 0 => 0
  | n + 1 =>
    if s1.headD 0 ≠ s2.headD 0 then (s1.headD 0).toNat - (s2.headD 0).toNat
    else if s1.headD 0 = 0 then 0
    else strncmpRounds s1.tail s2.tail n

def ncEmailHost (emlhost basehost : List UInt8) : NcVerdict :=
  if basehost.length ≠ emlhost.length ∨ ia5ncasecmp basehost emlhost emlhost.length ≠ 0 then
    .permittedViolation
  else .ok

def ncEmail (eml base : List UInt8) : NcVerdict :=
  match ia5memrchr eml atSign with
  | none => .unsupportedNameSyntax
  | some emlat =>
    let emlhost := eml.drop (emlat + 1)
    match ia5memrchr base atSign with
    | none =>
      if 0 < base.length ∧ base.headD 0 = labelDot then
        if base.length < eml.length ∧
            ia5ncasecmp base (eml.drop (eml.length - base.length)) base.length = 0 then .ok
        else .permittedViolation
      else ncEmailHost emlhost base
    | some baseat =>
      let basehost := base.drop (baseat + 1)
      if baseat ≠ 0 then
        if baseat ≠ emlat then .permittedViolation
        else if 0 ∈ base.take baseat ∨ 0 ∈ eml.take emlat then .unsupportedNameSyntax
        else if strncmpRounds base eml emlat ≠ 0 then .permittedViolation
        else ncEmailHost emlhost basehost
      else ncEmailHost emlhost basehost

/-- The mailbox is longer than the base and ends in it, but for the case of letters. -/
def EndsIn (eml base : List UInt8) : Prop :=
  ∃ front back, eml = front ++ back ∧ front ≠ [] ∧ back.map ia5lower = base.map ia5lower

variable {n : Nat} {str : List UInt8} {c : UInt8}

theorem ia5ncasecmp_zero {s1 s2 : List UInt8} (fits1 : n ≤ s1.length) (fits2 : n ≤ s2.length) :
    ia5ncasecmp s1 s2 n = 0 ↔ (s1.take n).map ia5lower = (s2.take n).map ia5lower := by
  induction n generalizing s1 s2 with
  | zero => exact iff_of_true rfl rfl
  | succ n ih =>
    cases s1 with
    | nil => exact absurd fits1 (not_succ_le_zero n)
    | cons a s1 =>
      cases s2 with
      | nil => exact absurd fits2 (not_succ_le_zero n)
      | cons b s2 =>
        rw [ia5ncasecmp, take_succ_cons, take_succ_cons, map_cons, map_cons,
          cons.injEq, headD_cons, headD_cons, tail_cons, tail_cons]
        by_cases same : ia5lower a = ia5lower b
        · rw [if_pos (.inr same), and_iff_right same]
          exact ih (le_of_succ_le_succ fits1) (le_of_succ_le_succ fits2)
        · have differ : ¬ (a = b ∨ ia5lower a = ia5lower b) := by
            intro bad
            cases bad with
            | inl is => exact same (congrArg ia5lower is)
            | inr is => exact same is
          rw [if_neg differ]
          split_ifs
          · exact iff_of_false (by decide) fun both => same both.1
          · exact iff_of_false (by decide) fun both => same both.1

theorem ia5memrchrRounds_some (found : ∃ i < n, str.getD i 0 = c) :
    ∃ i, ia5memrchrRounds str c n = some i := by
  induction n with
  | zero =>
    obtain ⟨i, less, _⟩ := found
    exact absurd less (not_lt_zero i)
  | succ n ih =>
    rw [ia5memrchrRounds]
    by_cases here : str.getD n 0 = c
    · rw [if_neg (not_not.mpr here)]
      exact ⟨n, rfl⟩
    · rw [if_pos here]
      obtain ⟨i, less, is⟩ := found
      have other : i ≠ n := by
        intro same
        rw [same] at is
        exact here is
      exact ih ⟨i, by omega, is⟩

theorem ia5memrchr_some (found : c ∈ str) : ∃ i, ia5memrchr str c = some i := by
  obtain ⟨i, less, is⟩ := getElem_of_mem found
  apply ia5memrchrRounds_some
  exact ⟨i, less, by rw [getD_eq_getElem _ _ less, is]⟩

theorem ia5memrchr_none (never : c ∉ str) : ia5memrchr str c = none := by
  have rounds : ∀ n, n ≤ str.length → ia5memrchrRounds str c n = none := by
    intro n
    induction n with
    | zero =>
      intro _
      rfl
    | succ n ih =>
      intro less
      have other : str.getD n 0 ≠ c := by
        rw [getD_eq_getElem _ _ less]
        intro is
        exact never (is ▸ getElem_mem less)
      rw [ia5memrchrRounds, if_pos other]
      exact ih (le_of_succ_le less)
  exact rounds str.length (le_refl _)

theorem strlenRounds_is {data : Nat → UInt8} {start rounds : Nat}
    (some_ : ∀ i < n, data (start + i) ≠ 0) (nul : data (start + n) = 0) (fits : n < rounds) :
    strlenRounds data start rounds = n := by
  induction n generalizing start rounds with
  | zero =>
    cases rounds with
    | zero => exact absurd fits (not_lt_zero _)
    | succ rounds =>
      have first : data start = 0 := nul
      rw [strlenRounds, if_pos first]
  | succ n ih =>
    cases rounds with
    | zero => exact absurd fits (not_lt_zero _)
    | succ rounds =>
      have first : data start ≠ 0 := some_ 0 (succ_pos n)
      rw [strlenRounds, if_neg first, ih]
      · intro i less
        have := some_ (i + 1) (succ_lt_succ less)
        rwa [add_comm i 1, ← add_assoc] at this
      · rwa [add_comm n 1, ← add_assoc] at nul
      · exact lt_of_succ_lt_succ fits

theorem readCells_cons (data : Nat → UInt8) (n : Nat) :
    readCells data 0 (n + 1) = data 0 :: readCells (fun i => data (i + 1)) 0 n := by
  simp [readCells, range_succ_eq_map]

/-- An array that holds a string and its NUL. -/
theorem ulabelString_is {data : Nat → UInt8} {s : List UInt8}
    (cells : readCells data 0 (s.length + 1) = s ++ [0]) (nul : 0 ∉ s)
    (fits : s.length < ulabelSize) : ulabelString data = s := by
  have cell : ∀ i, i < s.length + 1 → data i = (s ++ [0]).getD i 0 := by
    intro i less
    have bound : i < (readCells data 0 (s.length + 1)).length := by
      rw [readCells_length]
      exact less
    rw [← cells, getD_eq_getElem _ _ bound]
    simp [readCells]
  have inside : ∀ i, i < s.length → data i = s.getD i 0 := by
    intro i less
    rw [cell i (lt_succ_of_lt less), getD_append _ _ _ _ less]
  have length : strlenRounds data 0 ulabelSize = s.length := by
    apply strlenRounds_is _ _ fits
    · intro i less
      rw [zero_add, inside i less, getD_eq_getElem _ _ less]
      intro is
      exact nul (is ▸ getElem_mem less)
    · rw [zero_add, cell s.length (lt_succ_self _)]
      simp
  rw [ulabelString, length]
  apply ext_getElem
  · rw [readCells_length]
  · intro i first second
    rw [← getD_eq_getElem _ 0 second, ← inside i second]
    simp [readCells]

theorem endsIn_iff (eml base : List UInt8) :
    EndsIn eml base ↔ base.length < eml.length ∧
      ia5ncasecmp base (eml.drop (eml.length - base.length)) base.length = 0 := by
  constructor
  · intro ends
    obtain ⟨front, back, split, some_, same⟩ := ends
    have size : back.length = base.length := by
      rw [← length_map (f := ia5lower), same, length_map]
    have long := length_pos_iff.mpr some_
    have place : eml.length - base.length = front.length := by
      rw [split, length_append]
      omega
    constructor
    · rw [split, length_append]
      omega
    · rw [place, split, drop_left, ia5ncasecmp_zero (le_refl _) (le_of_eq size.symm),
        take_length, ← size, take_length]
      exact same.symm
  · intro ends
    obtain ⟨longer, same⟩ := ends
    have size : (eml.drop (eml.length - base.length)).length = base.length := by
      rw [length_drop]
      omega
    rw [ia5ncasecmp_zero (le_refl _) (le_of_eq size.symm), take_length] at same
    refine ⟨eml.take (eml.length - base.length), eml.drop (eml.length - base.length),
      (take_append_drop _ _).symm, ?_, ?_⟩
    · intro empty
      have := congrArg length empty
      rw [length_take_of_le (sub_le _ _), length_nil] at this
      omega
    · rw [same]
      conv => lhs; rw [← take_length (l := eml.drop (eml.length - base.length)), size]

theorem endsIn_longer {eml base : List UInt8} (ends : EndsIn eml (c :: base)) :
    EndsIn eml base := by
  obtain ⟨front, back, split, some_, same⟩ := ends
  cases back with
  | nil =>
    rw [map_nil, map_cons] at same
    contradiction
  | cons b back =>
    refine ⟨front ++ [b], back, ?_, ?_, ?_⟩
    · rw [split, append_assoc]
      rfl
    · exact append_ne_nil_of_left_ne_nil some_ [b]
    · rw [map_cons, map_cons] at same
      exact (cons.inj same).2

/-- The two forms of a mailbox disagree on a base with a leading dot: the form with UTF-8
    asks for two dots. -/
theorem email_forms_agree (ulabel : Nat → UInt8) {eml base : List UInt8} (mailbox : atSign ∈ eml)
    (nul : 0 ∉ base) (host : atSign ∉ base) (ace : NoAceLabel base) (short : base.length < 255) :
    ncEmailEai ulabel ⟨vAsn1Utf8String, eml⟩ base = ncEmail eml base ↔
      base.head? ≠ some labelDot ∨ ¬ EndsIn eml base ∨ EndsIn eml (labelDot :: base) := by
  obtain ⟨emlat, last⟩ := ia5memrchr_some mailbox
  have size : ulabelSize = 256 := rfl
  rw [ncEmailEai, ncEmail, if_neg fun bad => nul bad.2, if_neg (not_not.mpr rfl)]
  dsimp only
  rw [last, ia5memrchr_none host]
  dsimp only
  by_cases dotted : base.head? = some labelDot
  · have first : base.headD 0 = labelDot := by
      rw [List.headD_eq_head?_getD, dotted]
      rfl
    have some_ : 0 < base.length := by
      cases base with
      | nil => contradiction
      | cons c base => exact succ_pos _
    obtain ⟨data, copied, cells⟩ := a2ulabel_copies (s := base) ace
      (fun i => writeCells ulabel 0 [labelDot] (i + 1)) (ulabelSize - 1)
      (by omega) (by decide)
    have string : ulabelString (fun i => if i = 0 then writeCells ulabel 0 [labelDot] 0
        else data (i - 1)) = labelDot :: base := by
      apply ulabelString_is
      · rw [length_cons, readCells_cons]
        exact congrArg (labelDot :: ·) cells
      · rw [mem_cons, not_or]
        exact ⟨by decide, nul⟩
      · rw [length_cons]
        omega
    rw [copied, if_pos first, if_pos (⟨some_, first⟩ : 0 < base.length ∧ base.headD 0 = labelDot)]
    dsimp only
    rw [if_neg (by decide), string]
    have eai := endsIn_iff eml (labelDot :: base)
    have plain := endsIn_iff eml base
    have longer : EndsIn eml (labelDot :: base) → EndsIn eml base := endsIn_longer
    rw [or_iff_right (not_not.mpr dotted)]
    by_cases one : EndsIn eml (labelDot :: base)
    · rw [if_pos (eai.mp one), if_pos (plain.mp (longer one))]
      exact iff_of_true rfl (.inr one)
    · rw [if_neg fun bad => one (eai.mpr bad), or_iff_left one]
      by_cases two : EndsIn eml base
      · rw [if_pos (plain.mp two)]
        exact iff_of_false (by decide) (not_not.mpr two)
      · rw [if_neg fun bad => two (plain.mpr bad)]
        exact iff_of_true rfl two
  · have first : base.headD 0 ≠ labelDot := by
      rw [List.headD_eq_head?_getD]
      intro bad
      cases base with
      | nil => exact absurd bad (by decide)
      | cons c base => exact dotted (congrArg some bad)
    obtain ⟨data, copied, cells⟩ := a2ulabel_copies (s := base) ace ulabel ulabelSize
      (by omega) (by decide)
    have string : ulabelString data = base := ulabelString_is cells nul (by omega)
    have other : ¬ (0 < base.length ∧ base.headD 0 = labelDot) := fun bad => first bad.2
    rw [copied, if_neg first, if_neg other]
    dsimp only
    rw [if_neg (by decide), string, ncEmailHost]
    apply iff_of_true _ (.inl dotted)
    apply if_congr _ rfl rfl
    rw [ne_comm]

def subdomainMailbox : List UInt8 :=
  [97, 64, 98, 46, 101, 120, 97, 109, 112, 108, 101, 46, 99, 111, 109]

def subdomainBase : List UInt8 := [46, 101, 120, 97, 109, 112, 108, 101, 46, 99, 111, 109]

theorem subdomain_ace : NoAceLabel subdomainBase := by
  intro before label split _
  rw [hasAcePrefix, decide_eq_false_iff_not]
  intro bad
  have member : (45 : UInt8) ∈ label.take 4 := by
    rw [bad]
    decide
  have inside : (45 : UInt8) ∈ subdomainBase := by
    rw [split]
    exact mem_append_right before (mem_of_mem_take member)
  exact absurd inside (by decide)

theorem email_forms_agree_sample :
    ncEmailEai (fun _ => 0) ⟨vAsn1Utf8String, subdomainMailbox⟩ subdomainBase =
        ncEmail subdomainMailbox subdomainBase ↔
      subdomainBase.head? ≠ some labelDot ∨ ¬ EndsIn subdomainMailbox subdomainBase ∨
        EndsIn subdomainMailbox (labelDot :: subdomainBase) :=
  email_forms_agree (fun _ => 0) (by decide) (by decide) (by decide) subdomain_ace (by decide)

/-- An excluded subtree is escaped by the other form. -/
theorem email_forms_differ :
    atSign ∈ subdomainMailbox ∧ 0 ∉ subdomainBase ∧ atSign ∉ subdomainBase ∧
      NoAceLabel subdomainBase ∧ subdomainBase.length < 255 ∧
      ncEmail subdomainMailbox subdomainBase = .ok ∧
      ncEmailEai (fun _ => 0) ⟨vAsn1Utf8String, subdomainMailbox⟩ subdomainBase =
        .permittedViolation := by
  refine ⟨by decide, by decide, by decide, subdomain_ace, by decide, by decide, ?_⟩
  decide +kernel

end Ossl
