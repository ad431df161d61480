import OpenSSL.Asn1.ObjectText
import Mathlib.Data.List.TakeWhile

/- The texts that a2d_ASN1_OBJECT of crypto/asn1/a_object.c takes for an object identifier, beside
   those that are one. -/
namespace Ossl
open Option List Base128 BigEndian Decimal

def IsSeparator (c : UInt8) : Prop := c = dot ∨ c = space

def AllDigits (ds : List UInt8) : Prop := ∀ c ∈ ds, osslIsdigit c = true

def numeral (v : Nat) (ds : List UInt8) : Nat := ds.foldl (fun v c => v * 10 + (c.toNat - 48)) v

inductive OidArcs : List UInt8 → List Nat → Prop where
  | none : OidArcs [] []
  | arc {sep : UInt8} {ds rest : List UInt8} {vals : List Nat} : IsSeparator sep → ds ≠ [] →
      AllDigits ds → OidArcs rest vals → OidArcs (sep :: (ds ++ rest)) (numeral 0 ds :: vals)

/- Arcs as the loop reads them behind the separator c: an arc may be empty, and the last one may
   have a separator behind it. -/
inductive ReadArcs : UInt8 → List UInt8 → List Nat → Prop where
  | done (c : UInt8) : ReadArcs c [] []
  | last {c : UInt8} {ds : List UInt8} : IsSeparator c → ds ≠ [] → AllDigits ds →
      ReadArcs c ds [numeral 0 ds]
  | next {c sep : UInt8} {ds rest : List UInt8} {vals : List Nat} : IsSeparator c →
      AllDigits ds → IsSeparator sep → ReadArcs sep rest vals →
      ReadArcs c (ds ++ sep :: rest) (numeral 0 ds :: vals)

def HasEmptyArc (p : List UInt8) : Prop :=
  ∃ front sep back, p = front ++ sep :: back ∧ IsSeparator sep ∧
    (back = [] ∨ ∃ other rest, back = other :: rest ∧ IsSeparator other)

def OidGrammar (text : List UInt8) (first v : Nat) (vals : List Nat) : Prop :=
  ∃ c rest, text = c :: rest ∧ c.toNat = 48 + first ∧ first ≤ 2 ∧ OidArcs rest (v :: vals) ∧
    (first < 2 → v < 40)

def EmptyArcRead (text : List UInt8) : Prop :=
  ∃ c sep p first v vals, text = c :: sep :: p ∧ c.toNat = 48 + first ∧ first ≤ 2 ∧
    ReadArcs sep p (v :: vals) ∧ (first < 2 → v < 40) ∧ HasEmptyArc (sep :: p)

variable {c sep : UInt8} {ds out p q text : List UInt8} {first v : Nat} {arc : A2dArc}
    {vals : List Nat}

theorem separator_notDigit (sep : IsSeparator c) : osslIsdigit c = false := by
  rcases sep with rfl | rfl <;> rfl

theorem separator_taken (sep : IsSeparator c) : ¬ (c ≠ dot ∧ c ≠ space) :=
  fun neither => sep.elim neither.1 neither.2

theorem digits_plain (digits : AllDigits (c :: ds)) : ¬ IsSeparator c := by
  intro sep
  have isDigit := digits c mem_cons_self
  rw [separator_notDigit sep] at isDigit
  contradiction

theorem a2dArcRounds_digits (digits : AllDigits ds) (value : A2dValue v arc) (p : List UInt8) :
    ∃ arc', A2dValue (numeral v ds) arc' ∧ a2dArcRounds (ds ++ p) arc = a2dArcRounds p arc' := by
  induction ds generalizing v arc with
  | nil => exact ⟨arc, value, rfl⟩
  | cons c ds ih =>
    have isDigit : osslIsdigit c = true := digits c mem_cons_self
    have bounds : 48 ≤ c.toNat ∧ c.toNat ≤ 57 := of_decide_eq_true isDigit
    obtain ⟨same, small⟩ := digit_of bounds.1 bounds.2
    have step := a2dDigit_value value small
    rw [← same] at step
    obtain ⟨arc', value', read⟩ :=
      ih (fun other member => digits other (mem_cons_of_mem c member)) step
    refine ⟨arc', value', ?_⟩
    rw [← read, cons_append, same, arcRounds_digit small]

theorem a2dArcRounds_next (digits : AllDigits ds) (separates : IsSeparator sep) (c : UInt8)
    (rest : List UInt8) : ∃ arc, A2dValue (numeral 0 ds) arc ∧ arc.c = sep ∧
      a2dArcRounds (ds ++ sep :: rest) ⟨0, false, 0, c⟩ = some (arc, rest) := by
  obtain ⟨arc, value, read⟩ := a2dArcRounds_digits digits (start_value c) (sep :: rest)
  rw [a2dArcRounds, if_pos separates.symm] at read
  exact ⟨{ arc with c := sep }, value, rfl, read⟩

variable {made p' : List UInt8} {fuel : Nat}

/-- Of the octets from a separator on, the digits are read, up to the next one or the end. -/
theorem a2dArcRounds_reads {arc' : A2dArc} (value : A2dValue v arc)
    (read : a2dArcRounds p arc = some (arc', p')) :
    ∃ ds, AllDigits ds ∧ A2dValue (numeral v ds) arc' ∧
      (p = ds ∧ p' = [] ∨ IsSeparator arc'.c ∧ p = ds ++ arc'.c :: p') := by
  induction p generalizing v arc with
  | nil =>
    cases read
    exact ⟨[], by simp [AllDigits], value, .inl ⟨rfl, rfl⟩⟩
  | cons c p ih =>
    rw [a2dArcRounds] at read
    split_ifs at read with separates other
    · cases read
      exact ⟨[], by simp [AllDigits], value, .inr ⟨separates.symm, rfl⟩⟩
    · rw [Bool.not_eq_false] at other
      have bounds : 48 ≤ c.toNat ∧ c.toNat ≤ 57 := of_decide_eq_true other
      obtain ⟨same, small⟩ := digit_of bounds.1 bounds.2
      have step := a2dDigit_value value small
      rw [← same] at step
      obtain ⟨ds, digits, value', split⟩ := ih step read
      refine ⟨c :: ds, ?_, value', ?_⟩
      · intro d member
        rcases mem_cons.mp member with rfl | later
        · exact other
        · exact digits d later
      · rcases split with ⟨rfl, rfl⟩ | ⟨sep, rfl⟩
        · exact .inl ⟨rfl, rfl⟩
        · exact .inr ⟨sep, rfl⟩

def arcNumber (first : Nat) (out : List UInt8) (v : Nat) : Nat :=
  if out = [] then v + first * 40 else v

theorem value_small (value : A2dValue v arc) : 40 ≤ arc.l ↔ 40 ≤ v := by
  have top : maxU64 = 2 ^ 64 - 1 := rfl
  rcases value with ⟨_, is, _⟩ | ⟨_, _, large, le⟩
  · rw [is]
  · omega

theorem arcNumber_octets (two : first ≤ 2) (value : A2dValue v arc) (out : List UInt8) :
    tmpOctets (a2dTmp (if out = [] then a2dFirst first arc else arc)) =
      Base128.encode (arcNumber first out v) := by
  unfold arcNumber
  split
  · exact first_octets value two
  · exact value_octets value

theorem arcNumber_started (first v : Nat) (started : out ≠ []) :
    arcNumber first out v = v := if_neg started

theorem a2dRounds_end (olen : Option Nat) (first fuel : Nat) (c : UInt8) (out : List UInt8) :
    a2dRounds olen first fuel c [] out = some out := by
  cases fuel <;> rfl

theorem a2dRounds_arc {olen : Option Nat} (two : first ≤ 2) (some_ : p ≠ []) (sep : IsSeparator c)
    (read : a2dArcRounds p ⟨0, false, 0, c⟩ = some (arc, p')) (value : A2dValue v arc)
    (small : out = [] → first < 2 → v < 40)
    (room : ∀ n ∈ olen, (out ++ Base128.encode (arcNumber first out v)).length ≤ n) :
    a2dRounds olen first (fuel + 1) c p out =
      a2dRounds olen first fuel arc.c p' (out ++ Base128.encode (arcNumber first out v)) := by
  have octets := arcNumber_octets two value out
  have low : ¬ (out = [] ∧ first < 2 ∧ 40 ≤ arc.l) := by
    rintro ⟨fresh, less, large⟩
    have := small fresh less
    rw [value_small value] at large
    omega
  have length := tmp_length (a2dTmp (if out = [] then a2dFirst first arc else arc))
  rw [octets] at length
  have fits : ¬ ∃ n ∈ olen,
      n < out.length + (a2dTmp (if out = [] then a2dFirst first arc else arc)).length := by
    rintro ⟨n, member, less⟩
    have := room n member
    rw [length_append] at this
    omega
  rw [a2dRounds, if_neg some_, if_neg (separator_taken sep), read]
  simp only [if_neg low, if_neg fits, octets]

theorem a2dRounds_arcs (two : first ≤ 2) (enough : p.length ≤ fuel)
    (made_ : a2dRounds none first fuel c p out = some made) :
    p = [] ∧ made = out ∨ ∃ v vals, ReadArcs c p (v :: vals) ∧
      (out = [] → first < 2 → v < 40) ∧
      made = out ++ oidContents (arcNumber first out v :: vals) := by
  induction fuel generalizing c p out with
  | zero =>
    cases made_
    exact .inl ⟨length_eq_zero_iff.mp (Nat.le_zero.mp enough), rfl⟩
  | succ fuel ih =>
    by_cases stop : p = []
    · rw [a2dRounds, if_pos stop] at made_
      exact .inl ⟨stop, (some.inj made_).symm⟩
    · have sep : IsSeparator c := by
        by_contra neither
        rw [IsSeparator, not_or] at neither
        rw [a2dRounds, if_neg stop, if_pos neither] at made_
        contradiction
      cases read : a2dArcRounds p ⟨0, false, 0, c⟩ with
      | none =>
        rw [a2dRounds, if_neg stop, read, ite_self] at made_
        contradiction
      | some result =>
        obtain ⟨arc, p'⟩ := result
        obtain ⟨ds, digits, value, split⟩ := a2dArcRounds_reads (start_value c) read
        have small : out = [] → first < 2 → numeral 0 ds < 40 := by
          intro fresh less
          by_contra large
          rw [a2dRounds, if_neg stop, if_neg (separator_taken sep), read] at made_
          dsimp only at made_
          rw [if_pos ⟨fresh, less, (value_small value).mpr (by omega)⟩] at made_
          contradiction
        rw [a2dRounds_arc two stop sep read value small (by simp)] at made_
        right
        rcases split with ⟨rfl, rfl⟩ | ⟨sep', rfl⟩
        · refine ⟨numeral 0 p, [], .last sep stop digits, small, ?_⟩
          rw [a2dRounds_end] at made_
          simp [← some.inj made_, oidContents]
        · rw [length_append, length_cons] at enough
          rcases ih (by omega) made_ with ⟨rfl, rfl⟩ | ⟨v, vals, arcs, _, rfl⟩
          · refine ⟨_, [], .next sep digits sep' (.done arc.c), small, ?_⟩
            simp [oidContents]
          · refine ⟨_, v :: vals, .next sep digits sep' arcs, small, ?_⟩
            rw [arcNumber_started first v (by simp [encode_ne_nil])]
            simp [oidContents]

/-- Arcs are read, and their octets made where there is room for them. -/
theorem a2dRounds_made {olen : Option Nat} {first fuel : Nat} {c : UInt8} {p out : List UInt8}
    {v : Nat} {vals : List Nat} (two : first ≤ 2) (enough : p.length ≤ fuel)
    (arcs : ReadArcs c p (v :: vals)) (small : out = [] → first < 2 → v < 40)
    (room : ∀ n ∈ olen, (out ++ oidContents (arcNumber first out v :: vals)).length ≤ n) :
    a2dRounds olen first fuel c p out =
      some (out ++ oidContents (arcNumber first out v :: vals)) := by
  induction vals generalizing v c p out fuel with
  | nil =>
    have contents : oidContents [arcNumber first out v] =
        Base128.encode (arcNumber first out v) := by simp [oidContents]
    rw [contents] at room ⊢
    cases fuel with
    | zero =>
      cases arcs <;> simp_all
    | succ fuel =>
      cases arcs with
      | last sep some_ digits =>
        obtain ⟨arc, value, read⟩ := a2dArcRounds_digits digits (start_value c) []
        rw [append_nil] at read
        rw [a2dRounds_arc two some_ sep read value small room, a2dRounds_end]
      | next sep digits sep' arcs =>
        cases arcs
        obtain ⟨arc, value, _, read⟩ := a2dArcRounds_next digits sep' c []
        rw [a2dRounds_arc two (by simp) sep read value small room, a2dRounds_end]
  | cons w vals ih =>
    have contents : oidContents (arcNumber first out v :: w :: vals) =
        Base128.encode (arcNumber first out v) ++ oidContents (w :: vals) := by simp [oidContents]
    rw [contents, ← append_assoc] at room ⊢
    cases fuel with
    | zero =>
      cases arcs
      simp at enough
    | succ fuel =>
      cases arcs with
      | @next _ _ ds rest _ sep digits sep' arcs =>
        obtain ⟨arc, value, next, read⟩ := a2dArcRounds_next digits sep' c rest
        rw [length_append, length_cons] at enough
        have started : out ++ Base128.encode (arcNumber first out (numeral 0 ds)) ≠ [] := by
          simp [encode_ne_nil]
        rw [a2dRounds_arc two (by simp) sep read value small fun n member => by
          have := room n member
          rw [length_append] at this
          omega, next]
        have number := arcNumber_started first w started
        rw [← number] at room ⊢
        exact ih (by omega) arcs (fun fresh => absurd fresh started) room

/-- The texts that are turned into octets, and the octets. -/
theorem a2dText_reads (text : List UInt8) (made : List UInt8) :
    a2dText none text = some made ∧ made ≠ [] ↔
      ∃ c sep p first v vals, text = c :: sep :: p ∧ c.toNat = 48 + first ∧ first ≤ 2 ∧
        ReadArcs sep p (v :: vals) ∧ (first < 2 → v < 40) ∧
        made = oidContents ((v + first * 40) :: vals) := by
  constructor
  · rintro ⟨read, some_⟩
    match text with
    | [] => simp [a2dText] at read
    | [c] => simp [a2dText] at read
    | c :: sep :: p =>
      rw [a2dText] at read
      by_cases other : ¬ (48 ≤ c.toNat ∧ c.toNat ≤ 50)
      · rw [if_pos other] at read
        contradiction
      · rw [if_neg other] at read
        rw [not_not] at other
        rcases a2dRounds_arcs (by omega) (le_refl _) read with ⟨_, rfl⟩ |
          ⟨v, vals, arcs, small, rfl⟩
        · contradiction
        · exact ⟨c, sep, p, c.toNat - 48, v, vals, rfl, by omega, by omega, arcs, small rfl, by
            simp [arcNumber]⟩
  · rintro ⟨c, sep, p, first, v, vals, rfl, digit, two, arcs, small, rfl⟩
    refine ⟨?_, by simp [oidContents, encode_ne_nil]⟩
    rw [a2dText, if_neg (by omega), show c.toNat - 48 = first by omega]
    have made := @a2dRounds_made none first p.length sep p [] v vals two (le_refl _) arcs
      (fun _ => small) (by simp)
    simpa [arcNumber] using made

theorem a2dText_room (read : a2dText none text = some made) (some_ : made ≠ []) {n : Nat}
    (room : made.length ≤ n) : a2dText (some n) text = some made := by
  obtain ⟨c, sep, p, first, v, vals, rfl, digit, two, arcs, small, rfl⟩ :=
    (a2dText_reads text made).mp ⟨read, some_⟩
  rw [a2dText, if_neg (by omega), show c.toNat - 48 = first by omega]
  have written := @a2dRounds_made (some n) first p.length sep p [] v vals two (le_refl _) arcs
    (fun _ => small) (by simpa [arcNumber] using room)
  simpa [arcNumber] using written

theorem hasEmptyArc_cons : HasEmptyArc (c :: q) ↔
      (IsSeparator c ∧ (q = [] ∨ ∃ other rest, q = other :: rest ∧ IsSeparator other)) ∨
        HasEmptyArc q := by
  constructor
  · rintro ⟨front, sep, back, split, separates, empty⟩
    cases front with
    | nil =>
      obtain ⟨rfl, rfl⟩ := cons.inj split
      exact .inl ⟨separates, empty⟩
    | cons d front => exact .inr ⟨front, sep, back, (cons.inj split).2, separates, empty⟩
  · rintro (⟨separates, empty⟩ | ⟨front, sep, back, rfl, separates, empty⟩)
    · exact ⟨[], c, q, rfl, separates, empty⟩
    · exact ⟨c :: front, sep, back, rfl, separates, empty⟩

theorem hasEmptyArc_digits (digits : AllDigits ds) : HasEmptyArc (ds ++ q) ↔ HasEmptyArc q := by
  induction ds with
  | nil => rfl
  | cons c ds ih =>
    have plain := digits_plain digits
    rw [cons_append, hasEmptyArc_cons, ih fun d member => digits d (mem_cons_of_mem c member)]
    simp [plain]

theorem hasEmptyArc_nil : ¬ HasEmptyArc [] := by
  rintro ⟨front, sep, back, split, _⟩
  simp at split

theorem hasEmptyArc_arc (some_ : ds ≠ []) (digits : AllDigits ds) :
    HasEmptyArc (sep :: (ds ++ q)) ↔ HasEmptyArc q := by
  rw [hasEmptyArc_cons, hasEmptyArc_digits digits]
  cases ds with
  | nil => contradiction
  | cons c ds =>
    have plain := digits_plain digits
    simp [plain]

theorem oidArcs_reads (arcs : OidArcs text vals) :
    ¬ HasEmptyArc text ∧ ∀ sep p, text = sep :: p → ReadArcs sep p vals := by
  induction arcs with
  | none => exact ⟨hasEmptyArc_nil, fun _ _ never => by simp at never⟩
  | @arc sep ds rest vals separates some_ digits arcs ih =>
    refine ⟨by rw [hasEmptyArc_arc some_ digits]; exact ih.1, ?_⟩
    rintro _ _ ⟨⟩
    cases rest with
    | nil =>
      cases arcs
      rw [append_nil]
      exact .last separates some_ digits
    | cons other rest =>
      have separates' : IsSeparator other := by cases arcs; assumption
      exact .next separates digits separates' (ih.2 other rest rfl)

theorem readArcs_arcs (reads : ReadArcs sep p vals) (some_ : p ≠ [])
    (full : ¬ HasEmptyArc (sep :: p)) : OidArcs (sep :: p) vals := by
  induction reads with
  | done c => contradiction
  | last separates _ digits =>
    have arcs := OidArcs.arc separates some_ digits .none
    rwa [append_nil] at arcs
  | @next c other ds rest vals separates digits separates' reads ih =>
    have digit : ds ≠ [] := by
      rintro rfl
      exact full (hasEmptyArc_cons.mpr (.inl ⟨separates, .inr ⟨other, rest, rfl, separates'⟩⟩))
    rw [hasEmptyArc_arc digit digits] at full
    have more : rest ≠ [] := by
      rintro rfl
      exact full (hasEmptyArc_cons.mpr (.inl ⟨separates', .inl rfl⟩))
    exact .arc separates digit digits (ih more full)

theorem readArcs_some (reads : ReadArcs sep p (v :: vals)) : p ≠ [] := by
  cases reads <;> simp_all

/-- An object identifier is a text that is turned into octets, without an empty arc. -/
theorem oidGrammar_iff (text : List UInt8) (first v : Nat) (vals : List Nat) :
    OidGrammar text first v vals ↔
      ∃ c sep p, text = c :: sep :: p ∧ c.toNat = 48 + first ∧ first ≤ 2 ∧
        ReadArcs sep p (v :: vals) ∧ (first < 2 → v < 40) ∧ ¬ HasEmptyArc (sep :: p) := by
  constructor
  · rintro ⟨c, rest, rfl, digit, two, arcs, small⟩
    cases rest with
    | nil => cases arcs
    | cons sep p =>
      exact ⟨c, sep, p, rfl, digit, two, (oidArcs_reads arcs).2 sep p rfl, small,
        (oidArcs_reads arcs).1⟩
  · rintro ⟨c, sep, p, rfl, digit, two, reads, small, full⟩
    exact ⟨c, sep :: p, rfl, digit, two, readArcs_arcs reads (readArcs_some reads) full, small⟩

/- What a text is turned into is nothing but the octets of an object identifier, in a buffer as
   counted. -/
structure OidExact (text : List UInt8) (num : Int) : Prop where
  accepts : (∃ made, a2dAsn1Object none text num = some made ∧ 0 < made.length) ↔
    ∃ first v vals, OidGrammar text first v vals
  size : ∀ made, a2dAsn1Object none text num = some made → ∀ first v vals,
    OidGrammar text first v vals → made = oidContents ((v + first * 40) :: vals)
  written : ∀ made, a2dAsn1Object none text num = some made → 0 < made.length →
    ∀ olen, made.length ≤ olen → a2dAsn1Object (some olen) text num = some made

theorem a2dAsn1Object_text (olen : Option Nat) (some_ : text ≠ []) {num : Int}
    (length : num = text.length ∨ num = -1 ∧ 0 ∉ text ∧ text.length < intMax) :
    a2dAsn1Object olen text num = a2dText olen text := by
  have counted := length_pos_iff.mpr some_
  unfold a2dAsn1Object
  rcases length with rfl | ⟨rfl, nul, short⟩
  · rw [if_neg (by omega), if_neg (by omega), Int.toNat_natCast, take_length]
  · have whole : cString text = text := by
      rw [cString, takeWhile_eq_self_iff]
      intro c member
      have : c ≠ 0 := fun zero => nul (zero ▸ member)
      simp [this]
    rw [if_neg (by omega), if_pos rfl, whole, if_neg (by omega)]

/-- The text of an object identifier is taken exactly, but for a text that would be one if an empty
    arc stood for zero and the last one could be left out. -/
theorem a2dAsn1Object_exact (text : List UInt8) (some_ : text ≠ []) (num : Int)
    (length : num = text.length ∨ num = -1 ∧ 0 ∉ text ∧ text.length < intMax) :
    OidExact text num ↔ ¬ EmptyArcRead text := by
  have is := fun olen => a2dAsn1Object_text olen some_ length
  constructor
  · rintro ⟨accepts, _, _⟩ ⟨c, sep, p, first, v, vals, rfl, digit, two, reads, small, empty⟩
    have made := (a2dText_reads _ _).mpr
      ⟨c, sep, p, first, v, vals, rfl, digit, two, reads, small, rfl⟩
    obtain ⟨first', v', vals', grammar⟩ := accepts.mp
      ⟨_, (is none).trans made.1, length_pos_iff.mpr made.2⟩
    obtain ⟨_, _, _, ⟨⟩, _, _, _, _, full⟩ := (oidGrammar_iff _ _ _ _).mp grammar
    exact full empty
  · intro never
    refine ⟨?_, ?_, ?_⟩
    · constructor
      · rintro ⟨made, read, counted⟩
        obtain ⟨c, sep, p, first, v, vals, rfl, digit, two, reads, small, rfl⟩ :=
          (a2dText_reads _ _).mp ⟨(is none).symm.trans read, length_pos_iff.mp counted⟩
        exact ⟨first, v, vals, (oidGrammar_iff _ _ _ _).mpr ⟨c, sep, p, rfl, digit, two, reads,
          small, fun empty => never ⟨c, sep, p, first, v, vals, rfl, digit, two, reads, small,
            empty⟩⟩⟩
      · rintro ⟨first, v, vals, grammar⟩
        obtain ⟨c, sep, p, rfl, digit, two, reads, small, _⟩ := (oidGrammar_iff _ _ _ _).mp grammar
        have made := (a2dText_reads _ _).mpr
          ⟨c, sep, p, first, v, vals, rfl, digit, two, reads, small, rfl⟩
        exact ⟨_, (is none).trans made.1, length_pos_iff.mpr made.2⟩
    · intro made read first v vals grammar
      obtain ⟨c, sep, p, rfl, digit, two, reads, small, _⟩ := (oidGrammar_iff _ _ _ _).mp grammar
      have made' := (a2dText_reads _ _).mpr
        ⟨c, sep, p, first, v, vals, rfl, digit, two, reads, small, rfl⟩
      rw [is none, made'.1] at read
      exact (some.inj read).symm
    · intro made read counted olen room
      rw [is (some olen)]
      exact a2dText_room ((is none).symm.trans read) (length_pos_iff.mp counted) room

/- "1.2.3" and "1..2". -/
theorem a2dAsn1Object_exact_three :
    OidExact [49, 46, 50, 46, 51] 5 ↔ ¬ EmptyArcRead [49, 46, 50, 46, 51] :=
  a2dAsn1Object_exact [49, 46, 50, 46, 51] (by decide) 5 (.inl rfl)

theorem a2dAsn1Object_notExact : ¬ OidExact [49, 46, 46, 50] 4 := by
  intro exact_
  obtain ⟨first, v, vals, grammar⟩ := exact_.accepts.mp ⟨[40, 2], by decide +kernel, by decide⟩
  obtain ⟨_, _, _, ⟨⟩, _, _, _, _, full⟩ := (oidGrammar_iff _ _ _ _).mp grammar
  exact full ⟨[], 46, [46, 50], rfl, .inl rfl, .inr ⟨46, [50], rfl, .inl rfl⟩⟩

end Ossl
