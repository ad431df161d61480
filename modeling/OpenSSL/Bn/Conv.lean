import Mathlib.Tactic.Ring
import OpenSSL.Asn1.Object
import OpenSSL.X509.IpAsc

/- Big numbers from text, as in crypto/bn/bn_conv.c. -/
namespace Ossl
open Option Nat List

def minusChar : UInt8 := 0x2d

def osslIsxdigit (c : UInt8) : Bool := (hexchar2int c).isSome

/- The digits that a text starts with, counted up to the first count that is too large. -/
def digitsOf (isDigit : UInt8 → Bool) (a : List UInt8) : Nat := (a.takeWhile isDigit).length

def digitRun (isDigit : UInt8 → Bool) (a : List UInt8) : Nat :=
  min (digitsOf isDigit a) (intMax / 4 + 1)

def bnExpandFits (bits : Nat) : Bool :=
  decide (bits ≤ intMax - 63 ∧ (bits + 63) / 64 ≤ intMax / (4 * 64))

/- crash is a NULL pointer that is followed. The destination is none for NULL, and what it points to
   is none for a number still to be made. Numbers own their digits (no BN_FLG_STATIC_DATA), and a
   text is the bytes before its end. -/
inductive ParseOut
  | crash
  | done (count : Nat) (bn : Option (Option Int))
  deriving DecidableEq

def ParseOut.count : ParseOut → Option Nat
  | .crash => none
  | .done count _ => some count

def ParseOut.value : ParseOut → Option Int
  | .done (_ + 1) (some (some v)) => some v
  | _ => none

def hexWords : Nat → List UInt8 → List Nat
  | 0, _ => []
  | left + 1, last =>
    if last = [] then []
    else
      (last.take 16).reverse.foldl (fun l c => l * 16 + (hexchar2int c).getD 0) 0 ::
        hexWords left (last.drop 16)

def hexNumber (digits : List UInt8) : Nat :=
  ofDigits (2 ^ 64) (hexWords digits.length digits.reverse)

def decRound (s : Nat × Nat × Nat) (c : UInt8) : Nat × Nat × Nat :=
  let l := s.2.1 * 10 + (c.toNat - 0x30)
  if s.2.2 + 1 = 19 then (s.1 * 10 ^ 19 + l, 0, 0) else (s.1, l, s.2.2 + 1)

def decNumber (digits : List UInt8) : Nat :=
  (digits.foldl decRound (0, 0, if digits.length % 19 = 0 then 0 else 19 - digits.length % 19)).1

def minusFirst (a : List UInt8) : Bool := decide (a.head? = some minusChar)

def afterMinus (a : List UInt8) : List UInt8 := if minusFirst a then a.tail else a

def textToBn (isDigit : UInt8 → Bool) (number : List UInt8 → Nat) (refused : ParseOut)
    (bn : Option (Option Int)) (a : List UInt8) : ParseOut :=
  if a = [] then .done 0 bn
  else
    let neg := minusFirst a
    let a := afterMinus a
    let i := digitRun isDigit a
    if i = 0 ∨ intMax / 4 < i then refused
    else
      match bn with
      | none => .done (i + neg.toNat) none
      | some old =>
        if bnExpandFits (i * 4) then
          let value : Int := number (a.take i)
          .done (i + neg.toNat) (some (some (if neg then -value else value)))
        else .done 0 (some (old.map fun _ => 0))

def bnHex2bn (bn : Option (Option Int)) (a : List UInt8) : ParseOut :=
  textToBn osslIsxdigit hexNumber (.done 0 bn) bn a

def bnDec2bn (bn : Option (Option Int)) (a : List UInt8) : ParseOut :=
  textToBn osslIsdigit decNumber (if bn = none then .crash else .done 0 bn) bn a

def hexPrefix : List UInt8 → Option (List UInt8)
  | c :: x :: rest => if c = 0x30 ∧ (x = 0x58 ∨ x = 0x78) then some rest else none
  | _ => none

/- The number for a destination that is not NULL, or none when the text is refused. -/
def bnAsc2bn (old : Option Int) (a : List UInt8) : Option Int :=
  let out :=
    match hexPrefix (afterMinus a) with
    | some rest => bnHex2bn (some old) rest
    | none => bnDec2bn (some old) (afterMinus a)
  out.value.map fun v => if minusFirst a then -v.natAbs else v

/- The value of digits, and of a text with the longest run of them after a minus sign. -/
def hexValue (digits : List UInt8) : Nat :=
  ofDigits 16 (digits.reverse.map fun c => (hexchar2int c).getD 0)

def decValue (digits : List UInt8) : Nat := ofDigits 10 (digits.reverse.map fun c => c.toNat - 0x30)

def signedRun (isDigit : UInt8 → Bool) (value : List UInt8 → Nat) (neg : Bool) (a : List UInt8) :
    Option Int :=
  if a.takeWhile isDigit = [] then none
  else some (if neg then -(value (a.takeWhile isDigit) : Int) else value (a.takeWhile isDigit))

def ascValue (a : List UInt8) : Option Int :=
  match hexPrefix (afterMinus a) with
  | some rest => signedRun osslIsxdigit hexValue (minusFirst a) rest
  | none => signedRun osslIsdigit decValue (minusFirst a) (afterMinus a)

section Values

theorem hexWords_value (left : Nat) {last : List UInt8} (enough : last.length ≤ left) :
    ofDigits (2 ^ 64) (hexWords left last) =
      ofDigits 16 (last.map fun c => (hexchar2int c).getD 0) := by
  induction left generalizing last with
  | zero =>
    have none_ : last = [] := eq_nil_of_length_eq_zero (by omega)
    rw [none_]
    rfl
  | succ left ih =>
    rw [hexWords]
    by_cases none_ : last = []
    · rw [if_pos none_, none_]
      rfl
    · have word : (last.take 16).foldr (fun c l => l * 16 + (hexchar2int c).getD 0) 0 =
          ofDigits 16 ((last.take 16).map fun c => (hexchar2int c).getD 0) := by
        rw [ofDigits_eq_foldr, foldr_map]
        congr 1
        funext c l
        rw [cast_id, mul_comm, add_comm]
      have shift : 16 ^ ((last.take 16).map fun c => (hexchar2int c).getD 0).length *
          ofDigits 16 ((last.drop 16).map fun c => (hexchar2int c).getD 0) =
          2 ^ 64 * ofDigits 16 ((last.drop 16).map fun c => (hexchar2int c).getD 0) := by
        rw [length_map, length_take]
        rcases lt_or_ge last.length 16 with short | long
        · rw [drop_of_length_le short.le]
          simp
        · rw [min_eq_left long, show 16 ^ 16 = 2 ^ 64 by norm_num]
      rw [if_neg none_, ofDigits_cons, ih (by rw [length_drop]; omega), foldl_reverse, word]
      conv_rhs => rw [← take_append_drop 16 last, map_append, ofDigits_append, shift]

theorem hexNumber_eq (digits : List UInt8) : hexNumber digits = hexValue digits :=
  hexWords_value _ (length_reverse.le)

/-- The blocks of 19 digits keep the value of what was read. -/
theorem decRounds_value (digits : List UInt8) {ret l j : Nat} (inside : j < 19)
    (fresh : j = 0 → l = 0) : ∃ ret' l', digits.foldl decRound (ret, l, j) =
        (ret', l', (j + digits.length) % 19) ∧ ((j + digits.length) % 19 = 0 → l' = 0) ∧
      ret' * 10 ^ ((j + digits.length) % 19) + l' =
        digits.foldl (fun v c => v * 10 + (c.toNat - 0x30)) (ret * 10 ^ j + l) := by
  induction digits generalizing ret l j with
  | nil => exact ⟨ret, l, by simp [mod_eq_of_lt inside], by simpa [mod_eq_of_lt inside],
      by simp [mod_eq_of_lt inside]⟩
  | cons c digits ih =>
    rw [foldl_cons, foldl_cons, length_cons, decRound]
    by_cases full : j + 1 = 19
    · rw [if_pos full]
      obtain ⟨ret', l', is, ends, value⟩ := @ih (ret * 10 ^ 19 + (l * 10 + (c.toNat - 0x30))) 0 0
        (by decide) fun _ => rfl
      have place : (j + (digits.length + 1)) % 19 = (0 + digits.length) % 19 := by omega
      refine ⟨ret', l', by rw [is, place], by rwa [place], ?_⟩
      have step : ret * 10 ^ 19 + (l * 10 + (c.toNat - 0x30)) =
          (ret * 10 ^ j + l) * 10 + (c.toNat - 0x30) := by
        rw [← full, pow_succ]
        ring
      rw [place, value, pow_zero, mul_one, add_zero, step]
    · rw [if_neg full]
      obtain ⟨ret', l', is, ends, value⟩ := @ih ret (l * 10 + (c.toNat - 0x30)) (j + 1)
        (by omega) (by omega)
      have place : j + (digits.length + 1) = j + 1 + digits.length := by omega
      refine ⟨ret', l', by rw [is, place], by rwa [place], ?_⟩
      rw [place, value]
      congr 1
      ring

theorem decNumber_eq (digits : List UInt8) : decNumber digits = decValue digits := by
  have value : decValue digits = digits.foldl (fun v c => v * 10 + (c.toNat - 0x30)) 0 := by
    rw [decValue, ofDigits_eq_foldr, foldr_map, foldr_reverse]
    congr 1
    funext v c
    rw [cast_id, mul_comm, add_comm]
  rw [decNumber, value]
  generalize start : (if digits.length % 19 = 0 then 0 else 19 - digits.length % 19) = j
  have whole : (j + digits.length) % 19 = 0 := by
    rw [← start]
    split <;> omega
  obtain ⟨ret', l', is, ends, same⟩ := @decRounds_value digits 0 0 j
    (by rw [← start]; split <;> omega) fun _ => rfl
  rw [is]
  rw [whole, ends whole, zero_mul] at same
  simpa using same

end Values

section Parsing
variable {isDigit : UInt8 → Bool} {number : List UInt8 → Nat} {refused : ParseOut}

theorem run_refused (n : Nat) : (min n (intMax / 4 + 1) = 0 ∨
    intMax / 4 < min n (intMax / 4 + 1)) ↔ n = 0 ∨ intMax / 4 < n := by
  omega

theorem fits_few {n : Nat} (fits : bnExpandFits (n * 4) = true) : ¬intMax / 4 < n := by
  have := (of_decide_eq_true fits).2
  omega

theorem textToBn_eq {a : List UInt8} (some_ : a ≠ []) (bn : Option (Option Int)) :
    textToBn isDigit number refused bn a =
      if digitsOf isDigit (afterMinus a) = 0 ∨ intMax / 4 < digitsOf isDigit (afterMinus a)
      then refused
      else
        match bn with
        | none => .done (digitsOf isDigit (afterMinus a) + (minusFirst a).toNat) none
        | some old =>
          if bnExpandFits (digitsOf isDigit (afterMinus a) * 4) then
            .done (digitsOf isDigit (afterMinus a) + (minusFirst a).toNat) (some (some
              (if minusFirst a then -(number ((afterMinus a).takeWhile isDigit) : Int)
                else number ((afterMinus a).takeWhile isDigit))))
          else .done 0 (some (old.map fun _ => 0)) := by
  rw [textToBn, if_neg some_]
  dsimp only [digitRun]
  by_cases bad : digitsOf isDigit (afterMinus a) = 0 ∨ intMax / 4 < digitsOf isDigit (afterMinus a)
  · rw [if_pos bad, if_pos ((run_refused _).mpr bad)]
  · have few : min (digitsOf isDigit (afterMinus a)) (intMax / 4 + 1) =
        digitsOf isDigit (afterMinus a) := by omega
    have taken : (afterMinus a).take (digitsOf isDigit (afterMinus a)) =
        (afterMinus a).takeWhile isDigit :=
      (prefix_iff_eq_take.mp ( takeWhile_prefix isDigit)).symm
    rw [if_neg bad, if_neg fun small => bad ((run_refused _).mp small), few, taken]

/-- The number that is read into a destination. -/
theorem textToBn_value (old : Option Int) (a : List UInt8) (none_ : refused.value = none) :
    (textToBn isDigit number refused (some old) a).value =
      if 0 < digitsOf isDigit (afterMinus a) ∧ bnExpandFits (digitsOf isDigit (afterMinus a) * 4)
      then some (if minusFirst a then -(number ((afterMinus a).takeWhile isDigit) : Int)
        else number ((afterMinus a).takeWhile isDigit))
      else none := by
  by_cases empty : a = []
  · rw [textToBn, if_pos empty, empty]
    rfl
  · rw [textToBn_eq empty]
    generalize digitsOf isDigit (afterMinus a) = n
    by_cases bad : n = 0 ∨ intMax / 4 < n
    · rw [if_pos bad, none_, if_neg]
      rintro ⟨pos, fits⟩
      exact bad.elim pos.ne' (fits_few fits)
    · rw [if_neg bad]
      obtain ⟨k, rfl⟩ : ∃ k, n = k + 1 := ⟨n - 1, by omega⟩
      dsimp only
      have counts : k + 1 + (minusFirst a).toNat = k + (minusFirst a).toNat + 1 := by omega
      by_cases fits : bnExpandFits ((k + 1) * 4) = true
      · rw [if_pos fits, counts]
        simp only [ParseOut.value, succ_pos, fits, and_self, if_true]
      · rw [if_neg fits, if_neg fun both => fits both.2]
        rfl

end Parsing

def SameCounts (a : List UInt8) : Prop :=
  ∀ old, (bnDec2bn none a).count = (bnDec2bn (some old) a).count ∧
    (bnHex2bn none a).count = (bnHex2bn (some old) a).count

/- The texts whose digits are parsed in one way: decimal ones that are not too many, and
   hexadecimal ones that are not too many either and have no second minus sign. -/
def PlainText (a : List UInt8) : Prop :=
  a = [] ∨ (0 < digitsOf osslIsdigit (afterMinus a) ∧
      bnExpandFits (digitsOf osslIsdigit (afterMinus a) * 4)) ∧
    (bnExpandFits (digitsOf osslIsxdigit (afterMinus a) * 4) ∨
      intMax / 4 < digitsOf osslIsxdigit (afterMinus a)) ∧
    ∀ rest, hexPrefix (afterMinus a) = some rest →
      bnExpandFits (digitsOf osslIsxdigit rest * 4) ∧
        ¬(minusFirst rest ∧ 0 < digitsOf osslIsxdigit rest.tail ∧
          bnExpandFits (digitsOf osslIsxdigit rest.tail * 4))

theorem minus_no_digit : osslIsxdigit minusChar = false ∧ osslIsdigit minusChar = false := by
  decide

variable {a : List UInt8}

theorem minus_front (minus : minusFirst a = true) : ∃ rest, a = minusChar :: rest := by
  cases a with
  | nil => contradiction
  | cons c rest => exact ⟨rest, by rw [some.inj (of_decide_eq_true minus)]⟩

theorem sameCounts_iff (some_ : a ≠ []) : SameCounts a ↔
    (0 < digitsOf osslIsdigit (afterMinus a) ∧
      bnExpandFits (digitsOf osslIsdigit (afterMinus a) * 4)) ∧
    (bnExpandFits (digitsOf osslIsxdigit (afterMinus a) * 4) ∨
      intMax / 4 < digitsOf osslIsxdigit (afterMinus a)) := by
  unfold SameCounts bnDec2bn bnHex2bn
  simp only [textToBn_eq some_]
  generalize digitsOf osslIsdigit (afterMinus a) = n
  generalize digitsOf osslIsxdigit (afterMinus a) = m
  rw [forall_and]
  refine and_congr ?_ ?_
  · by_cases bad : n = 0 ∨ intMax / 4 < n
    · simp only [if_pos bad]
      refine iff_of_false (fun same => ?_) fun both => bad.elim both.1.ne' (fits_few both.2)
      exact nomatch same none
    · by_cases fits : bnExpandFits (n * 4) = true
      · simp [bad, fits, ParseOut.count, pos_of_ne_zero (not_or.mp bad).1]
      · refine iff_of_false (fun same => ?_) fun both => fits both.2
        have := same none
        simp [bad, fits, ParseOut.count] at this
        exact bad (.inl this.1)
  · by_cases bad : m = 0 ∨ intMax / 4 < m
    · simp only [if_pos bad, ParseOut.count, implies_true, true_iff]
      exact bad.imp_left (by rintro rfl; decide)
    · by_cases fits : bnExpandFits (m * 4) = true
      · simp [bad, fits, ParseOut.count]
      · refine iff_of_false (fun same => ?_) fun both =>
          both.elim fits fun large => bad (.inr large)
        have := same none
        simp [bad, fits, ParseOut.count] at this
        exact bad (.inl this.1)

theorem digits_no_minus {isDigit : UInt8 → Bool} (not_ : isDigit minusChar = false)
    (pos : 0 < digitsOf isDigit a) : minusFirst a = false := by
  rw [Bool.eq_false_iff]
  intro minus
  obtain ⟨rest, rfl⟩ := minus_front minus
  rw [digitsOf, takeWhile_cons, not_] at pos
  exact lt_irrefl 0 pos

theorem natAbs_sign (n : Nat) (neg : Bool) :
    (if neg then -(((n : Int).natAbs : Nat) : Int) else (n : Int)) =
      if neg then -(n : Int) else n := by
  rw [Int.natAbs_natCast]

theorem asc_decimal (old : Option Int) (decimal : hexPrefix (afterMinus a) = none)
    (pos : 0 < digitsOf osslIsdigit (afterMinus a))
    (fits : bnExpandFits (digitsOf osslIsdigit (afterMinus a) * 4) = true) :
    bnAsc2bn old a = ascValue a := by
  have once : minusFirst (afterMinus a) = false := digits_no_minus minus_no_digit.2 pos
  have same : afterMinus (afterMinus a) = afterMinus a := by
    rw [afterMinus, if_neg (by rw [once]; decide)]
  have some_ : ¬(afterMinus a).takeWhile osslIsdigit = [] := length_pos_iff.mp pos
  rw [bnAsc2bn, ascValue, decimal]
  rw [bnDec2bn, textToBn_value _ _ rfl, same, if_pos ⟨pos, fits⟩, signedRun, if_neg some_, once,
    map_some, decNumber_eq]
  exact congrArg some (natAbs_sign _ _)

theorem bnHex2bn_value (old : Option Int) (a : List UInt8) : (bnHex2bn (some old) a).value =
    if 0 < digitsOf osslIsxdigit (afterMinus a) ∧
      bnExpandFits (digitsOf osslIsxdigit (afterMinus a) * 4)
    then some (if minusFirst a then -(hexValue ((afterMinus a).takeWhile osslIsxdigit) : Int)
      else hexValue ((afterMinus a).takeWhile osslIsxdigit))
    else none := by
  rw [bnHex2bn, textToBn_value _ _ rfl, hexNumber_eq]

/-- A hexadecimal text, when it has no second minus sign and not too many digits. -/
theorem asc_hex_iff {rest : List UInt8} (hex : hexPrefix (afterMinus a) = some rest) :
    (∀ old, bnAsc2bn old a = ascValue a) ↔ bnExpandFits (digitsOf osslIsxdigit rest * 4) ∧
      ¬(minusFirst rest ∧ 0 < digitsOf osslIsxdigit rest.tail ∧
        bnExpandFits (digitsOf osslIsxdigit rest.tail * 4)) := by
  have empty {b : List UInt8} : b.takeWhile osslIsxdigit = [] ↔ digitsOf osslIsxdigit b = 0 :=
    length_eq_zero_iff.symm
  unfold bnAsc2bn ascValue signedRun
  simp only [hex, empty, bnHex2bn_value]
  by_cases minus : minusFirst rest = true
  · obtain ⟨tail, rfl⟩ := minus_front minus
    have none_ : digitsOf osslIsxdigit (minusChar :: tail) = 0 := by
      rw [digitsOf, takeWhile_cons, minus_no_digit.1]
      rfl
    have after : afterMinus (minusChar :: tail) = tail := rfl
    have zero : bnExpandFits (0 * 4) = true := by decide
    simp only [after, none_, if_true, minus, tail_cons, zero]
    by_cases read : 0 < digitsOf osslIsxdigit tail ∧
        bnExpandFits (digitsOf osslIsxdigit tail * 4) = true
    · simp [read]
    · simp [read]
  · have after : afterMinus rest = rest := if_neg minus
    simp only [after, minus]
    by_cases pos : digitsOf osslIsxdigit rest = 0
    · rw [pos]
      simp [show bnExpandFits 0 = true by decide]
    · by_cases fits : bnExpandFits (digitsOf osslIsxdigit rest * 4) = true
      · simp [pos, fits, pos_of_ne_zero pos]
      · simp [pos, fits]

/-- The parsers do without a destination as with one, and read the number that is meant, on the
    plain texts. -/
theorem text_parsers_iff (a : List UInt8) :
    (SameCounts a ∧ ∀ old, bnAsc2bn old a = ascValue a) ↔ PlainText a := by
  by_cases some_ : a = []
  · subst some_
    exact iff_of_true ⟨fun _ => ⟨rfl, rfl⟩, fun _ => rfl⟩ (.inl rfl)
  · rw [sameCounts_iff some_, PlainText, or_iff_right some_, and_assoc]
    refine and_congr_right fun decimal => and_congr_right fun _ => ?_
    cases hex : hexPrefix (afterMinus a) with
    | none => exact iff_of_true (fun old => asc_decimal old hex decimal.1 decimal.2) nofun
    | some rest =>
      rw [asc_hex_iff hex]
      exact ⟨fun plain _ same => some.inj same ▸ plain, fun plain => plain rest rfl⟩

/-- The letter x without a destination. -/
theorem dec2bn_crashes : ¬(SameCounts [0x78] ∧ ∀ old, bnAsc2bn old [0x78] = ascValue [0x78]) :=
  fun both => nomatch (both.1 none).1

/-- Two minus signs. -/
example : bnAsc2bn none [0x2d, 0x2d, 0x35] = some (-5) ∧ ascValue [0x2d, 0x2d, 0x35] = none := by
  decide

end Ossl
