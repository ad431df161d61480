import OpenSSL.Bn.Conv
import OpenSSL.Bn.Values
import OpenSSL.X509.IpAscText

/- Big numbers as text, after crypto/bn/bn_conv.c. -/
namespace Ossl
open Nat List Option BnValue Decimal

def minusText (a : Int) : List UInt8 := if a < 0 then [minusChar] else []

def hexRound (s : List UInt8 × Bool) (v : Nat) : List UInt8 × Bool :=
  if s.2 ∨ v ≠ 0 then (s.1 ++ [hexUpper (v / 16), hexUpper (v % 16)], true) else s

def wordBytes (w : Nat) : List Nat := [56, 48, 40, 32, 24, 16, 8, 0].map fun j => w >>> j % 256

def bn2hexRoom (a : Int) : Nat := (Nat.digits (2 ^ 64) a.natAbs).length * 8 * 2 + 2

def bnBn2hex (a : Int) : List UInt8 :=
  if a = 0 then [0x30]
  else
    (((Nat.digits (2 ^ 64) a.natAbs).reverse.flatMap wordBytes).foldl hexRound
      (minusText a, false)).1

def decConv : Nat := 10 ^ 19

def decBlocks : Nat → Nat → Option (List Nat)
  | 0, t => if t = 0 then some [] else none
  | left + 1, t =>
    if t = 0 then some []
    else (decBlocks left (t / decConv)).map fun blocks => t % decConv :: blocks

def snprintfText (buf : List UInt8) (tbytes : Nat) (text : List UInt8) : Option (List UInt8) :=
  if text.length ≥ tbytes - buf.length then none else some (buf ++ text)

def padded (block : Nat) : List UInt8 :=
  replicate (19 - (decimal block).length) (digit 0) ++ decimal block

def printBlocks (buf : List UInt8) (tbytes : Nat) : List Nat → Option (List UInt8)
  | [] => none
  | [lp] => snprintfText buf tbytes (decimal lp)
  | lp :: above =>
    (printBlocks buf tbytes above).bind fun buf => snprintfText buf tbytes (padded lp)

def bnBn2dec (a : Int) : Option (List UInt8) :=
  let i := numBits a * 3
  let num := i / 10 + i / 1000 + 1 + 1
  let tbytes := num + 3
  let bnDataNum := num / 19 + 1
  if a = 0 then some [0x30]
  else (decBlocks bnDataNum a.natAbs).bind (printBlocks (minusText a) tbytes)

def decimalText (a : Int) : List UInt8 := minusText a ++ decimal a.natAbs

def ConvertsBack (a : Int) (old : Option Int) : Prop :=
  bnBn2dec a = some (decimalText a) ∧
    bnDec2bn (some old) (decimalText a) = .done (decimalText a).length (some (some a)) ∧
    (bnBn2hex a).length < bn2hexRoom a ∧
    bnHex2bn (some old) (bnBn2hex a) = .done (bnBn2hex a).length (some (some a))

def ReadsFront (isDigit : UInt8 → Bool) (value : List UInt8 → Nat) (out : ParseOut)
    (s : List UInt8) : Prop :=
  out.count = some (if digitsOf isDigit (afterMinus s) = 0 then 0
    else digitsOf isDigit (afterMinus s) + (minusFirst s).toNat) ∧
    out.value = signedRun isDigit value (minusFirst s) (afterMinus s)

section Decimal

theorem two_pow_digits (b : Nat) : 2 ^ b ≤ 10 ^ (b * 3 / 10 + b * 3 / 1000 + 1 + 1) := by
  have thousand : ((2 : Nat) ^ 100) ^ 10 ≤ (10 ^ 101) ^ 3 := by norm_num
  generalize num : b * 3 / 10 + b * 3 / 1000 + 1 + 1 = n
  refine (Nat.pow_le_pow_iff_left (show 1000 ≠ 0 by decide)).mp ?_
  calc (2 ^ b) ^ 1000 = ((2 ^ 100) ^ 10) ^ b := by
        rw [← pow_mul, ← pow_mul, ← pow_mul, Nat.mul_comm b, ← Nat.mul_assoc]
    _ ≤ ((10 ^ 101) ^ 3) ^ b := Nat.pow_le_pow_left thousand b
    _ = 10 ^ (101 * (3 * b)) := by rw [← pow_mul, ← pow_mul]
    _ ≤ 10 ^ (n * 1000) := Nat.pow_le_pow_right (by decide) (by omega)
    _ = (10 ^ n) ^ 1000 := pow_mul _ _ _

theorem leading_length (t : Nat) : (leading t).length = (digits 10 t).length := by
  simp [leading]

theorem leading_block {q r : Nat} (pos : 0 < q) (small : r < decConv) :
    leading (q * decConv + r) = leading q ++ padded r := by
  have short : (Nat.digits 10 r).length ≤ 19 := (digits_length_le_iff (by decide) r).mpr small
  have split := @Nat.digits_append_zeroes_append_digits 10 (19 - (Nat.digits 10 r).length) q r
    (by decide) pos
  rw [Nat.add_sub_cancel' short, add_comm, mul_comm] at split
  rw [decConv, leading, ← split, padded, decimal]
  by_cases zero : r = 0
  · subst zero
    simp [leading]
  · rw [if_neg zero, leading_length]
    simp [leading]

theorem decBlocks_zero (left : Nat) : decBlocks left 0 = some [] := by
  cases left <;> rfl

theorem snprintf_fits {buf text : List UInt8} {tbytes : Nat}
    (fits : buf.length + text.length < tbytes) :
    snprintfText buf tbytes text = some (buf ++ text) :=
  if_neg (by omega)

/-- The blocks fit in their places, and what is printed of them in the buffer. -/
theorem blocks_printed {left t tbytes : Nat} {buf : List UInt8} (pos : 0 < t)
    (places : t < decConv ^ left) (room : buf.length + (leading t).length < tbytes) :
    ∃ lp above, decBlocks left t = some (lp :: above) ∧
      printBlocks buf tbytes (lp :: above) = some (buf ++ leading t) := by
  induction left generalizing t with
  | zero =>
    rw [pow_zero] at places
    omega
  | succ left ih =>
    have small : t % decConv < decConv := mod_lt _ (by decide)
    have whole : t / decConv * decConv + t % decConv = t := div_add_mod' t decConv
    rw [decBlocks, if_neg pos.ne']
    by_cases last : t / decConv = 0
    · have same : t % decConv = t := by rw [last] at whole; omega
      rw [last, decBlocks_zero, same]
      refine ⟨t, [], rfl, ?_⟩
      rw [printBlocks, decimal, if_neg pos.ne', snprintf_fits room]
    · have text := leading_block (pos_of_ne_zero last) small
      rw [whole] at text
      rw [text, length_append] at room
      obtain ⟨lp, above, blocks, printed⟩ := @ih (t / decConv) (pos_of_ne_zero last)
        (Nat.div_lt_of_lt_mul (by rwa [pow_succ, mul_comm] at places)) (by omega)
      rw [blocks]
      refine ⟨t % decConv, lp :: above, rfl, ?_⟩
      rw [printBlocks, printed, bind_some,
        snprintf_fits (by rw [length_append]; omega), append_assoc, text]
      exact cons_ne_nil _ _

theorem minusText_length (a : Int) : (minusText a).length ≤ 1 := by
  unfold minusText
  split <;> simp

theorem bnBn2dec_eq (a : Int) : bnBn2dec a = some (decimalText a) := by
  by_cases zero : a = 0
  · subst zero
    rfl
  · have pos : 0 < a.natAbs := Int.natAbs_pos.mpr zero
    have sign := minusText_length a
    have bound : a.natAbs < 10 ^ (numBits a * 3 / 10 + numBits a * 3 / 1000 + 1 + 1) :=
      (lt_size_self a.natAbs).trans_le (two_pow_digits (numBits a))
    rw [bnBn2dec, if_neg zero]
    generalize numBits a * 3 / 10 + numBits a * 3 / 1000 + 1 + 1 = num at bound ⊢
    have digits := (digits_length_le_iff (show 1 < 10 by decide) a.natAbs).mpr bound
    have places : a.natAbs < decConv ^ (num / 19 + 1) := by
      rw [decConv, ← pow_mul]
      exact bound.trans_le (Nat.pow_le_pow_right (by decide) (by omega))
    obtain ⟨lp, above, blocks, printed⟩ := @blocks_printed _ _ (num + 3) (minusText a) pos places
      (by rw [leading_length]; omega)
    rw [blocks, bind_some, printed, decimalText, decimal, if_neg pos.ne']

end Decimal

section ReadBack
variable {isDigit : UInt8 → Bool} {number : List UInt8 → Nat} {refused : ParseOut}
  {digits : List UInt8}

theorem signed_parts (all : ∀ c ∈ digits, isDigit c = true) (some_ : digits ≠ [])
    (not_ : isDigit minusChar = false) (a : Int) :
    minusFirst (minusText a ++ digits) = decide (a < 0) ∧
      afterMinus (minusText a ++ digits) = digits := by
  have plain : minusFirst digits = false :=
    digits_no_minus not_ (by
      rw [digitsOf, takeWhile_eq_self_iff.mpr all]
      exact length_pos_iff.mpr some_)
  rw [minusText]
  split
  case isTrue neg =>
    rw [decide_eq_true neg]
    exact ⟨rfl, rfl⟩
  case isFalse pos =>
    rw [decide_eq_false pos, nil_append, afterMinus, plain]
    exact ⟨rfl, if_neg Bool.false_ne_true⟩

/-- What was printed is read back, unless bn_expand refuses. -/
theorem read_back (all : ∀ c ∈ digits, isDigit c = true) (some_ : digits ≠ [])
    (not_ : isDigit minusChar = false) (nothing : refused.count = some 0) {a : Int}
    (value : number digits = a.natAbs) (old : Option Int) :
    textToBn isDigit number refused (some old) (minusText a ++ digits) =
        .done (minusText a ++ digits).length (some (some a)) ↔
      bnExpandFits (digits.length * 4) = true := by
  obtain ⟨first, after⟩ := signed_parts all some_ not_ a
  have pos : 0 < digits.length := length_pos_iff.mpr some_
  have every : digits.takeWhile isDigit = digits := takeWhile_eq_self_iff.mpr all
  have count : digits.length + (decide (a < 0)).toNat = (minusText a ++ digits).length := by
    rw [length_append, minusText]
    split
    case isTrue neg => simp [neg, add_comm]
    case isFalse pos => simp [pos]
  have signed : (if decide (a < 0) = true then -(a.natAbs : Int) else a.natAbs) = a := by
    by_cases neg : a < 0
    · rw [if_pos (decide_eq_true neg)]
      omega
    · rw [if_neg (by simpa using neg)]
      omega
  rw [textToBn_eq (by simp [some_]), first, after, digitsOf, every, value, signed, count]
  by_cases fits : bnExpandFits (digits.length * 4) = true
  · rw [if_neg fun bad => bad.elim pos.ne' (fits_few fits)]
    simp [fits]
  · refine iff_of_false (fun same => ?_) fits
    have length : 0 < (minusText a ++ digits).length := by
      rw [length_append]
      omega
    have counts := congrArg ParseOut.count same
    split at counts
    · rw [nothing] at counts
      exact length.ne (some.inj counts)
    · exact length.ne (some.inj counts)

theorem decimal_value (t : Nat) : decValue (decimal t) = t := by
  rw [decimal]
  split
  case isTrue zero => rw [zero]; rfl
  case isFalse pos =>
    have back : ((digits 10 t).map digit).map (fun c => c.toNat - 0x30) = digits 10 t := by
      rw [List.map_map]
      refine (map_congr_left fun d member => ?_).trans (map_id _)
      rw [Function.comp_apply, digit_toNat (digits_lt_base (by decide) member), id_eq]
      omega
    rw [leading, map_reverse, decValue, reverse_reverse, back, ofDigits_digits]

theorem decimal_digits {t : Nat} {c : UInt8} (member : c ∈ decimal t) : osslIsdigit c = true := by
  obtain ⟨d, small, rfl⟩ := mem_decimal member
  rw [osslIsdigit, digit_toNat small]
  simp
  omega

end ReadBack

section Hexadecimal

theorem hexUpper_value {d : Nat} (small : d < 16) : (hexchar2int (hexUpper d)).getD 0 = d := by
  rw [hexchar_upper small]
  rfl

theorem hexValue_byte (digits : List UInt8) {v : Nat} (byte : v < 256) :
    hexValue (digits ++ [hexUpper (v / 16), hexUpper (v % 16)]) = hexValue digits * 256 + v := by
  have back : (digits ++ [hexUpper (v / 16), hexUpper (v % 16)]).reverse =
      hexUpper (v % 16) :: hexUpper (v / 16) :: digits.reverse := by simp
  rw [hexValue, back, map_cons, map_cons, hexUpper_value (by omega),
    hexUpper_value (by omega), ofDigits_cons, ofDigits_cons, hexValue]
  omega

/- The text after the sign, while z is clear without a digit and then without zeros in front. -/
structure HexPrinted (digits : List UInt8) (z : Bool) (v : Nat) (bytes : Nat) : Prop where
  all : ∀ c ∈ digits, osslIsxdigit c = true
  value : hexValue digits = v
  empty : z = false → digits = []
  pairs : digits.length % 2 = 0
  least : z = true → 16 ^ digits.length ≤ 256 * v
  most : digits.length ≤ 2 * bytes

theorem hexRounds_spec {bytes : List Nat} (small : ∀ v ∈ bytes, v < 256) (pre : List UInt8)
    {digits : List UInt8} {z : Bool} {v n : Nat} (printed : HexPrinted digits z v n) :
    ∃ digits' z', bytes.foldl hexRound (pre ++ digits, z) = (pre ++ digits', z') ∧
      HexPrinted digits' z' (bytes.foldl (fun v b => v * 256 + b) v) (n + bytes.length) := by
  induction bytes generalizing digits z v n with
  | nil => exact ⟨digits, z, rfl, printed⟩
  | cons b bytes ih =>
    have byte := small b mem_cons_self
    rw [foldl_cons, foldl_cons, length_cons, add_comm bytes.length, ← add_assoc, hexRound]
    by_cases more : z = true ∨ b ≠ 0
    · have both : ∀ d < 16, osslIsxdigit (hexUpper d) = true := fun d small => by
        rw [osslIsxdigit, hexchar_upper small]
        rfl
      rw [if_pos more, append_assoc]
      refine ih (fun v member => small v (mem_cons_of_mem _ member)) ⟨fun c member => ?_, ?_,
        nofun, ?_, fun _ => ?_, ?_⟩
      · rcases mem_append.mp member with before | here
        · exact printed.all c before
        · rcases mem_cons.mp here with rfl | here
          · exact both _ (by omega)
          · rw [mem_singleton.mp here]
            exact both _ (by omega)
      · rw [hexValue_byte digits byte, printed.value]
      · simpa using printed.pairs
      · rw [length_append, pow_add]
        change 16 ^ digits.length * 256 ≤ _
        cases z with
        | true =>
          have := printed.least rfl
          omega
        | false =>
          rw [printed.empty rfl]
          have := more.resolve_left Bool.false_ne_true
          simp only [length_nil, pow_zero]
          omega
      · have := printed.most
        simp only [length_append, length_cons, length_nil]
        omega
    · obtain ⟨clear, zero⟩ := not_or.mp more
      have none_ := printed.empty (by simpa using clear)
      subst none_
      have nothing : v = 0 := printed.value.symm
      rw [if_neg more, not_not.mp zero, nothing]
      refine ih (fun v member => small v (mem_cons_of_mem _ member))
        ⟨printed.all, rfl, fun _ => rfl, rfl, fun holds => absurd holds clear, zero_le _⟩

theorem byte_next {m n : Nat} (next : m = n + 8) (v c w : Nat) :
    (v * c + w >>> m) * 256 + w >>> n % 256 = v * (c * 256) + w >>> n := by
  have whole : w >>> m * 256 + w >>> n % 256 = w >>> n := by
    rw [next, shiftRight_add, shiftRight_eq_div_pow (w >>> n), show 2 ^ 8 = 256 from rfl,
      div_add_mod']
  rw [add_mul, add_assoc, whole, mul_assoc]

theorem bytes_word {w : Nat} (small : w < 2 ^ 64) (v : Nat) :
    (wordBytes w).foldl (fun v b => v * 256 + b) v = v * 2 ^ 64 + w := by
  have top : w >>> 56 % 256 = w >>> 56 := by
    rw [shiftRight_eq_div_pow]
    exact mod_eq_of_lt (by omega)
  simp only [wordBytes, map_cons, map_nil, foldl_cons, foldl_nil]
  rw [top]
  iterate 7 rw [byte_next rfl]
  norm_num

theorem bytes_words {words : List Nat} (small : ∀ w ∈ words, w < 2 ^ 64) :
    (words.reverse.flatMap wordBytes).foldl (fun v b => v * 256 + b) 0 =
      ofDigits (2 ^ 64) words := by
  induction words with
  | nil => rfl
  | cons w words ih =>
    rw [reverse_cons, flatMap_append, foldl_append,
      ih fun w member => small w (mem_cons_of_mem _ member), flatMap_singleton,
      bytes_word (small w mem_cons_self), ofDigits_cons]
    ring

theorem bnBn2hex_spec {a : Int} (nonzero : a ≠ 0) : ∃ digits, bnBn2hex a = minusText a ++ digits ∧
    HexPrinted digits true a.natAbs ((Nat.digits (2 ^ 64) a.natAbs).length * 8) := by
  generalize words : digits (2 ^ 64) a.natAbs = ws
  have value : ofDigits (2 ^ 64) ws = a.natAbs := by rw [← words, ofDigits_digits]
  have small : ∀ w ∈ ws, w < 2 ^ 64 := fun w member =>
    digits_lt_base (by decide) (words ▸ member)
  have bytes : ∀ v ∈ ws.reverse.flatMap wordBytes, v < 256 := by
    intro v member
    obtain ⟨w, _, inside⟩ := mem_flatMap.mp member
    obtain ⟨j, _, rfl⟩ := mem_map.mp inside
    exact mod_lt _ (by decide)
  have count : (ws.reverse.flatMap wordBytes).length = ws.length * 8 := by
    rw [length_flatMap]
    change (ws.reverse.map fun _ => 8).sum = _
    simp
  obtain ⟨digits, z, is, printed⟩ := @hexRounds_spec _ bytes (minusText a) [] false 0 0
    ⟨nofun, rfl, fun _ => rfl, rfl, nofun, zero_le _⟩
  rw [append_nil] at is
  rw [bytes_words small, value, count, zero_add] at printed
  have isSet : z = true := by
    rw [← Bool.not_eq_false]
    intro clear
    have := printed.value
    rw [printed.empty clear] at this
    exact nonzero (Int.natAbs_eq_zero.mp this.symm)
  subst isSet
  exact ⟨digits, by rw [bnBn2hex, if_neg nonzero, words, is], printed⟩

theorem hex_short {digits : List UInt8} {t n : Nat} (printed : HexPrinted digits true t n)
    {limit : Nat} (even : limit % 2 = 0) (few : t < 10 ^ limit) : digits.length ≤ limit := by
  have lower := printed.least rfl
  have upper : 256 * t < 16 ^ (limit + 2) := by
    rw [pow_add, mul_comm]
    exact Nat.mul_lt_mul_of_pos_right (few.trans_le (Nat.pow_le_pow_left (by decide) limit))
      (by decide)
  have := (Nat.pow_lt_pow_iff_right (show 1 < 16 by decide)).mp (lower.trans_lt upper)
  have := printed.pairs
  omega

end Hexadecimal

theorem fits_iff (n : Nat) : bnExpandFits (n * 4) = true ↔ n ≤ 134217712 := by
  unfold bnExpandFits intMax
  rw [decide_eq_true_eq]
  omega

theorem hex_converts_back {a : Int} (old : Option Int)
    (fits : bnExpandFits ((decimal a.natAbs).length * 4) = true) :
    (bnBn2hex a).length < bn2hexRoom a ∧
      bnHex2bn (some old) (bnBn2hex a) = .done (bnBn2hex a).length (some (some a)) := by
  by_cases zero : a = 0
  · subst zero
    exact ⟨by decide, rfl⟩
  · obtain ⟨digits, text, printed⟩ := bnBn2hex_spec zero
    have sign := minusText_length a
    have most := printed.most
    have pos := Int.natAbs_pos.mpr zero
    have some_ : digits ≠ [] := by
      rintro rfl
      exact pos.ne printed.value
    obtain ⟨limit, is⟩ : ∃ limit, limit = 134217712 := ⟨_, rfl⟩
    rw [fits_iff, ← is, decimal, if_neg pos.ne', leading_length,
      digits_length_le_iff (by decide)] at fits
    have short := hex_short printed (by omega) fits
    rw [text]
    refine ⟨?_, (read_back printed.all some_ minus_no_digit.1 rfl
      ((hexNumber_eq digits).trans printed.value) old).mpr ((fits_iff _).mpr (short.trans is.le))⟩
    rw [bn2hexRoom, length_append]
    omega

theorem converts_back_iff (a : Int) (old : Option Int) :
    ConvertsBack a old ↔ bnExpandFits ((decimal a.natAbs).length * 4) = true := by
  have back := read_back (fun _ member => decimal_digits member) (decimal_ne_nil a.natAbs)
    minus_no_digit.2 (show (if some old = none then ParseOut.crash else .done 0 (some old)).count =
      some 0 from rfl) ((decNumber_eq _).trans (decimal_value a.natAbs)) old
  exact ⟨fun trips => back.mp trips.2.1, fun fits =>
    ⟨bnBn2dec_eq a, back.mpr fits, hex_converts_back old fits⟩⟩

theorem reads_front_iff {isDigit : UInt8 → Bool} {number : List UInt8 → Nat} {refused : ParseOut}
    (nothing : refused.count = some 0) (none_ : refused.value = none) (old : Option Int)
    (s : List UInt8) :
    ReadsFront isDigit number (textToBn isDigit number refused (some old) s) s ↔
      bnExpandFits (digitsOf isDigit (afterMinus s) * 4) = true := by
  have empty : (afterMinus s).takeWhile isDigit = [] ↔ digitsOf isDigit (afterMinus s) = 0 :=
    length_eq_zero_iff.symm
  unfold ReadsFront signedRun
  rw [textToBn_value old s none_]
  by_cases zero : digitsOf isDigit (afterMinus s) = 0
  · have count : (textToBn isDigit number refused (some old) s).count = some 0 := by
      by_cases some_ : s = []
      · rw [textToBn, if_pos some_]
        rfl
      · rw [textToBn_eq some_, if_pos (.inl zero), nothing]
    simp [count, zero, empty, show bnExpandFits 0 = true by decide]
  · have some_ : s ≠ [] := by
      rintro rfl
      exact zero rfl
    have pos := pos_of_ne_zero zero
    rw [textToBn_eq some_]
    by_cases fits : bnExpandFits (digitsOf isDigit (afterMinus s) * 4) = true
    · simp [zero, fits, fits_few fits, empty, pos, ParseOut.count]
    · refine iff_of_false (fun both => ?_) fits
      have counts := both.1
      rw [if_neg zero] at counts
      split at counts
      · rw [nothing] at counts
        exact (Nat.add_pos_left pos _).ne (some.inj counts)
      · exact (Nat.add_pos_left pos _).ne (some.inj counts)

/-- What is printed is read back, and what is read is the front of the text, unless there are too
    many digits for bn_expand. -/
theorem conversions_iff (a : Int) (s : List UInt8) (old : Option Int) :
    (ConvertsBack a old ↔ bnExpandFits ((decimal a.natAbs).length * 4) = true) ∧
      (ReadsFront osslIsdigit decValue (bnDec2bn (some old) s) s ∧
          ReadsFront osslIsxdigit hexValue (bnHex2bn (some old) s) s ↔
        bnExpandFits (digitsOf osslIsdigit (afterMinus s) * 4) = true ∧
          bnExpandFits (digitsOf osslIsxdigit (afterMinus s) * 4) = true) := by
  have dec : decNumber = decValue := funext decNumber_eq
  have hex : hexNumber = hexValue := funext hexNumber_eq
  refine ⟨converts_back_iff a old, and_congr ?_ ?_⟩
  · rw [bnDec2bn, dec]
    exact reads_front_iff rfl rfl old s
  · rw [bnHex2bn, hex]
    exact reads_front_iff rfl rfl old s

theorem ones_digits (n : Nat) :
    digitsOf osslIsdigit (afterMinus (replicate n 0x31)) = n := by
  have plain : minusFirst (replicate n 0x31) = false := by
    cases n <;> rfl
  have all : ∀ c ∈ replicate n (0x31 : UInt8), osslIsdigit c = true := fun c member => by
    rw [eq_of_mem_replicate member]
    rfl
  rw [afterMinus, plain, if_neg Bool.false_ne_true, digitsOf,
    takeWhile_eq_self_iff.mpr all, length_replicate]

/-- A text of one more digit than bn_expand takes. -/
theorem dec2bn_too_long : ¬ReadsFront osslIsdigit decValue
    (bnDec2bn (some none) (replicate 134217713 0x31)) (replicate 134217713 0x31) := by
  rw [bnDec2bn, funext decNumber_eq, reads_front_iff rfl rfl, ones_digits, fits_iff]
  decide

end Ossl
