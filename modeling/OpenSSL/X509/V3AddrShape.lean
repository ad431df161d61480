import OpenSSL.X509.V3AddrMake

/- The entries that are made: prefixes, and ranges that no prefix can say. -/
namespace Ossl
open Prod Nat List Option BigEndian Spans Cover

def lowMask (bit : Nat) : UInt8 := 0xFF >>> UInt8.ofNat bit

/-- The two ends of a prefix and its bit string: whole octets, or some bits of one more. -/
inductive PrefixShape (length : Nat) : Nat → List UInt8 → List UInt8 → BitString → Prop where
  | octets (c : List UInt8) (n : Nat) (size : c.length + n = length) :
      PrefixShape length (c.length * 8) (c ++ replicate n 0x00) (c ++ replicate n 0xFF) ⟨c, 0⟩
  | bits (c : List UInt8) (x : UInt8) (bit n : Nat) (size : c.length + 1 + n = length)
      (low : 1 ≤ bit) (high : bit ≤ 7) (clear : x &&& lowMask bit = 0) :
      PrefixShape length (c.length * 8 + bit) (c ++ x :: replicate n 0x00)
        (c ++ (x ||| lowMask bit) :: replicate n 0xFF) ⟨c ++ [x], bitLength (8 - bit)⟩

variable {m x : UInt8} {α : Type} {n p : Nat} {bs : BitString} {a c : List UInt8}
    {e : IPAddressOrRange}

variable {y : UInt8} {rest : List UInt8} {length : Nat} {min max : List UInt8}

theorem byte_ext (same : ∀ i, x.toNat.testBit i = y.toNat.testBit i) : x = y :=
  UInt8.toNat_inj.mp (eq_of_testBit_eq same)

theorem clear_bits (clear : x &&& m = 0) (i : Nat) :
    (x.toNat.testBit i && m.toNat.testBit i) = false := by
  have zero := congrArg UInt8.toNat clear
  rw [UInt8.toNat_and] at zero
  rw [← testBit_and, zero]
  exact zero_testBit i

theorem clear_xor (clear : x &&& m = 0) : x ^^^ (x ||| m) = m := by
  apply byte_ext
  intro i
  have bits := clear_bits clear i
  rw [UInt8.toNat_xor, UInt8.toNat_or, testBit_xor, testBit_or]
  cases first : x.toNat.testBit i <;> cases second : m.toNat.testBit i <;> simp_all

theorem clear_and_not (clear : x &&& m = 0) : x &&& ~~~m = x := by
  rw [← UInt8.toBitVec_inj] at clear ⊢
  rw [UInt8.toBitVec_and, UInt8.toBitVec_not]
  rw [UInt8.toBitVec_and] at clear
  apply BitVec.eq_of_getLsbD_eq
  intro i less
  have bits := congrArg (fun b : BitVec 8 => b.getLsbD i) clear
  simp only [BitVec.getLsbD_and] at bits
  rw [BitVec.getLsbD_and, BitVec.getLsbD_not]
  cases first : x.toBitVec.getLsbD i <;> cases second : m.toBitVec.getLsbD i <;> simp_all

theorem and_not_clear (x m : UInt8) : (x &&& ~~~m) &&& m = 0 := by
  rw [← UInt8.toBitVec_inj, UInt8.toBitVec_and, UInt8.toBitVec_and, UInt8.toBitVec_not]
  apply BitVec.eq_of_getLsbD_eq
  intro i less
  rw [BitVec.getLsbD_and, BitVec.getLsbD_and, BitVec.getLsbD_not]
  cases m.toBitVec.getLsbD i <;> simp

theorem and_not_or (x m : UInt8) : (x &&& ~~~m) ||| m = x ||| m := by
  rw [← UInt8.toBitVec_inj, UInt8.toBitVec_or, UInt8.toBitVec_and, UInt8.toBitVec_not,
    UInt8.toBitVec_or]
  apply BitVec.eq_of_getLsbD_eq
  intro i less
  rw [BitVec.getLsbD_or, BitVec.getLsbD_and, BitVec.getLsbD_not, BitVec.getLsbD_or]
  cases m.toBitVec.getLsbD i <;> simp [less]

theorem or_and_self (x m : UInt8) : (x ||| m) &&& m = m := by
  apply byte_ext
  intro i
  rw [UInt8.toNat_and, UInt8.toNat_or, testBit_and, testBit_or]
  cases m.toNat.testBit i <;> simp

theorem prefixBit_mask {mask : UInt8} {bit : Nat} (is : prefixBit mask = some bit) :
    1 ≤ bit ∧ bit ≤ 7 ∧ mask = lowMask bit := by
  unfold prefixBit at is
  split at is
  all_goals first
    | contradiction
    | rename_i value
      obtain rfl := some.inj is
      exact ⟨by decide, by decide, UInt8.toNat_inj.mp (value.trans (by decide))⟩

theorem prefixBit_lowMask {bit : Nat} (low : 1 ≤ bit) (high : bit ≤ 7) :
    prefixBit (lowMask bit) = some bit ∧ lowMask bit ≠ 0 ∧ lowMask bit ≠ 0xFF := by
  have cases_ : bit = 1 ∨ bit = 2 ∨ bit = 3 ∨ bit = 4 ∨ bit = 5 ∨ bit = 6 ∨ bit = 7 := by omega
  rcases cases_ with rfl | rfl | rfl | rfl | rfl | rfl | rfl <;> decide

theorem zip_same (c : List UInt8) : c.zip c = c.map fun a => (a, a) := by
  induction c with
  | nil => rfl
  | cons a c ih => exact congrArg ((a, a) :: ·) ih

theorem zip_fill (n : Nat) :
    (replicate n (0x00 : UInt8)).zip (replicate n (0xFF : UInt8)) = replicate n (0x00, 0xFF) := by
  induction n with
  | zero => rfl
  | succ n ih => exact congrArg ((0x00, 0xFF) :: ·) ih

theorem rdropWhile_fill (p : α → Bool) {a : α} (passes : p a = true) (l : List α) (n : Nat) :
    (l ++ replicate n a).rdropWhile p = l.rdropWhile p := by
  induction n with
  | zero => rw [replicate_zero, append_nil]
  | succ n ih =>
    rw [replicate_succ', ← append_assoc, rdropWhile_concat_pos _ _ _ passes, ih]

theorem takeWhile_same (c : List UInt8) (rest : List (UInt8 × UInt8)) :
    ((c.map (fun a => (a, a)) ++ rest).takeWhile fun p => p.1 == p.2) =
      c.map (fun a => (a, a)) ++ rest.takeWhile fun p => p.1 == p.2 := by
  apply takeWhile_append_of_pos
  intro p member
  obtain ⟨a, _, is⟩ := mem_map.mp member
  rw [← is]
  exact beq_self_eq_true a

theorem rdropWhile_same (c : List UInt8) :
    (c.map fun a => (a, a)).rdropWhile (fun p => p.1 == 0x00 && p.2 == 0xFF) =
      c.map fun a => (a, a) := by
  rw [rdropWhile_eq_self_iff]
  intro some_ bad
  obtain ⟨a, _, is⟩ := List.mem_map.mp (getLast_mem some_)
  rw [← is, Bool.and_eq_true, beq_iff_eq, beq_iff_eq] at bad
  exact absurd (bad.1.symm.trans bad.2) (by decide)

theorem shape_tested (shape : PrefixShape length p min max bs) :
    rangeShouldBePrefix min max = some p := by
  rw [rangeShouldBePrefix]
  cases shape with
  | octets c n size =>
    rw [zip_append rfl, zip_same, zip_fill, takeWhile_same,
      rdropWhile_fill _ (by decide), rdropWhile_same]
    have first : ((replicate n ((0x00 : UInt8), (0xFF : UInt8))).takeWhile
        fun p => p.1 == p.2) = [] := by
      cases n with
      | zero => rfl
      | succ n => rfl
    rw [first, append_nil, length_map]
    rw [if_neg (by omega), if_pos (by omega)]
  | bits c x bit n size low high clear =>
    obtain ⟨accepts, some_, partial_⟩ := prefixBit_lowMask low high
    have xor := clear_xor clear
    have differ : x ≠ x ||| lowMask bit := by
      intro same
      rw [← same, UInt8.xor_self] at xor
      exact some_ xor.symm
    have split : (c ++ x :: replicate n 0x00).zip
        (c ++ (x ||| lowMask bit) :: replicate n 0xFF) =
        (c.map (fun a => (a, a)) ++ [(x, x ||| lowMask bit)]) ++ replicate n (0x00, 0xFF) := by
      rw [zip_append rfl, zip_same, zip_cons_cons, zip_fill, append_assoc]
      rfl
    have stops : ¬ ((x == 0x00) && (x ||| lowMask bit) == 0xFF) = true := by
      intro bad
      rw [Bool.and_eq_true, beq_iff_eq, beq_iff_eq] at bad
      rw [bad.1, UInt8.zero_or] at bad
      exact partial_ bad.2
    have first : ((c ++ x :: replicate n 0x00).zip
        (c ++ (x ||| lowMask bit) :: replicate n 0xFF)).takeWhile (fun p => p.1 == p.2) =
        c.map fun a => (a, a) := by
      rw [split, append_assoc, takeWhile_same, cons_append, takeWhile_cons_of_neg, append_nil]
      rw [beq_iff_eq]
      exact differ
    have last : ((c ++ x :: replicate n 0x00).zip
        (c ++ (x ||| lowMask bit) :: replicate n 0xFF)).rdropWhile
          (fun p => p.1 == 0x00 && p.2 == 0xFF) =
        c.map (fun a => (a, a)) ++ [(x, x ||| lowMask bit)] := by
      rw [split, rdropWhile_fill _ (by decide), rdropWhile_concat_neg
        (fun p => p.1 == 0x00 && p.2 == 0xFF) _ (x, x ||| lowMask bit) stops]
    rw [first, last, length_map, length_append, length_map]
    dsimp only
    have x_is : (c ++ x :: replicate n 0x00).getD c.length 0 = x := by
      rw [getD_append_right _ _ _ _ (le_refl _), Nat.sub_self]
      rfl
    have y_is : (c ++ (x ||| lowMask bit) :: replicate n 0xFF).getD c.length 0 =
        x ||| lowMask bit := by
      rw [getD_append_right _ _ _ _ (le_refl _), Nat.sub_self]
      rfl
    rw [x_is, y_is, xor, accepts, if_neg (by simp), if_neg (by simp)]
    dsimp only
    rw [clear, or_and_self, if_neg (by simp)]

theorem mapLast_concat (f : UInt8 → UInt8) (c : List UInt8) (x : UInt8) :
    mapLast f (c ++ [x]) = c ++ [f x] := by
  induction c with
  | nil => rfl
  | cons a c ih =>
    cases c with
    | nil => rfl
    | cons b c => exact congrArg (a :: ·) ih

theorem expand_octets (size : c.length + n = length) (fill : UInt8) :
    addrExpand ⟨c, 0⟩ length fill = some (c ++ replicate n fill) := by
  have rest : length - c.length = n := by omega
  rw [addrExpand, if_neg (by dsimp only; omega)]
  dsimp only
  rw [if_neg (by decide), rest]

theorem expand_bits (x : UInt8) {b : Fin 8} (size : c.length + 1 + n = length)
    (some_ : b.val ≠ 0) (fill : UInt8) : addrExpand ⟨c ++ [x], b⟩ length fill = some (c ++
      (if fill = 0 then x &&& ~~~lowMask (8 - b.val) else x ||| lowMask (8 - b.val)) ::
        replicate n fill) := by
  have size' : (c ++ [x]).length = c.length + 1 := length_append
  have rest : length - (c ++ [x]).length = n := by omega
  rw [addrExpand, if_neg (by dsimp only; omega)]
  dsimp only
  rw [if_pos some_, mapLast_concat, rest, append_assoc]
  rfl

theorem bitLength_val {bit : Nat} (low : 1 ≤ bit) (high : bit ≤ 7) :
    (bitLength (8 - bit)).val = 8 - bit := mod_eq_of_lt (by omega)

theorem shape_extracts (shape : PrefixShape length p min max bs) :
    extractMinMax length (.addressPrefix bs) = some (min, max) := by
  cases shape with
  | octets c n size =>
    rw [extractMinMax, expand_octets size, expand_octets size]
    rfl
  | bits c x bit n size low high clear =>
    have val := bitLength_val low high
    have back : 8 - (8 - bit) = bit := by omega
    rw [extractMinMax, expand_bits x size (by omega), expand_bits x size (by omega), val, back,
      if_pos rfl, if_neg (by decide), clear_and_not clear]
    rfl

theorem shape_length (shape : PrefixShape length p min max bs) :
    min.length = length ∧ max.length = length ∧ p ≤ length * 8 := by
  have ends := extractMinMax_length (shape_extracts shape)
  refine ⟨ends.1, ends.2, ?_⟩
  cases shape with
  | octets c n size => omega
  | bits c x bit n size low high clear => omega

theorem makePrefix_octets (length : Nat) (is : a = c ++ rest) (fits : c.length ≤ length) :
    makeAddressPrefix a (c.length * 8 : Nat) length = some (.addressPrefix ⟨c, 0⟩) := by
  have bytes : (c.length * 8 + 7) / 8 = c.length := by omega
  have bits : c.length * 8 % 8 = 0 := mul_mod_left _ _
  rw [makeAddressPrefix, if_neg (by omega)]
  dsimp only
  rw [Int.toNat_natCast, bytes, bits, if_neg (lt_irrefl 0), is, take_left]
  rfl

theorem makePrefix_bits (length : Nat) {bit : Nat} (is : a = c ++ x :: rest) (low : 1 ≤ bit)
    (high : bit ≤ 7) (fits : c.length + 1 ≤ length) :
    makeAddressPrefix a (c.length * 8 + bit : Nat) length =
      some (.addressPrefix ⟨c ++ [x &&& ~~~lowMask bit], bitLength (8 - bit)⟩) := by
  have bytes : (c.length * 8 + bit + 7) / 8 = c.length + 1 := by omega
  have bits : (c.length * 8 + bit) % 8 = bit := by omega
  have front : a.take (c.length + 1) = c ++ [x] := by
    rw [is, take_length_add_append]
    rfl
  rw [makeAddressPrefix, if_neg (by omega)]
  dsimp only
  rw [Int.toNat_natCast, bytes, bits, if_pos (show 0 < bit from low), front, mapLast_concat]
  rfl

theorem shape_made (shape : PrefixShape length p min max bs) :
    makeAddressPrefix min p length = some (.addressPrefix bs) := by
  cases shape with
  | octets c n size => exact makePrefix_octets length rfl (by omega)
  | bits c x bit n size low high clear =>
    rw [makePrefix_bits length rfl low high (by omega), clear_and_not clear]

theorem makePrefix_shape {p : Int} (readable : (p.toNat + 7) / 8 ≤ a.length)
    (run : makeAddressPrefix a p length = some e) :
    ∃ min max bs, e = .addressPrefix bs ∧ PrefixShape length p.toNat min max bs := by
  have bounds : ¬ (p < 0 ∨ length * 8 < p) := by
    intro bad
    rw [makeAddressPrefix, if_pos bad] at run
    contradiction
  rw [not_or] at bounds
  have natural : (p.toNat : Int) = p := Int.toNat_of_nonneg (not_lt.mp bounds.1)
  by_cases whole : p.toNat % 8 = 0
  · have size : (a.take (p.toNat / 8)).length = p.toNat / 8 := length_take_of_le (by omega)
    have bits : (a.take (p.toNat / 8)).length * 8 = p.toNat := by omega
    have made := makePrefix_octets length (take_append_drop (p.toNat / 8) a).symm (by omega)
    have size' : (a.take (p.toNat / 8)).length + (length - p.toNat / 8) = length := by omega
    have shape := PrefixShape.octets (a.take (p.toNat / 8)) (length - p.toNat / 8) size'
    rw [bits, natural, run] at made
    rw [bits] at shape
    exact ⟨_, _, _, some.inj made, shape⟩
  · have size : (a.take (p.toNat / 8)).length = p.toNat / 8 := length_take_of_le (by omega)
    have more : 0 < (a.drop (p.toNat / 8)).length := by
      rw [length_drop]
      omega
    obtain ⟨x, rest, tail⟩ := exists_cons_of_length_pos more
    have split : a = a.take (p.toNat / 8) ++ x :: rest := by
      rw [← tail, take_append_drop]
    have bits : (a.take (p.toNat / 8)).length * 8 + p.toNat % 8 = p.toNat := by omega
    have low : 1 ≤ p.toNat % 8 := by omega
    have high : p.toNat % 8 ≤ 7 := by omega
    have size' : (a.take (p.toNat / 8)).length + 1 + (length - p.toNat / 8 - 1) = length := by
      omega
    have made := makePrefix_bits length split low high (by omega)
    have shape := PrefixShape.bits (a.take (p.toNat / 8)) (x &&& ~~~lowMask (p.toNat % 8))
      (p.toNat % 8) (length - p.toNat / 8 - 1) size' low high (and_not_clear x _)
    rw [bits, natural, run] at made
    rw [bits] at shape
    exact ⟨_, _, _, some.inj made, shape⟩

/-- The ends of any prefix are those of a prefix that can be made. -/
theorem prefix_shape (run : extractMinMax length (.addressPrefix bs) = some (min, max)) :
    ∃ p bs', PrefixShape length p min max bs' := by
  obtain ⟨data, b⟩ := bs
  have fits : data.length ≤ length := by
    by_contra long
    rw [extractMinMax, addrExpand, if_pos (Nat.lt_of_not_le long)] at run
    contradiction
  by_cases empty : data = []
  · have whole : ∀ fill, addrExpand ⟨data, b⟩ length fill =
        some ([] ++ replicate length fill) := by
      intro fill
      rw [empty, addrExpand, if_neg (by dsimp only; exact not_lt_zero _)]
      split_ifs <;> rfl
    rw [extractMinMax, whole, whole] at run
    obtain ⟨rfl, rfl⟩ := mk.inj (some.inj run)
    exact ⟨_, _, .octets [] length (zero_add _)⟩
  · by_cases none_ : b.val = 0
    · have zero : b = 0 := Fin.ext none_
      have size : data.length + (length - data.length) = length := by omega
      rw [extractMinMax, zero, expand_octets size, expand_octets size] at run
      obtain ⟨rfl, rfl⟩ := mk.inj (some.inj run)
      exact ⟨_, _, .octets data (length - data.length) size⟩
    · obtain ⟨c, x, split⟩ : ∃ c x, data = c ++ [x] := ⟨_, _, (dropLast_append_getLast empty).symm⟩
      rw [split, length_append] at fits
      have size : c.length + 1 + (length - c.length - 1) = length := by
        rw [length_singleton] at fits
        omega
      have shape := PrefixShape.bits c (x &&& ~~~lowMask (8 - b.val)) (8 - b.val)
        (length - c.length - 1) size (by omega) (by omega) (and_not_clear x _)
      rw [and_not_or] at shape
      rw [extractMinMax, split, expand_bits x size none_, expand_bits x size none_, if_pos rfl,
        if_neg (by decide)] at run
      obtain ⟨rfl, rfl⟩ := mk.inj (some.inj run)
      exact ⟨_, _, shape⟩

theorem rdropWhile_cons (p : α → Bool) {a : α} (fails : p a = false) (l : List α) :
    (a :: l).rdropWhile p = a :: l.rdropWhile p := by
  induction l using reverseRecOn with
  | nil => rw [rdropWhile_nil, rdropWhile_singleton, fails, if_neg Bool.false_ne_true]
  | append_singleton l b ih =>
    rw [← cons_append, rdropWhile_concat, rdropWhile_concat]
    by_cases passes : p b = true
    · rw [if_pos passes, if_pos passes, ih]
    · rw [if_neg passes, if_neg passes, cons_append]

theorem rdropWhile_split {p : α → Bool} {a : α} (only : ∀ b, p b = true → b = a) (l : List α) :
    ∃ n, l = l.rdropWhile p ++ replicate n a := by
  induction l using reverseRecOn with
  | nil => exact ⟨0, rfl⟩
  | append_singleton l b ih =>
    by_cases passes : p b = true
    · obtain ⟨n, split⟩ := ih
      apply Exists.intro (n + 1)
      rw [rdropWhile_concat_pos p l b passes, replicate_succ', ← append_assoc,
        ← split, only b passes]
    · apply Exists.intro 0
      rw [rdropWhile_concat_neg p l b passes, replicate_zero, append_nil]

/-- An octet in front, the same in both ends, is eight bits more. -/
theorem range_cons (a : UInt8) (min max : List UInt8) :
    rangeShouldBePrefix (a :: min) (a :: max) = (rangeShouldBePrefix min max).map (· + 8) := by
  have fails : ((a == 0x00) && (a == 0xFF)) = false := by
    by_contra passes
    rw [Bool.not_eq_false, Bool.and_eq_true, beq_iff_eq, beq_iff_eq] at passes
    exact absurd (passes.1.symm.trans passes.2) (by decide)
  have last := rdropWhile_cons (fun p : UInt8 × UInt8 => p.1 == 0x00 && p.2 == 0xFF)
    (a := (a, a)) fails (min.zip max)
  have first : ((a, a) :: min.zip max).takeWhile (fun p => p.1 == p.2) =
      (a, a) :: (min.zip max).takeWhile fun p => p.1 == p.2 :=
    takeWhile_cons_of_pos (beq_self_eq_true a)
  rw [rangeShouldBePrefix, rangeShouldBePrefix, zip_cons_cons, last, first]
  generalize ((min.zip max).takeWhile fun p => p.1 == p.2) = front
  generalize ((min.zip max).rdropWhile fun p => p.1 == 0x00 && p.2 == 0xFF) = back
  dsimp only
  rw [length_cons, length_cons, getD_cons_succ, getD_cons_succ]
  by_cases before : (front.length : Int) < back.length - 1
  · rw [if_pos before, if_pos (by omega)]
    rfl
  · rw [if_neg before, if_neg (by omega)]
    by_cases behind : (back.length : Int) - 1 < front.length
    · rw [if_pos behind, if_pos (by omega), map_some]
      congr 1
      omega
    · rw [if_neg behind, if_neg (by omega)]
      cases prefixBit (min.getD front.length 0 ^^^ max.getD front.length 0) with
      | none => rfl
      | some bit =>
        dsimp only
        split
        · rfl
        · rw [map_some]
          congr 1
          omega

theorem shape_cons (a : UInt8)
    (shape : PrefixShape length p min max bs) :
    PrefixShape (length + 1) (p + 8) (a :: min) (a :: max) ⟨a :: bs.data, bs.bitsLeft⟩ := by
  cases shape with
  | octets c n size =>
    have whole := PrefixShape.octets (a :: c) n (show (a :: c).length + n = length + 1 by
      rw [length_cons]
      omega)
    rw [length_cons, succ_mul] at whole
    exact whole
  | bits c x bit n size low high clear =>
    have whole := PrefixShape.bits (a :: c) x bit n
      (show (a :: c).length + 1 + n = length + 1 by
        rw [length_cons]
        omega) low high clear
    rw [length_cons, succ_mul, add_right_comm] at whole
    exact whole

theorem or_of_xor (is : x ^^^ y = m) (clear : x &&& m = 0) : y = x ||| m := by
  apply byte_ext
  intro i
  have bits := clear_bits clear i
  rw [← is, UInt8.toNat_xor, testBit_xor] at bits
  rw [← is, UInt8.toNat_or, UInt8.toNat_xor, testBit_or, testBit_xor]
  cases first : x.toNat.testBit i <;> cases second : y.toNat.testBit i <;> simp_all

theorem zip_filled (same : min.length = max.length)
    (is : min.zip max = replicate n (0x00, 0xFF)) :
    min = replicate n 0x00 ∧ max = replicate n 0xFF := by
  have front := congrArg (List.map fst) is
  have back := congrArg (List.map snd) is
  rw [map_fst_zip (le_of_eq same), map_replicate] at front
  rw [map_snd_zip (le_of_eq same.symm), map_replicate] at back
  exact ⟨front, back⟩

theorem tested_shape (sizeMin : min.length = length)
    (sizeMax : max.length = length) (test : rangeShouldBePrefix min max = some p) :
    ∃ bs, PrefixShape length p min max bs := by
  induction min generalizing max length p with
  | nil =>
    obtain rfl := length_eq_zero_iff.mp (sizeMax.trans sizeMin.symm)
    obtain rfl := some.inj test
    exact ⟨_, .octets [] 0 sizeMin⟩
  | cons a min ih =>
    cases max with
    | nil => exact nomatch sizeMin.trans sizeMax.symm
    | cons b max =>
      have sizes : min.length = max.length := Nat.succ.inj (sizeMin.trans sizeMax.symm)
      by_cases same : a = b
      · rw [← same, range_cons] at test
        obtain ⟨q, rest, is⟩ := map_eq_some_iff.mp test
        obtain ⟨bs, shape⟩ := ih rfl sizes.symm rest
        rw [← is, ← same, ← sizeMin]
        exact ⟨_, shape_cons a shape⟩
      · -- the ends differ in the first octet, so that all the others have to be filled
        have differ : (a == b) = false := beq_false_of_ne same
        rw [rangeShouldBePrefix] at test
        dsimp only at test
        obtain ⟨n, split⟩ := rdropWhile_split (a := ((0x00 : UInt8), (0xFF : UInt8)))
          (p := fun p => p.1 == 0x00 && p.2 == 0xFF) (by
            intro q passes
            rw [Bool.and_eq_true, beq_iff_eq, beq_iff_eq] at passes
            exact Prod.ext passes.1 passes.2) ((a :: min).zip (b :: max))
        rw [zip_cons_cons] at test split
        generalize ((a, b) :: min.zip max).rdropWhile
          (fun p => p.1 == 0x00 && p.2 == 0xFF) = front at test split
        rw [takeWhile_cons_of_neg (by rw [differ]; exact Bool.false_ne_true), length_nil] at test
        cases front with
        | nil =>
          rw [if_neg (by simp), if_pos (by simp)] at test
          obtain rfl := some.inj test
          have whole : (a :: min).length = (b :: max).length := sizeMin.trans sizeMax.symm
          obtain ⟨isMin, isMax⟩ := zip_filled whole split
          rw [isMin, isMax]
          rw [isMin, length_replicate] at sizeMin
          exact ⟨_, .octets [] n ((zero_add n).trans sizeMin)⟩
        | cons q front =>
          cases front with
          | cons r front =>
            rw [if_pos (by rw [length_cons, length_cons]; omega)] at test
            contradiction
          | nil =>
            obtain ⟨rfl, rest⟩ := List.cons.inj split
            obtain ⟨isMin, isMax⟩ := zip_filled sizes rest
            rw [if_neg (by simp), if_neg (by simp)] at test
            rw [getD_cons_zero, getD_cons_zero] at test
            cases accepts : prefixBit (a ^^^ b) with
            | none =>
              rw [accepts] at test
              contradiction
            | some bit =>
              rw [accepts] at test
              dsimp only at test
              obtain ⟨low, high, mask⟩ := prefixBit_mask accepts
              by_cases bad : a &&& (a ^^^ b) ≠ 0 ∨ b &&& (a ^^^ b) ≠ a ^^^ b
              · rw [if_pos bad] at test
                contradiction
              · rw [if_neg bad] at test
                obtain rfl := some.inj test
                have clear := not_not.mp (mt .inl bad)
                rw [mask] at clear
                have top := or_of_xor mask clear
                rw [isMin, isMax, top]
                rw [isMin, length_cons, length_replicate] at sizeMin
                have size : ([] : List UInt8).length + 1 + n = length := by
                  rw [length_nil]
                  omega
                exact ⟨_, .bits [] a bit n size low high clear⟩

theorem shiftRounds_stops (test : Nat → Bool) (rounds j : Nat) :
    j ≤ shiftRounds test rounds j ∧ shiftRounds test rounds j ≤ j + rounds ∧
      (shiftRounds test rounds j < j + rounds → test (shiftRounds test rounds j) = true) := by
  induction rounds generalizing j with
  | zero => exact ⟨le_refl j, le_refl j, fun bad => absurd bad (lt_irrefl j)⟩
  | succ rounds ih =>
    rw [shiftRounds]
    by_cases passes : test j = true
    · rw [if_pos passes]
      exact ⟨le_refl j, le_add_right j _, fun _ => passes⟩
    · rw [if_neg passes]
      obtain ⟨after, within, stops⟩ := ih (j + 1)
      exact ⟨by omega, by omega, fun less => stops (by omega)⟩

theorem lowMask_toNat {j : Nat} (low : 1 ≤ j) (high : j ≤ 7) :
    (lowMask j).toNat = 0xFF >>> j := by
  have one : j = 1 ∨ j = 2 ∨ j = 3 ∨ j = 4 ∨ j = 5 ∨ j = 6 ∨ j = 7 := by omega
  rcases one with rfl | rfl | rfl | rfl | rfl | rfl | rfl <;> decide

theorem shift_masks {test : Nat → Bool} :
    let k := bitLength (8 - shiftRounds test 7 1)
    k.val = 0 ∨ k.val ≠ 0 ∧ test (8 - k.val) = true ∧
      (lowMask (8 - k.val)).toNat = 0xFF >>> (8 - k.val) := by
  obtain ⟨low, high, stops⟩ := shiftRounds_stops test 7 1
  generalize shiftRounds test 7 1 = j at low high stops
  intro k
  by_cases last : j = 8
  · exact .inl (by simp only [k, last]; rfl)
  · have below : j ≤ 7 := by omega
    simp only [k]
    rw [bitLength_val low below, Nat.sub_sub_self (by omega)]
    exact .inr ⟨by omega, stops (by omega), lowMask_toNat low below⟩

theorem or_of_and (is : x &&& m = m) : x ||| m = x := by
  apply byte_ext
  intro i
  have zero := congrArg (fun b : UInt8 => b.toNat.testBit i) is
  rw [UInt8.toNat_and, testBit_and] at zero
  rw [UInt8.toNat_or, testBit_or]
  cases first : x.toNat.testBit i <;> cases second : m.toNat.testBit i <;> simp_all

theorem trimmed_expands {l : List UInt8} {fill : UInt8} {bits : UInt8 → Fin 8}
    (size : l.length = length) (kept : ∀ x, (bits x).val = 0 ∨ (bits x).val ≠ 0 ∧
      (if fill = 0 then x &&& ~~~lowMask (8 - (bits x).val)
        else x ||| lowMask (8 - (bits x).val)) = x) :
    addrExpand ⟨l.rdropWhile (· == fill), ((l.rdropWhile (· == fill)).getLast?.map bits).getD 0⟩
      length fill = some l := by
  obtain ⟨n, split⟩ := rdropWhile_split (fun (b : UInt8) passes => beq_iff_eq.mp passes) l
  generalize l.rdropWhile (· == fill) = data at split
  rw [split, length_append, length_replicate] at size
  rw [split]
  induction data using reverseRecOn with
  | nil => exact expand_octets size fill
  | append_singleton c x ih =>
    rw [getLast?_concat, map_some, getD_some]
    rcases kept x with zero | ⟨some_, same⟩
    · rw [(Fin.ext zero : bits x = 0)]
      exact expand_octets size fill
    · rw [length_append, length_singleton] at size
      rw [expand_bits x size some_, same, append_assoc]
      rfl

theorem makeMin_expands (size : min.length = length) :
    addrExpand (makeMin min) length 0x00 = some min := by
  refine trimmed_expands size fun x => shift_masks.imp_right ?_
  rintro ⟨some_, clear, mask⟩
  rw [beq_iff_eq, ← mask, ← UInt8.toNat_and] at clear
  exact ⟨some_, clear_and_not (UInt8.toNat_inj.mp clear)⟩

theorem makeMax_expands (size : max.length = length) :
    addrExpand (makeMax max) length 0xFF = some max := by
  refine trimmed_expands size fun x => shift_masks.imp_right ?_
  rintro ⟨some_, ones, mask⟩
  rw [beq_iff_eq, ← mask, ← UInt8.toNat_and] at ones
  exact ⟨some_, or_of_and (UInt8.toNat_inj.mp ones)⟩

/-- An entry that has bounds in order and is what its bounds make. -/
def Normal (length : Nat) (e : IPAddressOrRange) : Prop :=
  ∃ min max, extractMinMax length e = some (min, max) ∧ netValue min ≤ netValue max ∧
    makeAddressRange min max length = some e

theorem shape_normal (shape : PrefixShape length p min max bs) :
    Normal length (.addressPrefix bs) := by
  have ends := shape_extracts shape
  obtain ⟨sizeMin, sizeMax, _⟩ := shape_length shape
  have order := prefix_valid ends
  refine ⟨min, max, ends, order, ?_⟩
  have fits := mt (memcmp_value (sizeMin.trans sizeMax.symm)).2.mp (not_lt.mpr order)
  rw [makeAddressRange, take_of_length_le (le_of_eq sizeMin), take_of_length_le (le_of_eq sizeMax)]
  rw [if_neg fits, shape_tested shape]
  exact shape_made shape

/-- Bounds in order make an entry that has them. -/
theorem makeRange_spec (sizeMin : min.length = length)
    (sizeMax : max.length = length) (order : netValue min ≤ netValue max) :
    ∃ e, makeAddressRange min max length = some e ∧
      extractMinMax length e = some (min, max) ∧ Normal length e := by
  have fits := mt (memcmp_value (sizeMin.trans sizeMax.symm)).2.mp (not_lt.mpr order)
  cases test : rangeShouldBePrefix min max with
  | some p =>
    obtain ⟨bs, shape⟩ := tested_shape sizeMin sizeMax test
    refine ⟨.addressPrefix bs, ?_, shape_extracts shape, shape_normal shape⟩
    rw [makeAddressRange, take_of_length_le (le_of_eq sizeMin),
      take_of_length_le (le_of_eq sizeMax)]
    rw [if_neg fits, test]
    exact shape_made shape
  | none =>
    have made : makeAddressRange min max length =
        some (.addressRange (makeMin min) (makeMax max)) := by
      rw [makeAddressRange, take_of_length_le (le_of_eq sizeMin),
        take_of_length_le (le_of_eq sizeMax)]
      rw [if_neg fits, test]
    have ends : extractMinMax length (.addressRange (makeMin min) (makeMax max)) =
        some (min, max) := by
      rw [extractMinMax, makeMin_expands sizeMin, makeMax_expands sizeMax]
      rfl
    exact ⟨_, made, ends, min, max, ends, order, made⟩

theorem makeRange_normal (readMin : length ≤ min.length)
    (readMax : length ≤ max.length) (run : makeAddressRange min max length = some e) :
    Normal length e := by
  have sizeMin : (min.take length).length = length := length_take_of_le readMin
  have sizeMax : (max.take length).length = length := length_take_of_le readMax
  have again : makeAddressRange (min.take length) (max.take length) length = some e := by
    rw [makeAddressRange] at run ⊢
    rw [take_take, take_take, min_self]
    exact run
  have order : netValue (min.take length) ≤ netValue (max.take length) := by
    by_contra late
    rw [not_le] at late
    have stop := (memcmp_value (sizeMin.trans sizeMax.symm)).2.mpr late
    rw [makeAddressRange] at run
    rw [if_pos stop] at run
    contradiction
  obtain ⟨e', made, _, normal⟩ := makeRange_spec sizeMin sizeMax order
  rw [again] at made
  rw [some.inj made]
  exact normal

theorem makePrefix_normal {p : Int} (readable : (p.toNat + 7) / 8 ≤ a.length)
    (run : makeAddressPrefix a p length = some e) : Normal length e := by
  obtain ⟨min, max, bs, is, shape⟩ := makePrefix_shape readable run
  rw [is]
  exact shape_normal shape

def wholeSpace : IPAddressOrRange := .addressPrefix ⟨[], 0⟩

theorem wholeSpace_extracts (length : Nat) : extractMinMax length wholeSpace =
    some (replicate length 0x00, replicate length 0xFF) :=
  shape_extracts (.octets [] length (zero_add length))

theorem wholeSpace_normal (length : Nat) : Normal length wholeSpace :=
  shape_normal (.octets [] length (zero_add length))

theorem normal_empty (normal : Normal 0 e) : e = wholeSpace := by
  obtain ⟨min, max, ends, _, made⟩ := normal
  obtain ⟨sizeMin, sizeMax⟩ := extractMinMax_length ends
  obtain rfl := length_eq_zero_iff.mp sizeMin
  obtain rfl := length_eq_zero_iff.mp sizeMax
  exact (some.inj made).symm

theorem normal_range (normal : Normal length e) (range : isRange e = true)
    (ends : extractMinMax length e = some (min, max)) :
    rangeShouldBePrefix min max = none := by
  obtain ⟨min', max', ends', order, made⟩ := normal
  rw [ends] at ends'
  obtain ⟨rfl, rfl⟩ := mk.inj (some.inj ends')
  obtain ⟨sizeMin, sizeMax⟩ := extractMinMax_length ends
  cases test : rangeShouldBePrefix min max with
  | none => rfl
  | some p =>
    obtain ⟨bs, shape⟩ := tested_shape sizeMin sizeMax test
    obtain ⟨_, _, _, _, prefixMade⟩ := shape_normal shape
    rename_i _ _ prefixEnds _
    rw [shape_extracts shape] at prefixEnds
    obtain ⟨rfl, rfl⟩ := mk.inj (some.inj prefixEnds)
    rw [made] at prefixMade
    rw [some.inj prefixMade] at range
    contradiction

end Ossl
