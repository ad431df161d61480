import OpenSSL.Asn1.Object

/- The text of an object identifier is what a2d_ASN1_OBJECT turns back into its contents. -/
namespace Ossl
open List Option Base128 BigEndian Decimal RingWindow

def oidContents (vals : List Nat) : List UInt8 := vals.flatMap Base128.encode

def dotted (v : Nat) : List UInt8 := dot :: decimal v

def oidText : List Nat → List UInt8
  | [] => []
  | v :: vals => digit (min 2 (v / 40)) :: ((v - 40 * min 2 (v / 40)) :: vals).flatMap dotted

variable {acc bl d first fuel l v : Nat} {arc : A2dArc} {olen : Option Nat} {c : UInt8}
    {vals : List Nat} {made p : List UInt8} {useBn : Bool}

theorem digits_encode (pos : 0 < v) :
    tmpOctets ((Nat.digits 128 v).map UInt8.ofNat) = Base128.encode v := by
  have tagged : ∀ d ∈ Nat.digits 128 (v / 128), UInt8.ofNat d ||| 0x80 = UInt8.ofNat (d + 128) := by
    intro d inside
    have small : d < 2 ^ 7 := Nat.digits_lt_base (by decide) inside
    apply UInt8.toNat_inj.mp
    have bit := shifted_or small 1
    rw [show (1 <<< 7 : Nat) = 128 from rfl, one_mul] at bit
    rw [UInt8.toNat_or, octet_last small, octet_more small, Nat.lor_comm]
    show 128 ||| d = d + 128
    omega
  rw [Nat.digits_def' (by decide) pos, map_cons, tmpOctets, tail_cons, headD_cons,
    Base128.encode, more, ← map_reverse, List.map_map]
  congr 1
  apply map_congr_left
  intro d inside
  exact tagged d (mem_reverse.mp inside)

theorem wordTmp_eq (enough : l < 128 ^ fuel) (pos : 0 < l) :
    wordTmp fuel l = (Nat.digits 128 l).map UInt8.ofNat := by
  induction fuel generalizing l with
  | zero => omega
  | succ fuel ih =>
    have low : l &&& 0x7f = l % 128 := Nat.and_two_pow_sub_one_eq_mod l 7
    have high : l >>> 7 = l / 128 := Nat.shiftRight_eq_div_pow l 7
    rw [wordTmp, low, high, Nat.digits_def' (by decide) pos, map_cons]
    congr 1
    by_cases last : l / 128 = 0
    · rw [if_pos last, last]
      rfl
    · have smaller : l / 128 < 128 ^ fuel := by
        apply Nat.div_lt_of_lt_mul
        rw [mul_comm, ← pow_succ]
        exact enough
      rw [if_neg last, ih smaller (by omega)]

theorem word_octets (word : l < 2 ^ 64) : tmpOctets (wordTmp wordDigits l) = Base128.encode l := by
  by_cases zero : l = 0
  · rw [zero]
    rfl
  · rw [wordTmp_eq (word.trans (by decide)) (by omega), digits_encode (by omega)]

theorem bnTmp_eq (n bl : Nat) (same : (Nat.digits 128 bl).length = n) :
    bnTmp n bl = (Nat.digits 128 bl).map UInt8.ofNat := by
  induction n generalizing bl with
  | zero =>
    rw [length_eq_zero_iff.mp same]
    rfl
  | succ n ih =>
    have pos : 0 < bl := by
      apply pos_of_ne_zero
      intro zero
      rw [zero] at same
      contradiction
    rw [Nat.digits_def' (by decide) pos, length_cons] at same
    rw [bnTmp, ih _ (Nat.succ.inj same), Nat.digits_def' (by decide) pos, map_cons]

theorem size_digits (pos : 0 < v) : (v.size + 6) / 7 = (Nat.digits 128 v).length := by
  have below : v < 2 ^ (7 * (Nat.digits 128 v).length) := by
    rw [pow_mul]
    exact Nat.lt_base_pow_length_digits (by decide)
  have above := Nat.base_pow_length_digits_le 128 v (by decide) pos.ne'
  have some : 0 < (Nat.digits 128 v).length := by
    apply length_pos_iff.mpr
    exact Nat.digits_ne_nil_iff_ne_zero.mpr pos.ne'
  have most := Nat.size_le.mpr below
  obtain ⟨k, counted⟩ := Nat.exists_eq_succ_of_ne_zero some.ne'
  rw [counted, pow_succ, mul_comm] at above
  have least : 2 ^ (7 * k) ≤ v := by
    rw [pow_mul]
    exact Nat.le_of_mul_le_mul_left above (by decide)
  have more := Nat.lt_size.mpr least
  omega

theorem bn_octets (pos : 0 < bl) :
    tmpOctets (bnTmp ((bl.size + 6) / 7) bl) = Base128.encode bl := by
  rw [bnTmp_eq _ bl (size_digits pos).symm, digits_encode pos]

def A2dValue (v : Nat) (arc : A2dArc) : Prop :=
  arc.useBn = false ∧ arc.l = v ∧ v / 10 < (maxU64 - 80) / 10 ∨
    arc.useBn = true ∧ arc.bl = v ∧ (maxU64 - 80) / 10 ≤ arc.l ∧ arc.l ≤ v

theorem a2dDigit_value (value : A2dValue v arc) (small : d < 10) :
    A2dValue (v * 10 + d) (a2dDigit arc (digit d)) := by
  have top : maxU64 = 2 ^ 64 - 1 := rfl
  have digit_ : (digit d).toNat - 48 = d := by
    rw [digit_toNat small]
    omega
  unfold a2dDigit
  rw [digit_]
  cases value with
  | inl word =>
    obtain ⟨plain, is, bound⟩ := word
    by_cases large : (maxU64 - 80) / 10 ≤ arc.l
    · right
      simp only [plain, decide_eq_true large, Bool.not_false, Bool.true_and, Bool.or_true, if_true]
      rw [is] at large ⊢
      exact ⟨trivial, rfl, large, by omega⟩
    · left
      simp only [plain, decide_eq_false large, Bool.and_false, Bool.or_false, if_neg Bool.false_ne_true]
      have product : mulU64 arc.l 10 = v * 10 := by
        rw [mulU64, is, Nat.mod_eq_of_lt (by omega)]
      rw [product, addU64_exact (by omega)]
      exact ⟨trivial, rfl, by omega⟩
  | inr big =>
    obtain ⟨used, is, large, le⟩ := big
    right
    simp only [used, Bool.not_true, Bool.false_and, Bool.true_or, if_true, if_neg Bool.false_ne_true]
    exact ⟨trivial, by rw [is], large, by omega⟩

theorem separator_digit (small : d < 10) :
    ¬ (digit d = space ∨ digit d = dot) ∧ osslIsdigit (digit d) = true := by
  have is := digit_toNat small
  constructor
  · intro either
    cases either with
    | inl same =>
      rw [same] at is
      have : space.toNat = 32 := rfl
      omega
    | inr same =>
      rw [same] at is
      have : dot.toNat = 46 := rfl
      omega
  · rw [osslIsdigit]
    exact decide_eq_true (by omega)

theorem arcRounds_digit (small : d < 10) (p : List UInt8) (arc : A2dArc) :
    a2dArcRounds (digit d :: p) arc = a2dArcRounds p (a2dDigit arc (digit d)) := by
  obtain ⟨separates, isDigit⟩ := separator_digit small
  rw [a2dArcRounds, if_neg separates, if_neg (by simp [isDigit])]

theorem start_value (c : UInt8) : A2dValue 0 ⟨0, false, 0, c⟩ := .inl ⟨rfl, rfl, by decide⟩

theorem arcRounds_decimal (v : Nat) (c : UInt8) (vals : List Nat) :
    ∃ arc, A2dValue v arc ∧ (vals ≠ [] → arc.c = dot) ∧
      a2dArcRounds (decimal v ++ vals.flatMap dotted) ⟨0, false, 0, c⟩ =
        some (arc, (vals.flatMap dotted).tail) := by
  obtain ⟨arc, same, value⟩ := read_decimal a2dArcRounds A2dValue
    (fun d small v arc rest value => ⟨_, arcRounds_digit small rest arc, a2dDigit_value value small⟩)
    v (start_value c) (vals.flatMap dotted)
  rw [same]
  cases vals with
  | nil => exact ⟨arc, value, fun some => absurd rfl some, rfl⟩
  | cons w vals => exact ⟨{ arc with c := dot }, value, fun _ => rfl, rfl⟩

theorem a2dTmp_octets (word : arc.useBn = false → arc.l = v ∧ v < 2 ^ 64)
    (big : arc.useBn = true → arc.bl = v ∧ 0 < v) : tmpOctets (a2dTmp arc) = Base128.encode v := by
  rw [a2dTmp]
  cases kind : arc.useBn with
  | false =>
    obtain ⟨is, bound⟩ := word kind
    rw [if_neg Bool.false_ne_true, is, word_octets bound]
  | true =>
    obtain ⟨is, pos⟩ := big kind
    rw [if_pos rfl, is, bn_octets pos]

theorem value_octets (value : A2dValue v arc) : tmpOctets (a2dTmp arc) = Base128.encode v := by
  have top : maxU64 = 2 ^ 64 - 1 := rfl
  apply a2dTmp_octets
  · intro plain
    cases value with
    | inl word => exact ⟨word.2.1, by omega⟩
    | inr big => rw [plain] at big; exact absurd big.1 Bool.false_ne_true
  · intro used
    cases value with
    | inl word => rw [used] at word; exact absurd word.1.symm Bool.false_ne_true
    | inr big => exact ⟨big.2.1, by omega⟩

theorem first_octets (value : A2dValue v arc) (two : first ≤ 2) :
    tmpOctets (a2dTmp (a2dFirst first arc)) = Base128.encode (v + first * 40) := by
  have top : maxU64 = 2 ^ 64 - 1 := rfl
  cases value with
  | inl word =>
    obtain ⟨plain, is, bound⟩ := word
    have sum : addU64 arc.l (first * 40) = v + first * 40 := by
      rw [is]
      exact addU64_exact (by omega)
    apply a2dTmp_octets
    · intro _
      rw [a2dFirst, if_neg (by simp [plain])]
      exact ⟨sum, by omega⟩
    · intro used
      rw [a2dFirst, if_neg (by simp [plain])] at used
      exact absurd (plain.symm.trans used) Bool.false_ne_true
  | inr big =>
    obtain ⟨used, is, large, le⟩ := big
    apply a2dTmp_octets
    · intro plain
      rw [a2dFirst, if_pos used] at plain
      exact absurd (plain.symm.trans used) Bool.false_ne_true
    · intro _
      rw [a2dFirst, if_pos used]
      exact ⟨by rw [is], by omega⟩

theorem tmp_length (tmp : List UInt8) : tmp.length ≤ (tmpOctets tmp).length := by
  rw [tmpOctets, length_append, length_map, length_reverse, length_tail, length_singleton]
  omega

theorem encode_ne_nil (v : Nat) : Base128.encode v ≠ [] := by
  rw [Base128.encode]
  simp

/-- The text of the arcs after the first is turned into their contents. -/
theorem a2dRounds_text {out : List UInt8} (started : out ≠ []) (sep : vals ≠ [] → c = dot)
    (enough : (vals.flatMap dotted).tail.length ≤ fuel)
    (room : ∀ n ∈ olen, out.length + (oidContents vals).length ≤ n) :
    a2dRounds olen first fuel c (vals.flatMap dotted).tail out =
      some (out ++ oidContents vals) := by
  induction vals generalizing fuel c out with
  | nil =>
    have nothing : oidContents [] = [] := rfl
    rw [nothing, append_nil]
    cases fuel <;> rfl
  | cons v vals ih =>
    have text : ((v :: vals).flatMap dotted).tail = decimal v ++ vals.flatMap dotted := rfl
    have some_ : decimal v ++ vals.flatMap dotted ≠ [] := by
      intro empty
      exact decimal_ne_nil v (append_eq_nil_iff.mp empty).1
    rw [text] at enough ⊢
    cases fuel with
    | zero => exact absurd (length_eq_zero_iff.mp (Nat.le_zero.mp enough)) some_
    | succ fuel =>
      obtain ⟨arc, value, next, read⟩ := arcRounds_decimal v c vals
      have octets := value_octets value
      have contents : oidContents (v :: vals) = Base128.encode v ++ oidContents vals := rfl
      rw [contents, length_append] at room
      have length := tmp_length (a2dTmp arc)
      rw [octets] at length
      have fits : ¬ ∃ n ∈ olen, n < out.length + (a2dTmp arc).length := by
        intro full
        obtain ⟨n, member, less⟩ := full
        have := room n member
        omega
      rw [a2dRounds, if_neg some_, if_neg (by rw [sep (cons_ne_nil _ _)]; simp), read]
      simp only [if_neg started]
      rw [if_neg (by simp [started]), if_neg fits, octets,
        ih (by simp [started]) next ?_ ?_, contents, append_assoc]
      · rw [length_append] at enough
        rw [length_tail]
        omega
      · intro n member
        have := room n member
        rw [length_append]
        omega

theorem a2dText_text (room : ∀ n ∈ olen, (oidContents (v :: vals)).length ≤ n) :
    a2dText olen (oidText (v :: vals)) = some (oidContents (v :: vals)) := by
  have two : min 2 (v / 40) ≤ 2 := min_le_left _ _
  generalize which : min 2 (v / 40) = i at two
  have text : oidText (v :: vals) =
      digit i :: dot :: (decimal (v - 40 * i) ++ vals.flatMap dotted) := by
    rw [oidText, which]
    rfl
  have first : (digit i).toNat = 48 + i := digit_toNat (by omega)
  have some_ : decimal (v - 40 * i) ++ vals.flatMap dotted ≠ [] := by
    intro empty
    exact decimal_ne_nil _ (append_eq_nil_iff.mp empty).1
  rw [text, a2dText, if_neg (by rw [first]; omega), first, Nat.add_sub_cancel_left]
  cases size : (decimal (v - 40 * i) ++ vals.flatMap dotted).length with
  | zero => exact absurd (length_eq_zero_iff.mp size) some_
  | succ fuel =>
    obtain ⟨arc, value, next, read⟩ := arcRounds_decimal (v - 40 * i) dot vals
    have octets := first_octets value two
    have whole : v - 40 * i + i * 40 = v := by omega
    rw [whole] at octets
    have contents : oidContents (v :: vals) = Base128.encode v ++ oidContents vals := rfl
    rw [contents, length_append] at room
    have length := tmp_length (a2dTmp (a2dFirst i arc))
    rw [octets] at length
    have fits : ¬ ∃ n ∈ olen, n < ([] : List UInt8).length + (a2dTmp (a2dFirst i arc)).length := by
      intro full
      obtain ⟨n, member, less⟩ := full
      have := room n member
      rw [length_nil, zero_add] at less
      omega
    have low : ¬ (([] : List UInt8) = [] ∧ i < 2 ∧ 40 ≤ arc.l) := by
      intro beyond
      cases value with
      | inl word => omega
      | inr big => omega
    rw [a2dRounds, if_neg some_, if_neg (by simp), read]
    dsimp only
    rw [if_neg low, if_pos rfl, if_neg fits, octets, nil_append]
    apply a2dRounds_text (encode_ne_nil v) next
    · rw [length_append] at size
      rw [length_tail]
      omega
    · exact room

theorem decimal_length (v : Nat) : (decimal v).length ≤ 3 * (Base128.encode v).length := by
  by_cases zero : v = 0
  · rw [zero]
    decide
  · rw [encode_length (by omega), decimal, if_neg zero, leading, length_map, length_reverse]
    apply (Nat.digits_length_le_iff (by decide) v).mpr
    calc v < 128 ^ (Nat.digits 128 v).length := Nat.lt_base_pow_length_digits (by decide)
      _ ≤ (10 ^ 3) ^ (Nat.digits 128 v).length := Nat.pow_le_pow_left (by decide) _
      _ = 10 ^ (3 * (Nat.digits 128 v).length) := (pow_mul 10 3 _).symm

theorem dotted_length (vals : List Nat) :
    (vals.flatMap dotted).length ≤ 4 * (oidContents vals).length := by
  induction vals with
  | nil => exact le_refl _
  | cons v vals ih =>
    have text : (v :: vals).flatMap dotted = dot :: (decimal v ++ vals.flatMap dotted) := rfl
    have contents : oidContents (v :: vals) = Base128.encode v ++ oidContents vals := rfl
    have bound := decimal_length v
    have some := length_pos_iff.mpr (encode_ne_nil v)
    rw [text, contents, length_cons, length_append, length_append]
    omega

theorem encode_mono {w : Nat} (le : v ≤ w) :
    (Base128.encode v).length ≤ (Base128.encode w).length := by
  by_cases zero : v = 0
  · rw [zero]
    exact length_pos_iff.mpr (encode_ne_nil w)
  · rw [encode_length (by omega), encode_length (by omega)]
    exact (Nat.digits_length_le_iff (by decide) v).mpr
      (le.trans_lt (Nat.lt_base_pow_length_digits (by decide)))

theorem text_length (vals : List Nat) :
    (oidText vals).length ≤ 1 + 4 * (oidContents vals).length := by
  cases vals with
  | nil => decide
  | cons v vals =>
    have rest := dotted_length vals
    have bound := decimal_length (v - 40 * min 2 (v / 40))
    have smaller := encode_mono (Nat.sub_le v (40 * min 2 (v / 40)))
    have some := length_pos_iff.mpr (encode_ne_nil v)
    have text : ((v - 40 * min 2 (v / 40)) :: vals).flatMap dotted =
        dot :: (decimal (v - 40 * min 2 (v / 40)) ++ vals.flatMap dotted) := rfl
    have contents : oidContents (v :: vals) = Base128.encode v ++ oidContents vals := rfl
    rw [oidText, text, contents, length_cons, length_cons, length_append, length_append]
    omega

theorem mem_text (member : c ∈ oidText vals) : c ≠ 0 := by
  have digit_ : ∀ d < 10, digit d ≠ 0 := by decide
  have within : ∀ ws : List Nat, ∀ x ∈ ws.flatMap dotted, x ≠ 0 := by
    intro ws x inside
    obtain ⟨w, _, here⟩ := mem_flatMap.mp inside
    cases mem_cons.mp here with
    | inl is =>
      rw [is]
      decide
    | inr numeral =>
      obtain ⟨d, small, rfl⟩ := mem_decimal numeral
      exact digit_ d small
  cases vals with
  | nil => contradiction
  | cons v vals =>
    cases mem_cons.mp member with
    | inl is =>
      rw [is]
      exact digit_ _ (by omega)
    | inr rest => exact within _ c rest

theorem text_cString (vals : List Nat) (rest : List UInt8) :
    cString (oidText vals ++ 0 :: rest) = oidText vals := by
  rw [cString, takeWhile_append_of_pos]
  · simp
  · intro c member
    exact decide_eq_true (mem_text member)

def LastClear (contents : List UInt8) : Prop := follows (contents.getLastD 0) = false

theorem clear_iff (octet : UInt8) : octet.toNat &&& 0x80 = 0 ↔ follows octet = false := by
  have mask := (octet_masks octet).1
  rw [← Bool.not_eq_true, ← mask, ne_eq, not_not]

theorem scan_cons (start : Bool) (c : UInt8) (p : List UInt8) :
    c2iScan start (c :: p) = true ↔
      ¬ (c = 0x80 ∧ start = true) ∧ c2iScan (!follows c) p = true := by
  have goes : (c.toNat &&& 0x80 == 0) = !follows c := by
    cases more : follows c with
    | false => exact beq_iff_eq.mpr ((clear_iff c).mpr more)
    | true => exact beq_eq_false_iff_ne.mpr ((octet_masks c).1.mpr more)
  rw [c2iScan, goes]
  split_ifs with bad
  · simp [bad]
  · exact (and_iff_right bad).symm

theorem scan_more (pos : 0 < v) (rest : List UInt8) :
    c2iScan true (more v ++ rest) = true ↔ c2iScan false rest = true := by
  induction v using Nat.strongRecOn generalizing rest with
  | ind v ih =>
    have low : v % 128 < 128 := Nat.mod_lt _ (by decide)
    have octet := octet_more low
    rw [more_pos pos, append_assoc, singleton_append]
    by_cases first : v / 128 = 0
    · have some : UInt8.ofNat (v % 128 + 128) ≠ 0x80 := by
        intro same
        rw [same] at octet
        have : (0x80 : UInt8).toNat = 128 := rfl
        omega
      rw [first, more_zero, nil_append, scan_cons, follows_more low]
      exact and_iff_right fun bad => some bad.1
    · rw [ih (v / 128) (by omega) (by omega), scan_cons, follows_more low]
      exact and_iff_right fun bad => Bool.false_ne_true bad.2

theorem scan_encode (v : Nat) (rest : List UInt8) :
    c2iScan true (Base128.encode v ++ rest) = true ↔ c2iScan true rest = true := by
  have low : v % 128 < 128 := Nat.mod_lt _ (by decide)
  have last := follows_last low
  have least : UInt8.ofNat (v % 128) ≠ 0x80 := by
    intro same
    rw [same] at last
    contradiction
  rw [Base128.encode, append_assoc, singleton_append]
  by_cases first : v / 128 = 0
  · rw [first, more_zero, nil_append, scan_cons, last]
    exact and_iff_right fun bad => least bad.1
  · rw [scan_more (by omega), scan_cons, last]
    exact and_iff_right fun bad => least bad.1

theorem scan_contents (vals : List Nat) : c2iScan true (oidContents vals) = true := by
  induction vals with
  | nil => rfl
  | cons v vals ih => exact (scan_encode v (oidContents vals)).mpr ih

theorem last_append (p : List UInt8) {q : List UInt8} (some : q ≠ []) :
    (p ++ q).getLastD 0 = q.getLastD 0 := by
  rw [getLastD_eq_getLast?, getLastD_eq_getLast?, getLast?_append_of_ne_nil _ some]

theorem contents_clear (vals : List Nat) : LastClear (oidContents vals) := by
  induction vals with
  | nil => rfl
  | cons v vals ih =>
    have contents : oidContents (v :: vals) = Base128.encode v ++ oidContents vals := rfl
    rw [LastClear, contents]
    cases vals with
    | nil =>
      have none : oidContents [] = [] := rfl
      rw [none, append_nil, Base128.encode, last_append _ (cons_ne_nil _ _)]
      exact follows_last (Nat.mod_lt _ (by decide))
    | cons w vals =>
      have some : oidContents (w :: vals) ≠ [] := by
        intro empty
        exact encode_ne_nil w (append_eq_nil_iff.mp empty).1
      rw [last_append _ some]
      exact ih

theorem arcRounds_sound {arc' : A2dArc} {p' : List UInt8} (value : A2dValue v arc)
    (read : a2dArcRounds p arc = some (arc', p')) :
    ∃ v' k, A2dValue v' arc' ∧ v' < (v + 1) * 10 ^ k ∧ p'.length + k ≤ p.length ∧
      (p ≠ [] → p'.length < p.length) := by
  induction p generalizing v arc with
  | nil =>
    cases read
    exact ⟨v, 0, value, by omega, le_refl _, fun some => absurd rfl some⟩
  | cons c p ih =>
    rw [a2dArcRounds] at read
    split_ifs at read with separates other
    · cases read
      exact ⟨v, 0, value, by omega, Nat.le_succ _, fun _ => Nat.lt_succ_self _⟩
    · have numeral : 48 ≤ c.toNat ∧ c.toNat ≤ 57 := by
        have is := Bool.not_eq_false _ ▸ other
        exact of_decide_eq_true is
      obtain ⟨same, small⟩ := digit_of numeral.1 numeral.2
      rw [same] at read
      obtain ⟨v', k, value', bound, shorter, _⟩ := ih (a2dDigit_value value small) read
      refine ⟨v', k + 1, value', ?_, ?_, ?_⟩
      · calc v' < (v * 10 + (c.toNat - 48) + 1) * 10 ^ k := bound
          _ ≤ ((v + 1) * 10) * 10 ^ k := Nat.mul_le_mul_right _ (by omega)
          _ = (v + 1) * 10 ^ (k + 1) := by rw [mul_assoc, ← pow_succ']
      · rw [length_cons]
        omega
      · intro _
        rw [length_cons]
        omega

/-- An arc has no more octets than it has digits, if it has any. -/
theorem encode_short {k : Nat} (bound : v < 10 ^ k + 80) : (Base128.encode v).length ≤ max k 1 := by
  by_cases zero : v = 0
  · rw [zero]
    exact le_max_right _ _
  · rw [encode_length (by omega)]
    apply (Nat.digits_length_le_iff (by decide) v).mpr
    cases k with
    | zero =>
      have one : max 0 1 = 1 := rfl
      rw [one]
      omega
    | succ k =>
      have power : 1 ≤ 10 ^ k := Nat.one_le_pow _ _ (by decide)
      have larger : 10 ^ k ≤ 128 ^ k := Nat.pow_le_pow_left (by decide) k
      rw [max_eq_left (by omega), pow_succ]
      rw [pow_succ] at bound
      omega

theorem contents_snoc (vals : List Nat) (v : Nat) :
    oidContents (vals ++ [v]) = oidContents vals ++ Base128.encode v := by
  rw [oidContents, oidContents, flatMap_append, flatMap_singleton]

/-- What is turned into octets are the contents of arcs, and they are no more than the text. -/
theorem a2dRounds_sound (two : first ≤ 2)
    (read : a2dRounds olen first fuel c p (oidContents vals) = some made) :
    ∃ vals', made = oidContents vals' ∧ made.length ≤ (oidContents vals).length + p.length := by
  induction fuel generalizing c p vals with
  | zero =>
    cases read
    exact ⟨vals, rfl, Nat.le_add_right _ _⟩
  | succ fuel ih =>
    rw [a2dRounds] at read
    by_cases stop : p = []
    · rw [if_pos stop] at read
      cases read
      exact ⟨vals, rfl, Nat.le_add_right _ _⟩
    · rw [if_neg stop] at read
      by_cases bad : c ≠ dot ∧ c ≠ space
      · rw [if_pos bad] at read
        contradiction
      rw [if_neg bad] at read
      cases taken : a2dArcRounds p ⟨0, false, 0, c⟩ with
      | none =>
        rw [taken] at read
        contradiction
      | some result =>
        obtain ⟨arc, p'⟩ := result
        obtain ⟨v, k, value, bound, shorter, less⟩ := arcRounds_sound (start_value c) taken
        have less := less stop
        rw [taken] at read
        dsimp only at read
        -- the first arc takes in the number before it
        have next : ∃ w, w < 10 ^ k + 80 ∧ a2dRounds olen first fuel arc.c p'
            (oidContents (vals ++ [w])) = some made := by
          by_cases large : oidContents vals = []
          · have whole : oidContents (vals ++ [v + first * 40]) =
                Base128.encode (v + first * 40) := by
              rw [contents_snoc, large, nil_append]
            rw [if_pos large, first_octets value two] at read
            split_ifs at read with beyond fits
            rw [large, nil_append, ← whole] at read
            exact ⟨v + first * 40, by omega, read⟩
          · rw [if_neg large, value_octets value, ← contents_snoc] at read
            split_ifs at read with beyond fits
            exact ⟨v, by omega, read⟩
        obtain ⟨w, few, read⟩ := next
        obtain ⟨vals', is, length⟩ := ih read
        have short := encode_short few
        rw [contents_snoc, length_append] at length
        exact ⟨vals', is, by omega⟩

theorem a2dText_sound (read : a2dText olen p = some made) :
    ∃ vals, made = oidContents vals ∧ made.length ≤ p.length := by
  cases p with
  | nil => contradiction
  | cons c p =>
    cases p with
    | nil =>
      simp only [a2dText, ite_self] at read
      contradiction
    | cons sep p =>
      rw [a2dText] at read
      by_cases other : ¬ (48 ≤ c.toNat ∧ c.toNat ≤ 50)
      · rw [if_pos other] at read
        contradiction
      rw [if_neg other] at read
      have none : oidContents [] = [] := rfl
      rw [← none] at read
      obtain ⟨vals, is, length⟩ := a2dRounds_sound (by omega) read
      rw [none, length_nil, zero_add] at length
      refine ⟨vals, is, length.trans ?_⟩
      rw [length_cons, length_cons]
      omega

/-- The octets of any text that is turned into some are accepted. -/
theorem made_accepted (registered : List UInt8 → Bool) {buf : List UInt8} {num : Int}
    (size : num ≤ intMax) (some_ : made ≠ []) (read : a2dAsn1Object olen buf num = some made) :
    osslC2iAsn1Object registered made = some made := by
  have sound : ∃ vals, made = oidContents vals ∧ made.length ≤ intMax := by
    rw [a2dAsn1Object] at read
    split_ifs at read with none whole long
    · cases read
      contradiction
    · obtain ⟨vals, is, length⟩ := a2dText_sound read
      exact ⟨vals, is, by omega⟩
    · obtain ⟨vals, is, length⟩ := a2dText_sound read
      have taken := length_take_le num.toNat buf
      exact ⟨vals, is, by omega⟩
  obtain ⟨vals, is, length⟩ := sound
  have clear := contents_clear vals
  rw [← is] at clear
  have scan := scan_contents vals
  rw [← is] at scan
  have last : ¬ (made.getLastD 0).toNat &&& 0x80 ≠ 0 := not_not.mpr ((clear_iff _).mpr clear)
  have counted := length_pos_iff.mpr some_
  rw [osslC2iAsn1Object, if_neg (by omega), if_pos scan, ite_self]

/- The octets of an arc that were read so far have the value acc, and room for seven bits more. -/
def SubidAcc (acc l : Nat) (useBn : Bool) (bl : Nat) : Prop :=
  useBn = false ∧ l = acc * 128 ∧ acc < 2 ^ 57 ∨ useBn = true ∧ bl = acc * 128 ∧ 80 ≤ l ∧ 80 ≤ acc

def SubidValue (v l : Nat) (useBn : Bool) (bl : Nat) : Prop :=
  useBn = false ∧ l = v ∧ v < 2 ^ 64 ∨ useBn = true ∧ bl = v ∧ 80 ≤ l ∧ 80 ≤ v

theorem word_or (c : UInt8) : acc * 128 ||| (c.toNat &&& 0x7f) = acc * 128 + c.toNat % 128 := by
  have joined := read_digit acc c
  rw [Nat.shiftLeft_eq] at joined
  exact joined

theorem subid_last (state : SubidAcc acc l useBn bl) (last : follows c = false) (p : List UInt8) :
    ∃ l' bl', subidRounds (c :: p) l useBn bl = some ((l', useBn, bl'), p) ∧
      SubidValue (acc * 128 + c.toNat % 128) l' useBn bl' := by
  have clear := (clear_iff c).mpr last
  refine ⟨if useBn then l else l ||| (c.toNat &&& 0x7f),
    if useBn then bl + (c.toNat &&& 0x7f) else bl, ?_, ?_⟩
  · rw [subidRounds, if_neg (fun bad => bad.2 clear)]
    rw [if_pos clear]
  · cases state with
    | inl word =>
      obtain ⟨plain, is, bound⟩ := word
      left
      rw [plain, if_neg Bool.false_ne_true, is, word_or]
      exact ⟨rfl, rfl, by omega⟩
    | inr big =>
      obtain ⟨used, is, large, least⟩ := big
      right
      rw [used, if_pos rfl, if_pos rfl, is, (octet_masks c).2]
      exact ⟨rfl, rfl, large, by omega⟩

theorem subid_more (state : SubidAcc acc l useBn bl) (goes : follows c = true) (some_ : p ≠ []) :
    ∃ l' useBn' bl', subidRounds (c :: p) l useBn bl = subidRounds p l' useBn' bl' ∧
      SubidAcc (acc * 128 + c.toNat % 128) l' useBn' bl' := by
  have top : maxU64 >>> 7 = 2 ^ 57 - 1 := by decide
  have set := (octet_masks c).1.mpr goes
  rw [subidRounds, if_neg (fun bad => some_ bad.1)]
  dsimp only
  rw [if_neg set]
  cases state with
  | inl word =>
    obtain ⟨plain, is, bound⟩ := word
    rw [plain, if_neg Bool.false_ne_true, if_neg Bool.false_ne_true, is, word_or, top]
    generalize acc * 128 + c.toNat % 128 = next
    by_cases large : 2 ^ 57 - 1 < next
    · refine ⟨next, true, next * 128, ?_, .inr ⟨rfl, rfl, by omega, by omega⟩⟩
      rw [decide_eq_true large, Bool.not_false, Bool.true_and, Bool.or_true, if_pos rfl, if_pos rfl,
        Nat.shiftLeft_eq]
    · refine ⟨next * 128, false, bl, ?_, .inl ⟨rfl, rfl, by omega⟩⟩
      rw [decide_eq_false large, Bool.not_false, Bool.and_false, Bool.or_false,
        if_neg Bool.false_ne_true, if_neg Bool.false_ne_true, Nat.shiftLeft_eq,
        Nat.mod_eq_of_lt (by omega)]
  | inr big =>
    obtain ⟨used, is, large, least⟩ := big
    refine ⟨l, true, (acc * 128 + c.toNat % 128) * 128, ?_, .inr ⟨rfl, rfl, large, by omega⟩⟩
    rw [used, if_pos rfl, if_pos rfl, is, (octet_masks c).2, Bool.not_true, Bool.false_and,
      Bool.true_or, if_neg Bool.false_ne_true, if_pos rfl, Nat.shiftLeft_eq]

theorem octet_split (c : UInt8) :
    c = UInt8.ofNat (c.toNat % 128 + if follows c then 128 else 0) := by
  have byte := c.toNat_lt
  apply UInt8.toNat_inj.mp
  rw [UInt8.toNat_ofNat', follows]
  split_ifs with high
  · have := of_decide_eq_true high
    omega
  · have := of_decide_eq_false (Bool.not_eq_true _ ▸ high)
    omega

/-- The octets of the arc in front are read, and those behind it are contents again. -/
theorem subidRounds_reads (state : SubidAcc acc l useBn bl) (some_ : p ≠ []) (clear : LastClear p)
    (scan : c2iScan (decide (acc = 0)) p = true) :
    ∃ v l' useBn' bl' p', subidRounds p l useBn bl = some ((l', useBn', bl'), p') ∧
      SubidValue v l' useBn' bl' ∧ more acc ++ p = Base128.encode v ++ p' ∧
      p'.length < p.length ∧ LastClear p' ∧ c2iScan true p' = true := by
  induction p generalizing acc l bl useBn with
  | nil => contradiction
  | cons c p ih =>
    obtain ⟨fresh, scanned⟩ := (scan_cons _ c p).mp scan
    have octet := octet_split c
    have clear' : p ≠ [] → LastClear p := by
      intro left
      rw [LastClear, ← singleton_append, last_append _ left] at clear
      exact clear
    cases goes : follows c with
    | false =>
      obtain ⟨l', bl', reads, value⟩ := subid_last state goes p
      rw [goes] at octet scanned
      refine ⟨_, l', useBn, bl', p, reads, value, ?_, Nat.lt_succ_self _, ?_, scanned⟩
      · have high : (acc * 128 + c.toNat % 128) / 128 = acc := by omega
        have low : (acc * 128 + c.toNat % 128) % 128 = c.toNat % 128 := by omega
        rw [Base128.encode, high, low, append_assoc, singleton_append]
        congr 2
      · by_cases left : p = []
        · rw [left]
          rfl
        · exact clear' left
    | true =>
      have left : p ≠ [] := by
        intro none
        rw [none, LastClear] at clear
        exact Bool.false_ne_true (clear.symm.trans goes)
      obtain ⟨l', useBn', bl', reads, state'⟩ := subid_more state goes left
      rw [goes, if_pos rfl] at octet
      have pos : 0 < acc * 128 + c.toNat % 128 := by
        by_contra zero
        have first : acc = 0 := by omega
        have low : c.toNat % 128 = 0 := by omega
        rw [low] at octet
        exact fresh ⟨octet, decide_eq_true first⟩
      rw [goes] at scanned
      have follow : decide (acc * 128 + c.toNat % 128 = 0) = !true := decide_eq_false (by omega)
      obtain ⟨v, l'', useBn'', bl'', p', read, value, same, shorter, rest⟩ :=
        ih state' left (clear' left) (by rw [follow]; exact scanned)
      have high : (acc * 128 + c.toNat % 128) / 128 = acc := by omega
      have low : (acc * 128 + c.toNat % 128) % 128 = c.toNat % 128 := by omega
      rw [more_pos pos, high, low, ← octet, append_assoc, singleton_append] at same
      refine ⟨v, l'', useBn'', bl'', p', by rw [reads, read], value, same, ?_, rest⟩
      rw [length_cons]
      omega

/- A buffer of the given size that the text was written to as far as it goes. -/
structure TxtHolds (mem : Nat → UInt8) (size : Nat) (b : TxtBuf) (text : List UInt8) : Prop where
  present : b.present = true
  inside : text.length < size → b.pos = text.length ∧ b.left = size - text.length
  past : size ≤ text.length → b.left = 0 ∨ b.left = 1 ∧ b.pos + 1 = size
  filled : 0 < size → ∀ k ≤ min text.length (size - 1), b.mem k = (text.take (size - 1)).getD k 0
  outside : ∀ k, size ≤ k → b.mem k = mem k

variable {mem : Nat → UInt8} {size : Nat} {b : TxtBuf} {text : List UInt8}

variable {s : List UInt8} {noName : Bool}

theorem TxtHolds.beyond (holds : TxtHolds mem size b text) (full : size ≤ text.length + 1)
    (left : b.left ≤ 1) (some_ : s ≠ []) : TxtHolds mem size b (text ++ s) := by
  have count := length_pos_iff.mpr some_
  have inside := holds.inside
  have past := holds.past
  constructor
  · exact holds.present
  · intro less
    rw [length_append] at less
    omega
  · intro _
    omega
  · intro pos k le
    rw [length_append] at le
    rw [take_append_of_le_length (by omega)]
    exact holds.filled pos k (by omega)
  · exact holds.outside

theorem getD_closed (xs : List UInt8) (d : UInt8) {i : Nat} (le : i ≤ xs.length) :
    (xs ++ [0]).getD i d = xs.getD i 0 := by
  by_cases last : i < xs.length
  · rw [getD_append _ _ _ _ last, getD_eq_getElem _ _ last, getD_eq_getElem _ _ last]
  · rw [getD_append_right _ _ _ _ (by omega), getD_eq_default xs _ (by omega),
      show i - xs.length = 0 by omega]
    rfl

theorem strlcpy_past (holds : TxtHolds mem size b text) (beyond : size ≤ text.length)
    (s : List UInt8) (k : Nat) : opensslStrlcpy b.mem b.pos s b.left k = b.mem k := by
  rw [opensslStrlcpy]
  cases holds.past beyond with
  | inl none => rw [if_pos none]
  | inr one =>
    obtain ⟨one, last⟩ := one
    have closed := holds.filled (by omega) (size - 1) (by omega)
    rw [getD_eq_default _ _ (by rw [length_take]; omega)] at closed
    rw [if_neg (by omega), one, Nat.sub_self, take_zero, nil_append, writeCells]
    split_ifs with here
    · by_cases same : k = b.pos
      · rw [same, Nat.sub_self, show b.pos = size - 1 by omega, closed]
        rfl
      · rw [getD_eq_default _ _ (by rw [length_singleton]; omega)]
    · rfl

theorem txtCopy_holds (holds : TxtHolds mem size b text) (s : List UInt8) :
    TxtHolds mem size (txtCopy b s) (text ++ s) := by
  have whole : (text ++ s).length = text.length + s.length := length_append
  have cells : (txtCopy b s).mem = opensslStrlcpy b.mem b.pos s b.left := by
    rw [txtCopy]
    split_ifs <;> rfl
  have there : (txtCopy b s).present = true := by
    rw [txtCopy]
    split_ifs <;> exact holds.present
  have moved : b.left < s.length ∧ (txtCopy b s).left = 0 ∨
      s.length ≤ b.left ∧ (txtCopy b s).left = b.left - s.length ∧
        (txtCopy b s).pos = b.pos + s.length := by
    rw [txtCopy]
    split_ifs with short
    · exact .inl ⟨short, rfl⟩
    · exact .inr ⟨by omega, rfl, rfl⟩
  by_cases beyond : size ≤ text.length
  · have past := holds.past beyond
    constructor
    · exact there
    · intro less
      omega
    · intro _
      omega
    · intro pos k le
      rw [cells, strlcpy_past holds beyond, take_append_of_le_length (by omega)]
      exact holds.filled pos k (by omega)
    · intro k le
      rw [cells, strlcpy_past holds beyond]
      exact holds.outside k le
  · obtain ⟨pos, left⟩ := holds.inside (by omega)
    have piece : (s.take (b.left - 1)).length = min (b.left - 1) s.length := length_take
    rw [opensslStrlcpy, if_neg (by omega), pos] at cells
    constructor
    · exact there
    · intro less
      omega
    · intro _
      omega
    · intro some k le
      rw [cells, writeCells]
      split_ifs with behind
      · rw [getD_closed _ _ (by omega), take_append, getD_append_right _ _ _ _ (by
          rw [length_take]; omega), length_take, min_eq_right (by omega),
          show size - 1 - text.length = b.left - 1 by omega]
      · rw [take_append, getD_append _ _ _ _ (by rw [length_take]; omega)]
        exact holds.filled some k (by omega)
    · intro k le
      rw [cells, writeCells, if_pos (by omega), getD_eq_default _ _ (by
        rw [length_append, length_singleton]; omega)]
      exact holds.outside k le

theorem txtChar_holds (holds : TxtHolds mem size b text) (c : UInt8) :
    TxtHolds mem size (txtChar b c) (text ++ [c]) := by
  have inside := holds.inside
  rw [txtChar]
  split_ifs with room
  · have copied := txtCopy_holds holds [c]
    have single : [c].length = 1 := rfl
    have all : [c].take (b.left - 1) = [c] := take_of_length_le (by omega)
    rw [txtCopy, opensslStrlcpy, if_neg (by omega), all, single, if_neg (by omega)] at copied
    exact copied
  · have few : ¬ 1 < b.left := fun more => room ⟨holds.present, more⟩
    exact holds.beyond (by omega) (by omega) (cons_ne_nil _ _)

def arcsText : Nat → List UInt8 → Bool → Option (List UInt8)
  | 0, _, _ => some []
  | fuel + 1, p, first =>
    if p = [] then some []
    else
      match subidRounds p 0 false 0 with
      | none => none
      | some ((l, useBn, bl), p) =>
        let split := if first then splitFirst l useBn bl else (0, l, bl)
        (arcsText fuel p false).map fun rest =>
          (if first then [UInt8.ofNat (split.1 + 48)] else []) ++
            (dotted (if useBn then split.2.2 else split.2.1) ++ rest)

/- What a caller finds who gave no buffer, or one of bufLen characters. -/
structure TextGiven (buf : Option (Nat → UInt8)) (bufLen : Nat) (text : List UInt8)
    (result : Int × TxtBuf) : Prop where
  length : result.1 = text.length
  chars : buf.isSome = true → ∀ k < min text.length (bufLen - 1), result.2.mem k = text.getD k 0
  closed : buf.isSome = true → 0 < bufLen → result.2.mem (min text.length (bufLen - 1)) = 0
  outside : ∀ mem ∈ buf, ∀ k, bufLen ≤ k → result.2.mem k = mem k

def TxtAdds (b b' : TxtBuf) (s : List UInt8) : Prop :=
  b'.present = b.present ∧
    ∀ mem size text, TxtHolds mem size b text → TxtHolds mem size b' (text ++ s)

theorem adds_nil (b : TxtBuf) : TxtAdds b b [] := by
  constructor
  · rfl
  · intro mem size text holds
    rw [append_nil]
    exact holds

theorem adds_append {b b' b'' : TxtBuf} {s' : List UInt8} (one : TxtAdds b b' s)
    (two : TxtAdds b' b'' s') : TxtAdds b b'' (s ++ s') := by
  constructor
  · exact two.1.trans one.1
  · intro mem size text holds
    rw [← append_assoc]
    exact two.2 _ _ _ (one.2 _ _ _ holds)

theorem adds_char (b : TxtBuf) (c : UInt8) : TxtAdds b (txtChar b c) [c] := by
  constructor
  · rw [txtChar]
    split_ifs <;> rfl
  · intro mem size text holds
    exact txtChar_holds holds c

theorem adds_copy (b : TxtBuf) (s : List UInt8) : TxtAdds b (txtCopy b s) s := by
  constructor
  · rw [txtCopy]
    split_ifs <;> rfl
  · intro mem size text holds
    exact txtCopy_holds holds s

theorem adds_number (b : TxtBuf) (v : Nat) :
    TxtAdds b (if b.present then txtCopy (txtChar b dot) (decimal v) else b) (dotted v) := by
  split_ifs with there
  · exact adds_append (adds_char b dot) (adds_copy _ _)
  · constructor
    · rfl
    · intro mem size text holds
      exact absurd holds.present there

theorem adds_word (b : TxtBuf) (v : Nat) :
    TxtAdds b (if b.present = true ∧ 0 < b.left then txtCopy b (dotted v) else b) (dotted v) := by
  split_ifs with there
  · exact adds_copy b _
  · constructor
    · rfl
    · intro mem size text holds
      have inside := holds.inside
      have none : b.left = 0 := Nat.eq_zero_of_not_pos fun some => there ⟨holds.present, some⟩
      exact holds.beyond (by omega) (by omega) (cons_ne_nil _ _)

/-- The rounds give the length of the text and write as much of it as there is room for. -/
theorem obj2txtRounds_writes (fuel : Nat) (p : List UInt8) (first : Bool) (b : TxtBuf) (n : Nat) :
    (arcsText fuel p first = none → (obj2txtRounds fuel p first b n).1 = -1) ∧
      ∀ s, arcsText fuel p first = some s →
        (obj2txtRounds fuel p first b n).1 = ((n + s.length : Nat) : Int) ∧
          TxtAdds b (obj2txtRounds fuel p first b n).2 s := by
  induction fuel generalizing p first b n with
  | zero =>
    constructor
    · intro none
      contradiction
    · intro s is
      cases is
      exact ⟨rfl, adds_nil b⟩
  | succ fuel ih =>
    rw [obj2txtRounds, arcsText]
    by_cases done : p = []
    · rw [if_pos done, if_pos done]
      constructor
      · intro none
        contradiction
      · intro s is
        cases is
        exact ⟨rfl, adds_nil b⟩
    rw [if_neg done, if_neg done]
    cases reads : subidRounds p 0 false 0 with
    | none =>
      constructor
      · intro _
        rfl
      · intro s is
        contradiction
    | some result =>
      obtain ⟨⟨l, useBn, bl⟩, p'⟩ := result
      dsimp only
      generalize (if first = true then splitFirst l useBn bl else (0, l, bl)) = split
      have front : TxtAdds b (if first = true then txtChar b (UInt8.ofNat (split.1 + 48)) else b)
          (if first = true then [UInt8.ofNat (split.1 + 48)] else []) := by
        split_ifs
        · exact adds_char b _
        · exact adds_nil b
      have count : (if first = true then n + 1 else n) =
          n + (if first = true then [UInt8.ofNat (split.1 + 48)] else []).length := by
        split_ifs <;> rfl
      rw [count]
      revert front
      generalize (if first = true then txtChar b (UInt8.ofNat (split.1 + 48)) else b) = b'
      generalize (if first = true then [UInt8.ofNat (split.1 + 48)] else []) = lead
      intro front
      rw [map_eq_none_iff]
      have step : ∃ b'', TxtAdds b' b'' (dotted (if useBn = true then split.2.2 else split.2.1)) ∧
          (if useBn = true then
            obj2txtRounds fuel p' false
              (if b'.present = true then txtCopy (txtChar b' dot) (decimal split.2.2) else b')
              (n + lead.length + 1 + (decimal split.2.2).length)
          else
            obj2txtRounds fuel p' false
              (if b'.present = true ∧ 0 < b'.left then txtCopy b' (dot :: decimal split.2.1) else b')
              (n + lead.length + (dot :: decimal split.2.1).length)) =
          obj2txtRounds fuel p' false b'' (n + lead.length +
            (dotted (if useBn = true then split.2.2 else split.2.1)).length) := by
        cases useBn with
        | false => exact ⟨_, adds_word b' split.2.1, rfl⟩
        | true =>
          refine ⟨_, adds_number b' split.2.2, ?_⟩
          rw [if_pos rfl, if_pos rfl, dotted, length_cons, add_assoc, add_comm 1]
      obtain ⟨b'', written, step⟩ := step
      rw [step]
      obtain ⟨fails, gives⟩ := ih p' false b'' (n + lead.length +
        (dotted (if useBn = true then split.2.2 else split.2.1)).length)
      refine ⟨fails, ?_⟩
      intro s whole
      obtain ⟨rest, left, rfl⟩ := map_eq_some_iff.mp whole
      obtain ⟨length, adds⟩ := gives rest left
      rw [length]
      refine ⟨?_, adds_append front (adds_append written adds)⟩
      rw [length_append, length_append, ← add_assoc, ← add_assoc]

/-- The arc in front is the number before the first separator and the arc behind it. -/
theorem splitFirst_value (value : SubidValue v l useBn bl) :
    (splitFirst l useBn bl).1 = min 2 (v / 40) ∧
      (if useBn = true then (splitFirst l useBn bl).2.2 else (splitFirst l useBn bl).2.1) =
        v - 40 * min 2 (v / 40) := by
  rw [splitFirst]
  cases value with
  | inl word =>
    obtain ⟨plain, is, _⟩ := word
    rw [plain, if_neg Bool.false_ne_true, if_neg Bool.false_ne_true, is]
    by_cases large : 80 ≤ v
    · rw [if_pos large]
      exact ⟨by dsimp only; omega, by dsimp only; omega⟩
    · rw [if_neg large]
      exact ⟨by dsimp only; omega, by dsimp only; omega⟩
  | inr big =>
    obtain ⟨used, is, large, least⟩ := big
    rw [used, if_pos rfl, if_pos large, if_pos rfl, is]
    exact ⟨by dsimp only; omega, by dsimp only; omega⟩

theorem value_number (value : SubidValue v l useBn bl) : (if useBn = true then bl else l) = v := by
  cases value with
  | inl word =>
    rw [word.1, if_neg Bool.false_ne_true]
    exact word.2.1
  | inr big =>
    rw [big.1, if_pos rfl]
    exact big.2.1

theorem digit_eq (d : Nat) : UInt8.ofNat (d + 48) = digit d := by rw [digit, add_comm]

/-- Octets that are accepted are the contents of arcs, whose text is written. -/
theorem arcsText_contents (enough : p.length ≤ fuel) (clear : LastClear p)
    (scan : c2iScan true p = true) :
    ∃ vals, p = oidContents vals ∧ arcsText fuel p false = some (vals.flatMap dotted) ∧
      arcsText fuel p true = some (oidText vals) := by
  induction fuel generalizing p with
  | zero =>
    obtain rfl := length_eq_zero_iff.mp (Nat.le_zero.mp enough)
    exact ⟨[], rfl, rfl, rfl⟩
  | succ fuel ih =>
    by_cases done : p = []
    · rw [done]
      exact ⟨[], rfl, rfl, rfl⟩
    · have fresh : SubidAcc 0 0 false 0 := .inl ⟨rfl, rfl, by decide⟩
      obtain ⟨v, l, useBn, bl, p', reads, value, same, shorter, clear', scan'⟩ :=
        subidRounds_reads fresh done clear scan
      obtain ⟨vals, is, rest, _⟩ := ih (by omega) clear' scan'
      obtain ⟨lead, number⟩ := splitFirst_value value
      refine ⟨v :: vals, ?_, ?_, ?_⟩
      · rw [more_zero, nil_append, is] at same
        exact same
      · rw [arcsText, if_neg done, reads]
        simp only [if_neg Bool.false_ne_true, rest, value_number value]
        rfl
      · rw [arcsText, if_neg done, reads]
        simp only [if_true, rest, lead, number, digit_eq]
        rfl

def txtStart (buf : Option (Nat → UInt8)) (bufLen : Nat) : TxtBuf :=
  let b : TxtBuf := ⟨buf.isSome, buf.getD fun _ => 0, 0, bufLen⟩
  if b.present = true ∧ 0 < bufLen then { b with mem := writeCells b.mem 0 [0] } else b

theorem start_holds (mem : Nat → UInt8) (bufLen : Nat) :
    TxtHolds mem bufLen (txtStart (some mem) bufLen) [] := by
  rw [txtStart]
  rw [isSome_some, getD_some]
  by_cases some_ : 0 < bufLen
  · rw [if_pos ⟨rfl, some_⟩]
    constructor
    · rfl
    · intro _
      exact ⟨rfl, rfl⟩
    · intro le
      exact absurd le (not_le.mpr some_)
    · intro _ k le
      rw [Nat.le_zero.mp (le.trans (min_le_left _ _)), take_nil]
      rfl
    · intro k le
      dsimp only
      rw [writeCells, if_pos (Nat.zero_le k), getD_eq_default _ _ (by
        rw [length_singleton]; omega)]
  · rw [if_neg fun both => some_ both.2]
    constructor
    · rfl
    · intro _
      exact ⟨rfl, rfl⟩
    · intro _
      exact .inl (Nat.eq_zero_of_not_pos some_)
    · intro pos
      exact absurd pos some_
    · intro k _
      rfl

theorem holds_given {buf : Option (Nat → UInt8)} {bufLen : Nat} {text : List UInt8} {r : Int × TxtBuf}
    (length : r.1 = text.length)
    (holds : ∀ mem ∈ buf, ∃ b, b.mem = r.2.mem ∧ TxtHolds mem bufLen b text) :
    TextGiven buf bufLen text r := by
  constructor
  · exact length
  · intro there k less
    obtain ⟨mem, here⟩ := isSome_iff_exists.mp there
    obtain ⟨b, same, filled⟩ := holds mem here
    rw [← same, filled.filled (by omega) k (by omega), getD_eq_getElem _ _ (by
      rw [length_take]; omega), getElem_take, getD_eq_getElem]
  · intro there pos
    obtain ⟨mem, here⟩ := isSome_iff_exists.mp there
    obtain ⟨b, same, filled⟩ := holds mem here
    rw [← same, filled.filled pos _ (le_refl _), getD_eq_default _ _ (by
      rw [length_take]; omega)]
  · intro mem here k le
    obtain ⟨b, same, filled⟩ := holds mem here
    rw [← same]
    exact filled.outside k le

variable (name : List UInt8 → Option (List UInt8))

theorem objObj2txt_arcs {data text : List UInt8}
    (plain : (if noName then none else name data) = none) (short : data.length ≤ 586)
    (is : arcsText data.length data true = some text) (buf : Option (Nat → UInt8)) (bufLen : Nat) :
    TextGiven buf bufLen text (objObj2txt name buf bufLen (some data) noName) := by
  have result : objObj2txt name buf bufLen (some data) noName =
      obj2txtRounds data.length data true (txtStart buf bufLen) 0 := by
    rw [objObj2txt, txtStart]
    rw [plain]
    dsimp only
    rw [if_neg (by omega)]
  obtain ⟨length, adds⟩ := (obj2txtRounds_writes data.length data true (txtStart buf bufLen) 0).2 _ is
  rw [result]
  apply holds_given
  · rw [length, zero_add]
  · intro mem here
    cases here
    exact ⟨_, rfl, adds.2 _ _ _ (start_holds mem bufLen)⟩

theorem objObj2txt_name {data text : List UInt8}
    (known : (if noName then none else name data) = some text) (buf : Option (Nat → UInt8))
    (bufLen : Nat) : TextGiven buf bufLen text (objObj2txt name buf bufLen (some data) noName) := by
  have start : objObj2txt name buf bufLen (some data) noName =
      ((text.length : Int), if (txtStart buf bufLen).present then
        { txtStart buf bufLen with mem := opensslStrlcpy (txtStart buf bufLen).mem 0 text bufLen }
        else txtStart buf bufLen) := by
    rw [objObj2txt, txtStart]
    rw [known]
  rw [start]
  apply holds_given
  · rfl
  · intro mem here
    cases here
    have first := start_holds mem bufLen
    have written := (adds_copy _ text).2 _ _ _ first
    refine ⟨_, ?_, written⟩
    rw [if_pos first.present, txtCopy]
    have place : (txtStart (some mem) bufLen).pos = 0 ∧ (txtStart (some mem) bufLen).left = bufLen := by
      rw [txtStart]
      split_ifs <;> exact ⟨rfl, rfl⟩
    rw [place.1, place.2]
    split_ifs <;> rfl

/-- Whatever the object is, the text does not depend on the buffer it is written to. -/
theorem objObj2txt_text (a : Option (List UInt8)) (noName : Bool) :
    (∀ buf bufLen, (objObj2txt name buf bufLen a noName).1 = -1) ∨
      ∃ text, ∀ buf bufLen, TextGiven buf bufLen text (objObj2txt name buf bufLen a noName) := by
  cases a with
  | none =>
    right
    refine ⟨[], fun buf bufLen => holds_given rfl ?_⟩
    intro mem here
    cases here
    exact ⟨_, rfl, start_holds mem bufLen⟩
  | some data =>
    cases known : if noName then none else name data with
    | some text => exact .inr ⟨text, objObj2txt_name name known⟩
    | none =>
      by_cases long : 586 < data.length
      · left
        intro buf bufLen
        rw [objObj2txt]
        rw [known]
        rw [if_pos long]
      · cases is : arcsText data.length data true with
        | none =>
          left
          intro buf bufLen
          rw [objObj2txt]
          rw [known]
          rw [if_neg long]
          exact (obj2txtRounds_writes _ _ _ _ _).1 is
        | some text => exact .inr ⟨text, objObj2txt_arcs name known (by omega) is⟩

/-- A text that was written is turned back, wherever it stands. -/
theorem text_made (short : (oidContents (v :: vals)).length ≤ 586)
    (room : ∀ n ∈ olen, (oidContents (v :: vals)).length ≤ n) :
    a2dAsn1Object olen (oidText (v :: vals)) (oidText (v :: vals)).length =
        some (oidContents (v :: vals)) ∧
      ∀ rest, a2dAsn1Object olen (oidText (v :: vals) ++ 0 :: rest) (-1) =
        some (oidContents (v :: vals)) := by
  have made := a2dText_text room
  have length := text_length (v :: vals)
  have top : intMax = 2147483647 := rfl
  have some_ : 0 < (oidText (v :: vals)).length := Nat.succ_pos _
  constructor
  · rw [a2dAsn1Object, if_neg (by omega), if_neg (by omega), Int.toNat_natCast, take_length]
    exact made
  · intro rest
    rw [a2dAsn1Object, if_neg (by decide), if_pos rfl, text_cString, if_neg (by omega)]
    exact made

/-- The text of accepted contents is turned back into them, any octets that are made of a text are
    accepted, and the text that is given does not depend on the buffer. -/
theorem oid_text_inverse (registered : List UInt8 → Bool)
    (name : List UInt8 → Option (List UInt8))
    (valid : ∀ contents, registered contents = true → c2iScan true contents = true) :
    (∀ contents, contents.length ≤ 586 → osslC2iAsn1Object registered contents = some contents →
      ∃ text, (∀ buf bufLen,
          TextGiven buf bufLen text (objObj2txt name buf bufLen (some contents) true)) ∧
        ∀ olen, (∀ n ∈ olen, contents.length ≤ n) →
          a2dAsn1Object olen text text.length = some contents ∧
            ∀ rest, a2dAsn1Object olen (text ++ 0 :: rest) (-1) = some contents) ∧
      (∀ olen buf (num : Int) made, num ≤ intMax → a2dAsn1Object olen buf num = some made →
        made ≠ [] → osslC2iAsn1Object registered made = some made) ∧
      ∀ a noName, (∀ buf bufLen, (objObj2txt name buf bufLen a noName).1 = -1) ∨
        ∃ text, ∀ buf bufLen, TextGiven buf bufLen text (objObj2txt name buf bufLen a noName) := by
  refine ⟨?_, ?_, objObj2txt_text name⟩
  · intro contents short accepted
    have checked : contents ≠ [] ∧ LastClear contents ∧ c2iScan true contents = true := by
      rw [osslC2iAsn1Object] at accepted
      split_ifs at accepted with bad known scan
      · refine ⟨fun none => bad (.inl (by rw [none]; rfl)), (clear_iff _).mp ?_, valid _ known⟩
        exact not_not.mp fun set => bad (.inr (.inr set))
      · refine ⟨fun none => bad (.inl (by rw [none]; rfl)), (clear_iff _).mp ?_, scan⟩
        exact not_not.mp fun set => bad (.inr (.inr set))
    obtain ⟨some_, clear, scan⟩ := checked
    obtain ⟨vals, is, _, text⟩ := arcsText_contents (Nat.le_refl _) clear scan
    refine ⟨oidText vals, objObj2txt_arcs name rfl short text, ?_⟩
    intro olen room
    cases vals with
    | nil => exact absurd is some_
    | cons v vals =>
      rw [is] at short room ⊢
      exact text_made short room
  · intro olen buf num made size read some_
    exact made_accepted registered size some_ read

def isoUsName (contents : List UInt8) : Option (List UInt8) :=
  if contents = [0x2a, 0x86, 0x48] then some "ISO US Member Body".toUTF8.data.toList else none

/-- The contents of 1.2.840 and their text, with a buffer that is too small for it. -/
theorem oid_text_inverse_sample :
    (∃ text, TextGiven (some fun _ => 0) 4 text
        (objObj2txt isoUsName (some fun _ => 0) 4 (some [0x2a, 0x86, 0x48]) true) ∧
      a2dAsn1Object none text text.length = some [0x2a, 0x86, 0x48]) ∧
    osslC2iAsn1Object (· == [0x2a, 0x86, 0x48]) [0x88, 0x37] = some [0x88, 0x37] := by
  have valid : ∀ contents, (contents == [0x2a, 0x86, 0x48]) = true →
      c2iScan true contents = true := by
    intro contents same
    rw [eq_of_beq same]
    decide
  have inverse := oid_text_inverse (· == [0x2a, 0x86, 0x48]) isoUsName valid
  constructor
  · obtain ⟨text, given, back⟩ := inverse.1 [0x2a, 0x86, 0x48] (by decide) (by decide)
    exact ⟨text, given _ 4, (back none (by intro n none; contradiction)).1⟩
  · have made : a2dAsn1Object (some 8) [50, 46, 57, 57, 57] 5 = some [0x88, 0x37] := by
      decide +kernel
    exact inverse.2.1 (some 8) [50, 46, 57, 57, 57] 5 _ (by decide) made (by decide)

end Ossl
