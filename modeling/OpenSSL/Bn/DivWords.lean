import OpenSSL.Bn.DivLaws

/- bn_div_words of bn_asm.c in plain C: long division of two words by one, by halves of a word. -/
namespace Ossl
open UInt64 Nat

/- The digit is lowered until its product with the divisor is no larger than the number. There is
   no bound in C: the limit is the digit itself. -/
def lowerDigit (h l dh dl : UInt64) : Nat → (q th tl : UInt64) → Option (UInt64 × UInt64 × UInt64)
  | 0, _, _, _ => none
  | limit + 1, q, th, tl =>
    let t := h - th
    if t &&& 0xffffffff00000000 ≠ 0 ∨
        tl ≤ (t <<< 32) ||| ((l &&& 0xffffffff00000000) >>> 32) then some (q, th, tl)
    else lowerDigit h l dh dl limit (q - 1) (th - dh) (tl - dl)

def halfWordRound (d h l : UInt64) : Option (UInt64 × UInt64 × UInt64) :=
  let dh := (d &&& 0xffffffff00000000) >>> 32
  let dl := d &&& 0xffffffff
  let q := if h >>> 32 = dh then 0xffffffff else h / dh
  match lowerDigit h l dh dl (q.toNat + 1) q (q * dh) (dl * q) with
  | none => none
  | some (q, th, tl) =>
    let t := tl >>> 32
    let tl := (tl <<< 32) &&& 0xffffffff00000000
    let th := th + t
    let th := if l < tl then th + 1 else th
    let l := l - tl
    let (h, q) := if h < th then (h + d, q - 1) else (h, q)
    some (q, h - th, l)

/- Without a result if the assertion fails. -/
def portableDivWords (h l d : UInt64) : Option UInt64 :=
  if d = 0 then some (0 - 1)
  else
    let i := bnNumBitsWord d
    if ¬(i = 64 ∨ h ≤ 1 <<< ofNat i) then none
    else
      let i := 64 - i
      let h := if h ≥ d then h - d else h
      let (d, h, l) :=
        if i ≠ 0 then
          (d <<< ofNat i, (h <<< ofNat i) ||| (l >>> ofNat (64 - i)), l <<< ofNat i)
        else (d, h, l)
      match halfWordRound d h l with
      | none => none
      | some (q, h, l) =>
        let ret := q <<< 32
        let h := ((h <<< 32) ||| (l >>> 32)) &&& 0xffffffffffffffff
        let l := (l &&& 0xffffffff) <<< 32
        match halfWordRound d h l with
        | none => none
        | some (q, _, _) => some (ret ||| q)

section
variable {h l d : UInt64}

theorem raised_half (x : UInt64) : (x <<< 32).toNat = x.toNat % 2 ^ 32 * 2 ^ 32 := by
  have shifted : (x <<< 32).toNat = x.toNat * 2 ^ 32 % 2 ^ 64 :=
    shiftLeft_toNat x (show 32 < 64 by decide)
  omega

theorem masked_half (x : UInt64) :
    (x &&& 0xffffffff00000000).toNat = x.toNat / 2 ^ 32 * 2 ^ 32 := by
  have mask : (0xffffffff00000000 : UInt64).toNat = (2 ^ 32 - 1) * 2 ^ 32 := rfl
  have word := x.toNat_lt
  rw [UInt64.toNat_and, mask]
  apply eq_of_testBit_eq
  intro i
  rw [testBit_and, testBit_mul_two_pow, testBit_mul_two_pow, testBit_div_two_pow,
    testBit_two_pow_sub_one]
  by_cases low : 32 ≤ i
  · rw [Nat.sub_add_cancel low]
    by_cases far : i < 64
    · simp [low, show i - 32 < 32 by omega]
    · rw [Nat.testBit_lt_two_pow (lt_of_lt_of_le word (Nat.pow_le_pow_right (by decide)
        (by omega)))]
      simp
  · simp [low]

theorem joined_halves (x : UInt64) {y : UInt64} (low : y.toNat < 2 ^ 32) :
    ((x <<< 32) ||| y).toNat = x.toNat % 2 ^ 32 * 2 ^ 32 + y.toNat := by
  rw [or_add (k := 32) (by rw [raised_half]; exact dvd_mul_left _ _) low, raised_half]

theorem joined_digits {x y : UInt64} (low : y.toNat < 2 ^ 32) :
    (x <<< 32) ||| y = ofNat (x.toNat * 2 ^ 32 + y.toNat) := by
  rw [← UInt64.toNat_inj, joined_halves x low, toNat_ofNat']
  omega

theorem digit_test_iff (t tl l : UInt64) :
    (t &&& 0xffffffff00000000 ≠ 0 ∨
      tl ≤ (t <<< 32) ||| ((l &&& 0xffffffff00000000) >>> 32)) ↔
        tl.toNat ≤ t.toNat * 2 ^ 32 + l.toNat / 2 ^ 32 := by
  have wl := l.toNat_lt
  have wt := tl.toNat_lt
  have upper : ((l &&& 0xffffffff00000000) >>> 32).toNat = l.toNat / 2 ^ 32 := by
    rw [high_half, masked_half, Nat.mul_div_cancel _ (by decide)]
  have none_ : t &&& 0xffffffff00000000 = 0 ↔ t.toNat < 2 ^ 32 := by
    rw [← UInt64.toNat_inj, masked_half, UInt64.toNat_zero]
    omega
  rw [ne_eq, none_, UInt64.le_iff_toNat_le, joined_halves t (by omega), upper]
  omega

theorem lowerDigit_spec {dh dl : UInt64} {digit : Nat}
    (fits : digit * dh.toNat * 2 ^ 32 + dl.toNat * digit ≤ h.toNat * 2 ^ 32 + l.toNat / 2 ^ 32)
    (most : h.toNat * 2 ^ 32 + l.toNat / 2 ^ 32 <
      (digit + 1) * dh.toNat * 2 ^ 32 + dl.toNat * (digit + 1)) (k : Nat) :
    ∀ {limit : Nat} {q th tl : UInt64}, k < limit → q.toNat = digit + k →
      th.toNat = (digit + k) * dh.toNat → tl.toNat = dl.toNat * (digit + k) → th ≤ h →
      ∃ q1 th1 tl1, lowerDigit h l dh dl limit q th tl = some (q1, th1, tl1) ∧
        q1.toNat = digit ∧ th1.toNat = digit * dh.toNat ∧ tl1.toNat = dl.toNat * digit := by
  induction k with
  | zero =>
    intro limit q th tl more estimate high low room
    obtain ⟨limit, rfl⟩ := Nat.exists_eq_add_of_lt more
    have gap := UInt64.toNat_sub_of_le h th room
    rw [UInt64.le_iff_toNat_le] at room
    rw [add_zero] at estimate high low
    refine ⟨q, th, tl, ?_, estimate, high, low⟩
    rw [lowerDigit, if_pos]
    rw [digit_test_iff, gap]
    omega
  | succ k ih =>
    intro limit q th tl more estimate high low room
    obtain ⟨limit, rfl⟩ := Nat.exists_eq_add_of_lt (Nat.zero_lt_of_lt more)
    have gap := UInt64.toNat_sub_of_le h th room
    have overH : (digit + 1) * dh.toNat ≤ (digit + (k + 1)) * dh.toNat :=
      mul_le_mul_right _ (by omega)
    have overL : dl.toNat * (digit + 1) ≤ dl.toNat * (digit + (k + 1)) :=
      mul_le_mul_left _ (by omega)
    have stepH : (digit + (k + 1)) * dh.toNat = (digit + k) * dh.toNat + dh.toNat := by ring
    have stepL : dl.toNat * (digit + (k + 1)) = dl.toNat * (digit + k) + dl.toNat := by ring
    have lessH : dh ≤ th := UInt64.le_iff_toNat_le.mpr (by omega)
    have lessL : dl ≤ tl := UInt64.le_iff_toNat_le.mpr (by omega)
    have some_ : 1 ≤ q := UInt64.le_iff_toNat_le.mpr (by rw [estimate, UInt64.toNat_one]; omega)
    rw [UInt64.le_iff_toNat_le] at room
    rw [lowerDigit, if_neg]
    · apply ih
      · omega
      · rw [UInt64.toNat_sub_of_le q 1 some_, UInt64.toNat_one]
        omega
      · rw [UInt64.toNat_sub_of_le th dh lessH]
        omega
      · rw [UInt64.toNat_sub_of_le tl dl lessL]
        omega
      · rw [UInt64.le_iff_toNat_le, UInt64.toNat_sub_of_le th dh lessH]
        omega
    · rw [digit_test_iff, gap]
      omega

theorem digit_estimate {dh : UInt64} {digit : Nat} (normal : 2 ^ 63 ≤ d.toNat)
    (less : h.toNat < d.toNat) (upper : dh.toNat = d.toNat / 2 ^ 32) (half : digit < 2 ^ 32)
    (fits : digit * dh.toNat * 2 ^ 32 ≤ h.toNat * 2 ^ 32 + l.toNat / 2 ^ 32) {q : UInt64}
    (is : q = if h >>> 32 = dh then 0xffffffff else h / dh) :
    digit ≤ q.toNat ∧ q.toNat < 2 ^ 32 ∧ q.toNat * dh.toNat ≤ h.toNat := by
  have wl := l.toNat_lt
  have topH := high_half h
  split at is
  case isTrue same =>
    have value : q.toNat = 2 ^ 32 - 1 := by
      rw [is]
      rfl
    rw [same] at topH
    rw [value]
    omega
  case isFalse other =>
    have under : h.toNat / 2 ^ 32 ≠ dh.toNat := by
      rw [← topH]
      exact fun same => other (UInt64.toNat_inj.mp same)
    rw [is, UInt64.toNat_div]
    refine ⟨?_, ?_, div_mul_le_self _ _⟩
    · rw [le_div_iff_mul_le (by omega)]
      omega
    · rw [div_lt_iff_lt_mul (by omega)]
      omega

/- The rest of the number takes the place of its upper half. -/
theorem subtracted_spec {th tl : UInt64}
    (fits : th.toNat * 2 ^ 32 + tl.toNat ≤ h.toNat * 2 ^ 32 + l.toNat / 2 ^ 32) {tl1 th1 : UInt64}
    (isTl : tl1 = (tl <<< 32) &&& 0xffffffff00000000)
    (isTh : th1 = if l < tl1 then th + (tl >>> 32) + 1 else th + (tl >>> 32)) :
    ¬h < th1 ∧ th.toNat * 2 ^ 32 + tl.toNat +
        ((h - th1).toNat * 2 ^ 32 + (l - tl1).toNat / 2 ^ 32) =
      h.toNat * 2 ^ 32 + l.toNat / 2 ^ 32 ∧ (l - tl1).toNat % 2 ^ 32 = l.toNat % 2 ^ 32 := by
  have wl := l.toNat_lt
  have wh := h.toNat_lt
  have lowT : tl1.toNat = tl.toNat % 2 ^ 32 * 2 ^ 32 := by
    rw [isTl, masked_half, raised_half, Nat.mul_div_cancel _ (by decide)]
  have highT := high_half tl
  generalize tl >>> 32 = t at *
  have added : (th + t).toNat = th.toNat + t.toNat := by
    rw [UInt64.toNat_add]
    exact mod_eq_of_lt (by omega)
  have carried : th1.toNat = th.toNat + t.toNat + if l.toNat < tl1.toNat then 1 else 0 := by
    simp only [isTh, UInt64.lt_iff_toNat_lt]
    split
    · rw [UInt64.toNat_add, added, UInt64.toNat_one]
      exact mod_eq_of_lt (by omega)
    · exact added
  have enough : th1 ≤ h := by
    rw [UInt64.le_iff_toNat_le, carried]
    split <;> omega
  have rest : (l - tl1).toNat =
      l.toNat + (if l.toNat < tl1.toNat then 2 ^ 64 else 0) - tl1.toNat := by
    rw [UInt64.toNat_sub]
    split <;> omega
  rw [UInt64.not_lt, UInt64.toNat_sub_of_le h th1 enough, rest, carried]
  refine ⟨enough, ?_⟩
  rw [UInt64.le_iff_toNat_le, carried] at enough
  revert enough
  split <;> omega

/- The digit is exact, so that it is never lowered once more. -/
theorem halfWordRound_spec (normal : 2 ^ 63 ≤ d.toNat) (less : h.toNat < d.toNat) :
    ∃ q h1 l1, halfWordRound d h l = some (q, h1, l1) ∧ q.toNat < 2 ^ 32 ∧
      q.toNat * d.toNat + (h1.toNat * 2 ^ 32 + l1.toNat / 2 ^ 32) =
        h.toNat * 2 ^ 32 + l.toNat / 2 ^ 32 ∧
      h1.toNat * 2 ^ 32 + l1.toNat / 2 ^ 32 < d.toNat ∧
      l1.toNat % 2 ^ 32 = l.toNat % 2 ^ 32 := by
  have wl := l.toNat_lt
  have isH : ((d &&& 0xffffffff00000000) >>> 32).toNat = d.toNat / 2 ^ 32 := by
    rw [high_half, masked_half, Nat.mul_div_cancel _ (by decide)]
  have isL := low_half d
  rw [halfWordRound]
  generalize (d &&& 0xffffffff00000000) >>> 32 = dh at *
  generalize d &&& 0xffffffff = dl at *
  obtain ⟨digit, fits, most⟩ : ∃ digit, digit * d.toNat ≤ h.toNat * 2 ^ 32 + l.toNat / 2 ^ 32 ∧
      h.toNat * 2 ^ 32 + l.toNat / 2 ^ 32 < (digit + 1) * d.toNat :=
    ⟨_, Nat.div_mul_le_self _ _, (Nat.div_lt_iff_lt_mul (by omega)).mp (Nat.lt_succ_self _)⟩
  have half : digit < 2 ^ 32 := Nat.lt_of_mul_lt_mul_right (lt_of_le_of_lt fits (by omega))
  have parts (n : Nat) : n * d.toNat = n * dh.toNat * 2 ^ 32 + dl.toNat * n := by
    rw [isH, isL]
    conv_lhs => rw [← Nat.div_add_mod d.toNat (2 ^ 32)]
    ring
  have whole := parts digit
  rw [whole] at fits
  generalize isQ0 : (if h >>> 32 = dh then 0xffffffff else h / dh) = q0
  obtain ⟨least, word, room⟩ := digit_estimate normal less isH half
    (le_trans (Nat.le_add_right _ _) fits) isQ0.symm
  have above : digit + (q0.toNat - digit) = q0.toNat := Nat.add_sub_cancel' least
  have small : dl.toNat * q0.toNat < 2 ^ 32 * 2 ^ 32 := Nat.mul_lt_mul'' (by omega) word
  have high : (q0 * dh).toNat = q0.toNat * dh.toNat := by
    rw [UInt64.toNat_mul, Nat.mod_eq_of_lt (lt_of_le_of_lt room h.toNat_lt)]
  have low : (dl * q0).toNat = dl.toNat * q0.toNat := by
    rw [UInt64.toNat_mul]
    exact Nat.mod_eq_of_lt small
  obtain ⟨q, th, tl, is, isQ, isTh, isTl⟩ := lowerDigit_spec fits (by rwa [← parts])
    (q0.toNat - digit) (by omega : _ < q0.toNat + 1) above.symm (by rw [high, above])
    (by rw [low, above]) (by rw [UInt64.le_iff_toNat_le, high]; exact room)
  rw [← isTh, ← isTl] at fits whole
  obtain ⟨enough, rest, same⟩ := subtracted_spec fits rfl rfl
  rw [is]
  dsimp only
  rw [if_neg enough]
  rw [Nat.add_mul, Nat.one_mul, whole] at most
  refine ⟨q, _, _, rfl, isQ ▸ half, ?_, ?_, same⟩
  · rw [isQ, whole, rest]
  · exact Nat.add_lt_add_iff_left.mp (rest.trans_lt most)

/- Both numbers are shifted until the divisor has its highest bit, with no bit lost. -/
theorem words_aligned {i : Nat} (small : i < 64) (less : h.toNat < d.toNat)
    (room : d.toNat * 2 ^ i < 2 ^ 64) :
    ∃ d1 h1 l1, (if i ≠ 0 then
        (d <<< ofNat i, (h <<< ofNat i) ||| (l >>> ofNat (64 - i)), l <<< ofNat i)
        else (d, h, l)) = (d1, h1, l1) ∧ d1.toNat = d.toNat * 2 ^ i ∧ h1.toNat < d1.toNat ∧
      h1.toNat * 2 ^ 64 + l1.toNat = (h.toNat * 2 ^ 64 + l.toNat) * 2 ^ i := by
  by_cases none_ : i = 0
  · subst none_
    exact ⟨d, h, l, rfl, by omega, less, by omega⟩
  rw [if_pos none_]
  have split := mul_pow_split l.toNat (le_of_lt small)
  have under : (h.toNat + 1) * 2 ^ i ≤ d.toNat * 2 ^ i := Nat.mul_le_mul_right _ less
  rw [Nat.add_mul, Nat.one_mul] at under
  have pos := Nat.two_pow_pos i
  have raised : (h <<< ofNat i).toNat = h.toNat * 2 ^ i := by
    rw [shiftLeft_toNat h small]
    exact Nat.mod_eq_of_lt (by omega)
  have low : (l >>> ofNat (64 - i)).toNat = l.toNat / 2 ^ (64 - i) := shiftRight_toNat l (by omega)
  have part : l.toNat / 2 ^ (64 - i) < 2 ^ i := by
    rw [Nat.div_lt_iff_lt_mul (Nat.two_pow_pos _), ← pow_add, Nat.add_sub_cancel' (by omega)]
    exact l.toNat_lt
  have joined : ((h <<< ofNat i) ||| (l >>> ofNat (64 - i))).toNat =
      h.toNat * 2 ^ i + l.toNat / 2 ^ (64 - i) := by
    rw [or_add (k := i) (by rw [raised]; exact Nat.dvd_mul_left _ _) (by rw [low]; exact part),
      raised, low]
  have divisor : (d <<< ofNat i).toNat = d.toNat * 2 ^ i := by
    rw [shiftLeft_toNat d small]
    exact Nat.mod_eq_of_lt room
  refine ⟨_, _, _, rfl, divisor, ?_, ?_⟩
  · rw [joined, divisor]
    omega
  · rw [joined, shiftLeft_toNat l small, add_mul, add_mul (h.toNat * 2 ^ 64),
      mul_right_comm h.toNat (2 ^ 64)]
    omega

theorem digits_quotient {n l0 q1 q2 r1 r2 v : Nat} (first : q1 * v + r1 = n)
    (second : q2 * v + r2 = r1 * 2 ^ 32 + l0) (least : r2 < v) :
    (n * 2 ^ 32 + l0) / v = q1 * 2 ^ 32 + q2 := by
  have whole : n * 2 ^ 32 + l0 = r2 + (q1 * 2 ^ 32 + q2) * v := by
    rw [← first, add_mul, add_assoc, ← second]
    ring
  rw [whole, add_mul_div_right _ _ (by omega), div_eq_of_lt least, zero_add]

theorem two_rounds_spec (l : UInt64) (normal : 2 ^ 63 ≤ d.toNat) (less : h.toNat < d.toNat) :
    ∃ q1 h1 l1, halfWordRound d h l = some (q1, h1, l1) ∧
      ∃ q2 h2 l2, halfWordRound d (((h1 <<< 32) ||| (l1 >>> 32)) &&& 0xffffffffffffffff)
        ((l1 &&& 0xffffffff) <<< 32) = some (q2, h2, l2) ∧
      (q1 <<< 32) ||| q2 = ofNat ((h.toNat * 2 ^ 64 + l.toNat) / d.toNat) := by
  obtain ⟨q1, h1, l1, isFirst, small1, first, less1, low1⟩ :=
    halfWordRound_spec (l := l) normal less
  have isH : (((h1 <<< 32) ||| (l1 >>> 32)) &&& 0xffffffffffffffff).toNat =
      h1.toNat * 2 ^ 32 + l1.toNat / 2 ^ 32 := by
    have ones : (0xffffffffffffffff : UInt64) = 0 - 1 := by decide
    have low := high_half l1
    have := l1.toNat_lt
    have := d.toNat_lt
    rw [ones, and_ones, joined_halves h1 (by omega), low]
    omega
  have isL : ((l1 &&& 0xffffffff) <<< 32).toNat = l.toNat % 2 ^ 32 * 2 ^ 32 := by
    rw [raised_half, low_half, mod_mod, low1]
  obtain ⟨q2, h2, l2, isSecond, small2, second, less2, -⟩ :=
    halfWordRound_spec (h := ((h1 <<< 32) ||| (l1 >>> 32)) &&& 0xffffffffffffffff)
      (l := (l1 &&& 0xffffffff) <<< 32) normal (by rw [isH]; exact less1)
  rw [isH, isL, Nat.mul_div_cancel _ (by decide)] at second
  have quotient := digits_quotient first second less2
  have joined : (h.toNat * 2 ^ 32 + l.toNat / 2 ^ 32) * 2 ^ 32 + l.toNat % 2 ^ 32 =
      h.toNat * 2 ^ 64 + l.toNat := by omega
  rw [joined] at quotient
  refine ⟨q1, h1, l1, isFirst, q2, h2, l2, isSecond, ?_⟩
  rw [quotient]
  exact joined_digits small2

theorem portable_div_words_quotient (nonzero : d ≠ 0) (less : h < d) :
    portableDivWords h l d = some (ofNat ((h.toNat * 2 ^ 64 + l.toNat) / d.toNat)) := by
  obtain ⟨most, some_, under, over_⟩ := bnNumBitsWord_bounds nonzero
  rw [UInt64.lt_iff_toNat_lt] at less
  rw [portableDivWords, if_neg nonzero]
  dsimp only
  generalize bnNumBitsWord d = bits at *
  have asserted : bits = 64 ∨ h ≤ 1 <<< ofNat bits := by
    by_cases full : bits = 64
    · exact .inl full
    · have bit : ((1 : UInt64) <<< ofNat bits).toNat = 2 ^ bits := by
        rw [shiftLeft_toNat 1 (by omega), UInt64.toNat_one, Nat.one_mul]
        exact Nat.mod_eq_of_lt (Nat.pow_lt_pow_right (by decide) (by omega))
      exact .inr (UInt64.le_iff_toNat_le.mpr (by omega))
  rw [if_neg (not_not_intro asserted), if_neg (UInt64.not_le.mpr (UInt64.lt_iff_toNat_lt.mpr less))]
  obtain ⟨i, small, rfl⟩ : ∃ i, i < 64 ∧ bits = 64 - i := ⟨64 - bits, by omega, by omega⟩
  have whole : (2 : Nat) ^ 64 = 2 ^ (64 - i) * 2 ^ i := by
    rw [← Nat.pow_add, Nat.sub_add_cancel (by omega)]
  obtain ⟨d1, h1, l1, is, isD, less, isN⟩ := words_aligned (l := l) small less
    (by rw [whole]; exact Nat.mul_lt_mul_of_pos_right under (Nat.two_pow_pos i))
  have normal : 2 ^ 63 ≤ d1.toNat := by
    have : 2 ^ (64 - i - 1) * 2 ^ i = 2 ^ 63 := by
      rw [← Nat.pow_add]
      congr 1
      omega
    rw [isD, ← this]
    exact Nat.mul_le_mul_right _ over_
  rw [Nat.sub_sub_self (by omega), is]
  obtain ⟨q1, h2, l2, isFirst, q2, _, _, isSecond, quotient⟩ := two_rounds_spec l1 normal less
  rw [isN, isD, Nat.mul_div_mul_right _ _ (Nat.two_pow_pos i)] at quotient
  dsimp only
  rw [isFirst]
  dsimp only
  rw [isSecond]
  exact congrArg some quotient

/-- The quotient is exact, as the shifts lose nothing and each half of it is a digit of the long
    division. -/
theorem portable_div_words_exact (nonzero : d ≠ 0) (less : h < d) :
    portableDivWords h l d = some (ofNat ((h.toNat * 2 ^ 64 + l.toNat) / d.toNat)) ∧
      (∀ i < 64, d.toNat * 2 ^ i < 2 ^ 64 → ∃ d1 h1 l1,
        (if i ≠ 0 then
          (d <<< ofNat i, (h <<< ofNat i) ||| (l >>> ofNat (64 - i)), l <<< ofNat i)
          else (d, h, l)) = (d1, h1, l1) ∧ d1.toNat = d.toNat * 2 ^ i ∧ h1.toNat < d1.toNat ∧
        h1.toNat * 2 ^ 64 + l1.toNat = (h.toNat * 2 ^ 64 + l.toNat) * 2 ^ i) ∧
      ∀ d h l : UInt64, 2 ^ 63 ≤ d.toNat → h.toNat < d.toNat →
        ∃ q h1 l1, halfWordRound d h l = some (q, h1, l1) ∧ q.toNat < 2 ^ 32 ∧
          q.toNat * d.toNat + (h1.toNat * 2 ^ 32 + l1.toNat / 2 ^ 32) =
            h.toNat * 2 ^ 32 + l.toNat / 2 ^ 32 ∧
          h1.toNat * 2 ^ 32 + l1.toNat / 2 ^ 32 < d.toNat ∧
          l1.toNat % 2 ^ 32 = l.toNat % 2 ^ 32 :=
  ⟨portable_div_words_quotient nonzero less,
    fun _ small room => words_aligned small (UInt64.lt_iff_toNat_lt.mp less) room,
    fun _ _ _ normal under => halfWordRound_spec normal under⟩

theorem portable_div_words_ten : portableDivWords 3 7 10 = some 5534023222112865485 :=
  (portable_div_words_exact (by decide) (by decide)).1

end
end Ossl
