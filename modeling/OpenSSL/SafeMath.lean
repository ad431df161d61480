import Mathlib.Data.Int.Order.Basic
import Mathlib.Tactic.Linarith
import Mathlib.Tactic.Ring

/- Arithmetic with an error flag, safe_math.h, with the compiler's builtins and without them. A
   function returns its value and what it adds to the flag. The types are no narrower than int. -/
namespace Ossl
open Int

def safeMins (h : Nat) : Int := -2 ^ h

def safeMaxs (h : Nat) : Int := 2 ^ h - 1

def safeMaxu (w : Nat) : Int := 2 ^ w - 1

/- __builtin_add_overflow and its like: the exact result if the type has it, else an error and
   what the helper returns then. -/
def builtinResult (min max exact other : Int) : Int × Bool :=
  if min ≤ exact ∧ exact ≤ max then (exact, false) else (other, true)

def builtinAdds (min max a b : Int) : Int × Bool :=
  builtinResult min max (a + b) (if a < 0 then min else max)

def builtinSubs (min max a b : Int) : Int × Bool :=
  builtinResult min max (a - b) (if a < 0 then min else max)

def builtinMuls (min max a b : Int) : Int × Bool :=
  builtinResult min max (a * b) (if (a < 0) ≠ (b < 0) then min else max)

def builtinAddu (max a b : Int) : Int × Bool := builtinResult 0 max (a + b) ((a + b) % (max + 1))

def builtinMulu (max a b : Int) : Int × Bool := builtinResult 0 max (a * b) ((a * b) % (max + 1))

def safeAdds (min max a b : Int) : Int × Bool :=
  if (a < 0) ≠ (b < 0) ∨ 0 < a ∧ b ≤ max - a ∨ a < 0 ∧ b ≥ min - a ∨ a = 0 then (a + b, false)
  else (if a < 0 then min else max, true)

def safeSubs (min max a b : Int) : Int × Bool :=
  if ¬(a < 0) ≠ (b < 0) ∨ 0 < b ∧ a ≥ min + b ∨ b < 0 ∧ a ≤ max + b ∨ b = 0 then (a - b, false)
  else (if a < 0 then min else max, true)

def safeMuls (min max a b : Int) : Int × Bool :=
  if a = 0 ∨ b = 0 then (0, false)
  else if a = 1 then (b, false)
  else if b = 1 then (a, false)
  else
    let x := if a < 0 then -a else a
    let y := if b < 0 then -b else b
    if a ≠ min ∧ b ≠ min ∧ x ≤ max / y then (a * b, false)
    else (if (a < 0) ≠ (b < 0) then min else max, true)

def safeAddu (max a b : Int) : Int × Bool := ((a + b) % (max + 1), decide (b > max - a))

def safeSubu (max a b : Int) : Int × Bool := ((a - b) % (max + 1), decide (b > a))

def safeMulu (max a b : Int) : Int × Bool := ((a * b) % (max + 1), decide (b ≠ 0 ∧ a > max / b))

def safeMuldivu (max a b c : Int) : Int × Bool :=
  if c = 0 then (if a = 0 ∨ b = 0 then 0 else max, true)
  else
    let (x, e2) := safeMulu max a b
    if e2 = false then (x / c, false)
    else
      let (a, b) := if b > a then (b, a) else (a, b)
      let (x, ex) := safeMulu max (a % c) b
      let (y, ey) := safeMulu max (a / c) b
      let (r, er) := safeAddu max y (x / c)
      (r, ex || ey || er)

section
variable {min max a b c : Int}

theorem safe_adds_builtin (whole : max = -min - 1) (lowA : min ≤ a) (highA : a ≤ max)
    (lowB : min ≤ b) (highB : b ≤ max) : safeAdds min max a b = builtinAdds min max a b := by
  unfold safeAdds builtinAdds builtinResult
  by_cases negA : a < 0 <;> by_cases negB : b < 0 <;>
    simp only [negA, negB, ne_eq, not_true, not_false_eq_true, true_or, false_or, if_true,
      eq_iff_iff, iff_true, iff_false, true_and, false_and, if_false]
  · exact if_congr (by omega) rfl rfl
  · exact (if_pos (by omega)).symm
  · exact (if_pos (by omega)).symm
  · exact if_congr (by omega) rfl rfl

theorem safe_subs_builtin (whole : max = -min - 1) (lowA : min ≤ a) (highA : a ≤ max)
    (lowB : min ≤ b) (highB : b ≤ max) : safeSubs min max a b = builtinSubs min max a b := by
  unfold safeSubs builtinSubs builtinResult
  by_cases negA : a < 0 <;> by_cases negB : b < 0 <;>
    simp only [negA, negB, ne_eq, not_true, not_false_eq_true, true_or, false_or, if_true,
      eq_iff_iff, iff_true, iff_false, true_and, false_and, if_false]
  · exact (if_pos (by omega)).symm
  · exact if_congr (by omega) rfl rfl
  · exact if_congr (by omega) rfl rfl
  · exact (if_pos (by omega)).symm

theorem mul_test_iff (whole : max = -min - 1) (zeroA : a ≠ 0) (zeroB : b ≠ 0) :
    (a ≠ min ∧ b ≠ min ∧ (if a < 0 then -a else a) ≤ max / (if b < 0 then -b else b)) ↔
      |a| * |b| ≤ max := by
  have magnitude (x : Int) : (if x < 0 then -x else x) = |x| := by
    split
    · exact (abs_of_neg ‹_›).symm
    · exact (abs_of_nonneg (by omega)).symm
  have posA : 1 ≤ |a| := Int.one_le_abs zeroA
  have posB : 1 ≤ |b| := Int.one_le_abs zeroB
  have overA : |a| ≤ |a| * |b| := le_mul_of_one_le_right (by omega) posB
  have overB : |b| ≤ |a| * |b| := le_mul_of_one_le_left (by omega) posA
  rw [magnitude, magnitude, Int.le_ediv_iff_mul_le (by omega : 0 < |b|)]
  refine ⟨fun fits => fits.2.2, fun fits => ⟨?_, ?_, fits⟩⟩
  · have := neg_le_abs a
    omega
  · have := neg_le_abs b
    omega

theorem safe_muls_builtin (whole : max = -min - 1) (lowA : min ≤ a) (highA : a ≤ max)
    (lowB : min ≤ b) (highB : b ≤ max) :
    safeMuls min max a b = builtinMuls min max a b ↔ ¬(a * b = min ∧ a ≠ 1 ∧ b ≠ 1) := by
  unfold safeMuls builtinMuls builtinResult
  by_cases zero : a = 0 ∨ b = 0
  · have none_ : a * b = 0 := mul_eq_zero.mpr zero
    rw [if_pos zero, none_, if_pos (by omega)]
    simp only [true_iff]
    rintro ⟨least, _, _⟩
    omega
  by_cases oneA : a = 1
  · simp [oneA, lowB, highB]
    omega
  by_cases oneB : b = 1
  · simp only [oneA, oneB, mul_one, lowA, highA, and_self, if_true, if_false, ne_eq, not_true,
      and_false, not_false_eq_true, iff_true]
    exact if_neg (by omega)
  have product : a * b = if (a < 0) ≠ (b < 0) then -(|a| * |b|) else |a| * |b| := by
    rcases lt_or_ge a 0 with negA | posA <;> rcases lt_or_ge b 0 with negB | posB <;>
      simp [*, abs_of_neg, abs_of_nonneg, not_lt.mpr]
  have large : 0 ≤ |a| * |b| := mul_nonneg (abs_nonneg a) (abs_nonneg b)
  rw [if_neg zero, if_neg oneA, if_neg oneB, product]
  rw [not_or] at zero
  simp only [mul_test_iff whole zero.1 zero.2]
  generalize |a| * |b| = size at large
  by_cases near : size ≤ max <;> by_cases mixed : (a < 0) ≠ (b < 0) <;>
    simp only [near, mixed, if_true, if_false]
  · grind
  · grind
  · grind
  · grind

theorem safe_addu_builtin (lowA : 0 ≤ a) (lowB : 0 ≤ b) :
    safeAddu max a b = builtinAddu max a b := by
  unfold safeAddu builtinAddu builtinResult
  by_cases fits : a + b ≤ max
  · rw [if_pos ⟨by omega, fits⟩, emod_eq_of_lt (by omega) (by omega),
      decide_eq_false (by omega)]
  · rw [if_neg (by omega), decide_eq_true (by omega)]

theorem safe_mulu_builtin (lowA : 0 ≤ a) (lowB : 0 ≤ b) (highA : a ≤ max) :
    safeMulu max a b = builtinMulu max a b := by
  unfold safeMulu builtinMulu builtinResult
  have large : 0 ≤ a * b := mul_nonneg lowA lowB
  have test : b ≠ 0 ∧ a > max / b ↔ ¬a * b ≤ max := by
    rcases lt_or_eq_of_le lowB with pos | zero
    · rw [gt_iff_lt, Int.ediv_lt_iff_lt_mul pos, not_le]
      exact and_iff_right (by omega)
    · simp [← zero]
      omega
  simp only [test]
  by_cases fits : a * b ≤ max
  · rw [if_pos ⟨large, fits⟩, emod_eq_of_lt large (by omega), decide_eq_false (by omega)]
  · rw [if_neg (by omega), decide_eq_true fits]

theorem safe_mulu_exact (lowA : 0 ≤ a) (lowB : 0 ≤ b) (highA : a ≤ max)
    (clear : (safeMulu max a b).2 = false) : (safeMulu max a b).1 = a * b := by
  rw [safe_mulu_builtin lowA lowB highA, builtinMulu, builtinResult] at *
  split at clear
  · rw [if_pos ‹_›]
  · exact nomatch clear

theorem safe_addu_exact (lowA : 0 ≤ a) (lowB : 0 ≤ b) (clear : (safeAddu max a b).2 = false) :
    (safeAddu max a b).1 = a + b := by
  rw [safe_addu_builtin lowA lowB, builtinAddu, builtinResult] at *
  split at clear
  · rw [if_pos ‹_›]
  · exact nomatch clear

theorem muldiv_split (pos : 0 < c) : a / c * b + a % c * b / c = a * b / c := by
  conv_rhs => rw [← mul_ediv_add_emod a c, add_mul, mul_assoc]
  rw [add_ediv_of_dvd_left (dvd_mul_right _ _), mul_ediv_cancel_left _ pos.ne']

theorem safe_muldivu_exact (lowA : 0 ≤ a) (highA : a ≤ max) (lowB : 0 ≤ b) (highB : b ≤ max)
    (lowC : 0 ≤ c) (clear : (safeMuldivu max a b c).2 = false) :
    (safeMuldivu max a b c).1 = a * b / c := by
  unfold safeMuldivu at clear ⊢
  split at clear
  · exact nomatch clear
  have pos : 0 < c := by omega
  rw [if_neg ‹_›]
  dsimp only at clear ⊢
  by_cases first : (safeMulu max a b).2 = false
  · rw [if_pos first, safe_mulu_exact lowA lowB highA first]
  rw [if_neg first] at clear ⊢
  have rest {a b : Int} (lowA : 0 ≤ a) (highA : a ≤ max) (lowB : 0 ≤ b) (highB : b ≤ max)
      (clear : ((safeMulu max (a % c) b).2 || (safeMulu max (a / c) b).2 ||
        (safeAddu max (safeMulu max (a / c) b).1 ((safeMulu max (a % c) b).1 / c)).2) = false) :
      (safeAddu max (safeMulu max (a / c) b).1 ((safeMulu max (a % c) b).1 / c)).1 = a * b / c := by
    simp only [Bool.or_eq_false_iff] at clear
    have lowR := emod_nonneg a pos.ne'
    have lowQ := ediv_nonneg lowA lowC
    have highR : a % c ≤ max := by
      have parts := mul_ediv_add_emod a c
      have := mul_nonneg lowC lowQ
      omega
    have highQ : a / c ≤ max := le_trans (ediv_le_self c lowA) highA
    rw [safe_mulu_exact lowR lowB highR clear.1.1, safe_mulu_exact lowQ lowB highQ clear.1.2] at *
    rw [safe_addu_exact (mul_nonneg lowQ lowB) (ediv_nonneg (mul_nonneg lowR lowB) lowC)
      clear.2, muldiv_split pos]
  by_cases larger : b > a
  · rw [if_pos larger] at clear ⊢
    rw [rest lowB highB lowA highA clear, mul_comm]
  · rw [if_neg larger] at clear ⊢
    exact rest lowA highA lowB highB clear

end

theorem safe_math_fallbacks (h w : Nat) (a b x y z : Int) (lowA : safeMins h ≤ a)
    (highA : a ≤ safeMaxs h) (lowB : safeMins h ≤ b) (highB : b ≤ safeMaxs h) (lowX : 0 ≤ x)
    (highX : x ≤ safeMaxu w) (lowY : 0 ≤ y) (highY : y ≤ safeMaxu w) (lowZ : 0 ≤ z) :
    (safeAdds (safeMins h) (safeMaxs h) a b = builtinAdds (safeMins h) (safeMaxs h) a b ∧
      safeSubs (safeMins h) (safeMaxs h) a b = builtinSubs (safeMins h) (safeMaxs h) a b ∧
      safeMuls (safeMins h) (safeMaxs h) a b = builtinMuls (safeMins h) (safeMaxs h) a b ∧
      safeAddu (safeMaxu w) x y = builtinAddu (safeMaxu w) x y ∧
      ((safeSubu (safeMaxu w) x y).2 = false ↔ 0 ≤ x - y) ∧
      safeMulu (safeMaxu w) x y = builtinMulu (safeMaxu w) x y ∧
      ((safeMuldivu (safeMaxu w) x y z).2 = false →
        (safeMuldivu (safeMaxu w) x y z).1 = x * y / z)) ↔
      ¬(a * b = safeMins h ∧ a ≠ 1 ∧ b ≠ 1) := by
  have whole : safeMaxs h = -safeMins h - 1 := by
    unfold safeMaxs safeMins
    omega
  rw [← safe_muls_builtin whole lowA highA lowB highB]
  refine ⟨fun all => all.2.2.1, fun products => ⟨safe_adds_builtin whole lowA highA lowB highB,
    safe_subs_builtin whole lowA highA lowB highB, products, safe_addu_builtin lowX lowY, ?_,
    safe_mulu_builtin lowX lowY highX, safe_muldivu_exact lowX highX lowY highY lowZ⟩⟩
  simp [safeSubu]

theorem safe_math_fallbacks_int :
    (-3) * 4 ≠ safeMins 31 ∧ safeMuls (safeMins 31) (safeMaxs 31) (-3) 4 = (-12, false) :=
  ⟨by decide, ((safe_math_fallbacks 31 32 (-3) 4 7 6 5 (by decide) (by decide) (by decide)
    (by decide) (by decide) (by decide) (by decide) (by decide) (by decide)).mpr (by decide)).2.2.1⟩

theorem least_product_refused :
    safeMuls (safeMins 31) (safeMaxs 31) (-2) (2 ^ 30) = (safeMins 31, true) ∧
      builtinMuls (safeMins 31) (safeMaxs 31) (-2) (2 ^ 30) = (safeMins 31, false) := by
  decide

end Ossl
