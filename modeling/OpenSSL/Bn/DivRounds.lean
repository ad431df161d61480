import OpenSSL.Lib.KnuthDivision
import OpenSSL.Bn.Div

/- The rounds of the long division in bn_div.c: the estimate of a word of the quotient is never more
   than one too large, and the words and the remainder are exact. -/
namespace Ossl
open Nat UInt64 List CarryChain Digits

variable {k n : Nat}

theorem value_take_succ (l : List UInt64) (within : k < l.length) :
    wordsValue (l.take (k + 1)) = wordsValue (l.take k) + (2 ^ 64) ^ k * (l.getD k 0).toNat := by
  rw [take_succ_eq_append_getElem within, wordsValue, value_concat, length_take,
    min_eq_left (by omega), getD_eq_getElem _ _ within]

theorem sub_one_toNat {x : UInt64} (pos : 0 < x.toNat) : (x - 1).toNat = x.toNat - 1 := by
  have one : (1 : UInt64).toNat = 1 := rfl
  have le : (1 : UInt64) ≤ x := by
    rw [le_iff_toNat_le, one]
    omega
  rw [UInt64.toNat_sub_of_le _ _ le, one]

theorem two_words_less {h l d p : Nat} (wd : d < 2 ^ 64) (less : l < d) (some_ : 0 < h)
    (total : h * 2 ^ 64 + l = p + d) : (h - 1) * 2 ^ 64 + (2 ^ 64 - d + l) % 2 ^ 64 = p := by
  generalize (2 : Nat) ^ 64 = b at *
  obtain ⟨k, rfl⟩ := exists_eq_succ_of_ne_zero (pos_iff_ne_zero.mp some_)
  rw [mod_eq_of_lt (by omega), succ_sub_one]
  rw [succ_eq_add_one, Nat.add_mul, Nat.one_mul] at total
  omega

/-- Lowering the quotient ends within the rounds, with the quotient of three words by two. -/
theorem estimateLoop_spec {d0 d1 n2 : UInt64} (rounds : Nat) {q rem t2l t2h : UInt64}
    (enough : 2 ^ 64 ≤ rem.toNat + rounds * d0.toNat)
    (division : q.toNat * d0.toNat + rem.toNat = n)
    (product : t2h.toNat * 2 ^ 64 + t2l.toNat = d1.toNat * q.toNat)
    (above : n * 2 ^ 64 + n2.toNat < (q.toNat + 1) * (d0.toNat * 2 ^ 64 + d1.toNat)) :
    ∃ e, estimateLoop d0 d1 n2 rounds q rem t2l t2h = some e ∧
      e.toNat * (d0.toNat * 2 ^ 64 + d1.toNat) ≤ n * 2 ^ 64 + n2.toNat ∧
      n * 2 ^ 64 + n2.toNat < (e.toNat + 1) * (d0.toNat * 2 ^ 64 + d1.toNat) := by
  have wd1 := d1.toNat_lt
  have wn := n2.toNat_lt
  induction rounds generalizing q rem t2l t2h with
  | zero =>
    have := rem.toNat_lt
    omega
  | succ rounds ih =>
    have wl := t2l.toNat_lt
    have wh := t2h.toNat_lt
    have whole : q.toNat * (d0.toNat * 2 ^ 64 + d1.toNat) + rem.toNat * 2 ^ 64 =
        n * 2 ^ 64 + (t2h.toNat * 2 ^ 64 + t2l.toNat) := by
      rw [product, ← division]
      ring
    rw [estimateLoop]
    by_cases fits : t2h < rem ∨ t2h = rem ∧ t2l ≤ n2
    · rw [if_pos fits]
      have small : t2h.toNat * 2 ^ 64 + t2l.toNat ≤ rem.toNat * 2 ^ 64 + n2.toNat := by
        rcases fits with less | ⟨rfl, low⟩
        · have := lt_iff_toNat_lt.mp less
          omega
        · have := le_iff_toNat_le.mp low
          omega
      exact ⟨q, rfl, by omega, above⟩
    · rw [if_neg fits]
      have large : rem.toNat * 2 ^ 64 + n2.toNat < t2h.toNat * 2 ^ 64 + t2l.toNat := by
        by_contra not
        apply fits
        by_cases same : t2h.toNat = rem.toNat
        · exact .inr ⟨UInt64.toNat_inj.mp same, le_iff_toNat_le.mpr (by omega)⟩
        · exact .inl (lt_iff_toNat_lt.mpr (by omega))
      have some_ : 0 < q.toNat := by
        by_contra none_
        have zero : q.toNat = 0 := by omega
        rw [zero, Nat.mul_zero] at product
        omega
      have less := sub_one_toNat some_
      have sum : (rem + d0).toNat = (rem.toNat + d0.toNat) % 2 ^ 64 := UInt64.toNat_add _ _
      obtain ⟨k, is⟩ := exists_eq_succ_of_ne_zero (pos_iff_ne_zero.mp some_)
      have step : (k + 1) * (d0.toNat * 2 ^ 64 + d1.toNat) =
          k * (d0.toNat * 2 ^ 64 + d1.toNat) + (d0.toNat * 2 ^ 64 + d1.toNat) := by ring
      rw [is, succ_eq_add_one] at whole
      have next : n * 2 ^ 64 + n2.toNat < (k + 1) * (d0.toNat * 2 ^ 64 + d1.toNat) := by
        linarith only [whole, large]
      by_cases over_ : rem + d0 < d0
      · rw [if_pos over_]
        have wraps := lt_iff_toNat_lt.mp over_
        rw [is, succ_eq_add_one, Nat.mul_add, Nat.mul_one] at product
        refine ⟨q - 1, rfl, ?_, ?_⟩
        · rw [less, is, succ_sub_one]
          omega
        · rw [less, is, succ_sub_one]
          exact next
      · rw [if_neg over_]
        have stays := mt lt_iff_toNat_lt.mpr over_
        have exact_ : (rem + d0).toNat = rem.toNat + d0.toNat := by
          rw [sum] at stays ⊢
          omega
        rw [is, succ_eq_add_one, Nat.mul_add, Nat.mul_one] at product
        apply ih
        · rw [exact_]
          rw [Nat.add_mul, Nat.one_mul] at enough
          omega
        · rw [exact_, less, is, succ_sub_one, ← division, is, succ_eq_add_one]
          ring
        · rw [less, is, succ_sub_one, UInt64.toNat_sub]
          by_cases borrows : t2l < d1
          · have := lt_iff_toNat_lt.mp borrows
            rw [if_pos borrows]
            have high : 0 < t2h.toNat := by
              by_contra none_
              omega
            rw [sub_one_toNat high]
            exact two_words_less wd1 this high product
          · have := mt lt_iff_toNat_lt.mpr borrows
            rw [if_neg borrows]
            omega
        · rw [less, is, succ_sub_one]
          exact next

/-- The estimate is the quotient of the three leading words by the two of the divisor. -/
theorem divEstimate_spec {d0 d1 n0 n1 n2 : UInt64} (aligned : 2 ^ 63 ≤ d0.toNat)
    (less : n0.toNat < d0.toNat) :
    ∃ e, divEstimate d0 d1 n0 n1 n2 = some e ∧
      e.toNat * (d0.toNat * 2 ^ 64 + d1.toNat) ≤
        (n0.toNat * 2 ^ 64 + n1.toNat) * 2 ^ 64 + n2.toNat ∧
      (n0.toNat * 2 ^ 64 + n1.toNat) * 2 ^ 64 + n2.toNat <
        (e.toNat + 1) * (d0.toNat * 2 ^ 64 + d1.toNat) := by
  have differ : n0 ≠ d0 := by
    rintro rfl
    omega
  have under : n0 < d0 := lt_iff_toNat_lt.mpr less
  obtain ⟨small, division⟩ := divStep_spec n1 under
  rw [divStep] at small division
  dsimp only at small division
  rw [divEstimate, if_neg differ]
  dsimp only
  generalize bnDivWords n0 n1 d0 = q at *
  generalize n1 - q * d0 = rem at *
  have below := lt_iff_toNat_lt.mp small
  have wd1 := d1.toNat_lt
  have wq := q.toNat_lt
  have wn := n2.toNat_lt
  have most : d1.toNat * q.toNat ≤ (2 ^ 64 - 1) * (2 ^ 64 - 1) :=
    Nat.mul_le_mul (by omega) (by omega)
  rw [bnUmultLohi]
  apply estimateLoop_spec
  · omega
  · rw [mul_comm]
    omega
  · rw [toNat_ofNat', toNat_ofNat']
    omega
  · have first : n0.toNat * 2 ^ 64 + n1.toNat + 1 ≤ (q.toNat + 1) * d0.toNat := by
      rw [Nat.add_mul, Nat.one_mul, Nat.mul_comm q.toNat]
      omega
    have third : (q.toNat + 1) * d0.toNat * 2 ^ 64 ≤
        (q.toNat + 1) * (d0.toNat * 2 ^ 64 + d1.toNat) := by
      rw [mul_assoc]
      exact mul_le_mul_left _ (le_add_right _ _)
    omega

/- A divisor whose highest bit is set. -/
structure Aligned (sdiv : List UInt64) : Prop where
  some_ : 0 < sdiv.length
  bit : 2 ^ 63 ≤ (sdiv.getD (sdiv.length - 1) 0).toNat

theorem value_last {l : List UInt64} (length : l.length = k + 1) :
    wordsValue l = wordsValue (l.take k) + (2 ^ 64) ^ k * (l.getD k 0).toNat := by
  have whole := value_take_succ l (by omega : k < l.length)
  rwa [take_of_length_le (by omega)] at whole

theorem value_take_all {ws : List UInt64} (within : n ≤ ws.length)
    (less : wordsValue ws < (2 ^ 64) ^ n) : wordsValue (ws.take n) = wordsValue ws := by
  have parts := value_take_drop ws within
  by_cases none_ : wordsValue (ws.drop n) = 0
  · rw [parts, none_, Nat.mul_zero, Nat.add_zero]
  · have := Nat.le_mul_of_pos_right ((2 ^ 64) ^ n) (pos_of_ne_zero none_)
    omega

section Rounds
open KnuthDivision
variable {sdiv window : List UInt64}

theorem Aligned.least (aligned : Aligned sdiv) :
    2 ^ 63 * (2 ^ 64) ^ (sdiv.length - 1) ≤ wordsValue sdiv := by
  have some_ := aligned.some_
  rw [value_last (k := sdiv.length - 1) (by omega), mul_comm]
  exact le_trans (mul_le_mul_left _ aligned.bit) (le_add_left _ _)

/- With equal leading words the estimate is the largest word. -/
variable {d0 n0 : UInt64} {k p : Nat}

variable {low lowV : Nat} {e n1 : UInt64}

theorem estimate_equal {u : Nat} (bit : 2 ^ 63 ≤ d0.toNat) (small : low < p)
    (leading : 2 ^ 64 * p * d0.toNat ≤ u) (less : u < 2 ^ 64 * (low + p * d0.toNat)) :
    u / (low + p * d0.toNat) ≤ ((0 : UInt64) - 1).toNat ∧
      ((0 : UInt64) - 1).toNat ≤ u / (low + p * d0.toNat) + 1 := by
  have ones : ((0 : UInt64) - 1).toNat = 2 ^ 64 - 1 := rfl
  have swap : low + p * d0.toNat = d0.toNat * p + low := by ring
  rw [ones, swap]
  rw [swap] at less
  refine equal_near (b := 2 ^ 64) (by omega) small ?_ less
  calc d0.toNat * (2 ^ 64 * p) = 2 ^ 64 * p * d0.toNat := by ring
    _ ≤ u := leading

theorem estimate_one
    (most : e.toNat * (d0.toNat * 2 ^ 64) ≤ (n0.toNat * 2 ^ 64 + n1.toNat) * 2 ^ 64)
    (least : (n0.toNat * 2 ^ 64 + n1.toNat) * 2 ^ 64 < (e.toNat + 1) * (d0.toNat * 2 ^ 64)) :
    (n0.toNat * 2 ^ 64 + n1.toNat) / d0.toNat = e.toNat := by
  rw [← mul_assoc] at most least
  exact Nat.div_eq_of_lt_le (Nat.le_of_mul_le_mul_right most (Nat.two_pow_pos 64))
    (Nat.lt_of_mul_lt_mul_right least)

theorem estimate_more {d1 n2 : UInt64} {lowU : Nat} (bit : 2 ^ 63 ≤ d0.toNat) (smallV : lowV < p)
    (smallU : lowU < p)
    (most : e.toNat * (d0.toNat * 2 ^ 64 + d1.toNat) ≤
      (n0.toNat * 2 ^ 64 + n1.toNat) * 2 ^ 64 + n2.toNat)
    (least : (n0.toNat * 2 ^ 64 + n1.toNat) * 2 ^ 64 + n2.toNat <
      (e.toNat + 1) * (d0.toNat * 2 ^ 64 + d1.toNat)) :
    (((n0.toNat * 2 ^ 64 + n1.toNat) * 2 ^ 64 + n2.toNat) * p + lowU) /
        ((d0.toNat * 2 ^ 64 + d1.toNat) * p + lowV) ≤ e.toNat ∧
      e.toNat ≤ (((n0.toNat * 2 ^ 64 + n1.toNat) * 2 ^ 64 + n2.toNat) * p + lowU) /
        ((d0.toNat * 2 ^ 64 + d1.toNat) * p + lowV) + 1 := by
  have we := e.toNat_lt
  have large : 2 ^ 64 ≤ d0.toNat * 2 ^ 64 + d1.toNat := by omega
  exact leading_near (b := 2 ^ 64) smallV smallU most least (le_of_lt we) large

theorem leading_under {rest : Nat} (smallV : lowV < p)
    (less : rest + 2 ^ 64 * p * n0.toNat < 2 ^ 64 * (lowV + p * d0.toNat)) :
    n0.toNat ≤ d0.toNat := by
  by_contra above
  have more : 2 ^ 64 * p * (d0.toNat + 1) ≤ 2 ^ 64 * p * n0.toNat :=
    mul_le_mul_left _ (by omega)
  have split : 2 ^ 64 * p * (d0.toNat + 1) = 2 ^ 64 * (p * d0.toNat) + 2 ^ 64 * p := by ring
  rw [mul_add] at less
  omega

def Near (window sdiv : List UInt64) (e : UInt64) : Prop :=
  wordsValue window / wordsValue sdiv ≤ e.toNat ∧ e.toNat ≤ wordsValue window / wordsValue sdiv + 1

theorem low_lt {l : List UInt64} (within : k ≤ l.length) :
    wordsValue (l.take k) < (2 ^ 64) ^ k := by
  have lt := wordsValue_lt (l.take k)
  rwa [length_take, min_eq_left within] at lt

theorem near_equal (count : sdiv.length = k + 1) (length : window.length = k + 2)
    (bit : 2 ^ 63 ≤ (sdiv.getD k 0).toNat) (less : wordsValue window < 2 ^ 64 * wordsValue sdiv)
    (same : window.getD (k + 1) 0 = sdiv.getD k 0) : Near window sdiv (0 - 1) := by
  have divisor := value_last count
  have whole := value_last length
  have low := low_lt (show k ≤ sdiv.length by omega)
  rw [same] at whole
  rw [divisor] at less
  rw [Near, divisor]
  refine estimate_equal bit low ?_ less
  rw [whole, ← pow_succ' (2 ^ 64) k]
  exact le_add_left _ _

theorem near_under (count : sdiv.length = k + 1) (length : window.length = k + 2)
    (less : wordsValue window < 2 ^ 64 * wordsValue sdiv)
    (other : window.getD (k + 1) 0 ≠ sdiv.getD k 0) :
    (window.getD (k + 1) 0).toNat < (sdiv.getD k 0).toNat := by
  have divisor := value_last count
  have whole := value_last length
  rw [whole, divisor, pow_succ' (2 ^ 64) k] at less
  have le := leading_under (low_lt (show k ≤ sdiv.length by omega)) less
  have := mt UInt64.toNat_inj.mp other
  omega

theorem near_one (count : sdiv.length = 1) (length : window.length = 2)
    (bit : 2 ^ 63 ≤ (sdiv.getD 0 0).toNat)
    (less : wordsValue window < 2 ^ 64 * wordsValue sdiv) :
    ∃ e, divEstimate (sdiv.getD 0 0) 0 (window.getD 1 0) (window.getD 0 0) 0 = some e ∧
      Near window sdiv e := by
  by_cases same : window.getD 1 0 = sdiv.getD 0 0
  · exact ⟨0 - 1, if_pos same, near_equal count length bit less same⟩
  · obtain ⟨e, is, most, least⟩ := @divEstimate_spec _ 0 _ (window.getD 0 0) 0 bit
      (near_under count length less same)
    refine ⟨e, is, ?_⟩
    simp only [UInt64.toNat_zero, add_zero] at most least
    have exact_ := estimate_one most least
    have divisor : wordsValue sdiv = (sdiv.getD 0 0).toNat := by
      rw [value_last count, take_zero, Nat.pow_zero, Nat.one_mul]
      exact zero_add _
    have whole : wordsValue window = (window.getD 1 0).toNat * 2 ^ 64 +
        (window.getD 0 0).toNat := by
      have first : wordsValue (window.take 1) = (window.getD 0 0).toNat := by
        rw [value_take_succ window (by omega), take_zero, Nat.pow_zero, Nat.one_mul]
        exact zero_add _
      rw [value_last length, first, pow_one, add_comm, mul_comm]
    rw [Near, divisor, whole, exact_]
    exact ⟨le_refl _, le_succ _⟩

theorem near_more {m : Nat} (count : sdiv.length = m + 2) (length : window.length = m + 3)
    (bit : 2 ^ 63 ≤ (sdiv.getD (m + 1) 0).toNat)
    (less : wordsValue window < 2 ^ 64 * wordsValue sdiv) :
    ∃ e, divEstimate (sdiv.getD (m + 1) 0) (sdiv.getD m 0) (window.getD (m + 2) 0)
        (window.getD (m + 1) 0) (window.getD m 0) = some e ∧ Near window sdiv e := by
  by_cases same : window.getD (m + 2) 0 = sdiv.getD (m + 1) 0
  · exact ⟨0 - 1, if_pos same, near_equal count length bit less same⟩
  · obtain ⟨e, is, most, least⟩ := @divEstimate_spec _ (sdiv.getD m 0) _
      (window.getD (m + 1) 0) (window.getD m 0) bit (near_under count length less same)
    refine ⟨e, is, ?_⟩
    have near := estimate_more bit (low_lt (show m ≤ sdiv.length by omega))
      (low_lt (show m ≤ window.length by omega)) most least
    have divisor : wordsValue sdiv = ((sdiv.getD (m + 1) 0).toNat * 2 ^ 64 +
        (sdiv.getD m 0).toNat) * (2 ^ 64) ^ m + wordsValue (sdiv.take m) := by
      rw [value_last count, value_take_succ sdiv (by omega), pow_succ' (2 ^ 64) m]
      ring
    have whole : wordsValue window = (((window.getD (m + 2) 0).toNat * 2 ^ 64 +
        (window.getD (m + 1) 0).toNat) * 2 ^ 64 + (window.getD m 0).toNat) * (2 ^ 64) ^ m +
        wordsValue (window.take m) := by
      rw [value_last length, value_take_succ window (show m + 1 < window.length by omega),
        value_take_succ window (show m < window.length by omega), pow_succ' (2 ^ 64) (m + 1),
        pow_succ' (2 ^ 64) m]
      ring
    rw [Near, divisor, whole]
    exact near

/- What the subtraction of the estimate's product leaves, with the divisor added back to it if
   something was borrowed. -/
theorem restored {n w v e r q borrow carry top wnum : Nat} (isQ : q = w / v) (isR : r = w % v)
    (pos : 0 < v) (small : v < (2 ^ 64) ^ n) (near : e = q ∨ e = q + 1) (bit : borrow ≤ 1)
    (left : wnum + e * v = w + (2 ^ 64) ^ (n + 1) * borrow) (lowLt : low < (2 ^ 64) ^ n)
    (added : low + (2 ^ 64) ^ n * (carry + top) = wnum + borrow * v)
    (fits : wnum < (2 ^ 64) ^ (n + 1)) :
    e - borrow = q ∧ borrow ≤ e ∧ low = r ∧ (carry + top = 0 ∨ carry + top = 2 ^ 64) := by
  have division := div_add_mod w v
  rw [← isQ, ← isR] at division
  have rest : r < v := isR ▸ mod_lt w pos
  have split : ∀ k, low + (2 ^ 64) ^ n * (carry + top) = r + (2 ^ 64) ^ n * k →
      low = r ∧ carry + top = k := by
    intro k total
    generalize (2 ^ 64) ^ n = b at *
    have least : low % b = r % b := by
      have := congrArg (· % b) total
      simpa using this
    rw [mod_eq_of_lt lowLt, mod_eq_of_lt (by omega)] at least
    refine ⟨least, Nat.eq_of_mul_eq_mul_left (show 0 < b by omega) ?_⟩
    omega
  obtain rfl | rfl : borrow = 0 ∨ borrow = 1 := by omega
  · obtain rfl | rfl := near
    · have total : low + (2 ^ 64) ^ n * (carry + top) = r + (2 ^ 64) ^ n * 0 := by
        rw [mul_comm e v] at left
        omega
      obtain ⟨isLow, isTop⟩ := split 0 total
      exact ⟨rfl, zero_le _, isLow, .inl isTop⟩
    · rw [Nat.add_mul, Nat.one_mul, Nat.mul_comm q v] at left
      omega
  · obtain rfl | rfl := near
    · rw [mul_comm e v] at left
      omega
    · have total : low + (2 ^ 64) ^ n * (carry + top) = r + (2 ^ 64) ^ n * 2 ^ 64 := by
        rw [Nat.add_mul, Nat.one_mul, Nat.mul_comm q v] at left
        omega
      obtain ⟨isLow, isTop⟩ := split (2 ^ 64) total
      exact ⟨rfl, Nat.le_add_left _ _, isLow, .inr isTop⟩

theorem product_pass (e : UInt64) (xs : List UInt64) :
    wordsValue (up (fun a _ c => mulStep e a c) xs xs 0).1 +
        (2 ^ 64) ^ xs.length * (up (fun a _ c => mulStep e a c) xs xs 0).2.toNat =
      e.toNat * wordsValue xs := by
  have whole := (@words_up (fun a _ c => mulStep e a c) (fun _ => True) xs xs 0 UInt64.toNat
    e.toNat 0 (fun x y c _ => ⟨trivial, by simpa using mulStep_spec e x c⟩) rfl trivial).2
  simpa using whole

theorem masked_value (borrow : UInt64) (bit : borrow.toNat ≤ 1) (xs : List UInt64) :
    wordsValue (xs.map (· &&& (0 - borrow))) = borrow.toNat * wordsValue xs := by
  obtain rfl | rfl := bit_cases bit
  · have none_ : ∀ x : UInt64, x &&& (0 - 0) = 0 := fun x => by simp
    induction xs with
    | nil => rfl
    | cons x xs ih =>
      rw [map_cons, none_, wordsValue, value_cons, ← wordsValue, ih]
      simp
  · have same : xs.map (· &&& ((0 : UInt64) - 1)) = xs := by
      rw [map_congr_left (fun x _ => and_ones x), map_id']
    rw [same]
    simp

/-- One round divides the words of the window, and leaves the remainder under a zero word. -/
theorem divRound_spec (aligned : Aligned sdiv) (length : window.length = sdiv.length + 1)
    (less : wordsValue window < 2 ^ 64 * wordsValue sdiv) :
    ∃ round, divRound sdiv window = some round ∧ round.window = window ∧
      round.q.toNat = wordsValue window / wordsValue sdiv ∧
      (round.estimate.toNat = round.q.toNat ∨ round.estimate.toNat = round.q.toNat + 1) ∧
      round.left.length = sdiv.length + 1 ∧
      wordsValue (round.left.take sdiv.length) = wordsValue window % wordsValue sdiv ∧
      round.left.getD sdiv.length 0 = 0 := by
  obtain ⟨e, estimated, near⟩ : ∃ e, divEstimate (sdiv.getD (sdiv.length - 1) 0)
      (if sdiv.length = 1 then 0 else sdiv.getD (sdiv.length - 2) 0) (window.getD sdiv.length 0)
      (window.getD (sdiv.length - 1) 0)
      (if sdiv.length = 1 then 0 else window.getD (sdiv.length - 2) 0) = some e ∧
      Near window sdiv e := by
    have some_ := aligned.some_
    have bit := aligned.bit
    by_cases one : sdiv.length = 1
    · rw [if_pos one, if_pos one]
      simp only [one] at bit length ⊢
      exact near_one one length bit less
    · rw [if_neg one, if_neg one]
      obtain ⟨m, count⟩ := Nat.exists_eq_add_of_le (show 2 ≤ sdiv.length by omega)
      rw [add_comm] at count
      simp only [count, Nat.add_sub_cancel, show m + 2 - 1 = m + 1 by omega] at bit length ⊢
      exact near_more count length bit less
  rw [divRound]
  simp only [estimated]
  have product := product_pass e sdiv
  have tmpLength := up_length (fun a _ c => mulStep e a c)
    (show sdiv.length = sdiv.length from rfl) 0
  generalize up (fun a _ c => mulStep e a c) sdiv sdiv 0 = tmp at *
  have tmpValue : wordsValue (tmp.1 ++ [tmp.2]) = e.toNat * wordsValue sdiv := by
    rw [wordsValue, value_concat, tmpLength]
    exact product
  have same : window.length = (tmp.1 ++ [tmp.2]).length := by simp [length, tmpLength]
  obtain ⟨bit, left⟩ := words_borrow (fun c => c.toNat ≤ 1) 1
    (fun x y c good => by simpa using subStep_spec x y c good) same (c := 0) (by simp)
  have wnumLength := up_length subStep same 0
  generalize up subStep window (tmp.1 ++ [tmp.2]) 0 = wnum at *
  rw [tmpValue, UInt64.toNat_zero, Nat.one_mul, Nat.add_zero, length] at left
  rw [length] at wnumLength
  have mask := masked_value wnum.2 bit sdiv
  have same' : (wnum.1.take sdiv.length).length = (sdiv.map (· &&& (0 - wnum.2))).length := by
    simp [wnumLength]
  obtain ⟨carryBit, added⟩ := words_up (fun c => c.toNat ≤ 1) UInt64.toNat 1 1
    (fun x y c good => by simpa using addStep_spec x y c good) same' (c := 0) (by simp)
  have lowLength := up_length addStep same' 0
  generalize up addStep (wnum.1.take sdiv.length) (sdiv.map (· &&& (0 - wnum.2))) 0 = low at *
  rw [length_take, min_eq_left (by omega)] at added lowLength
  have wnumValue := value_last wnumLength
  have lowLt := wordsValue_lt low.1
  have wnumLt := wordsValue_lt wnum.1
  rw [lowLength] at lowLt
  rw [wnumLength] at wnumLt
  rw [mask, UInt64.toNat_zero, Nat.one_mul, Nat.one_mul, Nat.add_zero] at added
  have pos : 0 < wordsValue sdiv :=
    Nat.lt_of_lt_of_le (Nat.mul_pos (by decide) (Nat.pow_pos (by decide))) aligned.least
  have total : wordsValue low.1 + (2 ^ 64) ^ sdiv.length *
      (low.2.toNat + (wnum.1.getD sdiv.length 0).toNat) =
      wordsValue wnum.1 + wnum.2.toNat * wordsValue sdiv := by
    rw [mul_add, wnumValue]
    omega
  have off : e.toNat = wordsValue window / wordsValue sdiv ∨
      e.toNat = wordsValue window / wordsValue sdiv + 1 := by
    rw [Near] at near
    omega
  obtain ⟨isQ, enough, isLow, isTop⟩ :=
    restored rfl rfl pos (wordsValue_lt sdiv) off bit left lowLt total wnumLt
  have q : (e - wnum.2).toNat = wordsValue window / wordsValue sdiv := by
    rw [UInt64.toNat_sub_of_le _ _ (le_iff_toNat_le.mpr enough), isQ]
  refine ⟨_, rfl, rfl, q, ?_, by simp [lowLength], ?_, ?_⟩
  · rw [q]
    exact off
  · rw [take_left' lowLength, isLow]
  · have zero : wnum.1.getD sdiv.length 0 + low.2 = 0 := by
      apply UInt64.toNat_inj.mp
      rw [UInt64.toNat_add, UInt64.toNat_zero]
      omega
    rw [getD_append_right _ _ _ _ (by omega), lowLength, Nat.sub_self]
    exact zero

end Rounds

/-- A round whose estimate is the word of the quotient or one above it, and which leaves the
    remainder under a zero word. -/
structure RoundExact (sdiv : List UInt64) (round : DivRound) : Prop where
  quotient : round.q.toNat = wordsValue round.window / wordsValue sdiv
  estimate : round.estimate.toNat = round.q.toNat ∨ round.estimate.toNat = round.q.toNat + 1
  remainder : wordsValue (round.left.take sdiv.length) = wordsValue round.window % wordsValue sdiv
  top : round.left.getD sdiv.length 0 = 0

section Rounds
variable {sdiv snum : List UInt64}

theorem Aligned.pos (aligned : Aligned sdiv) : 0 < wordsValue sdiv :=
  Nat.lt_of_lt_of_le (Nat.mul_pos (by decide) (Nat.pow_pos (by decide))) aligned.least

theorem value_window {i n : Nat} (within : i + n ≤ snum.length) :
    wordsValue snum = wordsValue (snum.take i) + (2 ^ 64) ^ i *
      (wordsValue ((snum.drop i).take n) + (2 ^ 64) ^ n * wordsValue (snum.drop (i + n))) := by
  rw [value_take_drop snum (by omega : i ≤ snum.length),
    value_take_drop (snum.drop i) (by rw [length_drop]; omega : n ≤ (snum.drop i).length),
    drop_drop]

theorem division_first {a w v b q r : Nat} (isQ : q = w / v) (isR : r = w % v) (pos : 0 < v) :
    (a + b * w) / v = (a + b * r) / v + b * q ∧ (a + b * w) % v = (a + b * r) % v := by
  have split : a + b * w = a + b * r + v * (b * q) := by
    rw [isQ, isR, mul_left_comm v b, add_assoc, ← mul_add, mod_add_div]
  rw [split, add_mul_div_left _ _ pos, add_mul_mod_self_left]
  exact ⟨rfl, rfl⟩

/-- The rounds give the words of the quotient and leave the remainder. -/
theorem divRounds_spec (aligned : Aligned sdiv) (i : Nat)
    (within : sdiv.length + i ≤ snum.length)
    (less : wordsValue snum < (2 ^ 64) ^ i * wordsValue sdiv) :
    ∃ left rounds, divRounds sdiv i snum = some (left, rounds) ∧ left.length = snum.length ∧
      rounds.length = i ∧ wordsValue (rounds.map (·.q)) = wordsValue snum / wordsValue sdiv ∧
      wordsValue left = wordsValue snum % wordsValue sdiv ∧
      ∀ round ∈ rounds, RoundExact sdiv round := by
  have pos := aligned.pos
  induction i generalizing snum with
  | zero =>
    rw [Nat.pow_zero, Nat.one_mul] at less
    refine ⟨snum, [], rfl, rfl, rfl, ?_, ?_, nofun⟩
    · rw [div_eq_of_lt less]
      rfl
    · rw [mod_eq_of_lt less]
  | succ i ih =>
    have whole := value_window (show i + (sdiv.length + 1) ≤ snum.length by omega)
    have length : ((snum.drop i).take (sdiv.length + 1)).length = sdiv.length + 1 := by
      rw [length_take, length_drop]
      omega
    have low := low_lt (show i ≤ snum.length by omega)
    rw [divRounds]
    generalize (snum.drop i).take (sdiv.length + 1) = window at *
    have part : wordsValue window + (2 ^ 64) ^ (sdiv.length + 1) *
        wordsValue (snum.drop (i + (sdiv.length + 1))) < 2 ^ 64 * wordsValue sdiv := by
      apply Nat.lt_of_mul_lt_mul_left (a := (2 ^ 64) ^ i)
      rw [← Nat.mul_assoc, ← pow_succ]
      omega
    have above : wordsValue (snum.drop (i + (sdiv.length + 1))) = 0 := by
      by_contra some_
      have most : 2 ^ 64 * wordsValue sdiv ≤ (2 ^ 64) ^ (sdiv.length + 1) := by
        rw [pow_succ' (2 ^ 64) sdiv.length]
        exact Nat.mul_le_mul_left _ (Nat.le_of_lt (wordsValue_lt sdiv))
      have least := Nat.le_mul_of_pos_right ((2 ^ 64) ^ (sdiv.length + 1))
        (Nat.pos_of_ne_zero some_)
      omega
    obtain ⟨round, is, inWindow, quotient, near, lengthLeft, rest, top⟩ :=
      divRound_spec aligned length (Nat.lt_of_le_of_lt (Nat.le_add_right _ _) part)
    have leftValue : wordsValue round.left = wordsValue window % wordsValue sdiv := by
      rw [value_last lengthLeft, rest, top, UInt64.toNat_zero, Nat.mul_zero, Nat.add_zero]
    have nextLength : (splice snum i round.left).length = snum.length := splice_length (by omega)
    have nextValue : wordsValue (splice snum i round.left) =
        wordsValue (snum.take i) + (2 ^ 64) ^ i * (wordsValue window % wordsValue sdiv) := by
      rw [splice, wordsValue, Digits.value_append, Digits.value_append, lengthLeft,
        ← wordsValue, ← wordsValue, ← wordsValue, above, Nat.mul_zero, Nat.add_zero,
        leftValue, length_take, Nat.min_eq_left (by omega)]
    have nextLess : wordsValue (splice snum i round.left) < (2 ^ 64) ^ i * wordsValue sdiv :=
      calc wordsValue (splice snum i round.left)
          < (2 ^ 64) ^ i * (wordsValue window % wordsValue sdiv + 1) := by
            rw [nextValue, Nat.mul_add, Nat.mul_one]
            omega
        _ ≤ (2 ^ 64) ^ i * wordsValue sdiv := Nat.mul_le_mul_left _ (mod_lt _ pos)
    obtain ⟨left, rounds, run, sameLength, count, quotients, remainder, exact_⟩ :=
      ih (by omega) nextLess
    rw [above, Nat.mul_zero, Nat.add_zero] at whole
    obtain ⟨first, same⟩ := @division_first (wordsValue (snum.take i)) (wordsValue window)
      (wordsValue sdiv) ((2 ^ 64) ^ i) _ _ quotient rfl pos
    rw [is]
    dsimp only
    rw [run]
    refine ⟨left, rounds ++ [round], rfl, sameLength.trans nextLength, by simp [count], ?_, ?_, ?_⟩
    · rw [map_append, map_singleton, wordsValue, Digits.value_concat, ← wordsValue,
        length_map, quotients, count, nextValue, whole, first]
    · rw [remainder, nextValue, whole, same]
    · intro other member
      rcases mem_append.mp member with before | last
      · exact exact_ other before
      · rw [mem_singleton.mp last]
        exact ⟨inWindow ▸ quotient, near, inWindow ▸ rest, top⟩

end Rounds

end Ossl
