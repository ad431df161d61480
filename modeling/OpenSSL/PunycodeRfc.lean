import OpenSSL.Punycode
import Mathlib.Data.Nat.Basic
import Mathlib.Algebra.Order.Ring.Nat

/- RFC 3492 and what the decoder makes of it. -/
namespace Ossl.Punycode
open Option Nat List Or

def Writes (digit : Nat) (c : UInt8) : Prop :=
  digit < 26 ∧ (c.toNat = 0x41 + digit ∨ c.toNat = 0x61 + digit) ∨
    26 ≤ digit ∧ digit < 36 ∧ c.toNat = 0x30 + (digit - 26)

def threshold (k bias : Nat) : Nat :=
  if k ≤ bias + tmin then tmin else if bias + tmax ≤ k then tmax else k - bias

def rfcAdaptRounds (delta k : Nat) : Nat :=
  if (base - tmin) * tmax / 2 < delta then rfcAdaptRounds (delta / (base - tmin)) (k + base)
  else k + (base - tmin + 1) * delta / (delta + skew)
termination_by delta
decreasing_by exact Nat.div_lt_self (by omega) (by decide)

def rfcAdapt (delta numpoints : Nat) (firsttime : Bool) : Nat :=
  let delta := if firsttime then delta / damp else delta / 2
  rfcAdaptRounds (delta + delta / numpoints) 0

/- A variable-length integer with the values that i takes, and each k with its weight. -/
inductive RfcDelta (bias : Nat) : List UInt8 → Nat → Nat → Nat →
    Nat → List UInt8 → List Nat → List (Nat × Nat) → Prop where
  | last {digit : Nat} {c : UInt8} {rest : List UInt8} {k w i : Nat} (writes : Writes digit c)
      (low : digit < threshold k bias) :
      RfcDelta bias (c :: rest) k w i (i + digit * w) rest [i + digit * w] [(k, w)]
  | more {digit : Nat} {c : UInt8} {rest rest' : List UInt8} {k w i i' : Nat} {seen : List Nat}
      {weights : List (Nat × Nat)} (writes : Writes digit c) (high : threshold k bias ≤ digit)
      (next : RfcDelta bias rest (k + base) (w * (base - threshold k bias)) (i + digit * w)
        i' rest' seen weights) :
      RfcDelta bias (c :: rest) k w i i' rest' ((i + digit * w) :: seen) ((k, w) :: weights)

/- The main loop with the values that i and n take. -/
inductive RfcRounds : Nat → Nat → Nat → List Nat → List UInt8 →
    List Nat → List Nat → List (Nat × Nat) → Prop where
  | done {n i bias : Nat} {output : List Nat} : RfcRounds n i bias output [] output [] []
  | round {n i bias i' : Nat} {output result : List Nat} {input rest : List UInt8}
      {seen seen' : List Nat} {weights weights' : List (Nat × Nat)}
      (delta : RfcDelta bias input base 1 i i' rest seen weights)
      (notBasic : ¬ n + i' / (output.length + 1) < 0x80)
      (next : RfcRounds (n + i' / (output.length + 1)) (i' % (output.length + 1) + 1)
        (rfcAdapt (i' - i) (output.length + 1) (decide (i = 0)))
        (output.insertIdx (i' % (output.length + 1)) (n + i' / (output.length + 1)))
        rest result seen' weights') :
      RfcRounds n i bias output input result
        (seen ++ (n + i' / (output.length + 1)) :: (i' % (output.length + 1) + 1) :: seen')
        (weights ++ weights')

inductive RfcDecode (input : List UInt8) (result seen : List Nat)
    (weights : List (Nat × Nat)) : Prop where
  | basic (basics rest : List UInt8) (split : input = basics ++ delimiter :: rest)
      (last : delimiter ∉ rest) (some_ : basics ≠ []) (all : ∀ c ∈ basics, c.toNat < 0x80)
      (rounds : RfcRounds initialN 0 initialBias (basics.map UInt8.toNat) rest result seen weights)
  | plain (none_ : ∀ basics rest, input = basics ++ delimiter :: rest → delimiter ∉ rest →
        basics = [])
      (rounds : RfcRounds initialN 0 initialBias [] input result seen weights)

variable {a b bias i i' k maxOut n w : Nat} {α : Type} {c : UInt8} {input rest : List UInt8}
    {output pDecoded seen seen1 seen2 : List Nat} {weights weights1 weights2 : List (Nat × Nat)}

theorem add32_fits (fits : a + b < 2 ^ 32) : add32 a b = .ok (a + b) := if_pos fits

theorem sub32_fits (le : b ≤ a) : sub32 a b = .ok (a - b) := if_pos le

theorem mul32_fits (fits : a * b < 2 ^ 32) : mul32 a b = .ok (a * b) := if_pos fits

theorem div32_fits (some_ : 0 < b) : div32 a b = .ok (a / b) := if_pos (by omega)

variable {β : Type} {m : Nat} {result1 result2 : List Nat}

theorem ok_then (a : α) (next : α → Run β) : ((.ok a : Run α) >>= next) = next a := rfl

theorem fail_then (pDecoded : List Nat) (next : α → Run β) :
    ((.error (.fail pDecoded) : Run α) >>= next) = .error (.fail pDecoded) := rfl

theorem digitDecoded_iff {digit : Nat} : digitDecoded c = some digit ↔ Writes digit c := by
  unfold digitDecoded Writes
  split_ifs with upper lower number
  · rw [some_inj]
    omega
  · rw [some_inj]
    omega
  · rw [some_inj]
    omega
  · constructor
    · intro bad
      contradiction
    · intro bad
      omega

theorem adaptRounds_rfc (delta k : Nat) (fits : k + delta < 2 ^ 32) :
    ∃ delta' k', adaptRounds delta k = .ok (delta', k') ∧ delta' ≤ 455 ∧ k' + delta' < 2 ^ 32 ∧
      rfcAdaptRounds delta k = k' + (base - tmin + 1) * delta' / (delta' + skew) := by
  induction delta using Nat.strong_induction_on generalizing k with
  | _ delta ih =>
    rw [adaptRounds, rfcAdaptRounds]
    by_cases more : (base - tmin) * tmax / 2 < delta
    · rw [if_pos more, if_pos more]
      have big : 455 < delta := more
      have step : add32 k base = .ok (k + 36) := add32_fits (by simp only [base]; omega)
      rw [step, ok_then]
      exact ih (delta / 35) (by omega) (k + 36) (by omega)
    · rw [if_neg more, if_neg more]
      exact ⟨delta, k, rfl, Nat.le_of_not_lt more, fits, rfl⟩

/-- A division by 35 costs at most 36. -/
theorem rfcAdaptRounds_le (m delta k : Nat) (small : delta < 62 * 35 ^ m) :
    rfcAdaptRounds delta k ≤ k + 36 * m + 22 := by
  have last : ∀ d k : Nat, d ≤ 455 → k + (base - tmin + 1) * d / (d + skew) ≤ k + 33 := by
    intro d k le
    have : 36 * d / (d + 38) ≤ 33 := by
      rw [div_le_iff_le_mul_add_pred (by omega)]
      omega
    exact Nat.add_le_add_left this k
  induction m generalizing delta k with
  | zero =>
    rw [pow_zero, mul_one] at small
    have none_ : ¬ (base - tmin) * tmax / 2 < delta := by
      simp only [base, tmin, tmax]
      omega
    rw [rfcAdaptRounds, if_neg none_]
    have : 36 * delta / (delta + 38) ≤ 22 := by
      rw [div_le_iff_le_mul_add_pred (by omega)]
      omega
    exact Nat.add_le_add_left this k
  | succ m ih =>
    rw [rfcAdaptRounds]
    by_cases more : (base - tmin) * tmax / 2 < delta
    · rw [if_pos more]
      have part : delta / 35 < 62 * 35 ^ m := by
        rw [div_lt_iff_lt_mul (by omega)]
        calc delta < 62 * 35 ^ (m + 1) := small
          _ = 62 * 35 ^ m * 35 := by rw [pow_succ, mul_assoc]
      have le : rfcAdaptRounds (delta / 35) (k + 36) ≤ k + 36 + 36 * m + 22 :=
        ih (delta / 35) (k + 36) part
      calc rfcAdaptRounds (delta / (base - tmin)) (k + base) ≤ k + 36 + 36 * m + 22 := le
        _ = k + 36 * (m + 1) + 22 := by omega
    · rw [if_neg more]
      have le := last delta k (Nat.le_of_not_lt more)
      omega

theorem adapt_rfc (delta : Nat) {numpoints : Nat} {firsttime : Bool} (small : delta < 2 ^ 32)
    (some_ : 0 < numpoints) (first : firsttime = true ∨ 2 ≤ numpoints) :
    adapt delta numpoints firsttime = .ok (rfcAdapt delta numpoints firsttime) ∧
      rfcAdapt delta numpoints firsttime ≤ 202 := by
  have start : ∀ d, d = (if firsttime = true then delta / damp else delta / 2) →
      d + d / numpoints < 62 * 35 ^ 5 := by
    intro d is
    cases first with
    | inl yes =>
      rw [if_pos yes] at is
      have part : d / numpoints ≤ d := div_le_self d numpoints
      have low : d ≤ 6135667 := by
        rw [is]
        simp only [damp]
        omega
      omega
    | inr two =>
      have part : d / numpoints ≤ d / 2 := div_le_div_left two (by decide)
      have low : d ≤ 2 ^ 31 - 1 := by
        rw [is]
        simp only [damp]
        split_ifs <;> omega
      omega
  have sum := start _ rfl
  obtain ⟨delta', k', rounds, low, fits, rfc⟩ := adaptRounds_rfc
    ((if firsttime = true then delta / damp else delta / 2) +
      (if firsttime = true then delta / damp else delta / 2) / numpoints) 0 (by omega)
  have bound := rfcAdaptRounds_le 5 _ 0 sum
  constructor
  · rw [adapt, rfcAdapt]
    rw [div32_fits some_, ok_then, add32_fits (by omega), ok_then, rounds, ok_then]
    dsimp only
    rw [mul32_fits (by simp only [base, tmin]; omega), ok_then,
      add32_fits (by simp only [skew]; omega), ok_then,
      div32_fits (by simp only [skew]; omega), ok_then, rfc]
    exact add32_fits (by rw [← rfc]; omega)
  · exact bound

theorem threshold_bounds (k bias : Nat) : 1 ≤ threshold k bias ∧ threshold k bias ≤ 26 := by
  unfold threshold tmin tmax
  split_ifs <;> omega

theorem writes_one {digit digit' : Nat} (first : Writes digit c) (other : Writes digit' c) :
    digit' = digit := by
  unfold Writes at first other
  omega

def Place (k w : Nat) : Prop := ∃ j, k = 36 * (j + 1) ∧ 10 ^ j ≤ w ∧ w ≤ 35 ^ j

def Small (seen : List Nat) : Prop := ∀ x ∈ seen, x ≤ maxint

theorem place_start : Place base 1 := ⟨0, rfl, le_refl 1, le_refl 1⟩

theorem place_next (place : Place k w) (bias : Nat) :
    Place (k + 36) (w * (base - threshold k bias)) := by
  obtain ⟨j, is, low, high⟩ := place
  have bounds := threshold_bounds k bias
  have least : 10 ≤ base - threshold k bias := by
    unfold base
    omega
  have most : base - threshold k bias ≤ 35 := by
    unfold base
    omega
  apply Exists.intro (j + 1)
  constructor
  · omega
  constructor
  · rw [pow_succ]
    exact Nat.mul_le_mul low least
  · rw [pow_succ]
    exact Nat.mul_le_mul high most

theorem place_bound (place : Place k w) (fits : w ≤ maxint) : k ≤ 360 := by
  obtain ⟨j, is, low, _⟩ := place
  have lt : 10 ^ j < 10 ^ 10 := by
    calc 10 ^ j ≤ w := low
      _ ≤ maxint := fits
      _ < 10 ^ 10 := by decide
  have few : j < 10 := (Nat.pow_lt_pow_iff_right (by decide)).mp lt
  omega

/-- The next weight fits as soon as the index does: the bias is too low for a small
    threshold at a large weight. -/
theorem weight_fits {digit : Nat} (place : Place k w) (low : bias ≤ 202)
    (high : threshold k bias ≤ digit) (fits : digit * w ≤ maxint) :
    w * (base - threshold k bias) ≤ maxint := by
  by_cases large : 18 ≤ threshold k bias
  · calc w * (base - threshold k bias) ≤ w * digit := by
          apply Nat.mul_le_mul_left
          unfold base
          omega
      _ = digit * w := mul_comm w digit
      _ ≤ maxint := fits
  · obtain ⟨j, is, _, most⟩ := place
    have near : k ≤ bias + 17 := by
      unfold threshold tmin tmax at large
      split_ifs at large <;> omega
    have few : j ≤ 5 := by omega
    calc w * (base - threshold k bias) ≤ 35 ^ 5 * 36 := by
          apply Nat.mul_le_mul
          · exact le_trans most (Nat.pow_le_pow_right (by decide) few)
          · exact sub_le 36 _
      _ ≤ maxint := by decide

theorem delta_head {digit : Nat} {rest' : List UInt8} (writes : Writes digit c)
    (delta : RfcDelta bias (c :: rest) k w i i' rest' seen weights) : i + digit * w ∈ seen := by
  cases delta with
  | last other =>
    rw [writes_one writes other]
    exact mem_cons_self
  | more other =>
    rw [writes_one writes other]
    exact mem_cons_self

theorem digitThreshold_is (k : Nat) (low : bias ≤ 202) :
    digitThreshold k bias = .ok (threshold k bias) := by
  have same : (if k ≤ bias then tmin else if bias + tmax ≤ k then tmax else k - bias) =
      threshold k bias := by
    unfold threshold tmin tmax
    split_ifs <;> omega
  rw [digitThreshold]
  by_cases early : k ≤ bias
  · rw [if_pos early] at same
    rw [if_pos early, same]
  · rw [if_neg early] at same
    rw [if_neg early, add32_fits (by unfold tmax; omega), ok_then, same]

theorem decodeDigits_cons {digit : Nat} (low : bias ≤ 202) (pDecoded : List Nat)
    (rest : List UInt8) (place : Place k w) (weight : w ≤ maxint) (wide : 0 < w)
    (decoded : digitDecoded c = some digit) (index : i + digit * w ≤ maxint) :
    decodeDigits bias pDecoded (c :: rest) k w i =
      if digit < threshold k bias then .ok (i + digit * w, rest)
      else decodeDigits bias pDecoded rest (k + 36) (w * (base - threshold k bias))
        (i + digit * w) := by
  have max : maxint = 2 ^ 32 - 1 := rfl
  have bounds := threshold_bounds k bias
  have room : ¬ (maxint - i) / w < digit := by
    rw [div_lt_iff_lt_mul wide]
    omega
  simp only [decodeDigits, decoded]
  rw [div32_fits wide, ok_then, if_neg room, mul32_fits (by omega), ok_then,
    add32_fits (by omega), ok_then, digitThreshold_is k low, ok_then]
  by_cases last : digit < threshold k bias
  · rw [if_pos last, if_pos last]
  · have next := weight_fits place low (Nat.le_of_not_lt last) (by omega)
    have few := place_bound place weight
    have factor : 0 < base - threshold k bias := by
      unfold base
      omega
    have light : ¬ maxint / (base - threshold k bias) < w := by
      rw [div_lt_iff_lt_mul factor]
      omega
    rw [if_neg last, if_neg last, div32_fits factor, ok_then, if_neg light,
      mul32_fits (by omega), ok_then, add32_fits (by unfold base; omega), ok_then]
    rfl

def DigitsAnswer (bias : Nat) (pDecoded : List Nat) (input : List UInt8) (k w i : Nat) : Prop :=
  (∃ i' rest seen weights, decodeDigits bias pDecoded input k w i = .ok (i', rest) ∧
    RfcDelta bias input k w i i' rest seen weights ∧ Small seen ∧
    (∀ p ∈ weights, p.1 ≤ 360 ∧ p.2 ≤ maxint) ∧ rest.length < input.length ∧
    i ≤ i' ∧ i' ≤ maxint) ∨
  (decodeDigits bias pDecoded input k w i = .error (.fail pDecoded) ∧
    ∀ i' rest seen weights, RfcDelta bias input k w i i' rest seen weights → ¬ Small seen)

theorem decodeDigits_answer (low : bias ≤ 202) (pDecoded : List Nat) (input : List UInt8)
    (place : Place k w) (weight : w ≤ maxint) (index : i ≤ maxint) :
    DigitsAnswer bias pDecoded input k w i := by
  induction input generalizing k w i with
  | nil =>
    apply inr
    constructor
    · rfl
    · intro i' rest seen weights delta
      nomatch delta
  | cons c rest ih =>
    cases decoded : digitDecoded c with
    | none =>
      apply inr
      constructor
      · simp only [decodeDigits, decoded]
      · intro i' rest' seen weights delta
        exfalso
        cases delta with
        | last writes =>
          rw [digitDecoded_iff.mpr writes] at decoded
          contradiction
        | more writes =>
          rw [digitDecoded_iff.mpr writes] at decoded
          contradiction
    | some digit =>
      have writes := digitDecoded_iff.mp decoded
      have wide : 0 < w := by
        obtain ⟨j, _, least, _⟩ := place
        exact lt_of_lt_of_le (Nat.pow_pos (by decide)) least
      by_cases much : i + digit * w ≤ maxint
      · have step := decodeDigits_cons low pDecoded rest place weight wide decoded much
        by_cases last : digit < threshold k bias
        · rw [if_pos last] at step
          apply inl
          refine ⟨i + digit * w, rest, [i + digit * w], [(k, w)], step, .last writes last, ?_, ?_,
            lt_succ_self _, Nat.le_add_right _ _, much⟩
          · intro x member
            rw [mem_singleton.mp member]
            exact much
          · intro p member
            rw [mem_singleton.mp member]
            exact ⟨place_bound place weight, weight⟩
        · rw [if_neg last] at step
          have high := Nat.le_of_not_lt last
          have fits : digit * w ≤ maxint := by omega
          have answer := ih (place_next place bias) (weight_fits place low high fits) much
          rw [DigitsAnswer, step]
          cases answer with
          | inl found =>
            obtain ⟨i', rest', seen, weights, run, delta, small, bounded, shorter, le, most⟩ := found
            apply inl
            refine ⟨i', rest', (i + digit * w) :: seen, (k, w) :: weights, run,
              .more writes high delta, ?_, ?_, lt_succ_of_lt shorter, by omega, most⟩
            · intro x member
              cases mem_cons.mp member with
              | inl is =>
                rw [is]
                exact much
              | inr later => exact small x later
            · intro p member
              cases mem_cons.mp member with
              | inl is =>
                rw [is]
                exact ⟨place_bound place weight, weight⟩
              | inr later => exact bounded p later
          | inr failed =>
            apply inr
            constructor
            · exact failed.1
            · intro i' rest' seen weights delta small
              cases delta with
              | last other less =>
                rw [writes_one writes other] at less
                exact last less
              | more other _ next =>
                rw [writes_one writes other] at next small
                exact failed.2 _ _ _ _ next fun x member => small x (mem_cons_of_mem _ member)
      · -- the index would not fit
        apply inr
        constructor
        · have over_ : (maxint - i) / w < digit := by
            rw [Nat.div_lt_iff_lt_mul wide]
            omega
          simp only [decodeDigits, decoded]
          rw [div32_fits wide, ok_then, if_pos over_]
        · intro i' rest' seen weights delta small
          exact much (small _ (delta_head writes delta))

theorem insertIdx_middle (a b : List α) (x : α) : (a ++ b).insertIdx a.length x = a ++ x :: b := by
  induction a with
  | nil => rfl
  | cons y a ih => exact congrArg (y :: ·) ih

theorem drop_past {xs ys : List α} (past : xs.length ≤ m) :
    (xs ++ ys).drop m = ys.drop (m - xs.length) := by
  rw [drop_append, drop_eq_nil_of_le past, nil_append]

theorem store_moved (maxOut : Nat) (a b c : List Nat) (x n : Nat)
    (room : a.length + b.length < maxOut) :
    ∃ moved, memmoveUp maxOut (a ++ (b ++ x :: c)) a.length b.length = .ok moved ∧
      store maxOut moved a.length n = .ok (a ++ n :: (b ++ c)) := by
  obtain ⟨h, r, split⟩ : ∃ h r, b ++ x :: c = h :: r := by
    cases b with
    | nil => exact ⟨x, c, rfl⟩
    | cons h b => exact ⟨h, b ++ x :: c, rfl⟩
  have first : (a ++ (b ++ x :: c)).take (a.length + 1) = a ++ [h] := by
    rw [take_length_add_append, split, take_succ_cons, take_zero]
  have middle : ((a ++ (b ++ x :: c)).drop a.length).take b.length = b := by
    rw [drop_left, take_left]
  have last : (a ++ (b ++ x :: c)).drop (a.length + 1 + b.length) = c := by
    have : a.length + 1 + b.length = a.length + (b.length + 1) := by omega
    rw [this, drop_length_add_append, drop_length_add_append, drop_succ_cons, drop_zero]
  apply Exists.intro (a ++ [h] ++ b ++ c)
  constructor
  · rw [memmoveUp, if_pos (by omega), first, middle, last]
  · rw [store, if_pos (by omega), append_assoc, append_assoc,
      set_append_right _ _ (le_refl _), Nat.sub_self]
    rfl

/-- One element comes in among the first ones; what is behind the capacity stays. -/
theorem store_inserts {written : Nat} (n : Nat) (place : i ≤ written) (room : written < maxOut)
    (wide : maxOut ≤ pDecoded.length) :
    ∃ moved pDecoded', memmoveUp maxOut pDecoded i (written - i) = .ok moved ∧
      store maxOut moved i n = .ok pDecoded' ∧
      pDecoded'.take (written + 1) = (pDecoded.take written).insertIdx i n ∧
      pDecoded'.length = pDecoded.length ∧ pDecoded'.drop maxOut = pDecoded.drop maxOut := by
  obtain ⟨x, c, tail⟩ : ∃ x c, pDecoded.drop written = x :: c := by
    cases gone : pDecoded.drop written with
    | nil =>
      rw [drop_eq_nil_iff] at gone
      omega
    | cons x c => exact ⟨x, c, rfl⟩
  have split : pDecoded = pDecoded.take i ++ ((pDecoded.drop i).take (written - i) ++ x :: c) := by
    have : (pDecoded.drop i).drop (written - i) = x :: c := by
      rw [drop_drop, Nat.add_sub_cancel' place, tail]
    rw [← this, take_append_drop, take_append_drop]
  have left : (pDecoded.take i).length = i := length_take_of_le (by omega)
  have right : ((pDecoded.drop i).take (written - i)).length = written - i := by
    apply length_take_of_le
    rw [length_drop]
    omega
  generalize pDecoded.take i = a at split left
  generalize (pDecoded.drop i).take (written - i) = b at split right
  obtain ⟨moved, move, stored⟩ := store_moved maxOut a b c x n (by omega)
  rw [left, right, ← split] at move
  rw [left] at stored
  refine ⟨moved, a ++ n :: (b ++ c), move, stored, ?_, ?_, ?_⟩
  · have firsts : pDecoded.take written = a ++ b := by
      rw [split, ← append_assoc]
      apply take_left'
      rw [length_append]
      omega
    have middle : (a ++ n :: (b ++ c)) = (a ++ n :: b) ++ c := by
      rw [append_assoc, cons_append]
    rw [firsts, ← left, insertIdx_middle, middle]
    apply take_left'
    simp only [length_append, length_cons]
    omega
  · rw [split]
    simp only [length_append, length_cons]
    omega
  · have one : a ++ n :: (b ++ c) = (a ++ n :: b) ++ c := by
      rw [append_assoc, cons_append]
    have two : a ++ (b ++ x :: c) = (a ++ b ++ [x]) ++ c := by
      simp only [append_assoc, cons_append, nil_append]
    have size1 : (a ++ n :: b).length = written + 1 := by
      simp only [length_append, length_cons]
      omega
    have size2 : (a ++ b ++ [x]).length = written + 1 := by
      simp only [length_append, length_cons, length_nil]
      omega
    rw [split, one, two, drop_past (by omega), drop_past (by omega), size1, size2]

theorem delta_one {i1 i2 : Nat} {rest1 rest2 : List UInt8}
    (first : RfcDelta bias input k w i i1 rest1 seen1 weights1)
    (other : RfcDelta bias input k w i i2 rest2 seen2 weights2) :
    i2 = i1 ∧ rest2 = rest1 ∧ seen2 = seen1 ∧ weights2 = weights1 := by
  induction first generalizing seen2 weights2 with
  | last writes low =>
    cases other with
    | last writes2 low2 =>
      rw [writes_one writes writes2]
      exact ⟨rfl, rfl, rfl, rfl⟩
    | more writes2 high2 =>
      rw [writes_one writes writes2] at high2
      omega
  | more writes high _ ih =>
    cases other with
    | last writes2 low2 =>
      rw [writes_one writes writes2] at low2
      omega
    | more writes2 high2 next2 =>
      rw [writes_one writes writes2] at next2 ⊢
      obtain ⟨index, rest, seen, weights⟩ := ih next2
      rw [index, rest, seen, weights]
      exact ⟨rfl, rfl, rfl, rfl⟩

theorem rounds_one (first : RfcRounds n i bias output input result1 seen1 weights1)
    (other : RfcRounds n i bias output input result2 seen2 weights2) :
    result2 = result1 ∧ seen2 = seen1 ∧ weights2 = weights1 := by
  induction first generalizing result2 seen2 weights2 with
  | done =>
    cases other with
    | done => exact ⟨rfl, rfl, rfl⟩
    | round delta => nomatch delta
  | round delta _ _ ih =>
    cases other with
    | done => nomatch delta
    | round delta2 _ next2 =>
      obtain ⟨index, rest, seen, weights⟩ := delta_one delta delta2
      rw [index, rest] at next2
      obtain ⟨result, seen', weights'⟩ := ih next2
      rw [index, seen, weights, result, seen', weights']
      exact ⟨rfl, rfl, rfl⟩

theorem rounds_grow {result : List Nat}
    (run : RfcRounds n i bias output input result seen weights) :
    output.length ≤ result.length := by
  induction run with
  | done => exact le_refl _
  | round _ _ _ ih => exact le_trans length_le_length_insertIdx ih

structure Ready (maxOut : Nat) (s : State) (input : List UInt8) : Prop where
  codePoint : 0x80 ≤ s.n ∧ s.n ≤ maxint
  index : s.i ≤ s.writtenOut
  bias : s.bias ≤ 202
  room : s.writtenOut ≤ maxOut
  capacity : maxOut ≤ maxint
  wide : maxOut ≤ s.pDecoded.length
  short : s.writtenOut + input.length < maxint

def Kept (maxOut : Nat) (pDecoded pDecoded' : List Nat) : Prop :=
  pDecoded'.length = pDecoded.length ∧ pDecoded'.drop maxOut = pDecoded.drop maxOut

theorem kept_refl (maxOut : Nat) (pDecoded : List Nat) : Kept maxOut pDecoded pDecoded := ⟨rfl, rfl⟩

theorem kept_trans {m1 m2 m3 : List Nat} (first : Kept maxOut m1 m2) (second : Kept maxOut m2 m3) :
    Kept maxOut m1 m3 :=
  ⟨second.1.trans first.1, second.2.trans first.2⟩

def RoundsAnswer (maxOut rounds : Nat) (input : List UInt8) (s : State) : Prop :=
  (∃ s' seen weights, decodeRounds maxOut rounds input s = .ok s' ∧
    RfcRounds s.n s.i s.bias (s.pDecoded.take s.writtenOut) input
      (s'.pDecoded.take s'.writtenOut) seen weights ∧ Small seen ∧ s'.writtenOut ≤ maxOut ∧
    Kept maxOut s.pDecoded s'.pDecoded) ∨
  (∃ left, decodeRounds maxOut rounds input s = .error (.fail left) ∧ Kept maxOut s.pDecoded left ∧
    ∀ result seen weights, RfcRounds s.n s.i s.bias (s.pDecoded.take s.writtenOut) input
      result seen weights → Small seen → maxOut < result.length)

theorem round_at {size : Nat} {result : List Nat} {seen' : List Nat} {weights' : List (Nat × Nat)}
    (is : output.length = size) (delta : RfcDelta bias input base 1 i i' rest seen weights)
    (notBasic : ¬ n + i' / (size + 1) < 0x80)
    (next : RfcRounds (n + i' / (size + 1)) (i' % (size + 1) + 1)
      (rfcAdapt (i' - i) (size + 1) (decide (i = 0)))
      (output.insertIdx (i' % (size + 1)) (n + i' / (size + 1))) rest result seen' weights') :
    RfcRounds n i bias output input result
      (seen ++ (n + i' / (size + 1)) :: (i' % (size + 1) + 1) :: seen') (weights ++ weights') := by
  rw [← is] at notBasic next ⊢
  exact .round delta notBasic next

theorem decodeRounds_cons (rounds : Nat) {s : State} (ready : Ready maxOut s (c :: input))
    (digits : decodeDigits s.bias s.pDecoded (c :: input) base 1 s.i = .ok (i', rest))
    (le : s.i ≤ i') (most : i' ≤ maxint) :
    rfcAdapt (i' - s.i) (s.writtenOut + 1) (decide (s.i = 0)) ≤ 202 ∧
    decodeRounds maxOut (rounds + 1) (c :: input) s =
      if maxint - s.n < i' / (s.writtenOut + 1) then .error (.fail s.pDecoded)
      else if maxOut ≤ s.writtenOut then .error (.fail s.pDecoded)
      else (do
        let moved ← memmoveUp maxOut s.pDecoded (i' % (s.writtenOut + 1))
          (s.writtenOut - i' % (s.writtenOut + 1))
        let pDecoded ← store maxOut moved (i' % (s.writtenOut + 1)) (s.n + i' / (s.writtenOut + 1))
        decodeRounds maxOut rounds rest ⟨s.n + i' / (s.writtenOut + 1),
          i' % (s.writtenOut + 1) + 1, rfcAdapt (i' - s.i) (s.writtenOut + 1) (decide (s.i = 0)),
          s.writtenOut + 1, pDecoded⟩) := by
  have max : maxint = 2 ^ 32 - 1 := rfl
  have short := ready.short
  rw [length_cons] at short
  have place : i' % (s.writtenOut + 1) < s.writtenOut + 1 := mod_lt _ (succ_pos _)
  have first : decide (s.i = 0) = true ∨ 2 ≤ s.writtenOut + 1 := by
    by_cases zero : s.i = 0
    · exact inl (decide_eq_true zero)
    · apply inr
      have := ready.index
      omega
  have some_ : 0 < s.writtenOut + 1 := succ_pos _
  obtain ⟨adapted, low⟩ := adapt_rfc (i' - s.i) (by omega) some_ first
  constructor
  · exact low
  · rw [decodeRounds, digits, ok_then]
    dsimp only
    rw [add32_fits (by omega), ok_then, sub32_fits le, ok_then, adapted, ok_then,
      div32_fits some_, ok_then]
    by_cases beyond : maxint - s.n < i' / (s.writtenOut + 1)
    · rw [if_pos beyond, if_pos beyond]
    · have n := ready.codePoint.2
      rw [if_neg beyond, if_neg beyond, add32_fits (by omega), ok_then]
      by_cases full : maxOut ≤ s.writtenOut
      · rw [if_pos full, if_pos full]
      · rw [if_neg full, if_neg full, sub32_fits (by omega), ok_then, add32_fits (by omega)]
        rfl

theorem small_append (first : Small seen1) (second : Small seen2) : Small (seen1 ++ seen2) := by
  intro x member
  cases mem_append.mp member with
  | inl one => exact first x one
  | inr two => exact second x two

theorem decodeRounds_answer (rounds : Nat) (input : List UInt8) (s : State)
    (ready : Ready maxOut s input) (enough : input.length ≤ rounds) :
    RoundsAnswer maxOut rounds input s := by
  induction rounds generalizing input s with
  | zero =>
    cases input with
    | nil =>
      exact inl ⟨s, [], [], rfl, .done, nofun, ready.room, kept_refl maxOut s.pDecoded⟩
    | cons c input => exact absurd enough (not_succ_le_zero _)
  | succ rounds ih =>
    cases input with
    | nil =>
      exact inl ⟨s, [], [], rfl, .done, nofun, ready.room, kept_refl maxOut s.pDecoded⟩
    | cons c input =>
      have index : s.i ≤ maxint := le_trans ready.index (le_trans ready.room ready.capacity)
      have size : (s.pDecoded.take s.writtenOut).length = s.writtenOut :=
        length_take_of_le (le_trans ready.room ready.wide)
      cases decodeDigits_answer ready.bias s.pDecoded (c :: input) place_start (by decide) index with
      | inr failed =>
        apply inr
        refine ⟨s.pDecoded, ?_, kept_refl maxOut s.pDecoded, ?_⟩
        · rw [decodeRounds, failed.1, fail_then]
        · intro result seen weights run small
          exfalso
          cases run with
          | round delta =>
            exact failed.2 _ _ _ _ delta fun x member => small x (mem_append_left _ member)
      | inl found =>
        obtain ⟨i', rest, seen1, weights1, digits, delta, small1, _, shorter, le, most⟩ := found
        obtain ⟨low, step⟩ := decodeRounds_cons rounds ready digits le most
        have place : i' % (s.writtenOut + 1) < s.writtenOut + 1 := mod_lt _ (succ_pos _)
        by_cases beyond : maxint - s.n < i' / (s.writtenOut + 1)
        · -- the code point would not fit
          rw [if_pos beyond] at step
          apply inr
          refine ⟨s.pDecoded, step, kept_refl maxOut s.pDecoded, ?_⟩
          intro result seen weights run small
          exfalso
          cases run with
          | round delta2 =>
            have same := (delta_one delta delta2).1
            have fits := small _ (mem_append_right _ mem_cons_self)
            rw [size, same] at fits
            omega
        · rw [if_neg beyond] at step
          by_cases full : maxOut ≤ s.writtenOut
          · rw [if_pos full] at step
            apply inr
            refine ⟨s.pDecoded, step, kept_refl maxOut s.pDecoded, ?_⟩
            intro result seen weights run small
            cases run with
            | round _ _ next =>
              have grown := rounds_grow next
              rw [length_insertIdx_of_le_length (by
                rw [size]
                exact le_of_lt_succ (mod_lt _ (succ_pos _))), size] at grown
              omega
          · rw [if_neg full] at step
            obtain ⟨moved, pDecoded, move, stored, inserted, same⟩ := store_inserts
              (s.n + i' / (s.writtenOut + 1)) (le_of_lt_succ place) (Nat.lt_of_not_le full)
              ready.wide
            rw [move, ok_then, stored, ok_then] at step
            have short := ready.short
            rw [length_cons] at short shorter enough
            have n := ready.codePoint
            have ready' : Ready maxOut ⟨s.n + i' / (s.writtenOut + 1), i' % (s.writtenOut + 1) + 1,
                rfcAdapt (i' - s.i) (s.writtenOut + 1) (decide (s.i = 0)),
                s.writtenOut + 1, pDecoded⟩ rest := by
              constructor
              · exact ⟨le_trans n.1 (Nat.le_add_right _ _), by dsimp only; omega⟩
              · exact place
              · exact low
              · exact Nat.lt_of_not_le full
              · exact ready.capacity
              · rw [same.1]
                exact ready.wide
              · dsimp only
                omega
            have notBasic : ¬ s.n + i' / (s.writtenOut + 1) < 0x80 :=
              Nat.not_lt.mpr (le_trans n.1 (Nat.le_add_right _ _))
            cases ih rest _ ready' (by omega) with
            | inl ends =>
              obtain ⟨s', seen2, weights2, run, rfc, small2, room, kept⟩ := ends
              apply inl
              rw [inserted] at rfc
              refine ⟨s', _, _, step.trans run, round_at size delta notBasic rfc, ?_, room,
                kept_trans same kept⟩
              apply small_append small1
              intro x member
              cases mem_cons.mp member with
              | inl is =>
                rw [is]
                omega
              | inr later =>
                cases mem_cons.mp later with
                | inl is =>
                  rw [is]
                  omega
                | inr later => exact small2 x later
            | inr failed =>
              obtain ⟨left, run, kept, none_⟩ := failed
              apply inr
              refine ⟨left, step.trans run, kept_trans same kept, ?_⟩
              intro result seen weights rfc small
              cases rfc with
              | round delta2 _ next =>
                obtain ⟨is, rest_, _, _⟩ := delta_one delta delta2
                rw [size, is, rest_, ← inserted] at next
                apply none_ _ _ _ next
                intro x member
                apply small x
                exact mem_append_right _ (mem_cons_of_mem _ (mem_cons_of_mem _ member))

/-- In a run whose index and code point fit, so do the weights. -/
theorem rounds_weights {result : List Nat}
    (run : RfcRounds n i bias output input result seen weights) (low : bias ≤ 202)
    (index : i ≤ output.length) (fits : i ≤ maxint) (small : Small seen) :
    ∀ p ∈ weights, p.1 ≤ 360 ∧ p.2 ≤ maxint := by
  induction run with
  | done => exact nofun
  | @round n i bias i' output result input rest seen seen' weights weights' delta _ _ ih =>
    have first : Small seen := fun x member => small x (mem_append_left _ member)
    have place : i' % (output.length + 1) < output.length + 1 := mod_lt _ (succ_pos _)
    cases decodeDigits_answer low [] input place_start (by decide) fits with
    | inr failed => exact absurd first (failed.2 _ _ _ _ delta)
    | inl found =>
      obtain ⟨i2, rest2, seen2, weights2, _, delta2, _, bounded, _, le, most⟩ := found
      obtain ⟨is, _, _, same⟩ := delta_one delta delta2
      rw [is] at le most
      rw [same] at bounded
      have max : maxint = 2 ^ 32 - 1 := rfl
      have numpoints : decide (i = 0) = true ∨ 2 ≤ output.length + 1 := by
        by_cases zero : i = 0
        · exact inl (decide_eq_true zero)
        · apply inr
          omega
      have adapted := (adapt_rfc (i' - i) (by omega) (succ_pos output.length) numpoints).2
      have next := small _ (mem_append_right _ (mem_cons_of_mem _ mem_cons_self))
      have later := ih adapted (by
          rw [length_insertIdx_of_le_length (le_of_lt_succ place)]
          exact place) next fun x member => small x (mem_append_right _
            (mem_cons_of_mem _ (mem_cons_of_mem _ member)))
      intro p member
      cases mem_append.mp member with
      | inl one => exact bounded p one
      | inr two => exact later p two

theorem basicCount_none (none_ : delimiter ∉ rest) (loop basicCount : Nat) :
    basicCountRounds rest loop basicCount = basicCount := by
  induction rest generalizing loop with
  | nil => rfl
  | cons c rest ih =>
    rw [mem_cons, not_or] at none_
    rw [basicCountRounds, if_neg fun is => none_.1 is.symm, ih none_.2]

theorem basicCount_split (basics : List UInt8) (last : delimiter ∉ rest) (loop basicCount : Nat) :
    basicCountRounds (basics ++ delimiter :: rest) loop basicCount = loop + basics.length := by
  induction basics generalizing loop basicCount with
  | nil => rw [nil_append, basicCountRounds, if_pos rfl, basicCount_none last]; rfl
  | cons c basics ih =>
    rw [cons_append, basicCountRounds, ih, length_cons]
    omega

theorem last_split (input : List UInt8) :
    delimiter ∉ input ∨ ∃ basics rest, input = basics ++ delimiter :: rest ∧ delimiter ∉ rest := by
  induction input with
  | nil => exact inl not_mem_nil
  | cons c input ih =>
    cases ih with
    | inr found =>
      obtain ⟨basics, rest, split, last⟩ := found
      exact inr ⟨c :: basics, rest, congrArg (c :: ·) split, last⟩
    | inl none_ =>
      by_cases is : c = delimiter
      · exact inr ⟨[], input, congrArg (· :: input) is, none_⟩
      · apply inl
        rw [mem_cons, not_or]
        exact ⟨fun same => is same.symm, none_⟩

theorem copyBasic_copies (basics : List UInt8) (loop : Nat) (pDecoded : List Nat)
    (room : loop + basics.length ≤ maxOut) (wide : maxOut ≤ pDecoded.length)
    (all : ∀ c ∈ basics, c.toNat < 0x80) :
    ∃ pDecoded', copyBasic maxOut basics loop pDecoded = .ok pDecoded' ∧
      pDecoded'.take (loop + basics.length) = pDecoded.take loop ++ basics.map UInt8.toNat ∧
      Kept maxOut pDecoded pDecoded' := by
  induction basics generalizing loop pDecoded with
  | nil =>
    refine ⟨pDecoded, rfl, ?_, kept_refl maxOut pDecoded⟩
    rw [map_nil, append_nil]
    rfl
  | cons c basics ih =>
    rw [length_cons] at room
    have basic : isBasic c = true := decide_eq_true (all c mem_cons_self)
    have kept : Kept maxOut pDecoded (pDecoded.set loop c.toNat) := by
      constructor
      · exact length_set
      · exact drop_set_of_lt (by omega)
    obtain ⟨pDecoded', copied, front, kept'⟩ := ih (loop + 1) (pDecoded.set loop c.toNat)
      (by omega) (by rw [kept.1]; exact wide) fun d member => all d (mem_cons_of_mem c member)
    refine ⟨pDecoded', ?_, ?_, kept_trans kept kept'⟩
    · rw [copyBasic, if_neg (by rw [basic]; decide), store, if_pos (by omega), ok_then, copied]
    · have first : (pDecoded.set loop c.toNat).take (loop + 1) =
          pDecoded.take loop ++ [c.toNat] := by
        rw [take_add_one, take_set_of_le (le_refl loop), getElem?_set_self (by omega)]
        rfl
      rw [first, append_assoc] at front
      rw [length_cons, add_comm basics.length 1, ← add_assoc, front]
      rfl

theorem copyBasic_fails (maxOut : Nat) (basics : List UInt8) (loop : Nat) (pDecoded : List Nat)
    (room : loop + basics.length ≤ maxOut) (some_ : ∃ c ∈ basics, ¬ c.toNat < 0x80) :
    ∃ left, copyBasic maxOut basics loop pDecoded = .error (.fail left) ∧
      Kept maxOut pDecoded left := by
  induction basics generalizing loop pDecoded with
  | nil =>
    obtain ⟨c, member, _⟩ := some_
    nomatch member
  | cons c basics ih =>
    rw [length_cons] at room
    by_cases basic : c.toNat < 0x80
    · have later : ∃ d ∈ basics, ¬ d.toNat < 0x80 := by
        obtain ⟨d, member, high⟩ := some_
        cases mem_cons.mp member with
        | inl is =>
          rw [is] at high
          exact absurd basic high
        | inr rest => exact ⟨d, rest, high⟩
      have kept : Kept maxOut pDecoded (pDecoded.set loop c.toNat) := by
        constructor
        · exact length_set
        · exact drop_set_of_lt (by omega)
      obtain ⟨left, failed, kept'⟩ := ih (loop + 1) (pDecoded.set loop c.toNat) (by omega) later
      refine ⟨left, ?_, kept_trans kept kept'⟩
      rw [copyBasic, if_neg (by rw [isBasic, decide_eq_true basic]; decide), store,
        if_pos (by omega), ok_then, failed]
    · refine ⟨pDecoded, ?_, kept_refl maxOut pDecoded⟩
      have no : isBasic c = false := decide_eq_false basic
      rw [copyBasic, if_pos no]

theorem decode_one (first : RfcDecode input result1 seen1 weights1)
    (other : RfcDecode input result2 seen2 weights2) : result2 = result1 := by
  have place : ∀ {basics rest basics' rest' : List UInt8}, input = basics ++ delimiter :: rest →
      delimiter ∉ rest → input = basics' ++ delimiter :: rest' → delimiter ∉ rest' →
      basics' = basics ∧ rest' = rest := by
    intro basics rest basics' rest' split last split' last'
    have count := basicCount_split basics last 0 0
    have count' := basicCount_split basics' last' 0 0
    rw [← split] at count
    rw [← split', count] at count'
    obtain ⟨front, back⟩ := append_inj (split'.symm.trans split) (by omega)
    exact ⟨front, (cons.inj back).2⟩
  cases first with
  | basic basics rest split last some_ all rounds =>
    cases other with
    | basic basics' rest' split' last' some' all' rounds' =>
      obtain ⟨front, back⟩ := place split last split' last'
      rw [front, back] at rounds'
      exact (rounds_one rounds rounds').1
    | plain none_ rounds' => exact absurd (none_ basics rest split last) some_
  | plain none_ rounds =>
    cases other with
    | basic basics' rest' split' last' some' all' rounds' =>
      exact absurd (none_ basics' rest' split' last') some'
    | plain none' rounds' => exact (rounds_one rounds rounds').1

def RunAnswer (pEncoded : List UInt8) (pDecoded : List Nat) (maxOut : Nat) : Prop :=
  (∃ s seen weights, decodeRun pEncoded pDecoded maxOut = .ok s ∧ pEncoded.length < maxint ∧
    RfcDecode pEncoded (s.pDecoded.take s.writtenOut) seen weights ∧ Small seen ∧
    s.writtenOut ≤ maxOut ∧ Kept maxOut pDecoded s.pDecoded) ∨
  (∃ left, decodeRun pEncoded pDecoded maxOut = .error (.fail left) ∧ Kept maxOut pDecoded left ∧
    ∀ result seen weights, RfcDecode pEncoded result seen weights → Small seen →
      pEncoded.length < maxint → maxOut < result.length)

theorem decodeRun_basic {basics : List UInt8} (last : delimiter ∉ rest) (some_ : basics ≠ [])
    (short : (basics ++ delimiter :: rest).length < maxint) (word : maxOut ≤ maxint)
    (wide : maxOut ≤ pDecoded.length) :
    RunAnswer (basics ++ delimiter :: rest) pDecoded maxOut := by
  have max : maxint = 2 ^ 32 - 1 := rfl
  have count : basicCountRounds (basics ++ delimiter :: rest) 0 0 = basics.length := by
    rw [basicCount_split _ last, zero_add]
  have many : 0 < basics.length := length_pos_iff.mpr some_
  have size : (basics ++ delimiter :: rest).length = basics.length + (rest.length + 1) := by
    rw [length_append, length_cons]
  have front : (basics ++ delimiter :: rest).take basics.length = basics := take_left
  have back : (basics ++ delimiter :: rest).drop (basics.length + 1) = rest := by
    rw [drop_length_add_append, drop_succ_cons, drop_zero]
  have only : ∀ {result seen : List Nat} {weights : List (Nat × Nat)},
      RfcDecode (basics ++ delimiter :: rest) result seen weights →
      (∀ c ∈ basics, c.toNat < 0x80) ∧
        RfcRounds initialN 0 initialBias (basics.map UInt8.toNat) rest result seen weights := by
    intro result seen weights rfc
    cases rfc with
    | basic basics' rest' split' last' some' all rounds =>
      have count' := basicCount_split basics' last' 0 0
      rw [← split', count, zero_add] at count'
      obtain ⟨one, two⟩ := append_inj split'.symm count'.symm
      rw [one] at all rounds
      rw [(List.cons.inj two).2] at rounds
      exact ⟨all, rounds⟩
    | plain none_ => exact absurd (none_ basics rest rfl last) some_
  have run : decodeRun (basics ++ delimiter :: rest) pDecoded maxOut =
      if maxOut < basics.length then .error (.fail pDecoded)
      else (do
        let pDecoded ← copyBasic maxOut basics 0 pDecoded
        decodeRounds maxOut (basics ++ delimiter :: rest).length rest
          ⟨initialN, 0, initialBias, basics.length, pDecoded⟩) := by
    rw [decodeRun, if_neg (Nat.not_le.mpr short), count, if_pos many, front, add32_fits (by omega)]
    have skipped : ∀ made : List Nat, (do
        let processedIn ← (.ok (basics.length + 1) : Run Nat)
        decodeRounds maxOut (basics ++ delimiter :: rest).length
          ((basics ++ delimiter :: rest).drop processedIn)
          ⟨initialN, 0, initialBias, basics.length, made⟩) =
        decodeRounds maxOut (basics ++ delimiter :: rest).length rest
          ⟨initialN, 0, initialBias, basics.length, made⟩ := by
      intro made
      rw [ok_then, back]
    simp only [skipped]
  by_cases full : maxOut < basics.length
  · rw [if_pos full] at run
    apply inr
    refine ⟨pDecoded, run, kept_refl maxOut pDecoded, ?_⟩
    intro result seen weights rfc _ _
    have grown := rounds_grow (only rfc).2
    rw [length_map] at grown
    exact lt_of_lt_of_le full grown
  · rw [if_neg full] at run
    by_cases all : ∀ c ∈ basics, c.toNat < 0x80
    · obtain ⟨pDecoded', copied, output, kept⟩ := copyBasic_copies basics 0 pDecoded (by omega)
        wide all
      rw [zero_add, take_zero, nil_append] at output
      rw [copied, ok_then] at run
      have ready : Ready maxOut ⟨initialN, 0, initialBias, basics.length, pDecoded'⟩ rest := by
        constructor
        · exact ⟨le_refl _, by dsimp only; decide⟩
        · exact zero_le _
        · dsimp only
          decide
        · exact Nat.le_of_not_lt full
        · exact word
        · rw [kept.1]
          exact wide
        · dsimp only
          omega
      cases decodeRounds_answer (basics ++ delimiter :: rest).length rest _ ready (by omega) with
      | inl ends =>
        obtain ⟨s, seen, weights, rounds, rfc, small, room, kept'⟩ := ends
        rw [output] at rfc
        exact inl ⟨s, seen, weights, run.trans rounds, short,
          .basic basics rest rfl last some_ all rfc, small, room, kept_trans kept kept'⟩
      | inr failed =>
        obtain ⟨left, rounds, kept', none_⟩ := failed
        apply inr
        refine ⟨left, run.trans rounds, kept_trans kept kept', ?_⟩
        intro result seen weights rfc small _
        rw [output] at none_
        exact none_ _ _ _ (only rfc).2 small
    · have some' : ∃ c ∈ basics, ¬ c.toNat < 0x80 := by
        by_contra none_
        exact all fun c member => by
          by_contra high
          exact none_ ⟨c, member, high⟩
      obtain ⟨left, failed, kept⟩ := copyBasic_fails maxOut basics 0 pDecoded (by omega) some'
      rw [failed, fail_then] at run
      apply inr
      refine ⟨left, run, kept, ?_⟩
      intro result seen weights rfc _ _
      exact absurd (only rfc).1 all

theorem decodeRun_plain {pEncoded : List UInt8}
    (none_ : ∀ basics rest, pEncoded = basics ++ delimiter :: rest → delimiter ∉ rest → basics = [])
    (short : pEncoded.length < maxint) (word : maxOut ≤ maxint) (wide : maxOut ≤ pDecoded.length) :
    RunAnswer pEncoded pDecoded maxOut := by
  have count : ¬ 0 < basicCountRounds pEncoded 0 0 := by
    cases last_split pEncoded with
    | inl never =>
      rw [basicCount_none never]
      exact lt_irrefl 0
    | inr found =>
      obtain ⟨basics, rest, split, last⟩ := found
      have first := none_ basics rest split last
      rw [split, basicCount_split _ last, first]
      exact lt_irrefl 0
  have run : decodeRun pEncoded pDecoded maxOut = decodeRounds maxOut pEncoded.length pEncoded
      ⟨initialN, 0, initialBias, 0, pDecoded⟩ := by
    rw [decodeRun, if_neg (Nat.not_le.mpr short), if_neg count]
  have ready : Ready maxOut ⟨initialN, 0, initialBias, 0, pDecoded⟩ pEncoded := by
    constructor
    · exact ⟨le_refl _, by dsimp only; decide⟩
    · exact le_refl 0
    · dsimp only
      decide
    · exact zero_le _
    · exact word
    · exact wide
    · dsimp only
      omega
  cases decodeRounds_answer pEncoded.length pEncoded _ ready (le_refl _) with
  | inl ends =>
    obtain ⟨s, seen, weights, rounds, rfc, small, room, kept⟩ := ends
    exact inl ⟨s, seen, weights, run.trans rounds, short, .plain none_ rfc, small, room, kept⟩
  | inr failed =>
    obtain ⟨left, rounds, kept, never⟩ := failed
    apply inr
    refine ⟨left, run.trans rounds, kept, ?_⟩
    intro result seen weights rfc small _
    cases rfc with
    | basic basics rest split last some_ => exact absurd (none_ basics rest split last) some_
    | plain _ again => exact never _ _ _ again small

theorem decodeRun_answer (pEncoded : List UInt8) (pDecoded : List Nat) (word : maxOut ≤ maxint)
    (wide : maxOut ≤ pDecoded.length) : RunAnswer pEncoded pDecoded maxOut := by
  by_cases short : pEncoded.length < maxint
  · by_cases found : ∃ basics rest, pEncoded = basics ++ delimiter :: rest ∧ delimiter ∉ rest ∧
        basics ≠ []
    · obtain ⟨basics, rest, split, last, some_⟩ := found
      rw [split] at short ⊢
      exact decodeRun_basic last some_ short word wide
    · apply decodeRun_plain _ short word wide
      intro basics rest split last
      by_contra some_
      exact found ⟨basics, rest, split, last, some_⟩
  · apply inr
    refine ⟨pDecoded, ?_, kept_refl maxOut pDecoded, ?_⟩
    · rw [decodeRun, if_pos (Nat.le_of_not_lt short)]
    · intro result seen weights _ _ bad
      exact absurd bad short

/-- The decoder never traps, and it decodes what the algorithm decodes with numbers that fit
    in 32 bits, except for an input of 2^32 - 1 octets or more. -/
theorem decodes_rfc (pEncoded : List UInt8) (pDecoded : List Nat) {poutLength : Nat}
    (word : poutLength ≤ maxint) (wide : poutLength ≤ pDecoded.length) :
    ∃ d, punycodeDecode pEncoded pDecoded poutLength = some d ∧
      d.pDecoded.length = pDecoded.length ∧
      d.pDecoded.drop poutLength = pDecoded.drop poutLength ∧
      (d.ret = false → d.poutLength = poutLength) ∧
      (∀ output, (d.ret = true ∧ d.poutLength = output.length ∧
          d.pDecoded.take d.poutLength = output) ↔
        pEncoded.length < maxint ∧ output.length ≤ poutLength ∧
          ∃ seen weights, RfcDecode pEncoded output seen weights ∧ ∀ x ∈ seen, x ≤ maxint) ∧
      ∀ output seen weights, RfcDecode pEncoded output seen weights → (∀ x ∈ seen, x ≤ maxint) →
        ∀ p ∈ weights, p.1 ≤ 360 ∧ p.2 ≤ maxint := by
  have bounded : ∀ output seen weights, RfcDecode pEncoded output seen weights →
      (∀ x ∈ seen, x ≤ maxint) → ∀ p ∈ weights, p.1 ≤ 360 ∧ p.2 ≤ maxint := by
    intro output seen weights rfc small
    cases rfc with
    | basic _ _ _ _ _ _ rounds =>
      exact rounds_weights rounds (by decide) (Nat.zero_le _) (Nat.zero_le _) small
    | plain _ rounds =>
      exact rounds_weights rounds (by decide) (Nat.zero_le _) (Nat.zero_le _) small
  cases decodeRun_answer pEncoded pDecoded word wide with
  | inl ends =>
    obtain ⟨s, seen, weights, run, short, rfc, small, room, kept⟩ := ends
    have size : (s.pDecoded.take s.writtenOut).length = s.writtenOut :=
      length_take_of_le (by rw [kept.1]; exact le_trans room wide)
    refine ⟨⟨true, s.pDecoded, s.writtenOut⟩, ?_, kept.1, kept.2, nofun, ?_, bounded⟩
    · rw [punycodeDecode, run]
    · intro output
      constructor
      · intro made
        have is : s.pDecoded.take s.writtenOut = output := made.2.2
        rw [is] at rfc size
        exact ⟨short, by rw [size]; exact room, seen, weights, rfc, small⟩
      · intro rfc2
        obtain ⟨_, _, seen2, weights2, other, _⟩ := rfc2
        have is := decode_one rfc other
        rw [is]
        exact ⟨rfl, size.symm, rfl⟩
  | inr failed =>
    obtain ⟨left, run, kept, none_⟩ := failed
    refine ⟨⟨false, left, poutLength⟩, ?_, kept.1, kept.2, fun _ => rfl, ?_, bounded⟩
    · rw [punycodeDecode, run]
    · intro output
      constructor
      · intro bad
        exact absurd bad.1 Bool.false_ne_true
      · intro rfc2
        obtain ⟨short, room, seen2, weights2, other, small⟩ := rfc2
        exact absurd room (Nat.not_le.mpr (none_ _ _ _ other small short))

theorem decodes_rfc_sample :
    ∃ d, punycodeDecode [98, 45, 97] [0, 0, 0] 3 = some d ∧
      d.pDecoded.length = [0, 0, 0].length ∧ d.pDecoded.drop 3 = [0, 0, 0].drop 3 ∧
      (d.ret = false → d.poutLength = 3) ∧
      (∀ output, (d.ret = true ∧ d.poutLength = output.length ∧
          d.pDecoded.take d.poutLength = output) ↔
        [98, 45, 97].length < maxint ∧ output.length ≤ 3 ∧
          ∃ seen weights, RfcDecode [98, 45, 97] output seen weights ∧ ∀ x ∈ seen, x ≤ maxint) ∧
      ∀ output seen weights, RfcDecode [98, 45, 97] output seen weights →
        (∀ x ∈ seen, x ≤ maxint) → ∀ p ∈ weights, p.1 ≤ 360 ∧ p.2 ≤ maxint :=
  decodes_rfc [98, 45, 97] [0, 0, 0] (by decide) (by decide)

theorem refuses_long (long : maxint ≤ m + 1) (some_ : 0 < m) (pDecoded : List Nat)
    (poutLength : Nat) : RfcDecode (replicate m 97 ++ [delimiter]) (replicate m 97) [] [] ∧
      ∀ d, punycodeDecode (replicate m 97 ++ [delimiter]) pDecoded poutLength = some d →
        d.ret = false := by
  have size : (replicate m (97 : UInt8) ++ [delimiter]).length = m + 1 := by
    rw [length_append, length_replicate]
    rfl
  constructor
  · apply RfcDecode.basic (replicate m 97) [] rfl not_mem_nil
    · intro bad
      have := congrArg length bad
      rw [length_replicate] at this
      exact absurd this (by rw [length_nil]; omega)
    · intro c member
      rw [eq_of_mem_replicate member]
      decide
    · rw [map_replicate]
      exact .done
  · intro d is
    rw [punycodeDecode, decodeRun, if_pos (by rw [size]; exact long)] at is
    rw [← some.inj is]

/-- 2^32 - 2 letters and a delimiter decode to the letters, but they are refused. -/
theorem decode_refuses_long :
    ∃ seen weights, RfcDecode (replicate (2 ^ 32 - 2) 97 ++ [delimiter])
        (replicate (2 ^ 32 - 2) 97) seen weights ∧ (∀ x ∈ seen, x ≤ maxint) ∧
      (replicate (2 ^ 32 - 2) 97).length ≤ maxint ∧
      ∀ d, punycodeDecode (replicate (2 ^ 32 - 2) 97 ++ [delimiter])
          (replicate maxint 0) maxint = some d → d.ret = false := by
  have refused := refuses_long (m := 2 ^ 32 - 2) (by decide) (by decide) (replicate maxint 0) maxint
  refine ⟨[], [], refused.1, nofun, ?_, refused.2⟩
  rw [length_replicate]
  decide

end Ossl.Punycode
