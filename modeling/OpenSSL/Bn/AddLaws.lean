import OpenSSL.Bn.Arith

/- Sums and differences of big numbers are exact, whether the result is an operand or not. -/
namespace Ossl
open List CarryChain Digits

section Passes
variable {f : UInt64 → UInt64 → UInt64 → UInt64 × UInt64} (ok : UInt64 → Prop) {xs ys : List UInt64}
  {c : UInt64}

theorem words_up (carry : UInt64 → Nat) (p q : Nat) (step : ∀ x y c, ok c → ok (f x y c).2 ∧
      (f x y c).1.toNat + 2 ^ 64 * carry (f x y c).2 = p * x.toNat + q * y.toNat + carry c)
    (same : xs.length = ys.length) (start : ok c) :
    ok (up f xs ys c).2 ∧
      wordsValue (up f xs ys c).1 + (2 ^ 64) ^ xs.length * carry (up f xs ys c).2 =
        p * wordsValue xs + q * wordsValue ys + carry c := by
  have whole := up_value (2 ^ 64) UInt64.toNat (fun c => (carry c : Int)) ok p q
    (by
      intro x y c good
      have one := step x y c good
      refine ⟨one.1, ?_⟩
      exact_mod_cast one.2) same start
  refine ⟨whole.1, ?_⟩
  exact_mod_cast whole.2

/-- A loop whose steps borrow gives back what it borrowed. -/
theorem words_borrow (q : Nat) (step : ∀ x y c, ok c → ok (f x y c).2 ∧
      (f x y c).1.toNat + q * y.toNat + c.toNat = x.toNat + 2 ^ 64 * (f x y c).2.toNat)
    (same : xs.length = ys.length) (start : ok c) :
    ok (up f xs ys c).2 ∧
      wordsValue (up f xs ys c).1 + q * wordsValue ys + c.toNat =
        wordsValue xs + (2 ^ 64) ^ xs.length * (up f xs ys c).2.toNat := by
  have whole := up_value (2 ^ 64) UInt64.toNat (fun c : UInt64 => -(c.toNat : Int)) ok 1 (-q)
    (by
      intro x y c good
      have one := step x y c good
      refine ⟨one.1, ?_⟩
      have equation := one.2
      zify at equation
      push_cast
      linarith) same start
  refine ⟨whole.1, ?_⟩
  have equation := whole.2
  unfold wordsValue
  zify
  push_cast at equation ⊢
  linarith

variable {r a b o n i : Nat} {s : BnStore} (roomR : i + n ≤ (s r).d.length)
  (roomA : i + o + n ≤ (s a).d.length) (roomB : i + n ≤ (s b).d.length)
  (isA : ((s a).d.drop (i + o)).take n = xs) (isB : ((s b).d.drop i).take n = ys)
include roomR roomA roomB isA isB

theorem upLoop_sum (carry : UInt64 → Nat) (p q : Nat) (step : ∀ x y c, ok c → ok (f x y c).2 ∧
      (f x y c).1.toNat + 2 ^ 64 * carry (f x y c).2 = p * x.toNat + q * y.toNat + carry c)
    (start : ok c) :
    ∃ s' c' ws, upLoop f r a b o n i c s = (s', c') ∧ WroteWords s s' r i ws ∧ ws.length = n ∧ ok c' ∧
      wordsValue ws + (2 ^ 64) ^ n * carry c' = p * wordsValue xs + q * wordsValue ys + carry c := by
  obtain ⟨last, wrote⟩ := upLoop_wrote f r a b o n i c s roomR roomA roomB
  rw [isA, isB] at last wrote
  have lengthA : xs.length = n := by
    rw [← isA, length_take, length_drop]
    omega
  have lengthB : ys.length = n := by
    rw [← isB, length_take, length_drop]
    omega
  have same : xs.length = ys.length := lengthA.trans lengthB.symm
  obtain ⟨good, sum⟩ := words_up ok carry p q step same start
  rw [← last] at good sum
  rw [lengthA] at sum
  exact ⟨_, _, _, rfl, wrote, (up_length f same c).trans lengthA, good, sum⟩

theorem upLoop_difference (q : Nat) (step : ∀ x y c, ok c → ok (f x y c).2 ∧
      (f x y c).1.toNat + q * y.toNat + c.toNat = x.toNat + 2 ^ 64 * (f x y c).2.toNat)
    (start : ok c) :
    ∃ s' c' ws, upLoop f r a b o n i c s = (s', c') ∧ WroteWords s s' r i ws ∧ ws.length = n ∧ ok c' ∧
      wordsValue ws + q * wordsValue ys + c.toNat = wordsValue xs + (2 ^ 64) ^ n * c'.toNat := by
  obtain ⟨carry, wrote⟩ := upLoop_wrote f r a b o n i c s roomR roomA roomB
  rw [isA, isB] at carry wrote
  have lengthA : xs.length = n := by
    rw [← isA, length_take, length_drop]
    omega
  have lengthB : ys.length = n := by
    rw [← isB, length_take, length_drop]
    omega
  have same : xs.length = ys.length := lengthA.trans lengthB.symm
  obtain ⟨good, sum⟩ := words_borrow ok q step same start
  rw [← carry] at good sum
  rw [lengthA] at sum
  exact ⟨_, _, _, rfl, wrote, (up_length f same c).trans lengthA, good, sum⟩

omit roomR roomA roomB isA isB in
theorem downLoop_divides {f : UInt64 → UInt64 → UInt64 × UInt64} (carry : UInt64 → Nat) (d m : Nat)
    (step : ∀ x c, ok c → ok (f x c).2 ∧
      d * (f x c).1.toNat + carry (f x c).2 = 2 ^ 64 * carry c + m * x.toNat)
    (roomR : n + o ≤ (s r).d.length) (roomA : n ≤ (s a).d.length) (isA : (s a).d.take n = xs)
    (start : ok c) :
    ∃ s' c' ws, downLoop f r a o n c s = (s', c') ∧ WroteWords s s' r o ws ∧ ws.length = n ∧ ok c' ∧
      d * wordsValue ws + carry c' = (2 ^ 64) ^ n * carry c + m * wordsValue xs := by
  obtain ⟨last, wrote⟩ := downLoop_wrote f r a o n c s roomR roomA
  rw [isA] at last wrote
  have length : xs.length = n := by
    rw [← isA, length_take]
    omega
  obtain ⟨good, sum⟩ := down_value (2 ^ 64) UInt64.toNat carry ok d m step xs start
  rw [← last] at good sum
  rw [length] at sum
  exact ⟨_, _, _, rfl, wrote, (down_length f xs c).trans length, good, sum⟩

end Passes

section Sizes

variable {a : Bignum} {ws : List UInt64}

theorem checked_of_le
    (sized : a.top = 0 ∧ a.neg = false ∨ 0 < a.top ∧ (2 ^ 64) ^ (a.top - 1) ≤ a.magnitude) :
    bnCheckTop a := by
  rcases sized with zero | ⟨used, least⟩
  · exact .inl zero
  · refine .inr ⟨used, ?_⟩
    intro none_
    have most := (a.magnitude_split used).2
    rw [none_, UInt64.toNat_zero, zero_add, one_mul] at most
    omega

theorem le_of_checked (checked : bnCheckTop a) (used : 0 < a.top) :
    (2 ^ 64) ^ (a.top - 1) ≤ a.magnitude := by
  rcases checked with ⟨zero, _⟩ | ⟨_, nonzero⟩
  · omega
  · have word : (a.d.getD (a.top - 1) 0).toNat ≠ 0 := by
      intro zero
      exact nonzero (UInt64.toNat_inj.mp zero)
    exact le_trans (Nat.le_mul_of_pos_left _ (pos_of_ne_zero word)) (a.magnitude_split used).1

theorem magnitude_of_words (is : a.d.take a.top = ws) : a.magnitude = wordsValue ws := by
  rw [Bignum.magnitude, Bignum.words, is]

variable {c : UInt64}

theorem magnitude_carried {n : Nat} (length : ws.length = n) (is : a.d.take (n + 1) = ws ++ [c])
    (top : a.top = n + if c = 0 then 0 else 1) :
    a.magnitude = wordsValue ws + (2 ^ 64) ^ n * c.toNat := by
  subst length
  by_cases zero : c = 0
  · rw [if_pos zero] at top
    have front := congrArg (take ws.length) is
    rw [take_take, min_eq_left (Nat.le_succ _), take_left] at front
    rw [magnitude_of_words (show a.d.take a.top = ws by rw [top]; exact front), zero]
    simp
  · rw [if_neg zero] at top
    rw [magnitude_of_words (show a.d.take a.top = ws ++ [c] by rw [top]; exact is), wordsValue,
      value_concat]

theorem checked_carried {n : Nat} (length : ws.length = n) (is : a.d.take (n + 1) = ws ++ [c])
    (top : a.top = n + if c = 0 then 0 else 1)
    (sized : c = 0 → n = 0 ∧ a.neg = false ∨ 0 < n ∧ (2 ^ 64) ^ (n - 1) ≤ a.magnitude) :
    bnCheckTop a := by
  apply checked_of_le
  by_cases zero : c = 0
  · have same := sized zero
    rw [if_pos zero] at top
    rw [top]
    exact same
  · rw [if_neg zero] at top
    refine .inr ⟨by omega, ?_⟩
    have word : c.toNat ≠ 0 := by
      intro none_
      exact zero (UInt64.toNat_inj.mp none_)
    rw [magnitude_carried length is (by rw [top, if_neg zero]), top, Nat.add_sub_cancel]
    have := Nat.le_mul_of_pos_right ((2 ^ 64) ^ n) (pos_of_ne_zero word)
    omega

end Sizes

/- r becomes the number, in its only form, and nothing else changes. -/
structure Becomes (s : BnStore) (r : Nat) (v : Int) (s' : BnStore) : Prop where
  value : (s' r).value = v
  canonical : bnCheckTop (s' r)
  others : ∀ x, x ≠ r → s' x = s x

section Changes
variable (s : BnStore) (r : Nat) (f : Bignum → Bignum)

@[simp] theorem change_self : change s r f r = f (s r) := Function.update_self r _ s

theorem change_other {x : Nat} (other : x ≠ r) : change s r f x = s x :=
  Function.update_of_ne other _ _

end Changes

theorem withTop_eq (a : Bignum) (top : Nat) (fits : top ≤ a.d.length) :
    (a.withTop top).d = a.d ∧ (a.withTop top).top = top ∧ (a.withTop top).neg = a.neg := by
  rw [Bignum.withTop, dif_pos fits]
  exact ⟨rfl, rfl, rfl⟩

structure Readied (s s1 : BnStore) (r n : Nat) : Prop where
  words : ∀ x, (s1 x).d.take (s x).top = (s x).words
  fits : ∀ x, (s x).top ≤ (s1 x).d.length
  room : n ≤ (s1 r).d.length
  others : ∀ x, x ≠ r → s1 x = s x

variable {s s1 : BnStore} {k n r : Nat} {a : Bignum}

variable {f : Bignum → Bignum} {m : Nat} {c : UInt64} {b : Bignum}

theorem bnExpanded_top (a : Bignum) (n : Nat) : (bnExpanded a n).top = a.top := by
  unfold bnExpanded
  split <;> rfl

theorem readied_of (d : (f (s r)).d = (bnExpanded (s r) n).d) : Readied s (change s r f) r n := by
  have top := bnExpanded_top (s r) n
  constructor
  · intro x
    by_cases same : x = r
    · subst same
      rw [change_self, d, ← top]
      exact bnExpanded_words (s x) n
    · rw [change_other s r f same]
      rfl
  · intro x
    by_cases same : x = r
    · subst same
      rw [change_self, d, ← top]
      exact (bnExpanded (s x) n).fits
    · rw [change_other s r f same]
      exact (s x).fits
  · rw [change_self, d]
    exact le_bnExpanded _ _
  · intro x other
    exact change_other s r f other

theorem Readied.take (readied : Readied s s1 r n) (x : Nat) (within : k ≤ (s x).top) :
    (s1 x).d.take k = (s x).words.take k := by
  rw [← readied.words x, take_take, min_eq_left within]

theorem Readied.drop (readied : Readied s s1 r n) (x : Nat) (all : k + m = (s x).top) :
    ((s1 x).d.drop k).take m = (s x).words.drop k := by
  rw [← readied.words x, ← all, drop_take, Nat.add_sub_cancel_left]

theorem value_take_drop (ws : List UInt64) (within : k ≤ ws.length) :
    wordsValue ws = wordsValue (ws.take k) + (2 ^ 64) ^ k * wordsValue (ws.drop k) := by
  have whole := value_append (2 ^ 64) UInt64.toNat (ws.take k) (ws.drop k)
  rw [take_append_drop, length_take, min_eq_left within] at whole
  exact whole

/-- The number is what the loops wrote, and a last word if that is not zero. -/
theorem becomes_carried {s2 : BnStore} {ws : List UInt64} {v : Nat}
    (wrote : WroteWords s1 s2 r 0 (ws ++ [c])) (length : ws.length = n)
    (others : ∀ x, x ≠ r → s1 x = s x) (d : (f (s2 r)).d = (s2 r).d)
    (top : (f (s2 r)).top = n + if c = 0 then 0 else 1)
    (sum : wordsValue ws + (2 ^ 64) ^ n * c.toNat = v)
    (sized : c = 0 → n = 0 ∧ (f (s2 r)).neg = false ∨ 0 < n ∧ (2 ^ 64) ^ (n - 1) ≤ v) :
    Becomes s r (if (f (s2 r)).neg then -(v : Int) else v) (change s2 r f) := by
  have is : (f (s2 r)).d.take (n + 1) = ws ++ [c] := by
    have written := wrote.written
    rw [zero_add, take_zero, nil_append, length_append, length] at written
    rw [d]
    exact written
  have magnitude := (magnitude_carried length is top).trans sum
  constructor
  · rw [change_self, Bignum.value, magnitude]
  · rw [change_self]
    exact checked_carried length is top (by rw [magnitude]; exact sized)
  · intro x other
    rw [change_other s2 r f other, wrote.others x other, others x other]

theorem bit_toNat (bit : c.toNat ≤ 1) : c.toNat = if c = 0 then 0 else 1 := by
  by_cases zero : c = 0
  · rw [if_pos zero, zero]
    rfl
  · rw [if_neg zero]
    have : c.toNat ≠ 0 := by
      intro none_
      exact zero (UInt64.toNat_inj.mp none_)
    omega

theorem uaddLonger_spec (r a b : Nat) (s : BnStore) (longer : (s b).top ≤ (s a).top)
    (checked : bnCheckTop (s a)) (grows : Room (s r) ((s a).top + 1)) :
    (uaddLonger r a b s).1 = true ∧
      Becomes s r ((s a).magnitude + (s b).magnitude : Nat) (uaddLonger r a b s).2 := by
  have ready : Readied s (change s r fun x => (bnExpanded x ((s a).top + 1)).withTop (s a).top) r
      ((s a).top + 1) := by
    apply readied_of
    exact (withTop_eq _ _ (le_trans (Nat.le_succ _) (le_bnExpanded _ _))).1
  rw [uaddLonger, if_neg (room_expands grows)]
  refine ⟨rfl, ?_⟩
  dsimp only
  generalize change s r (fun x => (bnExpanded x ((s a).top + 1)).withTop (s a).top) = s1 at *
  have room := ready.room
  have fitsA := ready.fits a
  have fitsB := ready.fits b
  -- the words that both numbers have
  obtain ⟨s2, c1, ws1, first, wrote1, count1, bit1, sum1⟩ :=
    upLoop_sum (f := addStep) (fun c => c.toNat ≤ 1) (r := r) (a := a) (b := b) (o := 0) (i := 0)
      (c := 0) (s := s1) (by omega) (by omega) (by omega) (ready.take a longer) (ready.words b)
      UInt64.toNat 1 1
      (by intro x y c bit; have := addStep_spec x y c bit; omega) (by decide)
  rw [first]
  dsimp only
  -- the words that only a has
  have roomR := wrote1.length r
  have roomA := wrote1.length a
  have above : ((s2 a).d.drop ((s b).top + 0)).take ((s a).top - (s b).top) =
      (s a).words.drop (s b).top := by
    rw [add_zero, wrote1.drop_above a (by omega), ready.drop a (by omega)]
  obtain ⟨s3, c2, ws2, second, wrote2, count2, bit2, sum2⟩ :=
    upLoop_sum (f := fun t1 _ carry => carryStep t1 carry) (fun c => c.toNat ≤ 1) (r := r) (a := a)
      (b := a) (o := 0) (i := (s b).top) (c := c1) (s := s2) (by omega) (by omega) (by omega) above
      above UInt64.toNat 1 0 (by intro x y c bit; have := carryStep_spec x c bit; omega) bit1
  rw [second]
  have behind := wrote1.behind wrote2 (by rw [count1, zero_add])
  have last : (s a).top < (s3 r).d.length := by
    rw [wrote2.length, roomR]
    omega
  have poked := poke_wrote s3 last c2
  have all := behind.behind poked
    (by rw [length_append, count1, count2, zero_add, Nat.add_sub_cancel' longer])
  have fits : (s a).top + c2.toNat ≤ (poke s3 r (s a).top c2 r).d.length := by
    rw [poked.length]
    omega
  obtain ⟨d, top, _⟩ := withTop_eq _ _ fits
  have value := value_take_drop (s a).words (k := (s b).top) (by simp [longer])
  have total : wordsValue (ws1 ++ ws2) + (2 ^ 64) ^ (s a).top * c2.toNat =
      (s a).magnitude + (s b).magnitude := by
    have split : (2 ^ 64) ^ (s a).top = (2 ^ 64) ^ (s b).top * (2 ^ 64) ^ ((s a).top - (s b).top) := by
      rw [← pow_add, Nat.add_sub_cancel' longer]
    rw [UInt64.toNat_zero] at sum1
    rw [wordsValue, value_append, count1, split, Bignum.magnitude, Bignum.magnitude, value]
    linear_combination sum1 + (2 ^ 64) ^ (s b).top * sum2
  have result := becomes_carried (f := fun x => (x.withTop ((s a).top + c2.toNat)).withNeg false) all
    (by rw [length_append, count1, count2]; omega) ready.others d
    (by rw [← bit_toNat bit2]; exact top) total (by
      intro _
      by_cases zero : (s a).top = 0
      · exact .inl ⟨zero, rfl⟩
      · refine .inr ⟨by omega, ?_⟩
        have := le_of_checked checked (by omega)
        omega)
  exact result

theorem bnUadd_spec (r a b : Nat) (s : BnStore) (checkedA : bnCheckTop (s a))
    (checkedB : bnCheckTop (s b)) (grows : Room (s r) (max (s a).top (s b).top + 1)) :
    (bnUadd r a b s).1 = true ∧
      Becomes s r ((s a).magnitude + (s b).magnitude : Nat) (bnUadd r a b s).2 := by
  by_cases shorter : (s a).top < (s b).top
  · rw [max_eq_right (by omega)] at grows
    rw [bnUadd, if_pos shorter, add_comm]
    exact uaddLonger_spec r b a s (by omega) checkedB grows
  · rw [max_eq_left (by omega)] at grows
    rw [bnUadd, if_neg shorter]
    exact uaddLonger_spec r a b s (by omega) checkedA grows

/-- The smaller magnitude is taken from the larger one. -/
theorem bnUsub_spec (r a b : Nat) (s : BnStore) (checkedB : bnCheckTop (s b))
    (enough : (s b).magnitude ≤ (s a).magnitude) (grows : Room (s r) (s a).top) :
    (bnUsub r a b s).1 = true ∧
      Becomes s r ((s a).magnitude - (s b).magnitude : Nat) (bnUsub r a b s).2 := by
  have longer : (s b).top ≤ (s a).top := by
    by_contra short
    have least := le_of_checked checkedB (by omega)
    have most := (s a).magnitude_lt
    have := Nat.pow_le_pow_right (n := 2 ^ 64) (by decide) (by omega : (s a).top ≤ (s b).top - 1)
    omega
  have ready : Readied s (change s r (bnExpanded · (s a).top)) r (s a).top := readied_of rfl
  rw [bnUsub, if_neg (by omega), if_neg (room_expands grows)]
  refine ⟨rfl, ?_⟩
  dsimp only
  generalize change s r (bnExpanded · (s a).top) = s1 at *
  have room := ready.room
  have fitsA := ready.fits a
  have fitsB := ready.fits b
  -- the words that both numbers have
  obtain ⟨s2, c1, ws1, first, wrote1, count1, bit1, sum1⟩ :=
    upLoop_difference (f := subStep) (fun c => c.toNat ≤ 1) (r := r) (a := a) (b := b) (o := 0)
      (i := 0) (c := 0) (s := s1) (by omega) (by omega) (by omega) (ready.take a longer)
      (ready.words b) 1 (by intro x y c bit; have := subStep_spec x y c bit; omega) (by decide)
  rw [first]
  -- the words that only a has
  have roomR := wrote1.length r
  have roomA := wrote1.length a
  have above : ((s2 a).d.drop ((s b).top + 0)).take ((s a).top - (s b).top) =
      (s a).words.drop (s b).top := by
    rw [add_zero, wrote1.drop_above a (by omega), ready.drop a (by omega)]
  obtain ⟨s3, c2, ws2, second, wrote2, count2, bit2, sum2⟩ :=
    upLoop_difference (f := fun t1 _ borrow => borrowStep t1 borrow) (fun c => c.toNat ≤ 1) (r := r)
      (a := a) (b := a) (o := 0) (i := (s b).top) (c := c1) (s := s2) (by omega) (by omega) (by omega)
      above above 0 (by intro x y c bit; have := borrowStep_spec x c bit; omega) bit1
  rw [second]
  dsimp only
  have all := wrote1.behind wrote2 (by rw [count1, zero_add])
  have count : (ws1 ++ ws2).length = (s a).top := by
    rw [length_append, count1, count2]
    omega
  have value := value_take_drop (s a).words (k := (s b).top) (by simp [longer])
  have split : (2 ^ 64) ^ (s a).top = (2 ^ 64) ^ (s b).top * (2 ^ 64) ^ ((s a).top - (s b).top) := by
    rw [← pow_add, Nat.add_sub_cancel' longer]
  have total : wordsValue (ws1 ++ ws2) + (s b).magnitude =
      (s a).magnitude + (2 ^ 64) ^ (s a).top * c2.toNat := by
    rw [UInt64.toNat_zero] at sum1
    rw [wordsValue, value_append, count1, split, Bignum.magnitude, Bignum.magnitude, value]
    linear_combination sum1 + (2 ^ 64) ^ (s b).top * sum2
  have below := wordsValue_lt (ws1 ++ ws2)
  rw [count] at below
  have none_ : c2.toNat = 0 := by
    by_contra some_
    have := Nat.le_mul_of_pos_right ((2 ^ 64) ^ (s a).top) (pos_of_ne_zero some_)
    omega
  rw [none_, mul_zero, add_zero] at total
  have written := all.written
  rw [zero_add, take_zero, nil_append, count] at written
  have fits : correctedTop (s3 r).d (s a).top ≤ (s3 r).d.length :=
    le_trans (correctedTop_le _ _) (by rw [wrote2.length, roomR]; exact room)
  obtain ⟨d, top, _⟩ := withTop_eq _ _ fits
  have magnitude : ((s3 r).withTop (correctedTop (s3 r).d (s a).top)).magnitude =
      (s a).magnitude - (s b).magnitude := by
    rw [Bignum.magnitude, Bignum.words, d, top, correctedTop_value, written]
    omega
  constructor
  · rw [change_self, Bignum.value]
    exact congrArg Nat.cast magnitude
  · rw [change_self]
    rcases correctedTop_get (s3 r).d (s a).top with zero | nonzero
    · exact .inl ⟨top.trans zero, rfl⟩
    · by_cases zero : correctedTop (s3 r).d (s a).top = 0
      · exact .inl ⟨top.trans zero, rfl⟩
      · refine .inr ⟨?_, ?_⟩
        · exact lt_of_lt_of_eq (pos_of_ne_zero zero) top.symm
        · rw [Bignum.withNeg]
          dsimp only
          rw [d, top]
          exact nonzero
  · intro x other
    rw [change_other _ r _ other, all.others x other, ready.others x other]

theorem value_natAbs (a : Bignum) : a.value.natAbs = a.magnitude := by
  rw [Bignum.value]
  split <;> simp

theorem value_signed (a : Bignum) : a.value = if a.neg then -(a.magnitude : Int) else a.magnitude := rfl

theorem becomes_signed {s' : BnStore} (becomes : Becomes s r (m : Nat) s') (neg : Bool)
    (zero : m = 0 → neg = false) :
    Becomes s r (if neg then -(m : Int) else m) (change s' r (·.withNeg neg)) := by
  have magnitude : (s' r).magnitude = m := by
    rw [← value_natAbs, becomes.value, Int.natAbs_natCast]
  constructor
  · rw [change_self]
    have same : ((s' r).withNeg neg).magnitude = m := magnitude
    rw [value_signed, same]
    rfl
  · rw [change_self]
    rcases becomes.canonical with ⟨none_, _⟩ | ⟨used, nonzero⟩
    · have empty := Bignum.magnitude_top_zero none_
      exact .inl ⟨none_, zero (by omega)⟩
    · exact .inr ⟨used, nonzero⟩
  · intro x other
    rw [change_other s' r _ other, becomes.others x other]

theorem ucmpLoop_spec {a b : List UInt64} (withinA : n ≤ a.length) (withinB : n ≤ b.length) :
    (0 < ucmpLoop a b n ↔ wordsValue (b.take n) < wordsValue (a.take n)) ∧
      (ucmpLoop a b n < 0 ↔ wordsValue (a.take n) < wordsValue (b.take n)) := by
  induction n with
  | zero => simp [ucmpLoop]
  | succ n ih =>
    obtain ⟨more, less⟩ := ih (by omega) (by omega)
    have lowA := wordsValue_lt (a.take n)
    have lowB := wordsValue_lt (b.take n)
    rw [length_take, min_eq_left (by omega)] at lowA lowB
    have atA : wordsValue (a.take (n + 1)) =
        wordsValue (a.take n) + (2 ^ 64) ^ n * (a.getD n 0).toNat := by
      rw [take_succ_eq_append_getElem (by omega : n < a.length), wordsValue, value_concat,
        length_take, min_eq_left (by omega), getD_eq_getElem _ _ (by omega)]
    have atB : wordsValue (b.take (n + 1)) =
        wordsValue (b.take n) + (2 ^ 64) ^ n * (b.getD n 0).toNat := by
      rw [take_succ_eq_append_getElem (by omega : n < b.length), wordsValue, value_concat,
        length_take, min_eq_left (by omega), getD_eq_getElem _ _ (by omega)]
    rw [ucmpLoop, atA, atB]
    by_cases same : a.getD n 0 = b.getD n 0
    · rw [if_neg (not_not.mpr same), same]
      exact ⟨more.trans (by omega), less.trans (by omega)⟩
    · rw [if_pos same]
      by_cases above : a.getD n 0 > b.getD n 0
      · rw [if_pos above]
        have least := Nat.mul_le_mul_left ((2 ^ 64) ^ n) (UInt64.lt_iff_toNat_lt.mp above)
        rw [Nat.succ_eq_add_one, mul_add, mul_one] at least
        constructor <;> constructor <;> omega
      · rw [if_neg above]
        have below : (a.getD n 0).toNat < (b.getD n 0).toNat := by
          have apart := mt UInt64.toNat_inj.mp same
          have := mt UInt64.lt_iff_toNat_lt.mpr above
          omega
        have least := Nat.mul_le_mul_left ((2 ^ 64) ^ n) below
        rw [Nat.succ_eq_add_one, mul_add, mul_one] at least
        constructor <;> constructor <;> omega

theorem magnitude_lt_of_top (checked : bnCheckTop b) (fewer : a.top < b.top) :
    a.magnitude < b.magnitude := by
  have least := le_of_checked checked (by omega)
  have most := a.magnitude_lt
  have := Nat.pow_le_pow_right (n := 2 ^ 64) (by decide) (by omega : a.top ≤ b.top - 1)
  omega

theorem bnUcmp_spec (checkedA : bnCheckTop a) (checkedB : bnCheckTop b) :
    (0 < bnUcmp a b ↔ b.magnitude < a.magnitude) ∧
      (bnUcmp a b < 0 ↔ a.magnitude < b.magnitude) := by
  rw [bnUcmp]
  by_cases same : (a.top : Int) - b.top = 0
  · have tops : b.top = a.top := by omega
    have both := ucmpLoop_spec a.fits (tops ▸ b.fits)
    rw [if_neg (not_not.mpr same), Bignum.magnitude, Bignum.magnitude, Bignum.words, Bignum.words, tops]
    exact both
  · rw [if_pos same]
    by_cases fewer : a.top < b.top
    · have := magnitude_lt_of_top checkedB fewer
      constructor <;> constructor <;> omega
    · have := magnitude_lt_of_top checkedA (by omega : b.top < a.top)
      constructor <;> constructor <;> omega

theorem neg_of_zero (checked : bnCheckTop a) (zero : a.magnitude = 0) : a.neg = false := by
  by_contra neg
  have := Bignum.neg_nonzero checked (by simpa using neg)
  omega

theorem bnAddOrSub_spec {adds negB : Bool} (r a b : Nat) (like : adds = true ↔ (s a).neg = negB)
    (checkedA : bnCheckTop (s a)) (checkedB : bnCheckTop (s b))
    (grows : Room (s r) (max (s a).top (s b).top + if adds then 1 else 0)) :
    (bnAddOrSub adds negB r a b s).1 = true ∧
      Becomes s r ((s a).value + if negB then -((s b).magnitude : Int) else (s b).magnitude)
        (bnAddOrSub adds negB r a b s).2 := by
  rw [value_signed, bnAddOrSub]
  by_cases same : adds = true
  · obtain ⟨success, becomes⟩ := bnUadd_spec r a b s checkedA checkedB
      (by rwa [if_pos same] at grows)
    have signed := becomes_signed becomes (s a).neg (fun none_ => neg_of_zero checkedA (by omega))
    rw [if_pos same]
    refine ⟨success, ?_⟩
    rw [← like.mp same]
    convert signed using 1
    split <;> omega
  · have other : negB = !(s a).neg := by
      have apart := mt like.mpr same
      revert apart
      generalize (s a).neg = negA
      cases negA <;> cases negB <;> decide
    obtain ⟨more, less⟩ := bnUcmp_spec checkedA checkedB
    rw [if_neg same]
    by_cases above : 0 < bnUcmp (s a) (s b)
    · have larger := more.mp above
      obtain ⟨success, becomes⟩ := bnUsub_spec r a b s checkedB (by omega)
        (grows.imp (by omega) (by omega))
      have signed := becomes_signed becomes (s a).neg (by omega)
      rw [if_pos above]
      refine ⟨success, ?_⟩
      convert signed using 1
      rw [other]
      cases (s a).neg <;> simp <;> omega
    · rw [if_neg above]
      by_cases below : bnUcmp (s a) (s b) < 0
      · have smaller := less.mp below
        obtain ⟨success, becomes⟩ := bnUsub_spec r b a s checkedA (by omega)
          (grows.imp (by omega) (by omega))
        have signed := becomes_signed becomes negB (by omega)
        rw [if_pos below]
        refine ⟨success, ?_⟩
        convert signed using 1
        rw [other]
        cases (s a).neg <;> simp <;> omega
      · have equal : (s a).magnitude = (s b).magnitude := by
          omega
        rw [if_neg below]
        dsimp only
        refine ⟨rfl, ?_, ?_, ?_⟩
        · rw [change_self, change_self, other, equal]
          have zero : ((bnZero (s r)).withNeg false).value = 0 := rfl
          rw [zero]
          cases (s a).neg <;> simp
        · rw [change_self, change_self]
          exact .inl ⟨rfl, rfl⟩
        · intro x apart
          rw [change_other _ r _ apart, change_other _ r _ apart]

theorem bnAdd_spec (r a b : Nat) (checkedA : bnCheckTop (s a)) (checkedB : bnCheckTop (s b))
    (grows : Room (s r) (max (s a).top (s b).top + if (s a).neg = (s b).neg then 1 else 0)) :
    (bnAdd r a b s).1 = true ∧ Becomes s r ((s a).value + (s b).value) (bnAdd r a b s).2 :=
  bnAddOrSub_spec r a b decide_eq_true_iff checkedA checkedB (by simpa using grows)

theorem bnSub_spec (r a b : Nat) (checkedA : bnCheckTop (s a)) (checkedB : bnCheckTop (s b))
    (grows : Room (s r) (max (s a).top (s b).top + if (s a).neg = (s b).neg then 0 else 1)) :
    (bnSub r a b s).1 = true ∧ Becomes s r ((s a).value - (s b).value) (bnSub r a b s).2 := by
  have like : decide ((s a).neg ≠ (s b).neg) = true ↔ (s a).neg = !(s b).neg := by
    cases (s a).neg <;> cases (s b).neg <;> decide
  have difference : (s a).value - (s b).value =
      (s a).value + if (!(s b).neg) = true then -((s b).magnitude : Int) else (s b).magnitude := by
    rw [value_signed (s b)]
    cases (s b).neg
    · simp
      omega
    · simp
  rw [difference]
  exact bnAddOrSub_spec r a b like checkedA checkedB (by simpa using grows)

end Ossl
