import OpenSSL.Bn.ShiftLaws

/- Arithmetic with one word, and what all the basic operations come to. -/
namespace Ossl
open UInt64 List CarryChain Digits Bignum Nat

variable {s : BnStore} {w : UInt64} {a : Bignum}

theorem modified_becomes {a : Nat} {v : Int} {f : Bignum → Bignum} (value : (f (s a)).value = v)
    (checked : bnCheckTop (f (s a))) : Becomes s a v (change s a f) := by
  constructor
  · rw [change_self]
    exact value
  · rw [change_self]
    exact checked
  · intro x other
    exact change_other s a f other

theorem toNat_zero_iff : w.toNat = 0 ↔ w = 0 := by
  rw [← UInt64.toNat_inj, UInt64.toNat_zero]

theorem bnSetWord_spec (a : Bignum) (w : UInt64) :
    (bnSetWord a w).magnitude = w.toNat ∧ (bnSetWord a w).neg = false ∧
      (w = 0 → (bnSetWord a w).top = 0) ∧ bnCheckTop (bnSetWord a w) := by
  have room := le_bnExpanded a 1
  have length : (((bnExpanded a 1).withNeg false).poke 0 w).d.length = (bnExpanded a 1).d.length :=
    length_set
  obtain ⟨d, top, neg⟩ := withTop_eq (((bnExpanded a 1).withNeg false).poke 0 w)
    (if w ≠ 0 then 1 else 0) (by split <;> omega)
  have first : (((bnExpanded a 1).withNeg false).poke 0 w).d.getD 0 0 = w := by
    have set : (((bnExpanded a 1).withNeg false).poke 0 w).d = (bnExpanded a 1).d.set 0 w := rfl
    rw [set, getD_eq_getElem _ _ (by rw [length_set]; omega), getElem_set_self]
  have is : (bnSetWord a w).top = if w ≠ 0 then 1 else 0 := top
  have words : (bnSetWord a w).d.getD 0 0 = w := (congrArg (getD · 0 0) d).trans first
  by_cases zero : w = 0
  · rw [if_neg (not_not.mpr zero)] at is
    refine ⟨?_, neg, fun _ => is, .inl ⟨is, neg⟩⟩
    rw [magnitude_top_zero is, zero]
    rfl
  · rw [if_pos zero] at is
    have whole := magnitude_last (bnSetWord a w) (by omega)
    refine ⟨?_, neg, fun no => absurd no zero, .inr ⟨by omega, ?_⟩⟩
    · rw [whole, is, words]
      simp [wordsValue]
    · rw [is, words]
      exact zero

variable {b : Bignum}

theorem grown_spec {n : Nat} (top : b.top = n) (c : UInt64) :
    let y := ((bnExpanded b (n + 1)).withTop (n + 1)).poke n c
    y.d.take (n + 1) = b.words ++ [c] ∧ y.top = n + 1 ∧ y.neg = b.neg := by
  have room := le_bnExpanded b (n + 1)
  obtain ⟨d, top', neg⟩ := withTop_eq _ _ room
  have words := bnExpanded_words b (n + 1)
  rw [Bignum.words, bnExpanded_top, top] at words
  refine ⟨?_, top', neg.trans (bnExpanded_neg _ _)⟩
  have set : (((bnExpanded b (n + 1)).withTop (n + 1)).poke n c).d =
      (bnExpanded b (n + 1)).d.set n c := by
    rw [← d]
    rfl
  rw [set, take_succ_eq_append_getElem (by rw [length_set]; omega),
    take_set_of_le (le_refl n), words, getElem_set_self]

theorem addWordLoop_spec (xs : List UInt64) (w : UInt64) :
    (addWordLoop xs w).1.length = xs.length ∧
      wordsValue (addWordLoop xs w).1 + (2 ^ 64) ^ xs.length * (addWordLoop xs w).2.toNat =
        wordsValue xs + w.toNat := by
  induction xs generalizing w with
  | nil => exact ⟨rfl, by simp [addWordLoop]⟩
  | cons x xs ih =>
    rw [addWordLoop]
    by_cases zero : w = 0
    · rw [if_pos zero, zero]
      exact ⟨rfl, by simp⟩
    · rw [if_neg zero]
      obtain ⟨length, sum⟩ := ih (flag (w > x + w))
      have word : (x + w).toNat + 2 ^ 64 * (flag (w > x + w)).toNat = x.toNat + w.toNat := by
        have wx := x.toNat_lt
        have ww := w.toNat_lt
        simp only [flag_toNat, GT.gt, lt_iff_toNat_lt, UInt64.toNat_add]
        split <;> omega
      refine ⟨by simp [length], ?_⟩
      simp only [value_cons, length_cons]
      linear_combination 2 ^ 64 * sum + word

/- The words for a result that may have one more than the number it is made of. -/
def carriedWords (top m : Nat) : Nat := if (2 ^ 64) ^ top ≤ m then top + 1 else top

/-- The magnitude of a number that is not negative, with the word added to it. -/
theorem addWordPlain_spec (checked : bnCheckTop a) (plain : a.neg = false) (w : UInt64)
    (grows : Room a (carriedWords a.top (a.magnitude + w.toNat))) :
    (addWordPlain a w).1 = true ∧ (addWordPlain a w).2.magnitude = a.magnitude + w.toNat ∧
      (addWordPlain a w).2.neg = false ∧ bnCheckTop (addWordPlain a w).2 := by
  rw [addWordPlain]
  by_cases zero : w = 0
  · rw [if_pos zero, zero]
    exact ⟨rfl, rfl, plain, checked⟩
  rw [if_neg zero]
  by_cases none_ : a.top = 0
  · rw [if_pos none_, magnitude_top_zero none_, zero_add]
    obtain ⟨magnitude, neg, _, good⟩ := bnSetWord_spec a w
    exact ⟨rfl, magnitude, neg, good⟩
  rw [if_neg none_]
  have used : 0 < a.top := pos_of_ne_zero none_
  have least := le_of_checked checked used
  obtain ⟨length, sum⟩ := addWordLoop_spec a.words w
  rw [words_length] at length sum
  generalize addWordLoop a.words w = loop at *
  obtain ⟨ws, c⟩ := loop
  dsimp only at length sum ⊢
  have words := bnSetWords_words a ws a.neg
  have top : (bnSetWords a ws a.neg).top = a.top := length
  by_cases carried : c = 0
  · have no : ¬ c ≠ 0 := not_not.mpr carried
    have magnitude : (bnSetWords a ws a.neg).magnitude = a.magnitude + w.toNat := by
      rw [magnitude, words, magnitude]
      rw [carried, UInt64.toNat_zero, Nat.mul_zero, Nat.add_zero] at sum
      exact sum
    rw [if_neg no]
    have good : bnCheckTop (bnSetWords a ws a.neg) := by
      refine checked_of_le (.inr ⟨by omega, ?_⟩)
      rw [magnitude, top]
      omega
    exact ⟨rfl, magnitude, plain, good⟩
  · have more := Nat.le_mul_of_pos_right ((2 ^ 64) ^ a.top)
      (pos_of_ne_zero (mt toNat_zero_iff.mp carried))
    have wide : (2 ^ 64) ^ a.top ≤ a.magnitude + w.toNat := by
      rw [Bignum.magnitude]
      omega
    rw [carriedWords, if_pos wide] at grows
    have fits := a.fits
    have room : Room (bnSetWords a ws a.neg) (a.top + 1) := by
      have same : (bnSetWords a ws a.neg).d.length = a.d.length := by
        simp [bnSetWords]
        omega
      rw [Room, same]
      exact grows
    rw [if_pos carried, top, if_neg (room_expands room)]
    obtain ⟨is, top', neg⟩ := grown_spec top c
    rw [words] at is
    have last : (((bnExpanded (bnSetWords a ws a.neg) (a.top + 1)).withTop (a.top + 1)).poke a.top c).top =
        a.top + if c = 0 then 0 else 1 := by
      rw [top', if_neg carried]
    refine ⟨rfl, ?_, neg.trans plain, ?_⟩
    · rw [magnitude_carried length is last]
      exact sum
    · exact checked_carried length is last (fun no => absurd no carried)

theorem subWordLoop_spec {xs : List UInt64} (enough : w.toNat ≤ wordsValue xs) (some_ : xs ≠ []) :
    (subWordLoop xs w).1.length = xs.length ∧ (subWordLoop xs w).2 < xs.length ∧
      wordsValue (subWordLoop xs w).1 + w.toNat = wordsValue xs ∧
      (subWordLoop xs w).1.drop ((subWordLoop xs w).2 + 1) =
        xs.drop ((subWordLoop xs w).2 + 1) := by
  unfold wordsValue at *
  induction xs generalizing w with
  | nil => exact absurd rfl some_
  | cons x xs ih =>
    rw [subWordLoop]
    rw [value_cons] at enough
    by_cases above : x ≥ w
    · rw [if_pos above]
      have : w.toNat ≤ x.toNat := le_iff_toNat_le.mp above
      refine ⟨rfl, by simp, ?_, rfl⟩
      rw [value_cons, value_cons, UInt64.toNat_sub_of_le _ _ above]
      omega
    · rw [if_neg above]
      have less : x.toNat < w.toNat := by
        have := mt le_iff_toNat_le.mpr above
        omega
      have word := w.toNat_lt
      have more : 1 ≤ value (2 ^ 64) UInt64.toNat xs := by
        by_contra none_
        have : value (2 ^ 64) UInt64.toNat xs = 0 := by omega
        rw [this] at enough
        omega
      have further : xs ≠ [] := by
        rintro rfl
        rw [value_nil] at more
        omega
      obtain ⟨length, within, sum, rest⟩ := ih (w := 1) more further
      refine ⟨by simp [length], by simpa using within, ?_, by simpa using rest⟩
      rw [value_cons, value_cons, UInt64.toNat_sub]
      rw [toNat_one] at sum
      omega

theorem magnitude_one (one : a.top = 1) : a.magnitude = (a.d.getD 0 0).toNat := by
  have whole := magnitude_last a (by omega)
  rw [whole, one]
  simp [wordsValue]

theorem dropped_spec (used : 0 < b.top) (zero : b.d.getD (b.top - 1) 0 = 0) :
    (b.withTop (b.top - 1)).magnitude = b.magnitude ∧ (b.withTop (b.top - 1)).top = b.top - 1 ∧
      (b.withTop (b.top - 1)).neg = b.neg := by
  have fits := b.fits
  obtain ⟨d, top, neg⟩ := withTop_eq b (b.top - 1) (by omega)
  have whole := magnitude_last b used
  rw [zero, UInt64.toNat_zero, Nat.mul_zero, Nat.add_zero] at whole
  refine ⟨?_, top, neg⟩
  rw [whole, magnitude, words, d, top, words, take_take,
    min_eq_left (by omega)]

/-- A number that is not negative, with the word taken from it. -/
theorem subWordPlain_spec (checked : bnCheckTop a) (plain : a.neg = false) (w : UInt64) :
    (subWordPlain a w).value = (a.magnitude : Int) - w.toNat ∧ bnCheckTop (subWordPlain a w) := by
  rw [subWordPlain]
  by_cases zero : w = 0
  · rw [if_pos zero, zero, value_signed, plain]
    exact ⟨by simp, checked⟩
  rw [if_neg zero]
  by_cases none_ : a.top = 0
  · obtain ⟨magnitude, _, _, good⟩ := bnSetWord_spec a w
    have used : (bnSetWord a w).top ≠ 0 := by
      intro empty
      rw [magnitude_top_zero empty] at magnitude
      exact zero (toNat_zero_iff.mp magnitude.symm)
    rw [if_pos none_, magnitude_top_zero none_]
    dsimp only
    rw [decide_eq_true used]
    have same : ((bnSetWord a w).withNeg true).magnitude = w.toNat := magnitude
    refine ⟨?_, ?_⟩
    · rw [value_signed, same]
      simp [withNeg]
    · rcases good with ⟨empty, _⟩ | nonzero
      · exact absurd empty used
      · exact .inr nonzero
  rw [if_neg none_]
  have used : 0 < a.top := pos_of_ne_zero none_
  have least := le_of_checked checked used
  by_cases single : a.top = 1 ∧ a.d.getD 0 0 < w
  · rw [if_pos single]
    have stored := a.fits
    have less := lt_iff_toNat_lt.mp single.2
    have word : (w - a.d.getD 0 0).toNat = w.toNat - (a.d.getD 0 0).toNat :=
      UInt64.toNat_sub_of_le _ _ (UInt64.le_of_lt single.2)
    have first : ((a.poke 0 (w - a.d.getD 0 0)).withNeg true).d.getD 0 0 = w - a.d.getD 0 0 := by
      have set : ((a.poke 0 (w - a.d.getD 0 0)).withNeg true).d = a.d.set 0 (w - a.d.getD 0 0) := rfl
      rw [set, getD_eq_getElem _ _ (by rw [length_set]; omega), getElem_set_self]
    have magnitude := magnitude_one (a := (a.poke 0 (w - a.d.getD 0 0)).withNeg true) single.1
    rw [first, word] at magnitude
    refine ⟨?_, .inr ⟨used, ?_⟩⟩
    · rw [value_signed, magnitude, magnitude_one single.1]
      simp only [withNeg, if_true]
      omega
    · have top : ((a.poke 0 (w - a.d.getD 0 0)).withNeg true).top = 1 := single.1
      rw [top, first]
      intro no
      have := toNat_zero_iff.mpr no
      omega
  rw [if_neg single]
  have below := w.toNat_lt
  have enough : w.toNat ≤ a.magnitude := by
    by_cases one : a.top = 1
    · rw [magnitude_one one]
      have := mt (fun less => ⟨one, lt_iff_toNat_lt.mpr less⟩) single
      omega
    · have := Nat.pow_le_pow_right (n := 2 ^ 64) (by decide) (by omega : 1 ≤ a.top - 1)
      omega
  have some_ : a.words ≠ [] := by
    intro empty
    have := congrArg length empty
    rw [words_length] at this
    exact none_ this
  obtain ⟨length, within, sum, rest⟩ := subWordLoop_spec enough some_
  generalize subWordLoop a.words w = loop at *
  obtain ⟨ws, i⟩ := loop
  dsimp only at length within sum rest ⊢
  rw [words_length] at length within
  have words := bnSetWords_words a ws a.neg
  have top : (bnSetWords a ws a.neg).top = a.top := length
  have neg : (bnSetWords a ws a.neg).neg = false := plain
  have magnitude : (bnSetWords a ws a.neg).magnitude + w.toNat = a.magnitude := by
    rw [magnitude, words]
    exact sum
  have last : i < a.top - 1 → (bnSetWords a ws a.neg).d.getD (a.top - 1) 0 = a.d.getD (a.top - 1) 0 := by
    intro under
    have at_ := congrArg (getD · (a.top - 1 - (i + 1)) 0) rest
    simp only [getD_eq_getElem?_getD, getElem?_drop] at at_
    rw [show i + 1 + (a.top - 1 - (i + 1)) = a.top - 1 by omega] at at_
    have front : (bnSetWords a ws a.neg).d = ws ++ a.d.drop ws.length := rfl
    rw [front, getD_eq_getElem?_getD, getElem?_append_left (by omega), at_, Bignum.words,
      getElem?_take_of_lt (by omega), ← getD_eq_getElem?_getD]
  generalize bnSetWords a ws a.neg = b at *
  by_cases empties : b.d.getD i 0 = 0 ∧ i = b.top - 1
  · rw [if_pos empties]
    obtain ⟨same, top', neg'⟩ := dropped_spec (b := b) (by omega) (by rw [← empties.2]; exact empties.1)
    refine ⟨?_, checked_of_le ?_⟩
    · rw [value_signed, neg', neg, same]
      simp only [Bool.false_eq_true, if_false]
      omega
    · rw [top', neg', same, top]
      by_cases one : a.top = 1
      · exact .inl ⟨by omega, neg⟩
      · refine .inr ⟨by omega, ?_⟩
        have split : (2 ^ 64) ^ (a.top - 1) = 2 ^ 64 * (2 ^ 64) ^ (a.top - 1 - 1) := by
          rw [← Nat.pow_succ', Nat.succ_eq_add_one, Nat.sub_add_cancel (by omega)]
        omega
  · rw [if_neg empties]
    refine ⟨?_, .inr ⟨by omega, ?_⟩⟩
    · rw [value_signed, neg]
      simp only [Bool.false_eq_true, if_false]
      omega
    · rw [top] at empties ⊢
      by_cases under : i < a.top - 1
      · rw [last under]
        rcases checked with ⟨no, _⟩ | ⟨_, nonzero⟩
        · exact absurd no none_
        · exact nonzero
      · have is : i = a.top - 1 := by omega
        intro no
        exact empties ⟨by rw [is]; exact no, is⟩

theorem bnAddWord_spec (a : Nat) (w : UInt64) (checked : bnCheckTop (s a))
    (grows : Room (s a) (carriedWords (s a).top ((s a).value + w.toNat).natAbs)) :
    (bnAddWord a w s).1 = true ∧ Becomes s a ((s a).value + w.toNat) (bnAddWord a w s).2 := by
  rw [bnAddWord]
  by_cases negative : w ≠ 0 ∧ (s a).top ≠ 0 ∧ (s a).neg = true
  · rw [if_pos negative]
    have good : bnCheckTop ((s a).withNeg false) := by
      rcases checked with ⟨no, _⟩ | nonzero
      · exact absurd no negative.2.1
      · exact .inr nonzero
    obtain ⟨value, checked'⟩ := subWordPlain_spec good rfl w
    have same : ((s a).withNeg false).magnitude = (s a).magnitude := rfl
    rw [same] at value
    refine ⟨rfl, ?_⟩
    dsimp only
    apply modified_becomes
    · rw [value_signed (s a), if_pos negative.2.2]
      generalize subWordPlain ((s a).withNeg false) w = x at *
      by_cases empty : x.top = 0
      · rw [if_neg (not_not.mpr empty)]
        rw [value_signed, magnitude_top_zero empty] at value ⊢
        split at value <;> split <;> omega
      · rw [if_pos empty]
        rw [value_signed] at value ⊢
        have same' : (x.withNeg (!x.neg)).magnitude = x.magnitude := rfl
        have flipped : (x.withNeg (!x.neg)).neg = !x.neg := rfl
        rw [same', flipped]
        cases neg : x.neg
        · rw [neg] at value
          simp at value ⊢
          omega
        · rw [neg] at value
          simp at value ⊢
          omega
    · generalize subWordPlain ((s a).withNeg false) w = x at *
      by_cases empty : x.top = 0
      · rw [if_neg (not_not.mpr empty)]
        exact checked'
      · rw [if_pos empty]
        rcases checked' with ⟨no, _⟩ | nonzero
        · exact absurd no empty
        · exact .inr nonzero
  · rw [if_neg negative]
    by_cases plain : (s a).neg = false
    · have sum : ((s a).value + w.toNat).natAbs = (s a).magnitude + w.toNat := by
        rw [value_signed, plain]
        rfl
      rw [sum] at grows
      obtain ⟨success, magnitude, neg, good⟩ := addWordPlain_spec checked plain w grows
      refine ⟨success, ?_⟩
      refine modified_becomes (f := fun x => (addWordPlain x w).2) ?_ good
      rw [value_signed, value_signed, neg, plain, magnitude]
      simp
    · have neg : (s a).neg = true := by simpa using plain
      have used := neg_nonzero checked neg
      have top : (s a).top ≠ 0 := by
        intro empty
        have := magnitude_top_zero empty
        omega
      have zero : w = 0 := by
        by_contra nonzero
        exact negative ⟨nonzero, top, neg⟩
      have stays : addWordPlain (s a) w = (true, s a) := if_pos zero
      refine ⟨congrArg Prod.fst stays, ?_⟩
      dsimp only
      apply modified_becomes
      · rw [stays, zero]
        simp
      · rw [stays]
        exact checked

theorem bnSubWord_spec (a : Nat) (w : UInt64) (checked : bnCheckTop (s a))
    (grows : Room (s a) (carriedWords (s a).top ((s a).value - w.toNat).natAbs)) :
    (bnSubWord a w s).1 = true ∧ Becomes s a ((s a).value - w.toNat) (bnSubWord a w s).2 := by
  rw [bnSubWord]
  by_cases negative : w ≠ 0 ∧ (s a).top ≠ 0 ∧ (s a).neg = true
  · rw [if_pos negative]
    have good : bnCheckTop ((s a).withNeg false) := by
      rcases checked with ⟨no, _⟩ | nonzero
      · exact absurd no negative.2.1
      · exact .inr nonzero
    have sum : ((s a).value - w.toNat).natAbs = (s a).magnitude + w.toNat := by
      rw [value_signed, if_pos negative.2.2]
      omega
    rw [sum] at grows
    obtain ⟨success, magnitude, _, checked'⟩ := addWordPlain_spec good rfl w grows
    have same : ((s a).withNeg false).magnitude = (s a).magnitude := rfl
    have some_ := neg_nonzero checked negative.2.2
    rw [same] at magnitude
    refine ⟨success, ?_⟩
    dsimp only
    apply modified_becomes
    · have same' : ((addWordPlain ((s a).withNeg false) w).2.withNeg true).magnitude =
        (s a).magnitude + w.toNat := magnitude
      rw [value_signed, value_signed, same', if_pos negative.2.2]
      simp only [withNeg, if_true]
      omega
    · rcases checked' with ⟨empty, _⟩ | nonzero
      · have := magnitude_top_zero empty
        omega
      · exact .inr nonzero
  · rw [if_neg negative]
    refine ⟨rfl, ?_⟩
    dsimp only
    by_cases plain : (s a).neg = false
    · obtain ⟨value, good⟩ := subWordPlain_spec checked plain w
      apply modified_becomes _ good
      rw [value, value_signed, plain]
      simp
    · have neg : (s a).neg = true := by simpa using plain
      have used := neg_nonzero checked neg
      have top : (s a).top ≠ 0 := by
        intro empty
        have := magnitude_top_zero empty
        omega
      have zero : w = 0 := by
        by_contra nonzero
        exact negative ⟨nonzero, top, neg⟩
      have stays : subWordPlain (s a) w = s a := if_pos zero
      apply modified_becomes
      · rw [stays, zero]
        simp
      · rw [stays]
        exact checked

theorem bnMulWord_spec (a : Nat) (w : UInt64) (checked : bnCheckTop (s a))
    (grows : Room (s a) (carriedWords (s a).top ((s a).value * w.toNat).natAbs)) :
    (bnMulWord a w s).1 = true ∧ Becomes s a ((s a).value * w.toNat) (bnMulWord a w s).2 := by
  rw [bnMulWord]
  by_cases none_ : (s a).top = 0
  · rw [if_pos none_]
    refine ⟨rfl, ?_, checked, fun _ _ => rfl⟩
    rw [value_signed, Bignum.magnitude_top_zero none_]
    simp
  rw [if_neg none_]
  by_cases zero : w = 0
  · rw [if_pos zero, zero]
    refine ⟨rfl, ?_⟩
    apply modified_becomes
    · simp [value_signed, bnZero, Bignum.magnitude, Bignum.words]
    · exact .inl ⟨rfl, rfl⟩
  rw [if_neg zero]
  have used : 0 < (s a).top := pos_of_ne_zero none_
  have least := le_of_checked checked used
  have fits := (s a).fits
  have pos : 0 < w.toNat := pos_of_ne_zero (mt toNat_zero_iff.mp zero)
  have whole : ((s a).d.drop (0 + 0)).take (s a).top = (s a).words := rfl
  obtain ⟨s2, c, ws, loop, wrote, count, _, sum⟩ :=
    upLoop_sum (f := fun x _ c => mulStep w x c) (fun _ => True) (r := a) (a := a) (b := a) (o := 0)
      (i := 0) (c := 0) (s := s) (by omega) (by omega) (by omega) whole whole UInt64.toNat w.toNat 0
      (by intro x y c _; have := mulStep_spec w x c; exact ⟨trivial, by omega⟩) trivial
  have product : wordsValue ws + (2 ^ 64) ^ (s a).top * c.toNat = w.toNat * (s a).magnitude := by
    rw [UInt64.toNat_zero] at sum
    rw [Bignum.magnitude]
    omega
  have more := Nat.le_mul_of_pos_left (s a).magnitude pos
  have written := wrote.written
  rw [zero_add, take_zero, nil_append, count] at written
  have words : (s2 a).words = ws := by rw [Bignum.words, wrote.top, written]
  have signed : (s a).value * w.toNat =
      if (s a).neg then -((w.toNat * (s a).magnitude : Nat) : Int)
      else (w.toNat * (s a).magnitude : Nat) := by
    rw [value_signed]
    split <;> push_cast <;> ring
  dsimp only
  rw [loop, signed]
  by_cases carried : c = 0
  · have no : ¬ c ≠ 0 := not_not.mpr carried
    rw [carried, UInt64.toNat_zero, Nat.mul_zero, Nat.add_zero] at product
    have magnitude : (s2 a).magnitude = w.toNat * (s a).magnitude := by
      rw [Bignum.magnitude, words, product]
    rw [if_neg no]
    refine ⟨rfl, ?_, ?_, wrote.others⟩
    · rw [value_signed, wrote.neg, magnitude]
    · apply checked_of_le
      rw [wrote.top, magnitude]
      exact .inr ⟨used, by omega⟩
  · have wide := Nat.le_mul_of_pos_right ((2 ^ 64) ^ (s a).top)
      (pos_of_ne_zero (mt toNat_zero_iff.mp carried))
    have size : ((s a).value * w.toNat).natAbs = w.toNat * (s a).magnitude := by
      rw [Int.natAbs_mul, value_natAbs, mul_comm]
      rfl
    rw [size, carriedWords, if_pos (by omega)] at grows
    have room : Room (s2 a) ((s a).top + 1) := by
      rw [Room, wrote.length]
      exact grows
    rw [if_pos carried, if_neg (room_expands room)]
    obtain ⟨is, top, neg⟩ := grown_spec (b := s2 a) (wrote.top a) c
    rw [words] at is
    have last : (((bnExpanded (s2 a) ((s a).top + 1)).withTop ((s a).top + 1)).poke (s a).top c).top =
        (s a).top + if c = 0 then 0 else 1 := by
      rw [top, if_neg carried]
    have self : poke (change s2 a fun x => (bnExpanded x ((s a).top + 1)).withTop ((s a).top + 1)) a
        (s a).top c a =
          ((bnExpanded (s2 a) ((s a).top + 1)).withTop ((s a).top + 1)).poke (s a).top c := by
      rw [poke, change_self, change_self]
    have magnitude := magnitude_carried count is last
    refine ⟨rfl, ?_, ?_, ?_⟩
    · dsimp only
      rw [self, value_signed, neg, wrote.neg, magnitude, product]
    · dsimp only
      rw [self]
      exact checked_carried count is last (fun no => absurd no carried)
    · intro x other
      dsimp only
      rw [poke, change_other _ a _ other, change_other s2 a _ other, wrote.others x other]

theorem modWordHalves_spec (small : w.toNat ≤ 2 ^ 32) (x : UInt64) {ret : UInt64}
    (less : ret.toNat < w.toNat) :
    (modWordHalves w x ret).toNat = (2 ^ 64 * ret.toNat + x.toNat) % w.toNat := by
  have half (y z : UInt64) (under : y.toNat < w.toNat) (low : z.toNat < 2 ^ 32) :
      (((y <<< 32) ||| z) % w).toNat = (2 ^ 32 * y.toNat + z.toNat) % w.toNat := by
    have up : (y <<< 32).toNat = 2 ^ 32 * y.toNat := by
      have shifted := shiftLeft_toNat y (show 32 < 64 by decide)
      rw [mod_eq_of_lt (by omega), mul_comm] at shifted
      exact shifted
    rw [UInt64.toNat_mod, or_add (k := 32) (by rw [up]; exact dvd_mul_right _ _) low, up]
  have wx := x.toNat_lt
  have high : ((x >>> 32) &&& 0xffffffff).toNat = x.toNat / 2 ^ 32 := by
    rw [low_half, high_half, mod_eq_of_lt (by omega)]
  have low := low_half x
  have first := half ret ((x >>> 32) &&& 0xffffffff) less (by rw [high]; omega)
  have under : (((ret <<< 32) ||| ((x >>> 32) &&& 0xffffffff)) % w).toNat < w.toNat := by
    rw [first]
    exact mod_lt _ (by omega)
  have second := half _ (x &&& 0xffffffff) under (by rw [low]; omega)
  rw [first, high, low] at second
  rw [modWordHalves, second]
  have whole : 2 ^ 64 * ret.toNat + x.toNat =
      2 ^ 32 * (2 ^ 32 * ret.toNat + x.toNat / 2 ^ 32) + x.toNat % 2 ^ 32 := by omega
  rw [whole, add_mod, mul_mod, mod_mod, ← mul_mod, ← add_mod]

theorem modWords_spec (small : w.toNat ≤ 2 ^ 32) (pos : 0 < w.toNat) (ws : List UInt64) :
    (ws.foldr (modWordHalves w) 0).toNat = wordsValue ws % w.toNat := by
  unfold wordsValue
  induction ws with
  | nil => exact (zero_mod _).symm
  | cons x ws ih =>
    have less : (ws.foldr (modWordHalves w) 0).toNat < w.toNat := by
      rw [ih]
      exact mod_lt _ pos
    rw [foldr_cons, modWordHalves_spec small x less, ih, value_cons, add_comm x.toNat,
      add_mod, mul_mod, mod_mod, ← mul_mod, ← add_mod]

theorem bnDivWord_spec (a : Nat) (nonzero : w ≠ 0) (checked : bnCheckTop (s a))
    (grows : Room (s a) ((s a).top + 1)) :
    (bnDivWord a w s).1.toNat = (s a).magnitude % w.toNat ∧
      Becomes s a ((s a).value.tdiv w.toNat) (bnDivWord a w s).2 := by
  have pos : 0 < w.toNat := pos_of_ne_zero (mt toNat_zero_iff.mp nonzero)
  rw [bnDivWord, if_neg nonzero]
  by_cases none_ : (s a).top = 0
  · have zero := magnitude_top_zero none_
    rw [if_pos none_, tdiv_signed, zero, Nat.zero_mod, Nat.zero_div]
    refine ⟨rfl, ?_, checked, fun _ _ => rfl⟩
    rw [value_signed, zero]
  rw [if_neg none_]
  have used : 0 < (s a).top := pos_of_ne_zero none_
  have least := le_of_checked checked used
  have some_ : 0 < (s a).magnitude := Nat.lt_of_lt_of_le (Nat.pow_pos (by decide)) least
  -- the divisor gets its highest bit set
  have size := bnNumBitsWord_eq w
  have sizePos := size_pos.mpr pos
  have sizeMost : Nat.size w.toNat ≤ 64 := Nat.size_le.mpr w.toNat_lt
  have below := lt_size_self w.toNat
  generalize shift : 64 - bnNumBitsWord w = j
  have small : j < 64 := by omega
  have room : w.toNat * 2 ^ j < 2 ^ 64 := by
    have whole : (2 : Nat) ^ 64 = 2 ^ Nat.size w.toNat * 2 ^ j := by
      rw [← pow_add]
      congr 1
      omega
    rw [whole]
    exact Nat.mul_lt_mul_of_pos_right below (Nat.pow_pos (by decide))
  have divisor : (w <<< ofNat j).toNat = w.toNat * 2 ^ j := by
    rw [shiftLeft_toNat w small, mod_eq_of_lt room]
  have bits : 0 < 2 ^ j := Nat.pow_pos (by decide)
  obtain ⟨success, becomes⟩ := bnLshift_spec a a (n := (j : Int)) (by omega) s
    (by rwa [Int.toNat_natCast, Nat.div_eq_of_lt small])
  rw [Int.toNat_natCast] at becomes
  dsimp only
  generalize w <<< ofNat j = v at *
  generalize bnLshift a a (j : Int) s = shifted at *
  obtain ⟨ok, s1⟩ := shifted
  dsimp only at success becomes
  subst success
  dsimp only
  have magnitude : (s1 a).magnitude = (s a).magnitude * 2 ^ j := by
    rw [← value_natAbs, becomes.value, Int.natAbs_mul, value_natAbs]
    rfl
  have some1 : 0 < (s1 a).magnitude := by
    rw [magnitude]
    exact mul_pos some_ bits
  have used1 : 0 < (s1 a).top := by
    by_contra empty
    have := magnitude_top_zero (a := s1 a) (by omega)
    omega
  have least1 := le_of_checked becomes.canonical used1
  have neg1 : (s1 a).neg = (s a).neg := by
    have value := becomes.value
    rw [value_signed, value_signed, magnitude] at value
    have positive : (0 : Int) < ((s a).magnitude * 2 ^ j : Nat) := by
      exact_mod_cast mul_pos some_ bits
    cases one : (s1 a).neg <;> cases two : (s a).neg
    · rfl
    · rw [one, two] at value
      simp at value
      push_cast at positive
      omega
    · rw [one, two] at value
      simp at value
      push_cast at positive
      omega
    · rfl
  have fits1 := (s1 a).fits
  obtain ⟨s2, c, ws, loop, wrote, count, less, sum⟩ :=
    downLoop_divides (f := divStep v) (fun c => c < v) (r := a) (a := a) (o := 0) (s := s1) (c := 0)
      (n := (s1 a).top) UInt64.toNat v.toNat 1 (fun x c less => divStep_spec x less)
      (by omega) (by omega) rfl (lt_iff_toNat_lt.mpr (by
        rw [divisor]
        exact mul_pos pos bits))
  rw [loop]
  have under := lt_iff_toNat_lt.mp less
  have division : v.toNat * wordsValue ws + c.toNat = (s1 a).magnitude := by
    rw [UInt64.toNat_zero, Nat.mul_zero, Nat.zero_add, Nat.one_mul] at sum
    exact sum
  have quotient : wordsValue ws = (s a).magnitude / w.toNat := by
    rw [← Nat.mul_div_mul_right _ _ bits, ← magnitude, ← divisor, ← division,
      mul_add_div (by omega), div_eq_of_lt under, add_zero]
  have remainder : c.toNat = (s a).magnitude % w.toNat * 2 ^ j := by
    rw [← mul_mod_mul_right, ← magnitude, ← divisor, ← division, mul_add_mod,
      mod_eq_of_lt under]
  have written := wrote.written
  rw [zero_add, take_zero, nil_append, count] at written
  have words : (s2 a).words = ws := by rw [words, wrote.top, written]
  refine ⟨?_, ?_⟩
  · rw [shiftRight_toNat c small, remainder, Nat.mul_div_cancel _ bits]
  rw [tdiv_signed, ← quotient]
  have top2 := wrote.top a
  have neg2 := wrote.neg a
  have magnitude2 : (s2 a).magnitude = wordsValue ws := by rw [Bignum.magnitude, words]
  -- the number once a zero word on top is left out
  generalize trimmed : (if 0 < (s2 a).top ∧ (s2 a).d.getD ((s2 a).top - 1) 0 = 0 then
    (s2 a).withTop ((s2 a).top - 1) else s2 a) = y
  have facts : y.magnitude = wordsValue ws ∧ y.neg = (s a).neg ∧ (y.top = 0 ∨ bnCheckTop y) := by
    by_cases empties : 0 < (s2 a).top ∧ (s2 a).d.getD ((s2 a).top - 1) 0 = 0
    · obtain ⟨same, top', neg'⟩ := dropped_spec empties.1 empties.2
      rw [if_pos empties] at trimmed
      rw [trimmed] at same top' neg'
      refine ⟨same.trans magnitude2, neg'.trans (neg2.trans neg1), ?_⟩
      by_cases one : (s1 a).top = 1
      · exact .inl (by omega)
      · refine .inr (checked_of_le (.inr ⟨by omega, ?_⟩))
        have split : (2 ^ 64) ^ ((s1 a).top - 1) = 2 ^ 64 * (2 ^ 64) ^ ((s1 a).top - 1 - 1) := by
          rw [← Nat.pow_succ', Nat.succ_eq_add_one, Nat.sub_add_cancel (by omega)]
        rw [same, magnitude2, top', top2]
        by_contra short
        have : v.toNat * (wordsValue ws + 1) ≤ 2 ^ 64 * (2 ^ 64) ^ ((s1 a).top - 1 - 1) :=
          Nat.mul_le_mul (by omega) (by omega)
        rw [Nat.mul_add, Nat.mul_one] at this
        omega
    · rw [if_neg empties] at trimmed
      subst trimmed
      refine ⟨magnitude2, neg2.trans neg1, .inr (.inr ⟨by omega, ?_⟩)⟩
      intro zero
      exact empties ⟨by omega, zero⟩
  obtain ⟨magnitudeY, negY, checkedY⟩ := facts
  have others (x : Nat) (other : x ≠ a) : s2 x = s x :=
    (wrote.others x other).trans (becomes.others x other)
  constructor
  · rw [change_self, change_self, trimmed]
    by_cases empty : y.top = 0
    · have zero := magnitude_top_zero empty
      have same : (y.withNeg false).magnitude = 0 := zero
      rw [if_pos empty, value_signed, same, ← magnitudeY, zero]
      simp
    · rw [if_neg empty, value_signed, negY, magnitudeY]
  · rw [change_self, change_self, trimmed]
    by_cases empty : y.top = 0
    · rw [if_pos empty]
      exact .inl ⟨empty, rfl⟩
    · rw [if_neg empty]
      exact checkedY.resolve_left empty
  · intro x other
    rw [change_other _ a _ other, change_other s2 a _ other, others x other]

theorem bnModWord_spec (checked : bnCheckTop a) (nonzero : w ≠ 0) (few : a.top < bnMaxWords) :
    (bnModWord a w).toNat = a.magnitude % w.toNat := by
  have pos : 0 < w.toNat := pos_of_ne_zero (mt toNat_zero_iff.mp nonzero)
  rw [bnModWord, if_neg nonzero]
  by_cases large : w > (1 : UInt64) <<< 32
  · have words := bnSetWords_words bnNew a.words a.neg
    generalize is : bnSetWords bnNew a.words a.neg = tmp
    have top : tmp.top = a.top := is ▸ a.words_length
    have good : bnCheckTop tmp := by
      rcases checked with ⟨empty, plain⟩ | ⟨used, last⟩
      · exact .inl ⟨top.trans empty, is ▸ plain⟩
      · refine .inr ⟨by omega, ?_⟩
        have at_ : tmp.d.getD (a.top - 1) 0 = a.d.getD (a.top - 1) 0 := by
          have d : tmp.d = a.words := by simp [← is, bnSetWords, bnNew]
          rw [d, Bignum.words, getD_eq_getElem?_getD, getElem?_take_of_lt (by omega),
            ← getD_eq_getElem?_getD]
        rw [top, at_]
        exact last
    have same : tmp.magnitude = a.magnitude := by
      rw [magnitude, ← is, words]
      rfl
    have dup : bnDup a = some tmp := by
      rw [bnDup, if_neg (room_expands (.inr (Nat.le_of_lt few))), is]
    rw [if_pos large, dup]
    dsimp only
    rw [(bnDivWord_spec 0 nonzero (s := fun _ => tmp) good (.inr (by rw [top]; exact few))).1, same]
  · have small : w.toNat ≤ 2 ^ 32 := by
      have := mt lt_iff_toNat_lt.mpr large
      have one : ((1 : UInt64) <<< 32).toNat = 2 ^ 32 := rfl
      omega
    rw [if_neg large, modWords_spec small pos]
    rfl

/- The operation succeeds with this value when the result has room for so many words. -/
def Exact (s : BnStore) (r words : Nat) (v : Int) (result : Bool × BnStore) : Prop :=
  Room (s r) words → result.1 = true ∧ Becomes s r v result.2

/-- Whether or not the result is an operand, every basic operation makes it the number that its name
    says, in its only form, when there is room for the words it asks for. -/
theorem bn_basic_arithmetic {s : BnStore} {a b : Nat} (checkedA : bnCheckTop (s a))
    (checkedB : bnCheckTop (s b)) (r : Nat) (w : UInt64) {n : Int} (whole : 0 ≤ n) :
    Exact s r (max (s a).top (s b).top + if (s a).neg = (s b).neg then 1 else 0)
      ((s a).value + (s b).value) (bnAdd r a b s) ∧
    Exact s r (max (s a).top (s b).top + if (s a).neg = (s b).neg then 0 else 1)
      ((s a).value - (s b).value) (bnSub r a b s) ∧
    Exact s r (max (s a).top (s b).top + 1)
      ((s a).magnitude + (s b).magnitude : Nat) (bnUadd r a b s) ∧
    ((s b).magnitude ≤ (s a).magnitude →
      Exact s r (s a).top ((s a).magnitude - (s b).magnitude : Nat) (bnUsub r a b s)) ∧
    Exact s r ((s a).top + n.toNat / 64 + 1) ((s a).value * 2 ^ n.toNat) (bnLshift r a n s) ∧
    Exact s r ((s a).top + 1) (2 * (s a).value) (bnLshift1 r a s) ∧
    Exact s r ((s a).top - n.toNat / 64) ((s a).value.tdiv ((2 ^ n.toNat : Nat) : Int))
      (bnRshift r a n s) ∧
    Exact s r (s a).top ((s a).value.tdiv 2) (bnRshift1 r a s) ∧
    Exact s a (carriedWords (s a).top ((s a).value + w.toNat).natAbs)
      ((s a).value + w.toNat) (bnAddWord a w s) ∧
    Exact s a (carriedWords (s a).top ((s a).value - w.toNat).natAbs)
      ((s a).value - w.toNat) (bnSubWord a w s) ∧
    Exact s a (carriedWords (s a).top ((s a).value * w.toNat).natAbs)
      ((s a).value * w.toNat) (bnMulWord a w s) ∧
    (w ≠ 0 → Room (s a) ((s a).top + 1) →
      (bnDivWord a w s).1.toNat = (s a).magnitude % w.toNat ∧
        Becomes s a ((s a).value.tdiv w.toNat) (bnDivWord a w s).2) ∧
    (w ≠ 0 → (s a).top < bnMaxWords →
      (bnModWord (s a) w).toNat = (s a).magnitude % w.toNat) :=
  ⟨bnAdd_spec r a b checkedA checkedB, bnSub_spec r a b checkedA checkedB,
    bnUadd_spec r a b s checkedA checkedB, bnUsub_spec r a b s checkedB,
    bnLshift_spec r a whole s, bnLshift1_spec r a checkedA, bnRshift_spec r a whole s,
    bnRshift1_spec r a checkedA, bnAddWord_spec a w checkedA, bnSubWord_spec a w checkedA,
    bnMulWord_spec a w checkedA, fun nonzero => bnDivWord_spec a nonzero checkedA,
    fun nonzero => bnModWord_spec checkedA nonzero⟩

def allOnes : Bignum := { d := [0 - 1], top := 1, neg := true, fits := Nat.le_refl 1 }

theorem bn_basic_arithmetic_ones :
    ((bnAdd 0 0 0 fun _ => allOnes).1 = true ∧
      Becomes (fun _ => allOnes) 0 (2 - 2 ^ 65) (bnAdd 0 0 0 fun _ => allOnes).2) ∧
    (bnSub 0 0 0 fun _ => allOnes).1 = true ∧
      Becomes (fun _ => allOnes) 0 0 (bnSub 0 0 0 fun _ => allOnes).2 := by
  have ones : bnCheckTop allOnes := by decide +kernel
  have value : allOnes.value = 1 - 2 ^ 64 := by decide +kernel
  have all := bn_basic_arithmetic (s := fun _ => allOnes) (a := 0) (b := 0) ones ones 0 1
    (show (0 : Int) ≤ 0 by decide)
  rw [value] at all
  exact ⟨all.1 (.inr (by decide)), all.2.1 (.inr (by decide))⟩

/- As many words as a number can be given. -/
def longestNumber : Bignum where
  d := replicate bnMaxWords 1
  top := bnMaxWords
  neg := false
  fits := by rw [length_replicate]

theorem longest_checked : bnCheckTop longestNumber := by
  have last : bnMaxWords - 1 < (replicate bnMaxWords (1 : UInt64)).length := by
    rw [length_replicate]
    decide
  refine .inr ⟨show 0 < bnMaxWords by decide, ?_⟩
  rw [show longestNumber.d = replicate bnMaxWords 1 from rfl,
    show longestNumber.top = bnMaxWords from rfl, getD_eq_getElem _ _ last, getElem_replicate]
  decide

theorem longest_refused : bnWexpand longestNumber (longestNumber.top + 1) = none := by
  have words : longestNumber.d.length = bnMaxWords := length_replicate
  have top : longestNumber.top = bnMaxWords := rfl
  rw [bnWexpand, words, top, if_pos ⟨Nat.lt_succ_self _, Nat.lt_succ_self _⟩]

theorem longest_not_doubled : bnCheckTop longestNumber ∧ ¬ ((bnLshift1 0 0 fun _ => longestNumber).1 = true ∧
    Becomes (fun _ => longestNumber) 0 (2 * longestNumber.value)
      (bnLshift1 0 0 fun _ => longestNumber).2) := by
  refine ⟨longest_checked, ?_⟩
  intro claimed
  rw [bnLshift1_refused 0 0 (s := fun _ => longestNumber) longest_refused] at claimed
  exact Bool.false_ne_true claimed.1

end Ossl
