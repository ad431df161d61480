import OpenSSL.Bn.AddLaws

/- Shifts of big numbers by one bit and by any number of them. -/
namespace Ossl
open Nat List CarryChain Digits

variable (a : Bignum)

theorem bnExpanded_neg (n : Nat) : (bnExpanded a n).neg = a.neg := by
  unfold bnExpanded
  split <;> rfl

theorem bnExpanded_withNeg (neg : Bool) (n : Nat) :
    (bnExpanded (a.withNeg neg) n).d = (bnExpanded a n).d := by
  unfold bnExpanded
  split
  · rename_i more
    exact (if_pos more).symm ▸ rfl
  · rename_i enough
    exact (if_neg enough).symm ▸ rfl

variable {s : BnStore} {n r : Nat}

theorem bnLshift1_refused (r a : Nat) (full : bnWexpand (s r) ((s a).top + 1) = none) :
    (bnLshift1 r a s).1 = false := by
  rw [bnLshift1, if_pos full]

theorem bnLshift1_spec (r a : Nat) (checked : bnCheckTop (s a))
    (grows : Room (s r) ((s a).top + 1)) :
    (bnLshift1 r a s).1 = true ∧ Becomes s r (2 * (s a).value) (bnLshift1 r a s).2 := by
  rw [bnLshift1, if_neg (room_expands grows)]
  refine ⟨rfl, ?_⟩
  dsimp only
  generalize started : (if r ≠ a then change s r fun x =>
      (bnExpanded (x.withNeg (s a).neg) ((s a).top + 1)).withTop (s a).top
    else change s r (bnExpanded · ((s a).top + 1))) = s1
  have ready : Readied s s1 r ((s a).top + 1) ∧ (s1 a).top = (s a).top ∧
      (s1 r).top = (s a).top ∧ (s1 r).neg = (s a).neg := by
    by_cases other : r ≠ a
    · have eqs := withTop_eq (bnExpanded ((s r).withNeg (s a).neg) ((s a).top + 1)) _
        (le_trans (le_succ _) (le_bnExpanded _ _))
      rw [if_pos other] at started
      subst started
      refine ⟨readied_of (eqs.1.trans (bnExpanded_withNeg _ _ _)), ?_, ?_, ?_⟩
      · rw [change_other s r _ other.symm]
      · rw [change_self]
        exact eqs.2.1
      · rw [change_self]
        exact eqs.2.2.trans (bnExpanded_neg _ _)
    · rw [if_neg other] at started
      subst started
      rw [not_not] at other
      subst other
      refine ⟨readied_of rfl, ?_, ?_, ?_⟩
      · rw [change_self, bnExpanded_top]
      · rw [change_self, bnExpanded_top]
      · rw [change_self, bnExpanded_neg]
  obtain ⟨ready, topA, topR, negR⟩ := ready
  have room := ready.room
  have fits := ready.fits a
  rw [topA]
  obtain ⟨s2, c, ws, loop, wrote, count, bit, sum⟩ :=
    upLoop_sum (f := fun t _ c => lshift1Step t c) (fun c => c.toNat ≤ 1) (r := r) (a := a) (b := a)
      (o := 0) (i := 0) (c := 0) (s := s1) (by omega) (by omega) (by omega) (ready.words a)
      (ready.words a) UInt64.toNat 2 0
      (by intro x y c bit; have := lshift1Step_spec x c bit; omega) (by decide)
  rw [loop]
  have last : (s a).top < (s2 r).d.length := by
    rw [wrote.length]
    omega
  have poked := poke_wrote s2 last c
  have all := wrote.behind poked (by rw [count, zero_add])
  have topR2 : (poke s2 r (s a).top c r).top = (s a).top := by rw [all.top, topR]
  obtain ⟨d, top, neg⟩ := withTop_eq (poke s2 r (s a).top c r) ((s a).top + c.toNat)
    (by rw [poked.length]; omega)
  have sum' : wordsValue ws + (2 ^ 64) ^ (s a).top * c.toNat = 2 * (s a).magnitude := by
    rw [UInt64.toNat_zero] at sum
    rw [Bignum.magnitude]
    omega
  have result := becomes_carried (f := fun x => x.withTop (x.top + c.toNat)) all count ready.others
    (by rw [topR2]; exact d) (by rw [topR2, ← bit_toNat bit]; exact top) sum' (by
      intro _
      by_cases zero : (s a).top = 0
      · refine .inl ⟨zero, ?_⟩
        rw [topR2, neg, all.neg, negR]
        exact neg_of_zero checked (Bignum.magnitude_top_zero zero)
      · refine .inr ⟨by omega, ?_⟩
        have := le_of_checked checked (by omega)
        omega)
  rw [topR2, neg, all.neg, negR] at result
  convert result using 1
  rw [value_signed]
  split <;> omega

theorem readied_same (room : n ≤ (s r).d.length) : Readied s s r n :=
  ⟨fun _ => rfl, fun x => (s x).fits, room, fun _ _ => rfl⟩

theorem wordsValue_single (w : UInt64) : wordsValue [w] = w.toNat := by
  simp [wordsValue]

theorem magnitude_last (used : 0 < a.top) : a.magnitude = wordsValue (a.words.take (a.top - 1)) +
      (2 ^ 64) ^ (a.top - 1) * (a.d.getD (a.top - 1) 0).toNat := by
  have stored := a.fits
  have split := value_take_drop a.words (k := a.top - 1) (by simp)
  have last : a.words.drop (a.top - 1) = [a.d.getD (a.top - 1) 0] := by
    rw [Bignum.words, drop_take, show a.top - (a.top - 1) = 0 + 1 by omega,
      take_cons_drop (by omega), take_zero]
  rw [Bignum.magnitude, split, last, wordsValue_single]

variable {s1 : BnStore} {ws : List UInt64}

theorem Readied.word (readied : Readied s s1 r n) (x : Nat) {k : Nat} (within : k < (s x).top) :
    word s1 x k = word s x k := by
  have same := congrArg (getD · k 0) (readied.words x)
  simpa [Ossl.word, Bignum.words, getD_eq_getElem?_getD, within] using same

theorem WroteWords.here {s' : BnStore} {i : Nat} (wrote : WroteWords s s' r i ws) :
    (s' r).d.drop i = ws ++ (s r).d.drop (i + ws.length) := by
  have room := wrote.room
  rw [wrote.d, splice, append_assoc, drop_append, drop_of_length_le
    (by rw [length_take]; omega), length_take, min_eq_left (by omega), Nat.sub_self]
  rfl

theorem bnRshift1_spec (r a : Nat) (checked : bnCheckTop (s a)) (grows : Room (s r) (s a).top) :
    (bnRshift1 r a s).1 = true ∧ Becomes s r ((s a).value.tdiv 2) (bnRshift1 r a s).2 := by
  rw [bnRshift1]
  by_cases none_ : (s a).top = 0
  · rw [if_pos none_]
    refine ⟨rfl, ?_, ?_, ?_⟩
    · have zero : (s a).value = 0 := by
        rw [value_signed, Bignum.magnitude_top_zero none_]
        simp
      dsimp only
      rw [change_self, zero]
      rfl
    · dsimp only
      rw [change_self]
      exact .inl ⟨rfl, rfl⟩
    · intro x other
      exact change_other s r _ other
  · rw [if_neg none_, if_neg (not_and.mpr fun _ => room_expands grows)]
    refine ⟨rfl, ?_⟩
    dsimp only
    have used : 0 < (s a).top := pos_of_ne_zero none_
    generalize started : (if a ≠ r then change s r fun x =>
      (bnExpanded x (s a).top).withNeg (s a).neg else s) = s1
    have ready : Readied s s1 r (s a).top ∧ (s1 r).neg = (s a).neg := by
      by_cases other : a ≠ r
      · rw [if_pos other] at started
        subst started
        refine ⟨readied_of rfl, ?_⟩
        rw [change_self]
        rfl
      · rw [if_neg other] at started
        subst started
        rw [not_not] at other
        subst other
        exact ⟨readied_same (s a).fits, rfl⟩
    obtain ⟨ready, negR⟩ := ready
    have room := ready.room
    have fits := ready.fits a
    -- the top is set
    obtain ⟨d2, top2, neg2⟩ := withTop_eq _ _ room
    have same2 (x : Nat) : (change s1 r (·.withTop (s a).top) x).d = (s1 x).d := by
      by_cases is : x = r
      · rw [is, change_self]
        exact d2
      · rw [change_other s1 r _ is]
    have self2 := change_self s1 r (·.withTop (s a).top)
    have others2 (x : Nat) (other : x ≠ r) := change_other s1 r (·.withTop (s a).top) other
    generalize change s1 r (·.withTop (s a).top) = s2 at *
    -- the last word is halved
    have t : word s2 a ((s a).top - 1) = word s a ((s a).top - 1) := by
      rw [← ready.word a (by omega), word, word, same2]
    rw [t]
    generalize lastWord : word s a ((s a).top - 1) = t
    have wrote3 := poke_wrote s2 (r := r) (i := (s a).top - 1) (by rw [same2]; omega) (t >>> 1)
    generalize poke s2 r ((s a).top - 1) (t >>> 1) = s3 at *
    have top3 : (s3 r).top = (s a).top := by rw [wrote3.top, self2, top2]
    have neg3 : (s3 r).neg = (s a).neg := by rw [wrote3.neg, self2, neg2, negR]
    -- the top goes down when nothing is left of the last word
    have flagged := flag_le (t = 1)
    obtain ⟨d4, top4, neg4⟩ := withTop_eq (s3 r) ((s3 r).top - (flag (t = 1)).toNat)
      (by have := (s3 r).fits; omega)
    have same4 (x : Nat) :
        (change s3 r (fun x => x.withTop (x.top - (flag (t = 1)).toNat)) x).d = (s3 x).d := by
      by_cases is : x = r
      · rw [is, change_self]
        exact d4
      · rw [change_other s3 r _ is]
    have self4 := change_self s3 r (fun x => x.withTop (x.top - (flag (t = 1)).toNat))
    have others4 (x : Nat) (other : x ≠ r) :=
      change_other s3 r (fun x => x.withTop (x.top - (flag (t = 1)).toNat)) other
    generalize change s3 r (fun x => x.withTop (x.top - (flag (t = 1)).toNat)) = s4 at *
    -- the other words
    have lengthR := wrote3.length r
    have lengthA := wrote3.length a
    rw [same2] at lengthR lengthA
    have below : (s4 a).d.take ((s a).top - 1) = (s a).words.take ((s a).top - 1) := by
      rw [same4, wrote3.take_below a (le_refl _), same2, ready.take a (by omega)]
    have first := rshift1Step_spec t 0 (dvd_zero _)
    rw [rshift1Step, UInt64.or_zero] at first
    obtain ⟨s5, c, ws, loop, wrote5, count, bit, sum⟩ :=
      downLoop_divides (f := rshift1Step) (fun c => 2 ^ 63 ∣ c.toNat) (r := r) (a := a) (o := 0)
        (s := s4) (c := t <<< 63) (fun c => c.toNat / 2 ^ 63) 2 1 rshift1Step_spec
        (by rw [same4]; omega) (by rw [same4]; omega) below first.1
    rw [loop]
    have is : (s5 r).d.take ((s a).top - 1 + 1) = ws ++ [t >>> 1] := by
      have written := wrote5.written
      rw [zero_add, count, take_zero, nil_append] at written
      rw [take_add, written, wrote5.drop_above r (by omega), same4, wrote3.here]
      rfl
    have half : (t >>> 1).toNat = t.toNat / 2 := by
      rw [UInt64.toNat_shiftRight, shiftRight_eq_div_pow]
      simp
    have top5 : (s5 r).top = (s a).top - 1 + if t >>> 1 = 0 then 0 else 1 := by
      have nonzero : t ≠ 0 := by
        rcases checked with ⟨zero, _⟩ | ⟨_, nonzero⟩
        · omega
        · rw [← lastWord]
          exact nonzero
      have one : t = 1 ↔ t >>> 1 = 0 := by
        rw [← UInt64.toNat_inj, ← UInt64.toNat_inj, half, UInt64.toNat_zero, UInt64.toNat_one]
        have : t.toNat ≠ 0 := fun zero => nonzero (UInt64.toNat_inj.mp zero)
        omega
      rw [wrote5.top, self4, top4, top3, flag_toNat]
      by_cases yes : t = 1
      · rw [if_pos yes, if_pos (one.mp yes)]
        omega
      · rw [if_neg yes, if_neg (mt one.mpr yes)]
        omega
    have magnitude5 := magnitude_carried count is top5
    have halved : (s5 r).magnitude = (s a).magnitude / 2 := by
      have whole := magnitude_last (s a) used
      have low := c.toNat_lt
      have word : (s a).d.getD ((s a).top - 1) 0 = t := lastWord
      rw [word] at whole
      have one := first.2
      simp only [UInt64.toNat_zero, zero_div, mul_zero, zero_add, one_mul] at one
      have double : 2 * (wordsValue ws + (2 ^ 64) ^ ((s a).top - 1) * (t >>> 1).toNat) +
          c.toNat / 2 ^ 63 = (s a).magnitude := by
        rw [whole]
        linear_combination sum + (2 ^ 64) ^ ((s a).top - 1) * one
      rw [magnitude5]
      omega
    have neg5 : (s5 r).neg = (s a).neg := by rw [wrote5.neg, self4, neg4, neg3]
    have others (x : Nat) (other : x ≠ r) : s5 x = s x := by
      rw [wrote5.others x other, others4 x other, wrote3.others x other, others2 x other,
        ready.others x other]
    have quotient : (s a).value.tdiv 2 =
        if (s a).neg then -(((s a).magnitude / 2 : Nat) : Int) else ((s a).magnitude / 2 : Nat) := by
      rw [value_signed]
      split
      · rw [Int.neg_tdiv]
        rfl
      · rfl
    constructor
    · rw [change_self, quotient]
      by_cases zero : (s5 r).top = 0
      · rw [if_pos zero]
        have empty := Bignum.magnitude_top_zero zero
        rw [← halved, empty, value_signed]
        have same : ((s5 r).withNeg false).magnitude = 0 := empty
        rw [same]
        simp
      · rw [if_neg zero, value_signed, neg5, halved]
    · rw [change_self]
      by_cases zero : (s5 r).top = 0
      · rw [if_pos zero]
        exact .inl ⟨zero, rfl⟩
      · rw [if_neg zero]
        refine checked_carried count is top5 ?_
        intro empty
        rw [if_pos empty] at top5
        refine .inr ⟨by omega, ?_⟩
        have least := le_of_checked checked used
        rw [halved]
        have split : (2 ^ 64) ^ ((s a).top - 1) = 2 ^ 64 * (2 ^ 64) ^ ((s a).top - 1 - 1) := by
          rw [← Nat.pow_succ', succ_eq_add_one, Nat.sub_add_cancel (by omega)]
        omega
    · intro x other
      rw [change_other s5 r _ other, others x other]

/-- The number is what was written, once zero words on top are left out. -/
theorem becomes_corrected {s2 : BnStore} {f : Bignum → Bignum} (wrote : WroteWords s1 s2 r 0 ws)
    (others : ∀ x, x ≠ r → s1 x = s x) (d : (f (s2 r)).d = (s2 r).d)
    (top : (f (s2 r)).top = ws.length) :
    Becomes s r (if (f (s2 r)).neg then -(wordsValue ws : Int) else wordsValue ws)
      (change (change s2 r f) r bnCorrectTop) := by
  have written := wrote.written
  rw [zero_add, take_zero, nil_append] at written
  have magnitude : (f (s2 r)).magnitude = wordsValue ws :=
    magnitude_of_words (by rw [d, top]; exact written)
  constructor
  · rw [change_self, change_self, bnCorrectTop_value, value_signed, magnitude]
  · rw [change_self]
    exact bnCorrectTop_checked _
  · intro x other
    rw [change_other _ r _ other, change_other s2 r f other, wrote.others x other, others x other]

theorem words_zeros (n : Nat) : wordsValue (replicate n 0) = 0 := by
  apply value_zeros
  intro w at_
  rw [eq_of_mem_replicate at_]
  rfl

theorem up_zeros (xs ys : List UInt64) (same : xs.length = ys.length) :
    (up (fun _ _ (_ : Unit) => ((0 : UInt64), ())) xs ys ()).1 = replicate xs.length 0 := by
  induction xs generalizing ys with
  | nil => cases ys <;> rfl
  | cons x xs ih =>
    cases ys with
    | nil => simp at same
    | cons y ys =>
      rw [up_cons, ih ys (by simpa using same)]
      rfl

theorem cleared_wrote (s : BnStore) (room : n ≤ (s r).d.length) :
    WroteWords s (upLoop (fun _ _ (_ : Unit) => (0, ())) r r r 0 n 0 () s).1 r 0 (replicate n 0) := by
  have both := upLoop_wrote (fun _ _ (_ : Unit) => ((0 : UInt64), ())) r r r 0 n 0 () s (by omega)
    (by omega) (by omega)
  dsimp only at both
  rw [up_zeros _ _ (by simp), length_take, length_drop, min_eq_left (by omega)] at both
  exact both.2

theorem bnLshiftFixedTop_spec (r a n : Nat) (s : BnStore)
    (grows : Room (s r) ((s a).top + n / 64 + 1)) : (bnLshiftFixedTop r a n s).1 = true ∧
      Becomes s r ((s a).value * 2 ^ n) (change (bnLshiftFixedTop r a n s).2 r bnCorrectTop) := by
  have ready : Readied s (change s r (bnExpanded · ((s a).top + n / 64 + 1))) r
      ((s a).top + n / 64 + 1) := readied_of rfl
  have topA : (change s r (bnExpanded · ((s a).top + n / 64 + 1)) a).top = (s a).top := by
    by_cases is : a = r
    · rw [is, change_self, bnExpanded_top]
    · rw [change_other s r _ is]
  have negA : (change s r (bnExpanded · ((s a).top + n / 64 + 1)) a).neg = (s a).neg := by
    by_cases is : a = r
    · rw [is, change_self, bnExpanded_neg]
    · rw [change_other s r _ is]
  rw [bnLshiftFixedTop, if_neg (room_expands grows)]
  refine ⟨rfl, ?_⟩
  dsimp only
  generalize change s r (bnExpanded · ((s a).top + n / 64 + 1)) = s1 at *
  have room := ready.room
  have fits := ready.fits a
  rw [topA]
  generalize stored : (if (s a).top ≠ 0 then _ else _ : BnStore) = s4
  have wrote : ∃ ws, WroteWords s1 s4 r (n / 64) ws ∧ ws.length = (s a).top + 1 ∧
      wordsValue ws = (s a).magnitude * 2 ^ (n % 64) := by
    by_cases none_ : (s a).top = 0
    · rw [if_neg (not_not.mpr none_)] at stored
      subst stored
      refine ⟨[0], poke_wrote s1 (by omega) 0, by rw [none_]; rfl, ?_⟩
      rw [Bignum.magnitude_top_zero none_, wordsValue_single, zero_mul]
      rfl
    · rw [if_pos none_] at stored
      have used : 0 < (s a).top := pos_of_ne_zero none_
      have small : n % 64 < 64 := mod_lt _ (by decide)
      rw [ready.word a (by omega)] at stored
      generalize lastWord : word s a ((s a).top - 1) = l at stored
      generalize n % 64 = bits at *
      have wrote2 := poke_wrote s1 (r := r) (i := n / 64 + (s a).top) (by omega)
        ((l >>> ((64 - UInt64.ofNat bits) % 64)) &&& shiftMask ((64 - UInt64.ofNat bits) % 64))
      generalize poke s1 r (n / 64 + (s a).top) _ = s2 at *
      have lengthR := wrote2.length r
      have lengthA := wrote2.length a
      obtain ⟨s3, c, ws, loop, wrote3, count, _, sum⟩ :=
        downLoop_divides (f := lshiftStep (UInt64.ofNat bits) ((64 - UInt64.ofNat bits) % 64)
          (shiftMask ((64 - UInt64.ofNat bits) % 64))) (fun _ => True) (r := r) (a := a)
          (o := n / 64 + 1) (s := s2) (c := l) (n := (s a).top - 1)
          (fun l => l.toNat * 2 ^ bits % 2 ^ 64) (2 ^ 64) (2 ^ bits)
          (fun f l _ => ⟨trivial, lshiftStep_spec small f l⟩) (by omega) (by omega) rfl trivial
      rw [loop] at stored
      have wrote4 := poke_wrote s3 (r := r) (i := n / 64) (by rw [wrote3.length]; omega)
        (c <<< UInt64.ofNat bits)
      rw [stored] at wrote4
      have all := (wrote2.before wrote3 (by omega)).before wrote4 rfl
      refine ⟨_, all, ?_, ?_⟩
      · rw [length_append, length_append, count]
        simp
        omega
      · have below : (s2 a).d.take ((s a).top - 1) = (s a).words.take ((s a).top - 1) := by
          rw [wrote2.take_below a (by omega), ready.take a (by omega)]
        have whole := magnitude_last (s a) used
        have word : (s a).d.getD ((s a).top - 1) 0 = l := lastWord
        have cut := mul_pow_split l.toNat (le_of_lt small)
        have out := shifted_out l small
        have kept := shiftLeft_toNat c small
        rw [below] at sum
        rw [word] at whole
        unfold wordsValue at sum whole ⊢
        rw [cons_append, nil_append, value_cons, value_append, count, value_cons, value_nil,
          out, kept, whole]
        linear_combination sum - (2 ^ 64) ^ ((s a).top - 1) * cut
  obtain ⟨ws, wrote, count, value⟩ := wrote
  have zeros := cleared_wrote s4 (r := r) (n := n / 64) (by rw [wrote.length]; omega)
  have all := wrote.before zeros (by simp)
  have length : (replicate (n / 64) 0 ++ ws).length = (s a).top + n / 64 + 1 := by
    rw [length_append, length_replicate, count]
    omega
  generalize (upLoop (fun _ _ (_ : Unit) => (0, ())) r r r 0 (n / 64) 0 () s4).1 = s5 at *
  obtain ⟨d, top, neg⟩ := withTop_eq ((s5 r).withNeg (s5 a).neg) ((s a).top + n / 64 + 1)
    (by
      have := all.length r
      rw [show ((s5 r).withNeg (s5 a).neg).d = (s5 r).d from rfl]
      omega)
  have result := becomes_corrected
    (f := fun x => (x.withNeg (s5 a).neg).withTop ((s a).top + n / 64 + 1)) all ready.others
    (by exact d) (by rw [length]; exact top)
  convert result using 1
  have total : wordsValue (replicate (n / 64) 0 ++ ws) = (s a).magnitude * 2 ^ n := by
    have parts : (2 : Nat) ^ n = (2 ^ 64) ^ (n / 64) * 2 ^ (n % 64) := by
      rw [← pow_mul, ← pow_add, div_add_mod]
    have low := words_zeros (n / 64)
    rw [wordsValue] at low value ⊢
    rw [value_append, low, length_replicate, value, parts]
    ring
  rw [neg, total, show ((s5 r).withNeg (s5 a).neg).neg = (s5 a).neg from rfl, all.neg, negA,
    value_signed]
  split
  · push_cast
    ring
  · push_cast
    ring

theorem bnLshift_spec (r a : Nat) {n : Int} (whole : 0 ≤ n) (s : BnStore)
    (grows : Room (s r) ((s a).top + n.toNat / 64 + 1)) :
    (bnLshift r a n s).1 = true ∧ Becomes s r ((s a).value * 2 ^ n.toNat) (bnLshift r a n s).2 := by
  rw [bnLshift, if_neg (by omega)]
  exact bnLshiftFixedTop_spec r a n.toNat s grows

theorem tdiv_signed (d : Nat) :
    a.value.tdiv d = if a.neg then -((a.magnitude / d : Nat) : Int) else (a.magnitude / d : Nat) := by
  rw [value_signed]
  split
  · rw [Int.neg_tdiv]
    rfl
  · rfl

theorem bnRshiftFixedTop_spec (r a n : Nat) (s : BnStore)
    (grows : Room (s r) ((s a).top - n / 64)) : (bnRshiftFixedTop r a n s).1 = true ∧
      Becomes s r ((s a).value.tdiv ((2 ^ n : Nat) : Int))
        (change (bnRshiftFixedTop r a n s).2 r bnCorrectTop) := by
  have parts : (2 : Nat) ^ n = (2 ^ 64) ^ (n / 64) * 2 ^ (n % 64) := by
    rw [← pow_mul, ← pow_add, div_add_mod]
  rw [tdiv_signed, bnRshiftFixedTop]
  dsimp only
  by_cases all : (s a).top ≤ n / 64
  · have most := (s a).magnitude_lt
    have least := Nat.pow_le_pow_right (n := 2 ^ 64) (by decide) all
    have more := Nat.le_mul_of_pos_right ((2 ^ 64) ^ (n / 64)) (Nat.pow_pos (by decide) : 0 < 2 ^ (n % 64))
    have zero : (s a).magnitude / 2 ^ n = 0 := div_eq_of_lt (by omega)
    rw [if_pos all, zero]
    refine ⟨rfl, ?_⟩
    dsimp only
    constructor
    · rw [change_self, change_self, bnCorrectTop_value]
      simp [value_signed, bnZero, Bignum.magnitude, Bignum.words]
    · rw [change_self]
      exact bnCorrectTop_checked _
    · intro x other
      rw [change_other _ r _ other, change_other s r _ other]
  · rw [if_neg all, if_neg (not_and.mpr fun _ => room_expands grows)]
    refine ⟨rfl, ?_⟩
    dsimp only
    have small : n % 64 < 64 := mod_lt _ (by decide)
    generalize started : (if r ≠ a then change s r (bnExpanded · ((s a).top - n / 64)) else s) = s1
    have ready : Readied s s1 r ((s a).top - n / 64) ∧ (s1 a).neg = (s a).neg := by
      by_cases other : r ≠ a
      · rw [if_pos other] at started
        subst started
        refine ⟨readied_of rfl, ?_⟩
        rw [change_other s r _ other.symm]
      · rw [if_neg other] at started
        subst started
        rw [not_not] at other
        subst other
        have := (s r).fits
        exact ⟨readied_same (by omega), rfl⟩
    obtain ⟨ready, negA⟩ := ready
    have room := ready.room
    have fits := ready.fits a
    rw [ready.word a (by omega)]
    generalize firstWord : word s a (n / 64) = l
    have above : ((s1 a).d.drop (0 + (n / 64 + 1))).take ((s a).top - n / 64 - 1) =
        (s a).words.drop (n / 64 + 1) := by
      rw [zero_add, ready.drop a (by omega)]
    obtain ⟨s2, c, ws, loop, wrote, count, _, sum⟩ :=
      upLoop_sum (f := fun m _ l => rshiftStep (UInt64.ofNat (n % 64))
        ((64 - UInt64.ofNat (n % 64)) % 64) (shiftMask ((64 - UInt64.ofNat (n % 64)) % 64)) m l)
        (fun _ => True) (r := r) (a := a) (b := a) (o := n / 64 + 1) (i := 0) (c := l) (s := s1)
        (n := (s a).top - n / 64 - 1) (by omega) (by omega) (by omega) above rfl
        (fun l => l.toNat / 2 ^ (n % 64)) (2 ^ (64 - n % 64)) 0
        (by
          intro m _ l _
          have one := rshiftStep_spec small m l
          exact ⟨trivial, by dsimp only at one ⊢; omega⟩) trivial
    rw [loop]
    have wrote2 := poke_wrote s2 (r := r) (i := (s a).top - n / 64 - 1)
      (by rw [wrote.length]; omega) (c >>> UInt64.ofNat (n % 64))
    have both := wrote.behind wrote2 (by rw [count, zero_add])
    generalize poke s2 r ((s a).top - n / 64 - 1) (c >>> UInt64.ofNat (n % 64)) = s3 at *
    have length : (ws ++ [c >>> UInt64.ofNat (n % 64)]).length = (s a).top - n / 64 := by
      rw [length_append, count, length_singleton]
      omega
    obtain ⟨d, top, neg⟩ := withTop_eq ((s3 r).withNeg (s3 a).neg) ((s a).top - n / 64)
      (by
        have := both.length r
        rw [show ((s3 r).withNeg (s3 a).neg).d = (s3 r).d from rfl]
        omega)
    have result := becomes_corrected
      (f := fun x => (x.withNeg (s3 a).neg).withTop ((s a).top - n / 64)) both ready.others
      (by exact d) (by rw [length]; exact top)
    have total : wordsValue (ws ++ [c >>> UInt64.ofNat (n % 64)]) = (s a).magnitude / 2 ^ n := by
      have cut := (value_split UInt64.toNat_lt (s a).words (n / 64) (by simp; omega)).2
      have first : (s a).words.drop (n / 64) = l :: (s a).words.drop (n / 64 + 1) := by
        have stored := (s a).fits
        rw [← firstWord, Bignum.words, drop_take, drop_take,
          show (s a).top - n / 64 = (s a).top - (n / 64 + 1) + 1 by omega, take_cons_drop (by omega)]
        rfl
      have high : (2 : Nat) ^ 64 = 2 ^ (n % 64) * 2 ^ (64 - n % 64) := by
        rw [← pow_add, Nat.add_sub_cancel' (le_of_lt small)]
      have divided (v : Nat) : (l.toNat + 2 ^ 64 * v) / 2 ^ (n % 64) =
          l.toNat / 2 ^ (n % 64) + 2 ^ (64 - n % 64) * v := by
        rw [high, Nat.mul_assoc, add_mul_div_left _ _ (Nat.pow_pos (by decide))]
      rw [first] at cut
      rw [Bignum.magnitude, parts, ← Nat.div_div_eq_div_mul]
      unfold wordsValue at sum ⊢
      rw [← cut, value_cons, value_append, count, value_cons, value_nil, shiftRight_toNat c small,
        mul_zero, add_zero, sum, divided]
      omega
    convert result using 1
    rw [neg, total, show ((s3 r).withNeg (s3 a).neg).neg = (s3 a).neg from rfl, both.neg, negA]

theorem bnRshift_spec (r a : Nat) {n : Int} (whole : 0 ≤ n) (s : BnStore)
    (grows : Room (s r) ((s a).top - n.toNat / 64)) :
    (bnRshift r a n s).1 = true ∧
      Becomes s r ((s a).value.tdiv ((2 ^ n.toNat : Nat) : Int)) (bnRshift r a n s).2 := by
  rw [bnRshift, if_neg (by omega)]
  exact bnRshiftFixedTop_spec r a n.toNat s grows

end Ossl
