import OpenSSL.Bn.DivRounds

/- BN_div is exact truncated division. -/
namespace Ossl
open Nat UInt64 List Option CarryChain Digits

section Align
variable {d : List UInt64}

theorem alignBits {bits : Nat} (small : bits < 64) :
    ofNat ((64 - bits) % 64) = (64 - ofNat bits) % 64 := by
  have all : ∀ k : Fin 64, ofNat ((64 - k.val) % 64) = (64 - ofNat k.val) % 64 := by
    decide +kernel
  exact all ⟨bits, small⟩

/-- A word shifted left, with what it gives to the word above it. -/
theorem alignStep_spec {bits : Nat} (small : bits < 64) (n m : UInt64) (low : m.toNat < 2 ^ bits) :
    let rb := (64 - ofNat bits) % 64
    let step := alignStep (ofNat bits) rb (shiftMask rb) n m
    step.2.toNat < 2 ^ bits ∧
      step.1.toNat + 2 ^ 64 * step.2.toNat = 2 ^ bits * n.toNat + m.toNat := by
  have split := mul_pow_split n.toNat (le_of_lt small)
  have whole : (2 : Nat) ^ 64 = 2 ^ bits * 2 ^ (64 - bits) := by
    rw [← pow_add, Nat.add_sub_cancel' (le_of_lt small)]
  have high : 2 ^ bits ∣ (n <<< ofNat bits).toNat := by
    rw [shiftLeft_toNat n small]
    exact (dvd_mod_iff ⟨_, whole⟩).mpr (dvd_mul_left _ _)
  dsimp only [alignStep]
  rw [or_add high low, shifted_out n small, shiftLeft_toNat n small,
    mul_comm (2 ^ bits) n.toNat]
  constructor
  · rw [Nat.div_lt_iff_lt_mul (Nat.pow_pos (by decide)), ← whole]
    exact n.toNat_lt
  · omega

theorem align_pass {bits : Nat} (small : bits < 64) (xs : List UInt64) :
    let rb := (64 - ofNat bits) % 64
    let pass := up (fun n _ m => alignStep (ofNat bits) rb (shiftMask rb) n m) xs xs 0
    pass.1.length = xs.length ∧
      wordsValue pass.1 + (2 ^ 64) ^ xs.length * pass.2.toNat = 2 ^ bits * wordsValue xs := by
  intro rb pass
  have sum := (@words_up (fun n _ m => alignStep (ofNat bits) rb (shiftMask rb) n m)
    (fun c => c.toNat < 2 ^ bits) xs xs 0 UInt64.toNat (2 ^ bits) 0
    (fun x y c good => ⟨(alignStep_spec small x c good).1, by
      simpa using (alignStep_spec small x c good).2⟩) rfl (Nat.pow_pos (by decide))).2
  rw [Nat.zero_mul, UInt64.toNat_zero, Nat.add_zero] at sum
  exact ⟨up_length _ rfl 0, sum⟩

/- A number whose highest word has its highest bit at a known place, and is shifted left until that
   is the highest bit of the word. -/
theorem align_bounds {k bits half : Nat} (count : d.length = k + 1)
    (unit : 2 ^ bits * half = 2 ^ 63) (least : half ≤ (d.getD k 0).toNat)
    (most : (d.getD k 0).toNat < 2 * half) :
    2 ^ 63 * (2 ^ 64) ^ k ≤ 2 ^ bits * wordsValue d ∧
      2 ^ bits * wordsValue d < (2 ^ 64) ^ (k + 1) := by
  have divisor := value_last count
  have low := low_lt (show k ≤ d.length by omega)
  have double : 2 ^ bits * (2 * half) = 2 ^ 64 := by
    rw [mul_left_comm, unit, ← pow_succ' 2 63]
  constructor
  · calc 2 ^ 63 * (2 ^ 64) ^ k = 2 ^ bits * ((2 ^ 64) ^ k * half) := by
          rw [← unit]
          ring
      _ ≤ 2 ^ bits * ((2 ^ 64) ^ k * (d.getD k 0).toNat) :=
          mul_le_mul_left _ (mul_le_mul_left _ least)
      _ ≤ 2 ^ bits * wordsValue d := by
          rw [divisor]
          exact mul_le_mul_left _ (le_add_left _ _)
  · calc 2 ^ bits * wordsValue d < 2 ^ bits * ((2 ^ 64) ^ k * ((d.getD k 0).toNat + 1)) := by
          apply Nat.mul_lt_mul_of_pos_left _ (Nat.pow_pos (by decide))
          rw [divisor, Nat.mul_add, Nat.mul_one]
          omega
      _ ≤ 2 ^ bits * ((2 ^ 64) ^ k * (2 * half)) :=
          mul_le_mul_left _ (mul_le_mul_left _ most)
      _ = (2 ^ 64) ^ (k + 1) := by
          rw [mul_left_comm, double, pow_succ (2 ^ 64) k]

theorem aligned_of_value {ws : List UInt64} {k : Nat} (length : ws.length = k + 1)
    (least : 2 ^ 63 * (2 ^ 64) ^ k ≤ wordsValue ws) : Aligned ws := by
  refine ⟨by omega, ?_⟩
  have shifted := value_last length
  have low := low_lt (show k ≤ ws.length by omega)
  rw [length, Nat.add_sub_cancel]
  by_contra less
  have above : (2 ^ 64) ^ k * ((ws.getD k 0).toNat + 1) ≤ (2 ^ 64) ^ k * 2 ^ 63 :=
    mul_le_mul_left _ (by omega)
  rw [Nat.mul_add, Nat.mul_one] at above
  rw [mul_comm (2 ^ 63)] at least
  omega

theorem bnNumBitsWord_bounds {w : UInt64} (nonzero : w ≠ 0) :
    bnNumBitsWord w ≤ 64 ∧ 0 < bnNumBitsWord w ∧ w.toNat < 2 ^ bnNumBitsWord w ∧
      2 ^ (bnNumBitsWord w - 1) ≤ w.toNat := by
  have pos : 0 < size w.toNat := by
    apply size_pos.mpr
    by_contra none_
    exact nonzero (UInt64.toNat_inj.mp (by rw [UInt64.toNat_zero]; omega))
  rw [bnNumBitsWord_eq]
  exact ⟨size_le.mpr w.toNat_lt, pos, lt_size_self _, lt_size.mp (by omega)⟩

/-- The aligned words are the number shifted left until its highest bit is set. -/
theorem bnLeftAlign_spec (some_ : 0 < d.length) (last : d.getD (d.length - 1) 0 ≠ 0) :
    (bnLeftAlign d).2 < 64 ∧ Aligned (bnLeftAlign d).1 ∧ (bnLeftAlign d).1.length = d.length ∧
      wordsValue (bnLeftAlign d).1 = wordsValue d * 2 ^ (bnLeftAlign d).2 := by
  obtain ⟨k, count⟩ : ∃ k, d.length = k + 1 := ⟨d.length - 1, by omega⟩
  have index : d.length - 1 = k := by omega
  rw [index] at last
  obtain ⟨most, some_, under, over_⟩ := bnNumBitsWord_bounds last
  obtain ⟨bits, is⟩ := Nat.exists_eq_add_of_le most
  have small : bits < 64 := by omega
  have shift : 64 - bnNumBitsWord (d.getD k 0) = bits := by omega
  have back : bnNumBitsWord (d.getD k 0) = 64 - bits := by omega
  have unit : 2 ^ bits * 2 ^ (64 - bits - 1) = 2 ^ 63 := by
    rw [← pow_add]
    congr 1
    omega
  rw [back] at under over_
  rw [show 64 - bits = 64 - bits - 1 + 1 by omega, pow_succ' 2 (64 - bits - 1)] at under
  obtain ⟨least, fits⟩ := align_bounds count unit over_ under
  obtain ⟨length, whole⟩ := align_pass small d
  rw [bnLeftAlign]
  rw [index, shift, back, alignBits small]
  generalize up (fun n _ m => alignStep (ofNat bits) ((64 - ofNat bits) % 64)
    (shiftMask ((64 - ofNat bits) % 64)) n m) d d 0 = aligned at *
  have none_ : aligned.2.toNat = 0 := by
    by_contra some_
    have := Nat.le_mul_of_pos_right ((2 ^ 64) ^ d.length) (pos_of_ne_zero some_)
    rw [count] at this whole
    omega
  rw [none_, Nat.mul_zero, Nat.add_zero] at whole
  exact ⟨small, aligned_of_value (length.trans count) (whole ▸ least), length,
    by rw [whole, mul_comm]⟩

end Align

section Shifted
variable {C : Type} (s : BnStore) (r a : Nat)

theorem poke_length (i : Nat) (w : UInt64) (x : Nat) :
    (poke s r i w x).d.length = (s x).d.length := by
  rw [poke]
  by_cases same : x = r
  · rw [same, change_self]
    exact length_set ..
  · rw [change_other s r _ same]

theorem downLoop_length (f : UInt64 → C → UInt64 × C) (o n : Nat) (c : C) (x : Nat) :
    ((downLoop f r a o n c s).1 x).d.length = (s x).d.length := by
  induction n generalizing c s with
  | zero => rfl
  | succ n ih => exact (ih _ _).trans (poke_length s r _ _ x)

theorem upLoop_length (f : UInt64 → UInt64 → C → UInt64 × C) (b o n i : Nat) (c : C)
    (x : Nat) : ((upLoop f r a b o n i c s).1 x).d.length = (s x).d.length := by
  induction n generalizing i c s with
  | zero => rfl
  | succ n ih => exact (ih _ _ _).trans (poke_length s r _ _ x)

/-- A number that is shifted left gets a word more, whether there is something in it or not. -/
theorem bnLshiftFixedTop_top (n : Nat) (grows : Room (s r) ((s a).top + n / 64 + 1)) :
    ((bnLshiftFixedTop r a n s).2 r).top = (s a).top + n / 64 + 1 := by
  have topA : (change s r (bnExpanded · ((s a).top + n / 64 + 1)) a).top = (s a).top := by
    by_cases is : a = r
    · rw [is, change_self, bnExpanded_top]
    · rw [change_other s r _ is]
  have room : (s a).top + n / 64 + 1 ≤
      (change s r (bnExpanded · ((s a).top + n / 64 + 1)) r).d.length := by
    rw [change_self]
    exact le_bnExpanded _ _
  rw [bnLshiftFixedTop, if_neg (room_expands grows)]
  dsimp only
  rw [topA, change_self]
  apply (withTop_eq _ _ _).2.1
  rw [Bignum.withNeg, upLoop_length]
  split
  · rw [poke_length, downLoop_length, poke_length]
    exact room
  · rw [poke_length]
    exact room

end Shifted

theorem words_unique {xs ys : List UInt64} (length : xs.length = ys.length)
    (same : wordsValue xs = wordsValue ys) : xs = ys := by
  induction xs generalizing ys with
  | nil => exact (eq_nil_of_length_eq_zero length.symm).symm
  | cons x xs ih =>
    cases ys with
    | nil => nomatch length
    | cons y ys =>
      rw [wordsValue, wordsValue, value_cons, value_cons, ← wordsValue, ← wordsValue] at same
      have wx := x.toNat_lt
      have wy := y.toNat_lt
      rw [UInt64.toNat_inj.mp (by omega : x.toNat = y.toNat), ih (succ.inj length) (by omega)]

/-- Numbers in canonical form with one value are the same number. -/
theorem checked_unique {a b : Bignum} (checkedA : bnCheckTop a) (checkedB : bnCheckTop b)
    (same : a.value = b.value) : a.words = b.words ∧ a.neg = b.neg := by
  have magnitude : a.magnitude = b.magnitude := by
    rw [← value_natAbs, ← value_natAbs, same]
  have top : a.top = b.top := by
    rcases lt_trichotomy a.top b.top with less | is | more
    · have := magnitude_lt_of_top checkedB less
      omega
    · exact is
    · have := magnitude_lt_of_top checkedA more
      omega
  refine ⟨words_unique (by rw [a.words_length, b.words_length, top]) magnitude, ?_⟩
  by_cases zero : a.magnitude = 0
  · have plain {x : Bignum} (checked : bnCheckTop x) (none_ : x.magnitude = 0) :
        x.neg = false := by
      by_contra neg
      have := Bignum.neg_nonzero checked (Bool.not_eq_false _ ▸ neg)
      omega
    rw [plain checkedA zero, plain checkedB (magnitude ▸ zero)]
  · rw [value_signed, value_signed, magnitude] at same
    cases signA : a.neg <;> cases signB : b.neg <;> simp [signA, signB] at same ⊢ <;> omega

/-- The sign and the size of a number whose value is known. -/
theorem signed_of_value {a : Bignum} {m : Nat} {neg : Bool}
    (is : a.value = if neg then -(m : Int) else m) :
    a.magnitude = m ∧ (a.value = 0 ∨ a.neg = neg) := by
  have size : a.magnitude = m := by
    rw [← value_natAbs, is]
    split <;> simp
  refine ⟨size, ?_⟩
  rw [value_signed, size] at is ⊢
  by_cases zero : m = 0
  · left
    rw [zero]
    split <;> rfl
  · right
    by_contra differ
    rw [Bool.eq_not_of_ne differ] at is
    cases neg with
    | true =>
      change (m : Int) = -m at is
      omega
    | false =>
      change -(m : Int) = m at is
      omega

section Division
variable {num divisor : Bignum}

theorem padded_value (words : List UInt64) (n : Nat) :
    wordsValue (if words.length ≤ n then words ++ replicate (n - words.length + 1) 0
      else words) = wordsValue words := by
  split
  · rw [wordsValue, Digits.value_append, ← wordsValue, ← wordsValue, words_zeros, Nat.mul_zero,
      add_zero]
  · rfl

theorem padded_length (words : List UInt64) (n : Nat) {padded : List UInt64}
    (is : (if words.length ≤ n then words ++ replicate (n - words.length + 1) 0 else words) =
      padded) :
    words.length ≤ padded.length ∧ n < padded.length ∧
      padded.length ≤ max words.length (n + 1) := by
  subst is
  split
  · rw [length_append, length_replicate]
    omega
  · omega

/-- Quotient and remainder of the sizes, before zero words on top are left out. -/
theorem bnDivFixedTop_spec (dv rm : Option Bignum) (num : Bignum) (used : 0 < divisor.top)
    (last : divisor.d.getD (divisor.top - 1) 0 ≠ 0) (fewN : num.top < bnMaxWords)
    (fewD : divisor.top < bnMaxWords) :
    ∃ result, bnDivFixedTop dv rm num divisor = some result ∧
      result.dv.isSome = dv.isSome ∧ result.rm.isSome = rm.isSome ∧
      (∀ q ∈ result.dv, (bnCorrectTop q).value = if (num.neg ^^ divisor.neg) then
        -((num.magnitude / divisor.magnitude : Nat) : Int)
        else (num.magnitude / divisor.magnitude : Nat)) ∧
      (∀ r ∈ result.rm, (bnCorrectTop r).value = if num.neg then
        -((num.magnitude % divisor.magnitude : Nat) : Int)
        else (num.magnitude % divisor.magnitude : Nat)) ∧
      ∀ round ∈ result.rounds, RoundExact (bnLeftAlign divisor.words).1 round := by
  obtain ⟨small, aligned, length, value⟩ := @bnLeftAlign_spec divisor.words
    (by rw [divisor.words_length]; exact used) (by
      rw [divisor.words_length, Bignum.words, getD_eq_getElem?_getD,
        List.getElem?_take_of_lt (by omega), ← getD_eq_getElem?_getD]
      exact last)
  rw [bnDivFixedTop, if_neg (room_expands (.inr (Nat.le_of_lt fewD)))]
  rw [divisor.words_length] at length
  generalize bnLeftAlign divisor.words = shifted at *
  obtain ⟨sdiv, normShift⟩ := shifted
  dsimp only at small aligned length value ⊢
  have some_ : 0 < 2 ^ normShift := Nat.pow_pos (by decide)
  have grows : Room (pair bnNew num 0) ((pair bnNew num 1).top + normShift / 64 + 1) := by
    rw [Nat.div_eq_of_lt small]
    exact .inr fewN
  have top := bnLshiftFixedTop_top (pair bnNew num) 0 1 normShift grows
  obtain ⟨success, becomes⟩ := bnLshiftFixedTop_spec 0 1 normShift (pair bnNew num) grows
  have shift := becomes.value
  rw [change_self, bnCorrectTop_value] at shift
  generalize bnLshiftFixedTop 0 1 normShift (pair bnNew num) = answer at *
  obtain ⟨ret, s⟩ := answer
  dsimp only at success top shift
  subst success
  dsimp only
  rw [if_neg fun full => room_expands (.inr (length ▸ fewD)) full.2]
  generalize s 0 = snum at *
  rw [show pair bnNew num 1 = num from rfl] at top shift
  have size : wordsValue snum.words = num.magnitude * 2 ^ normShift := by
    have both := congrArg Int.natAbs shift
    rw [Int.natAbs_mul, value_natAbs, value_natAbs, Int.natAbs_pow] at both
    exact both
  have whole := (padded_value snum.words sdiv.length).trans size
  have length_ := snum.words_length
  have words := aligned.some_
  generalize is : (if snum.words.length ≤ sdiv.length then _ else _ : List UInt64) = padded at *
  have wide := padded_length snum.words sdiv.length is
  have less : wordsValue padded < (2 ^ 64) ^ (padded.length - sdiv.length) * wordsValue sdiv :=
    calc wordsValue padded < (2 ^ 64) ^ num.top * 2 ^ normShift := by
          rw [whole]
          exact Nat.mul_lt_mul_of_pos_right num.magnitude_lt some_
      _ ≤ (2 ^ 64) ^ (padded.length - 1) * 2 ^ 63 := Nat.mul_le_mul
          (Nat.pow_le_pow_right (by decide) (by omega))
          (Nat.pow_le_pow_right (by decide) (by omega))
      _ = (2 ^ 64) ^ (padded.length - sdiv.length) * (2 ^ 63 * (2 ^ 64) ^ (sdiv.length - 1)) := by
          rw [mul_left_comm, ← pow_add, mul_comm,
            show padded.length - 1 = padded.length - sdiv.length + (sdiv.length - 1) by omega]
      _ ≤ (2 ^ 64) ^ (padded.length - sdiv.length) * wordsValue sdiv :=
          Nat.mul_le_mul_left _ aligned.least
  obtain ⟨left, rounds, run, sameLength, count, quotients, remainder, exact_⟩ :=
    divRounds_spec aligned (padded.length - sdiv.length) (by omega) less
  have few : padded.length - sdiv.length ≤ bnMaxWords := by
    rw [Nat.div_eq_of_lt small] at top
    omega
  rw [if_neg (not_or.mpr ⟨room_expands (.inr few), room_expands (.inr (length ▸ fewD))⟩), run]
  rw [whole, value, Nat.mul_div_mul_right _ _ some_] at quotients
  have remainder_ := remainder
  rw [whole, value, mul_mod_mul_right] at remainder
  dsimp only
  generalize isRest : bnSetWords bnNew (left.take sdiv.length) num.neg = rest
  have few : rest.top ≤ bnMaxWords := by
    have count : rest.top = (left.take sdiv.length).length := by
      rw [← isRest]
      rfl
    rw [count, length_take]
    omega
  have shifted (r : Bignum) := bnRshiftFixedTop_spec 0 1 normShift (pair r rest)
    (.inr (le_trans (Nat.sub_le _ _) few))
  have fine : (rm.any fun r => !(bnRshiftFixedTop 0 1 normShift (pair r rest)).1) = false := by
    cases rm with
    | none => rfl
    | some r => simp [(shifted r).1]
  rw [fine, if_neg Bool.false_ne_true]
  refine ⟨_, rfl, by simp, by simp, ?_, ?_, exact_⟩
  · intro q member
    obtain ⟨r, _, rfl⟩ := map_eq_some_iff.mp member
    rw [bnCorrectTop_value, value_signed, Bignum.magnitude, bnSetWords_words, quotients]
    rfl
  · intro last_ member
    obtain ⟨r, _, rfl⟩ := map_eq_some_iff.mp member
    have back := (shifted r).2.value
    have kept : wordsValue (left.take sdiv.length) = wordsValue left := by
      apply value_take_all (by omega)
      rw [remainder_]
      exact lt_trans (mod_lt _ aligned.pos) (wordsValue_lt sdiv)
    have sign : rest.neg = num.neg := by
      rw [← isRest]
      rfl
    have magnitude : rest.magnitude = num.magnitude % divisor.magnitude * 2 ^ normShift := by
      rw [← isRest, Bignum.magnitude, bnSetWords_words, kept, remainder]
      rfl
    rw [change_self, tdiv_signed, show pair r rest 1 = rest from rfl, magnitude, sign,
      Nat.mul_div_cancel _ some_] at back
    exact back

/-- The quotient is rounded towards zero and the remainder has the sign of what is divided. -/
structure DivExact (num divisor : Bignum) (result : DivResult) : Prop where
  quotient : ∀ q ∈ result.dv, bnCheckTop q ∧ q.value = num.value.tdiv divisor.value ∧
    (q.value = 0 ∨ q.neg = (num.neg ^^ divisor.neg))
  remainder : ∀ r ∈ result.rm, bnCheckTop r ∧ r.value = num.value.tmod divisor.value ∧
    r.magnitude < divisor.magnitude ∧ (r.value = 0 ∨ r.neg = num.neg)
  division : ∀ q ∈ result.dv, ∀ r ∈ result.rm, num.value = q.value * divisor.value + r.value
  rounds : ∀ round ∈ result.rounds, RoundExact (bnLeftAlign divisor.words).1 round

theorem signed_tdiv (a b : Bignum) :
    (if (a.neg ^^ b.neg) then -((a.magnitude / b.magnitude : Nat) : Int)
      else (a.magnitude / b.magnitude : Nat)) = a.value.tdiv b.value := by
  rw [value_signed, value_signed]
  cases a.neg <;> cases b.neg <;> simp [Int.neg_tdiv, Int.tdiv_neg]

theorem signed_tmod (a b : Bignum) :
    (if a.neg then -((a.magnitude % b.magnitude : Nat) : Int)
      else (a.magnitude % b.magnitude : Nat)) = a.value.tmod b.value := by
  rw [value_signed, value_signed]
  cases a.neg <;> cases b.neg <;> simp [Int.neg_tmod, Int.tmod_neg, Int.tmod_eq_emod_of_nonneg]

theorem bnDiv_spec (dv rm : Option Bignum) (num : Bignum) (checked : bnCheckTop divisor)
    (nonzero : divisor.value ≠ 0) (fewN : num.top < bnMaxWords) (fewD : divisor.top < bnMaxWords) :
    ∃ result, bnDiv dv rm num divisor = some result ∧ result.dv.isSome = dv.isSome ∧
      result.rm.isSome = rm.isSome ∧ DivExact num divisor result := by
  have used : 0 < divisor.top := by
    by_contra none_
    apply nonzero
    rw [value_signed, Bignum.magnitude_top_zero (Nat.eq_zero_of_not_pos none_)]
    split <;> rfl
  have last : divisor.d.getD (divisor.top - 1) 0 ≠ 0 := by
    rcases checked with ⟨none_, _⟩ | ⟨_, last⟩
    · omega
    · exact last
  have pos : 0 < divisor.magnitude := by
    rw [← value_natAbs]
    exact Int.natAbs_pos.mpr nonzero
  obtain ⟨result, is, dvs, rms, quotient, remainder, rounds⟩ :=
    bnDivFixedTop_spec dv rm num used last fewN fewD
  rw [bnDiv, if_neg (by omega), if_neg last, is]
  refine ⟨_, rfl, by simp [dvs], by simp [rms], ?_, ?_, ?_, rounds⟩
  · intro q member
    obtain ⟨raw, inDv, rfl⟩ := map_eq_some_iff.mp member
    have value := quotient raw inDv
    exact ⟨bnCorrectTop_checked raw, value.trans (signed_tdiv num divisor),
      (signed_of_value value).2⟩
  · intro r member
    obtain ⟨raw, inRm, rfl⟩ := map_eq_some_iff.mp member
    have value := remainder raw inRm
    obtain ⟨size, sign⟩ := signed_of_value value
    exact ⟨bnCorrectTop_checked raw, value.trans (signed_tmod num divisor),
      size ▸ mod_lt _ pos, sign⟩
  · intro q inQ r inR
    obtain ⟨rawQ, inDv, rfl⟩ := map_eq_some_iff.mp inQ
    obtain ⟨rawR, inRm, rfl⟩ := map_eq_some_iff.mp inR
    rw [quotient rawQ inDv, remainder rawR inRm, signed_tdiv, signed_tmod, mul_comm]
    exact (Int.mul_tdiv_add_tmod _ _).symm

def numberOf (a : Bignum) : List UInt64 × Bool := (a.words, a.neg)

theorem numberOf_same {x y : Option Bignum} {v : Int} (isSome : x.isSome = y.isSome)
    (first : ∀ a ∈ x, bnCheckTop a ∧ a.value = v)
    (second : ∀ a ∈ y, bnCheckTop a ∧ a.value = v) :
    x.map numberOf = y.map numberOf := by
  cases x with
  | none =>
    cases y with
    | none => rfl
    | some b => nomatch isSome
  | some a =>
    cases y with
    | none => nomatch isSome
    | some b =>
      obtain ⟨checkedA, valueA⟩ := first a rfl
      obtain ⟨checkedB, valueB⟩ := second b rfl
      obtain ⟨words, neg⟩ := checked_unique checkedA checkedB (valueA.trans valueB.symm)
      rw [map_some, map_some, numberOf, numberOf, words, neg]

/-- Division is exact, and zero words on top of what is divided make no difference, as long as both
    numbers can get a word more. -/
theorem bnDiv_exact (dv rm : Option Bignum) (num divisor : Bignum) (checked : bnCheckTop divisor)
    (nonzero : divisor.value ≠ 0) (fewN : num.top < bnMaxWords) (fewD : divisor.top < bnMaxWords) :
    ∃ result, bnDiv dv rm num divisor = some result ∧ result.dv.isSome = dv.isSome ∧
      result.rm.isSome = rm.isSome ∧ DivExact num divisor result ∧
      ∀ num' k, num'.neg = num.neg → num'.words = num.words ++ replicate k 0 →
        num'.top < bnMaxWords → ∃ result', bnDiv dv rm num' divisor = some result' ∧
          result'.dv.map numberOf = result.dv.map numberOf ∧
          result'.rm.map numberOf = result.rm.map numberOf := by
  obtain ⟨result, is, dvs, rms, exact_⟩ := bnDiv_spec dv rm num checked nonzero fewN fewD
  refine ⟨result, is, dvs, rms, exact_, ?_⟩
  intro num' k neg words fewN'
  obtain ⟨result', is', dvs', rms', exact'⟩ := bnDiv_spec dv rm num' checked nonzero fewN' fewD
  have value : num'.value = num.value := by
    rw [value_signed, value_signed, neg, Bignum.magnitude, words, wordsValue,
      Digits.value_append, ← wordsValue, ← wordsValue, words_zeros, Nat.mul_zero, Nat.add_zero,
      ← Bignum.magnitude]
  refine ⟨result', is',
    @numberOf_same _ _ (num.value.tdiv divisor.value) (dvs'.trans dvs.symm) ?_ ?_,
    @numberOf_same _ _ (num.value.tmod divisor.value) (rms'.trans rms.symm) ?_ ?_⟩
  · intro q member
    obtain ⟨checkedQ, valueQ, _⟩ := exact'.quotient q member
    exact ⟨checkedQ, valueQ.trans (by rw [value])⟩
  · intro q member
    obtain ⟨checkedQ, valueQ, _⟩ := exact_.quotient q member
    exact ⟨checkedQ, valueQ⟩
  · intro r member
    obtain ⟨checkedR, valueR, _⟩ := exact'.remainder r member
    exact ⟨checkedR, valueR.trans (by rw [value])⟩
  · intro r member
    obtain ⟨checkedR, valueR, _⟩ := exact_.remainder r member
    exact ⟨checkedR, valueR⟩

end Division

def twoWords : Bignum := { d := [3, 1], top := 2, neg := true, fits := by decide }

def threeWords : Bignum := { d := [5, 0, 7, 0], top := 4, neg := false, fits := by decide }

theorem bnDiv_exact_twoWords :
    ∃ result, bnDiv (some bnNew) (some bnNew) threeWords twoWords = some result ∧
      result.dv.isSome = (some bnNew).isSome ∧ result.rm.isSome = (some bnNew).isSome ∧
      DivExact threeWords twoWords result ∧
      ∀ num' k, num'.neg = threeWords.neg →
        num'.words = threeWords.words ++ replicate k 0 → num'.top < bnMaxWords →
        ∃ result', bnDiv (some bnNew) (some bnNew) num' twoWords = some result' ∧
          result'.dv.map numberOf = result.dv.map numberOf ∧
          result'.rm.map numberOf = result.rm.map numberOf :=
  bnDiv_exact (some bnNew) (some bnNew) threeWords twoWords (by decide) (by decide +kernel)
    (by decide) (by decide)

theorem bnDiv_refused (dv rm : Option Bignum) {num divisor : Bignum}
    (short : (bnLeftAlign divisor.words).2 / 64 = 0)
    (full : bnWexpand bnNew (num.top + 1) = none) : bnDiv dv rm num divisor = none := by
  have fixed : bnDivFixedTop dv rm num divisor = none := by
    rw [bnDivFixedTop]
    generalize bnLeftAlign divisor.words = aligned at short
    obtain ⟨sdiv, normShift⟩ := aligned
    have shift : bnLshiftFixedTop 0 1 normShift (pair bnNew num) = (false, pair bnNew num) := by
      dsimp only at short
      rw [bnLshiftFixedTop, short]
      exact if_pos full
    dsimp only
    rw [shift]
    exact ite_self none
  rw [bnDiv, fixed]
  split
  · rfl
  · split <;> rfl

theorem longest_not_divided : bnCheckTop longestNumber ∧
    bnDiv none none longestNumber (bnSetWords bnNew [1] false) = none := by
  refine ⟨longest_checked, bnDiv_refused _ _ (by decide +kernel) ?_⟩
  rw [bnWexpand, if_pos]
  exact ⟨Nat.succ_pos _, Nat.lt_succ_self _⟩

end Ossl
