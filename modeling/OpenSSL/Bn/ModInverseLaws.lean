import OpenSSL.Bn.ModInverse
import Mathlib.Data.Nat.Prime.Basic
import Mathlib.Tactic.Linarith
import Mathlib.Tactic.Ring
import Mathlib.Tactic.LinearCombination

/- What the rounds of inversion keep, and the inverse they end with. -/
namespace Ossl
open Option BnValue Rounds

structure Inverting (a n : Int) (s : Inversion) : Prop where
  A_pos : 0 < s.A
  B_nonneg : 0 ≤ s.B
  X_nonneg : 0 ≤ s.X
  Y_nonneg : 0 ≤ s.Y
  sign_ : s.sign = 1 ∨ s.sign = -1
  B_cong : n ∣ -s.sign * s.X * a - s.B
  A_cong : n ∣ s.sign * s.Y * a - s.A
  gcd_ : Int.gcd s.A s.B = Int.gcd a n

variable {B a n : Int} {s : Inversion} {algorithm : InverseAlgorithm}

theorem start_reduced (nonzero : n ≠ 0) (a : Int) :
    n ∣ a - (startInversion a n).B ∧ 0 ≤ (startInversion a n).B ∧
      (startInversion a n).B < n.natAbs := by
  have size : (n.natAbs : Int) ≠ 0 := by omega
  simp only [startInversion]
  split
  · exact ⟨Int.dvd_natAbs_self.trans (dvd_sub_nnmod size a), nnmod_nonneg size a, nnmod_lt size a⟩
  · rename_i reduced
    refine ⟨by simp, ?_, ?_⟩
    · exact not_lt.mp fun neg => reduced (.inl neg)
    · omega

theorem start_inverting (nonzero : n ≠ 0) (a : Int) : Inverting a n (startInversion a n) := by
  obtain ⟨divides, nonneg, -⟩ := start_reduced nonzero a
  have abs_dvd : n ∣ (n.natAbs : Int) := Int.dvd_natAbs_self
  refine ⟨?_, nonneg, Int.one_nonneg, le_refl 0, .inr rfl, ?_, ?_, ?_⟩
  · change (0 : Int) < n.natAbs
    omega
  · change n ∣ - -1 * 1 * a - (startInversion a n).B
    rwa [neg_neg, mul_one, one_mul]
  · change n ∣ -1 * 0 * a - (n.natAbs : Int)
    simpa using abs_dvd
  · obtain ⟨k, multiple⟩ := divides
    have same : (startInversion a n).B = a - n * k := by omega
    change Nat.gcd (n.natAbs : Int).natAbs (startInversion a n).B.natAbs = Int.gcd a n
    rw [Int.natAbs_natCast, same]
    change Int.gcd n (a - n * k) = Int.gcd a n
    rw [Int.gcd_sub_mul_left_right, Int.gcd_comm]

theorem turn_inverting (keeps : Inverting a n s) (some_ : s.B ≠ 0) :
    Inverting a n (s.turn (s.A / s.B) (s.A % s.B) (s.A / s.B * s.X)) := by
  have pos : 0 < s.B := by have := keeps.B_nonneg; omega
  have quotient := Int.ediv_nonneg keeps.A_pos.le keeps.B_nonneg
  have split_ := Int.emod_add_mul_ediv s.A s.B
  refine ⟨pos, Int.emod_nonneg _ some_, ?_, keeps.X_nonneg, ?_, ?_, ?_, ?_⟩
  · exact Int.add_nonneg (Int.mul_nonneg quotient keeps.X_nonneg) keeps.Y_nonneg
  · cases keeps.sign_ with
    | inl one => exact .inr (by simp [Inversion.turn, one])
    | inr minus => exact .inl (by simp [Inversion.turn, minus])
  · obtain ⟨k, b_cong⟩ := keeps.B_cong
    obtain ⟨l, a_cong⟩ := keeps.A_cong
    refine ⟨l - s.A / s.B * k, ?_⟩
    simp only [Inversion.turn]
    linear_combination a_cong - (s.A / s.B) * b_cong - split_
  · simpa [Inversion.turn] using keeps.B_cong
  · rw [← keeps.gcd_]
    simp only [Inversion.turn]
    have rest : s.A % s.B = s.A - s.B * (s.A / s.B) := by omega
    rw [rest, Int.gcd_sub_mul_left_right, Int.gcd_comm]

theorem numBits_bounds {x : Int} (pos : 0 < x) :
    (2 : Int) ^ (numBits x - 1) ≤ x ∧ x < 2 ^ numBits x ∧ 1 ≤ numBits x := by
  have upper : x.natAbs < 2 ^ numBits x := Nat.lt_size_self x.natAbs
  have some_ : 0 < numBits x := Nat.size_pos.mpr (by omega)
  have lower : 2 ^ (numBits x - 1) ≤ x.natAbs := by
    have least := @Nat.lt_size (numBits x - 1) x.natAbs
    exact least.mp (by unfold numBits at *; omega)
  refine ⟨?_, ?_, some_⟩
  · have cast_ : ((2 ^ (numBits x - 1) : Nat) : Int) ≤ (x.natAbs : Int) := by exact_mod_cast lower
    push_cast at cast_
    rwa [abs_of_pos pos] at cast_
  · have cast_ : (x.natAbs : Int) < ((2 ^ numBits x : Nat) : Int) := by exact_mod_cast upper
    push_cast at cast_
    rwa [abs_of_pos pos] at cast_

variable {A X c : Int} {r t : Inversion}

theorem shortDivRem_eq (pos : 0 < B) (less : B < A) : shortDivRem A B = (A / B, A % B) := by
  have exact_ {D M : Int} (sum : M + B * D = A) (low : 0 ≤ M) (high : M < B) :
      (D, M) = (A / B, A % B) := by
    obtain ⟨quotient, remainder⟩ := (Int.ediv_emod_unique pos).mpr ⟨sum, low, high⟩
    rw [quotient, remainder]
  obtain ⟨A_low, A_high, A_some⟩ := numBits_bounds (pos.trans less)
  obtain ⟨B_low, B_high, B_some⟩ := numBits_bounds pos
  -- B is at least half of the power of two that is above it
  have twice : (2 : Int) * 2 ^ (numBits B - 1) = 2 ^ numBits B := by
    rw [← pow_succ', Nat.sub_add_cancel B_some]
  simp only [shortDivRem, lshift, pow_one]
  by_cases same : numBits A = numBits B
  · rw [if_pos same]
    rw [same] at A_high
    exact exact_ (by ring) (by omega) (by omega)
  · rw [if_neg same]
    by_cases next : numBits A = numBits B + 1
    · rw [if_pos next]
      rw [next, pow_succ] at A_high
      by_cases one : A.natAbs < (B * 2).natAbs
      · rw [if_pos one]
        exact exact_ (by ring) (by omega) (by omega)
      · rw [if_neg one]
        by_cases two : A.natAbs < (B * 2 + B).natAbs
        · rw [if_pos two]
          exact exact_ (by ring) (by omega) (by omega)
        · rw [if_neg two]
          exact exact_ (by ring) (by omega) (by omega)
    · rw [if_neg next, divRem_eq (pos.trans less).le]

theorem shortProduct_eq {D : Int} (nonneg : 0 ≤ D) (X : Int) : shortProduct D X = D * X := by
  unfold shortProduct lshift
  split
  · rename_i one
    rw [one, one_mul]
  · split
    · rename_i two
      rw [two]
      ring
    · split
      · rename_i four
        rw [four]
        ring
      · split
        · rename_i word
          simp only [oneWord, decide_eq_true_eq] at word
          have value : (lsw D : Int) = D := by
            unfold lsw
            rw [Nat.mod_eq_of_lt word.2]
            omega
          rw [value, mul_comm]
        · rfl

theorem generalRound_eq (keeps : Inverting a n s) (less : s.B < s.A) :
    generalRound s = noBranchRound s := by
  unfold generalRound noBranchRound
  by_cases done : s.B = 0
  · rw [if_pos done, if_pos done]
  · have pos : 0 < s.B := by have := keeps.B_nonneg; omega
    rw [if_neg done, if_neg done, shortDivRem_eq pos less, divRem_eq keeps.A_pos.le]
    simp only
    rw [shortProduct_eq (Int.ediv_nonneg keeps.A_pos.le keeps.B_nonneg)]

theorem noBranchRound_goes (inv : Inverting a n s ∧ s.B < s.A) (goes : noBranchRound s = .inr t) :
    (Inverting a n t ∧ t.B < t.A) ∧ t.B.natAbs < s.B.natAbs := by
  obtain ⟨keeps, less⟩ := inv
  unfold noBranchRound at goes
  by_cases done : s.B = 0
  · rw [if_pos done] at goes
    contradiction
  · rw [if_neg done, divRem_eq keeps.A_pos.le] at goes
    simp only [Sum.inr.injEq] at goes
    have pos : 0 < s.B := by have := keeps.B_nonneg; omega
    have low := Int.emod_nonneg s.A done
    have high := Int.emod_lt_of_pos s.A pos
    subst goes
    refine ⟨⟨turn_inverting keeps done, high⟩, ?_⟩
    simp only [Inversion.turn]
    omega

theorem noBranchRound_ends (ends : noBranchRound s = .inl r) : r = s ∧ s.B = 0 := by
  unfold noBranchRound at ends
  by_cases done : s.B = 0
  · rw [if_pos done] at ends
    exact ⟨(Sum.inl.inj ends).symm, done⟩
  · rw [if_neg done] at ends
    contradiction

theorem noBranch_ends (nonzero : n ≠ 0) :
    ∃ r, inverseLoop .noBranch n (startInversion a n) = some r ∧ Inverting a n r ∧ r.B = 0 := by
  have keeps := start_inverting nonzero a
  obtain ⟨-, -, less⟩ := start_reduced nonzero a
  refine rounds_total (fun s => Inverting a n s ∧ s.B < s.A) (fun s => s.B.natAbs) ?_ ?_
    ⟨keeps, less⟩ ?_
  · intro s r inv ends
    obtain ⟨rfl, zero⟩ := noBranchRound_ends ends
    exact ⟨inv.1, zero⟩
  · exact fun s t inv goes => noBranchRound_goes inv goes
  · omega

theorem general_eq_noBranch (nonzero : n ≠ 0) : inverseLoop .general n (startInversion a n) =
      inverseLoop .noBranch n (startInversion a n) := by
  obtain ⟨-, -, less⟩ := start_reduced nonzero a
  refine rounds_congr (fun s => Inverting a n s ∧ s.B < s.A)
    (fun s inv => generalRound_eq inv.1 inv.2) ?_ _ ⟨start_inverting nonzero a, less⟩
  intro s t inv goes
  rw [generalRound_eq inv.1 inv.2] at goes
  exact (noBranchRound_goes inv goes).1

theorem odd_dvd_half {z : Int} (odd : n % 2 = 1) (twice : n ∣ 2 * z) : n ∣ z := by
  obtain ⟨k, product⟩ := twice
  have half : n = 2 * (n / 2) + 1 := by omega
  exact ⟨z - n / 2 * k, by linear_combination -(n / 2) * product - z * half⟩

theorem shifted_natAbs {Q : Int} {shift : Nat} (shape : B = 2 ^ shift * Q) :
    B.natAbs / 2 ^ shift = Q.natAbs := by
  rw [shape, Int.natAbs_mul, Int.natAbs_pow]
  exact Nat.mul_div_cancel_left _ (by positivity)

theorem halved_cofactor (odd : n % 2 = 1) (nonneg : 0 ≤ X) :
    0 ≤ rshift1 (if isOdd X then uadd X n else X) ∧
      n ∣ 2 * rshift1 (if isOdd X then uadd X n else X) - X := by
  by_cases odd_X : isOdd X
  · have sum : uadd X n = X + n.natAbs := by
      unfold uadd
      omega
    have odd_ := (isOdd_iff X).mp odd_X
    have twice : 2 * ((X + n.natAbs) / 2) - X = n.natAbs := by omega
    rw [if_pos odd_X, sum, rshift1_eq (by omega), twice]
    exact ⟨by omega, Int.dvd_natAbs_self⟩
  · have even_ := (isOdd_false X).mp (by simpa using odd_X)
    have twice : 2 * (X / 2) - X = 0 := by omega
    rw [if_neg odd_X, rshift1_eq nonneg, twice]
    exact ⟨by omega, dvd_zero n⟩

/- B without some powers of two, with the cofactor beside it. -/
structure Halving (a n c B : Int) (s : Nat × Int) (Q : Int) : Prop where
  shape : B = 2 ^ s.1 * Q
  pos : 0 < Q
  X_nonneg : 0 ≤ s.2
  cong : n ∣ c * s.2 * a - Q

theorem halveRound_goes (odd : n % 2 = 1) {s t : Nat × Int} (inv : ∃ Q, Halving a n c B s Q)
    (goes : halveRound n B s = .inr t) :
    (∃ Q, Halving a n c B t Q) ∧ numBits B - t.1 < numBits B - s.1 := by
  obtain ⟨Q, keeps⟩ := inv
  unfold halveRound at goes
  by_cases bit : isBitSet B s.1
  · rw [if_pos bit] at goes
    contradiction
  · rw [if_neg bit] at goes
    rw [isBitSet_iff, shifted_natAbs keeps.shape] at bit
    obtain ⟨X_nonneg, k, twice⟩ := halved_cofactor odd keeps.X_nonneg
    have half : Q = 2 * (Q / 2) := by omega
    have pos := keeps.pos
    have shape : B = 2 ^ (s.1 + 1) * (Q / 2) := by
      rw [pow_succ, mul_assoc, ← half]
      exact keeps.shape
    cases goes
    refine ⟨⟨Q / 2, shape, by omega, X_nonneg, odd_dvd_half odd ?_⟩, ?_⟩
    · obtain ⟨l, cong⟩ := keeps.cong
      exact ⟨l + c * a * k, by linear_combination c * a * twice + cong + half⟩
    · -- a power of two that B has is below its length
      have least : 2 ^ s.1 ≤ B.natAbs := by
        rw [keeps.shape, Int.natAbs_mul, Int.natAbs_pow]
        exact Nat.le_mul_of_pos_right _ (by omega)
      have bits : s.1 < numBits B := Nat.lt_size.mpr least
      omega

theorem takeTwos_spec (odd : n % 2 = 1) (pos : 0 < B) (nonneg : 0 ≤ X) (cong : n ∣ c * X * a - B) :
    ∃ k B' X', takeTwos n B X = some (B', X') ∧ B = 2 ^ k * B' ∧ 0 < B' ∧ B' % 2 = 1 ∧ 0 ≤ X' ∧
      n ∣ c * X' * a - B' := by
  have start : ∃ Q, Halving a n c B (0, X) Q := ⟨B, by simp, pos, nonneg, cong⟩
  have ended : ∃ r, rounds (halveRound n B) (numBits B + 1) (0, X) = some r ∧
      ∃ Q, Halving a n c B r Q ∧ Q % 2 = 1 := by
    refine rounds_total (fun s => ∃ Q, Halving a n c B s Q) (fun s => numBits B - s.1) ?_
      (fun s t inv goes => halveRound_goes odd inv goes) start (by simp)
    rintro s r ⟨Q, keeps⟩ ends
    unfold halveRound at ends
    by_cases bit : isBitSet B s.1
    · rw [if_pos bit] at ends
      rw [isBitSet_iff, shifted_natAbs keeps.shape] at bit
      have pos := keeps.pos
      cases ends
      exact ⟨Q, keeps, by omega⟩
    · rw [if_neg bit] at ends
      contradiction
  obtain ⟨⟨shift, X'⟩, done, Q, keeps, bit⟩ := ended
  have value : (if 0 < shift then rshift B shift else B) = Q := by
    have shape := keeps.shape
    split
    · rw [rshift_eq pos.le, shape]
      exact Int.mul_ediv_cancel_left _ (by positivity)
    · have zero : shift = 0 := by omega
      simpa [zero] using shape
  exact ⟨shift, Q, X', by simp only [takeTwos, done, map_some, value], keeps.shape,
    keeps.pos, bit, keeps.X_nonneg, keeps.cong⟩

theorem gcd_halved {B' : Int} {k : Nat} (shape : B = 2 ^ k * B') (odd : Int.gcd A B % 2 = 1) :
    Int.gcd A B' = Int.gcd A B := by
  apply dvd_antisymm
  · rw [shape]
    exact Int.gcd_dvd_gcd_mul_left_right A B' (2 ^ k)
  · have divides : Int.gcd A B ∣ 2 ^ k * B'.natAbs := by
      have right : Int.gcd A B ∣ B.natAbs := Nat.gcd_dvd_right _ _
      rwa [shape, Int.natAbs_mul, Int.natAbs_pow, ← shape] at right
    have coprime : Nat.Coprime (Int.gcd A B) (2 ^ k) :=
      (Nat.coprime_two_right.mpr (Nat.odd_iff.mpr odd)).pow_right k
    exact Nat.dvd_gcd (Nat.gcd_dvd_left _ _) (coprime.dvd_of_dvd_mul_left divides)

theorem gcd_odd (odd : n % 2 = 1) : Int.gcd a n % 2 = 1 := by
  have divides : (Int.gcd a n : Int) ∣ n := Int.gcd_dvd_right a n
  by_contra even
  have two : (2 : Int) ∣ Int.gcd a n := by omega
  have := two.trans divides
  omega

/-- A binary round keeps the congruences and makes the numbers smaller. -/
theorem binaryRound_goes (odd : n % 2 = 1) (keeps : Inverting a n s)
    (goes : binaryRound n s = .inr t) :
    Inverting a n t ∧ t.A.natAbs + t.B.natAbs < s.A.natAbs + s.B.natAbs := by
  unfold binaryRound at goes
  by_cases done : s.B = 0
  · rw [if_pos done] at goes
    contradiction
  · rw [if_neg done] at goes
    have pos : 0 < s.B := by have := keeps.B_nonneg; omega
    obtain ⟨k, B, X, twos_B, B_shape, B_pos, B_odd, X_nonneg, B_cong⟩ :=
      takeTwos_spec odd pos keeps.X_nonneg keeps.B_cong
    obtain ⟨l, A, Y, twos_A, A_shape, A_pos, A_odd, Y_nonneg, A_cong⟩ :=
      takeTwos_spec odd keeps.A_pos keeps.Y_nonneg keeps.A_cong
    have gcd_ : Int.gcd A B = Int.gcd a n := by
      have first : Int.gcd s.A B = Int.gcd a n := by
        rw [gcd_halved B_shape (by rw [keeps.gcd_]; exact gcd_odd odd), keeps.gcd_]
      have second := gcd_halved (A := B) A_shape (by rw [Int.gcd_comm, first]; exact gcd_odd odd)
      rw [Int.gcd_comm, second, Int.gcd_comm, first]
    have B_le : B ≤ s.B := by
      rw [B_shape]
      exact le_mul_of_one_le_left B_pos.le (one_le_pow₀ (by decide))
    have A_le : A ≤ s.A := by
      rw [A_shape]
      exact le_mul_of_one_le_left A_pos.le (one_le_pow₀ (by decide))
    rw [twos_B, twos_A] at goes
    simp only at goes
    by_cases larger : A.natAbs ≤ B.natAbs
    · rw [if_pos larger, usub_eq B_pos.le A_pos.le, uadd_eq X_nonneg Y_nonneg] at goes
      cases goes
      refine ⟨⟨A_pos, by simp only; omega, by simp only; omega, Y_nonneg, keeps.sign_, ?_, A_cong,
        ?_⟩, by simp only; omega⟩
      · obtain ⟨i, b_cong⟩ := B_cong
        obtain ⟨j, a_cong⟩ := A_cong
        exact ⟨i - j, by simp only; linear_combination b_cong - a_cong⟩
      · rw [← gcd_]
        simp
    · rw [if_neg larger, usub_eq A_pos.le B_pos.le, uadd_eq Y_nonneg X_nonneg] at goes
      cases goes
      refine ⟨⟨by simp only; omega, B_pos.le, X_nonneg, by simp only; omega, keeps.sign_, B_cong,
        ?_, ?_⟩, by simp only; omega⟩
      · obtain ⟨i, b_cong⟩ := B_cong
        obtain ⟨j, a_cong⟩ := A_cong
        exact ⟨j - i, by simp only; linear_combination a_cong - b_cong⟩
      · rw [← gcd_]
        simp

theorem binaryRound_ends (odd : n % 2 = 1) {r : Option Inversion} (keeps : Inverting a n s)
    (ends : binaryRound n s = .inl r) : r = some s ∧ s.B = 0 := by
  unfold binaryRound at ends
  by_cases done : s.B = 0
  · rw [if_pos done] at ends
    exact ⟨(Sum.inl.inj ends).symm, done⟩
  · rw [if_neg done] at ends
    have pos : 0 < s.B := by have := keeps.B_nonneg; omega
    obtain ⟨_, B, X, twos_B, -⟩ := takeTwos_spec odd pos keeps.X_nonneg keeps.B_cong
    obtain ⟨_, A, Y, twos_A, -⟩ := takeTwos_spec odd keeps.A_pos keeps.Y_nonneg keeps.A_cong
    rw [twos_B, twos_A] at ends
    simp only at ends
    split at ends
    · contradiction
    · contradiction

def Applies (algorithm : InverseAlgorithm) (n : Int) : Prop := algorithm = .binary → n % 2 = 1

/-- Each algorithm ends with the divisor of a and the modulus. -/
theorem inverseLoop_spec (nonzero : n ≠ 0) (applies : Applies algorithm n) :
    ∃ r, inverseLoop algorithm n (startInversion a n) = some r ∧ Inverting a n r ∧ r.B = 0 := by
  cases algorithm with
  | noBranch => exact noBranch_ends nonzero
  | general =>
    rw [general_eq_noBranch nonzero]
    exact noBranch_ends nonzero
  | binary =>
    have odd := applies rfl
    have ended : ∃ r, rounds (binaryRound n)
        ((startInversion a n).A.natAbs + (startInversion a n).B.natAbs + 1)
        (startInversion a n) = some r ∧ ∃ t, r = some t ∧ Inverting a n t ∧ t.B = 0 := by
      refine rounds_total (Inverting a n) (fun s => s.A.natAbs + s.B.natAbs) ?_
        (fun s t inv goes => binaryRound_goes odd inv goes) (start_inverting nonzero a) (by omega)
      intro s r inv ends
      obtain ⟨rfl, zero⟩ := binaryRound_ends odd inv ends
      exact ⟨s, rfl, inv, zero⟩
    obtain ⟨_, done, t, rfl, keeps, zero⟩ := ended
    exact ⟨t, by simp only [inverseLoop, done, join_some], keeps, zero⟩

/-- The last fix-up gives the inverse in the range of the modulus. -/
theorem finishInverse_spec (nonzero : n ≠ 0) (keeps : Inverting a n r) (zero : r.B = 0) :
    (Int.gcd a n = 1 → ∃ R, finishInverse n r = ⟨some R, false⟩ ∧ 0 ≤ R ∧ R < n.natAbs ∧
      n ∣ a * R - 1) ∧
    (Int.gcd a n ≠ 1 → finishInverse n r = ⟨none, true⟩) := by
  have pos := keeps.A_pos
  have value : r.A = Int.gcd a n := by
    have gcd_ := keeps.gcd_
    rw [zero, Int.gcd_zero_right] at gcd_
    omega
  constructor
  · intro one
    have unit : r.A = 1 := by rw [value, one]; rfl
    -- the sign is taken into Y
    obtain ⟨Y, shape, k, cong⟩ : ∃ Y, (if r.sign < 0 then n - r.Y else r.Y) = Y ∧
        n ∣ a * Y - 1 := by
      refine ⟨_, rfl, ?_⟩
      obtain ⟨k, cong⟩ := keeps.A_cong
      rw [unit] at cong
      cases keeps.sign_ with
      | inl plus =>
        rw [if_neg (by omega)]
        rw [plus] at cong
        exact ⟨k, by linear_combination cong⟩
      | inr minus =>
        rw [if_pos (by omega)]
        rw [minus] at cong
        exact ⟨k + a, by linear_combination cong⟩
    refine ⟨if 0 ≤ Y ∧ Y.natAbs < n.natAbs then Y else nnmod Y n,
      by simp only [finishInverse, shape, unit, if_true], ?_⟩
    by_cases reduced : 0 ≤ Y ∧ Y.natAbs < n.natAbs
    · rw [if_pos reduced]
      exact ⟨reduced.1, by omega, k, cong⟩
    · rw [if_neg reduced]
      obtain ⟨l, multiple⟩ := dvd_sub_nnmod nonzero Y
      refine ⟨nnmod_nonneg nonzero Y, nnmod_lt nonzero Y, k - a * l, ?_⟩
      linear_combination cong - a * multiple
  · intro other
    have unit : r.A ≠ 1 := by rw [value]; exact_mod_cast other
    simp [finishInverse, unit]

def InverseAnswer (a n : Int) (r : InverseResult) : Prop :=
  if 1 < n.natAbs ∧ Int.gcd a n = 1 then
    ∃ R, r = ⟨some R, false⟩ ∧ 0 ≤ R ∧ R < n.natAbs ∧ a * R % n.natAbs = 1
  else r = ⟨none, true⟩

theorem inverse_unique {R S : Int} (R_nonneg : 0 ≤ R) (R_lt : R < n.natAbs) (S_nonneg : 0 ≤ S)
    (S_lt : S < n.natAbs) (R_cong : n ∣ a * R - 1) (S_cong : n ∣ a * S - 1) : R = S := by
  obtain ⟨k, R_eq⟩ := R_cong
  obtain ⟨l, S_eq⟩ := S_cong
  have divides : n ∣ R - S := ⟨S * k - R * l, by linear_combination S * R_eq - R * S_eq⟩
  have zero := Int.eq_zero_of_dvd_of_natAbs_lt_natAbs divides (by omega)
  omega

theorem inverseBy_eq {other : InverseAlgorithm} (nonzero : n ≠ 0) (applies : Applies algorithm n)
    (applies' : Applies other n) : inverseBy algorithm a n = inverseBy other a n := by
  obtain ⟨r, done, keeps, zero⟩ := inverseLoop_spec (a := a) nonzero applies
  obtain ⟨r', done', keeps', zero'⟩ := inverseLoop_spec (a := a) nonzero applies'
  obtain ⟨one, others⟩ := finishInverse_spec nonzero keeps zero
  obtain ⟨one', others'⟩ := finishInverse_spec nonzero keeps' zero'
  rw [inverseBy, inverseBy, done, done', map_some, map_some]
  by_cases coprime : Int.gcd a n = 1
  · obtain ⟨R, finish, R_nonneg, R_lt, R_cong⟩ := one coprime
    obtain ⟨S, finish', S_nonneg, S_lt, S_cong⟩ := one' coprime
    rw [finish, finish', inverse_unique R_nonneg R_lt S_nonneg S_lt R_cong S_cong]
  · rw [others coprime, others' coprime]

theorem inverseBy_answer (large : 1 < n.natAbs) (applies : Applies algorithm n) :
    ∃ r, inverseBy algorithm a n = some r ∧ InverseAnswer a n r := by
  have nonzero : n ≠ 0 := by omega
  obtain ⟨r, done, keeps, zero⟩ := inverseLoop_spec (a := a) nonzero applies
  obtain ⟨one, others⟩ := finishInverse_spec nonzero keeps zero
  refine ⟨finishInverse n r, by rw [inverseBy, done, map_some], ?_⟩
  unfold InverseAnswer
  by_cases coprime : Int.gcd a n = 1
  · rw [if_pos ⟨large, coprime⟩]
    obtain ⟨R, finish, R_nonneg, R_lt, R_cong⟩ := one coprime
    refine ⟨R, finish, R_nonneg, R_lt, ?_⟩
    have divides : (n.natAbs : Int) ∣ a * R - 1 := Int.natAbs_dvd.mpr R_cong
    rw [Int.emod_eq_emod_iff_emod_sub_eq_zero.mpr (Int.emod_eq_zero_of_dvd divides)]
    exact Int.emod_eq_of_lt (by decide) (by omega)
  · rw [if_neg fun both => coprime both.2]
    exact others coprime

def chosen (constTime : Bool) (n : Int) : InverseAlgorithm :=
  if constTime then .noBranch else if isOdd n ∧ numBits n ≤ 2048 then .binary else .general

theorem chosen_applies (constTime : Bool) (n : Int) : Applies (chosen constTime n) n := by
  unfold Applies chosen
  split
  · intro never
    contradiction
  · split
    · rename_i odd
      exact fun _ => (isOdd_iff n).mp odd.1
    · intro never
      contradiction

theorem intBnModInverse_eq (constTime : Bool) (a : Int) (large : 1 < n.natAbs) :
    intBnModInverse constTime a n = inverseBy (chosen constTime n) a n := by
  have some_ : ¬(absIsWord n 1 ∨ n = 0) := by
    rw [absIsWord, decide_eq_true_eq]
    omega
  rw [intBnModInverse, if_neg some_, chosen]
  split
  · rfl
  · split
    · rfl
    · rfl

theorem intBnModInverse_answer (constTime : Bool) (a n : Int) :
    ∃ r, intBnModInverse constTime a n = some r ∧ InverseAnswer a n r := by
  by_cases large : 1 < n.natAbs
  · rw [intBnModInverse_eq constTime a large]
    exact inverseBy_answer large (chosen_applies constTime n)
  · have none_ : absIsWord n 1 ∨ n = 0 := by
      rw [absIsWord, decide_eq_true_eq]
      omega
    refine ⟨⟨none, true⟩, by rw [intBnModInverse, if_pos none_], ?_⟩
    rw [InverseAnswer, if_neg fun both => large both.1]

/-- Inversion ends for all numbers, gives the inverse in the range of the modulus or reports that
    there is none, and every algorithm that there is for the modulus gives the same answer. -/
theorem mod_inverse_spec (constTime : Bool) (a n : Int) :
    (∃ r, intBnModInverse constTime a n = some r ∧ InverseAnswer a n r) ∧
      ∀ algorithm, 1 < n.natAbs → Applies algorithm n →
        inverseBy algorithm a n = intBnModInverse constTime a n := by
  refine ⟨intBnModInverse_answer constTime a n, fun algorithm large applies => ?_⟩
  rw [intBnModInverse_eq constTime a large]
  exact inverseBy_eq (by omega) applies (chosen_applies constTime n)

example : intBnModInverse false (-3) (-7) = some ⟨some 2, false⟩ := by decide

def bnAreCoprime (a b : Int) : Option Bool := (bnModInverse true a b).map isSome

/-- It tells coprime numbers from others, except that it denies them where b is
    a unit, or zero beside a unit. -/
theorem are_coprime_iff (a b : Int) :
    bnAreCoprime a b = some (decide (Int.gcd a b = 1)) ↔
      ¬(b.natAbs = 1 ∨ b = 0 ∧ a.natAbs = 1) := by
  obtain ⟨r, done, answer⟩ := intBnModInverse_answer true a b
  rw [bnAreCoprime, bnModInverse, done, map_some, map_some, Option.some.injEq]
  unfold InverseAnswer at answer
  by_cases large : 1 < b.natAbs
  · by_cases coprime : Int.gcd a b = 1
    · rw [if_pos ⟨large, coprime⟩] at answer
      obtain ⟨R, rfl, -⟩ := answer
      simp only [coprime, decide_true, isSome_some, true_iff]
      omega
    · rw [if_neg fun both => coprime both.2] at answer
      subst answer
      simp only [coprime, decide_false, isSome_none, true_iff]
      omega
  · rw [if_neg fun both => large both.1] at answer
    subst answer
    by_cases unit : b.natAbs = 1
    · have one : Int.gcd a b = 1 := by rw [Int.gcd, unit, Nat.gcd_one_right]
      simp [one, unit]
    · have zero : b = 0 := by omega
      subst zero
      simp

/- One and one. -/
theorem are_coprime_denies_units :
    ¬ ∀ a b, bnAreCoprime a b = some (decide (Int.gcd a b = 1)) := by
  intro all
  exact absurd (all 1 1) (by decide)

end Ossl
