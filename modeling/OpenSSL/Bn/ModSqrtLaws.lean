import OpenSSL.Bn.ModSqrt
import OpenSSL.Lib.TonelliShanks
import Mathlib.NumberTheory.LegendreSymbol.QuadraticReciprocity

/- What BN_mod_sqrt answers for a prime, and that its loops end for every number. -/
namespace Ossl
open Option Nat BnValue Rounds TonelliShanks Int

section Residues
variable {p : Int}

theorem cast_zero_iff (x : Int) : (x : ZMod p.natAbs) = 0 ↔ p ∣ x := by
  rw [ZMod.intCast_zmod_eq_zero_iff_dvd, natAbs_dvd]

theorem cast_emod (x : Int) : ((x % p : Int) : ZMod p.natAbs) = x := by
  rw [ZMod.intCast_eq_intCast_iff_dvd_sub, natAbs_dvd]
  exact dvd_self_sub_emod

@[simp] theorem cast_modExp (x : Int) (e : Nat) :
    (modExp x e p : ZMod p.natAbs) = (x : ZMod p.natAbs) ^ e := by
  rw [modExp, cast_emod, Int.cast_pow]

theorem modSqr_eq (x : Int) : modSqr x p = x * x % p :=
  tmod_eq_emod_of_nonneg (mul_self_nonneg x)

@[simp] theorem cast_modSqr (x : Int) :
    (modSqr x p : ZMod p.natAbs) = (x : ZMod p.natAbs) * x := by
  rw [modSqr_eq, cast_emod, Int.cast_mul]

theorem cast_nnmod (nonzero : p ≠ 0) (x : Int) : (nnmod x p : ZMod p.natAbs) = x := by
  rw [nnmod_eq nonzero, cast_emod]

theorem cast_modMul (nonzero : p ≠ 0) (x y : Int) :
    (modMul x y p : ZMod p.natAbs) = (x : ZMod p.natAbs) * y := by
  rw [modMul, cast_nnmod nonzero, Int.cast_mul]

def ReducedMod (p x : Int) : Prop := 0 ≤ x ∧ x < p.natAbs

theorem emod_reduced (nonzero : p ≠ 0) (x : Int) : ReducedMod p (x % p) :=
  ⟨emod_nonneg x nonzero, emod_lt x nonzero⟩

theorem modSqr_reduced (nonzero : p ≠ 0) (x : Int) : ReducedMod p (modSqr x p) := by
  rw [modSqr_eq]
  exact emod_reduced nonzero _

theorem nnmod_reduced (nonzero : p ≠ 0) (x : Int) : ReducedMod p (nnmod x p) :=
  ⟨nnmod_nonneg nonzero x, nnmod_lt nonzero x⟩

variable {a ret x : Int} {e j : Nat}

theorem reduced_eq {y : Int} (x_reduced : ReducedMod p x) (y_reduced : ReducedMod p y) :
    (x : ZMod p.natAbs) = y ↔ x = y := by
  constructor
  · intro same
    rw [ZMod.intCast_eq_intCast_iff_dvd_sub] at same
    have zero := eq_zero_of_dvd_of_natAbs_lt_natAbs same (by
      have := x_reduced.1
      have := x_reduced.2
      have := y_reduced.1
      have := y_reduced.2
      omega)
    omega
  · exact fun same => by rw [same]

theorem reduced_one (large : 1 < p.natAbs) (reduced : ReducedMod p x) :
    (x : ZMod p.natAbs) = 1 ↔ x = 1 := by
  have one : ReducedMod p 1 := ⟨by decide, by omega⟩
  rw [← reduced_eq reduced one, Int.cast_one]

theorem vrfy_sound (nonzero : p ≠ 0) {r : Int} (found : vrfy (nnmod a p) p ret = some r) :
    p ∣ r * r - a := by
  unfold vrfy at found
  split at found
  · rename_i same
    cases found
    rw [← cast_zero_iff, Int.cast_sub, Int.cast_mul, ← cast_modSqr, same, cast_nnmod nonzero,
      sub_self]
  · contradiction

theorem vrfy_complete (nonzero : p ≠ 0) (root : (ret : ZMod p.natAbs) ^ 2 = (nnmod a p : Int)) :
    vrfy (nnmod a p) p ret = some ret := by
  have same : modSqr ret p = nnmod a p := by
    rw [← reduced_eq (modSqr_reduced nonzero ret) (nnmod_reduced nonzero a), cast_modSqr, ← root,
      pow_two]
  rw [vrfy, if_pos same]

theorem squareTimes_cast (j : Nat) (t : Int) :
    (squareTimes p j t : ZMod p.natAbs) = (t : ZMod p.natAbs) ^ 2 ^ j := by
  induction j generalizing t with
  | zero => simp [squareTimes]
  | succ j ih => rw [squareTimes, ih, cast_modSqr, ← pow_two, ← pow_mul, ← pow_succ']

variable {i left : Nat} {b t : Int}

theorem orderRounds_lt (found : orderRounds p left i t = some j) : i ≤ j ∧ j < i + left := by
  induction left generalizing i t with
  | zero => contradiction
  | succ left ih =>
    simp only [orderRounds] at found
    split at found
    · cases found
      omega
    · have := ih found
      omega

theorem orderSearch_lt (found : orderSearch p b e = some i) : 1 ≤ i ∧ i < e := by
  have := orderRounds_lt found
  omega

theorem orderRounds_least (large : 1 < p.natAbs) (reduced : ReducedMod p t)
    (power : (t : ZMod p.natAbs) = (b : ZMod p.natAbs) ^ 2 ^ i) :
    (∀ j, orderRounds p left i t = some j → (b : ZMod p.natAbs) ^ 2 ^ j = 1) ∧
      ∀ k, i ≤ k → k < (orderRounds p left i t).getD (i + left) →
        (b : ZMod p.natAbs) ^ 2 ^ k ≠ 1 := by
  have nonzero : p ≠ 0 := by omega
  induction left generalizing i t with
  | zero =>
    refine ⟨fun j found => by contradiction, fun k low high => ?_⟩
    change k < i + 0 at high
    omega
  | succ left ih =>
    rw [orderRounds]
    by_cases one : t = 1
    · rw [if_pos one]
      refine ⟨fun j found => ?_, fun k low high => by rw [Option.getD_some] at high; omega⟩
      rw [← Option.some.inj found, ← power, one, Int.cast_one]
    · have next : (modMul t t p : ZMod p.natAbs) = (b : ZMod p.natAbs) ^ 2 ^ (i + 1) := by
        rw [cast_modMul nonzero, power, ← pow_two, ← pow_mul, ← pow_succ]
      obtain ⟨last, below⟩ := ih (nnmod_reduced nonzero _) next
      rw [if_neg one, ← Nat.add_assoc, add_right_comm i left]
      refine ⟨last, fun k low high => ?_⟩
      by_cases first : k = i
      · rw [first, ← power]
        exact fun same => one ((reduced_one large reduced).mp same)
      · exact below k (by omega) high

theorem square_power (b : Int) :
    (modSqr b p : ZMod p.natAbs) = (b : ZMod p.natAbs) ^ 2 ^ 1 := by
  rw [cast_modSqr, pow_one, pow_two]

theorem orderSearch_least [Fact p.natAbs.Prime] (large : 1 < p.natAbs)
    (found : orderSearch p b e = some i) : LeastSquarings (b : ZMod p.natAbs) i := by
  have bound := orderSearch_lt found
  obtain ⟨one, below⟩ := orderRounds_least large (modSqr_reduced (by omega) b)
    (square_power b)
  rw [show orderRounds p (e - 1) 1 (modSqr b p) = some i from found] at below
  exact ⟨bound.1, one i found, below⟩

end Residues

section Loops
variable {p : Int}

theorem tonelliRound_goes {A : Int} {s t : TonelliState} (goes : tonelliRound A p s = .inr t) :
    orderSearch p s.b s.e = some t.e ∧ 0 < t.e ∧ t.e < s.e := by
  unfold tonelliRound at goes
  split at goes
  · contradiction
  · split at goes
    · contradiction
    · rename_i i found
      cases goes
      exact ⟨found, orderSearch_lt found⟩

theorem tonelli_total (A : Int) (s : TonelliState) :
    ∃ out, rounds (tonelliRound A p) (s.e + 1) s = some out := by
  obtain ⟨out, done, -⟩ := rounds_total (fun _ => True) TonelliState.e (fun _ _ _ _ => trivial)
    (fun s t _ goes => ⟨trivial, (tonelliRound_goes goes).2.2⟩) trivial (lt_succ_self s.e)
  exact ⟨out, done⟩

theorem searchNonsquare_total (rand : Nat → Nat) (left i : Nat) :
    ∃ out, searchNonsquare rand p left i = some out := by
  induction left generalizing i with
  | zero => exact ⟨none, rfl⟩
  | succ left ih =>
    simp only [searchNonsquare, bnKronecker_eq]
    split
    · exact ⟨_, rfl⟩
    · split
      · exact ih (i + 1)
      · exact ⟨_, rfl⟩

theorem searchNonsquare_found {rand : Nat → Nat} {left i : Nat} {y : Int}
    (found : searchNonsquare rand p left i = some (some y)) :
    KroneckerSymbol.kroneckerSym y p.natAbs = -1 := by
  induction left generalizing i with
  | zero => simp [searchNonsquare] at found
  | succ left ih =>
    simp only [searchNonsquare, bnKronecker_eq] at found
    have values := KroneckerSymbol.trichotomy (sqrtCandidate rand p i) p.natAbs
    split at found
    · simp at found
    · split at found
      · exact ih found
      · cases found
        omega

theorem powerOfTwo_spec (odd : p.natAbs % 2 = 1) (large : 1 < p.natAbs) :
    ∃ e q, rounds (bitRound p) (numBits p + 1) 1 = some e ∧ 1 ≤ e ∧ q % 2 = 1 ∧
      p.natAbs = 2 ^ e * q + 1 := by
  have quotient {i m : Nat} (some_ : 1 ≤ i) (shape : p.natAbs = 2 ^ i * m + 1) :
      p.natAbs / 2 ^ i = m := by
    have small : 1 < 2 ^ i := Nat.one_lt_two_pow (by omega)
    rw [shape, mul_add_div (by positivity), div_eq_of_lt small, add_zero]
  have ended : ∃ e, rounds (bitRound p) (numBits p + 1) 1 = some e ∧
      ∃ q, 1 ≤ e ∧ q % 2 = 1 ∧ p.natAbs = 2 ^ e * q + 1 := by
    refine rounds_total (fun i => 1 ≤ i ∧ ∃ m, 0 < m ∧ p.natAbs = 2 ^ i * m + 1)
      (fun i => numBits p - i) ?_ ?_ ⟨le_refl 1, p.natAbs / 2, by omega, by omega⟩ (by omega)
    · rintro i r ⟨some_, m, pos, shape⟩ ends
      unfold bitRound at ends
      by_cases bit : isBitSet p i
      · rw [if_pos bit] at ends
        cases ends
        rw [isBitSet_iff, quotient some_ shape] at bit
        exact ⟨m, some_, bit, shape⟩
      · rw [if_neg bit] at ends
        contradiction
    · rintro i j ⟨some_, m, pos, shape⟩ goes
      unfold bitRound at goes
      by_cases bit : isBitSet p i
      · rw [if_pos bit] at goes
        contradiction
      · rw [if_neg bit] at goes
        cases goes
        rw [isBitSet_iff, quotient some_ shape] at bit
        have least : 2 ^ i ≤ p.natAbs := by
          rw [shape]
          exact le_succ_of_le (Nat.le_mul_of_pos_right _ pos)
        have bits : i < numBits p := lt_size.mpr least
        refine ⟨⟨by omega, m / 2, by omega, ?_⟩, by omega⟩
        rw [pow_succ, mul_assoc, Nat.mul_div_cancel' (by omega)]
        exact shape
  obtain ⟨e, done, q, some_, q_odd, shape⟩ := ended
  exact ⟨e, q, done, some_, q_odd, shape⟩

theorem sqrtTonelli_total (A y : Int) (e : Nat) : ∃ out, sqrtTonelli A p y e = some out := by
  simp only [sqrtTonelli]
  split
  · exact ⟨_, rfl⟩
  · split
    · exact ⟨_, rfl⟩
    · exact tonelli_total _ _

theorem bnModSqrt_total (rand : Nat → Nat) (a : Int) : ∃ out, bnModSqrt rand a p = some out := by
  simp only [bnModSqrt]
  split
  · split
    · exact ⟨_, rfl⟩
    · exact ⟨_, rfl⟩
  · rename_i odd
    split
    · exact ⟨_, rfl⟩
    · rw [not_or, Bool.not_eq_false, isOdd_iff, absIsWord, decide_eq_true_eq] at odd
      obtain ⟨e, q, done, -⟩ := @powerOfTwo_spec p (by omega) (by omega)
      simp only [done]
      split
      · exact ⟨_, rfl⟩
      · split
        · exact ⟨_, rfl⟩
        · obtain ⟨out, found⟩ := searchNonsquare_total rand (p := p) 80 2
          rw [found]
          cases out with
          | none => exact ⟨_, rfl⟩
          | some y => exact sqrtTonelli_total _ _ _

end Loops

def SquareMod (a p : Int) : Prop := ∃ r : Int, p ∣ r * r - a

section Primes
variable {p : Int} [prime : Fact p.natAbs.Prime]

variable {A a y : Int} {s : TonelliState}

theorem square_half (square : SquareMod a p) :
    (a : ZMod p.natAbs) = 0 ∨ (a : ZMod p.natAbs) ^ (p.natAbs / 2) = 1 := by
  by_cases zero : (a : ZMod p.natAbs) = 0
  · exact .inl zero
  · obtain ⟨r, divides⟩ := square
    rw [← cast_zero_iff, Int.cast_sub, Int.cast_mul, sub_eq_zero] at divides
    exact .inr ((ZMod.euler_criterion p.natAbs zero).mp ⟨r, divides.symm⟩)

theorem sqrtEasy_root (square : SquareMod A p) (three : p.natAbs % 4 = 3) :
    (sqrtEasy A p : ZMod p.natAbs) ^ 2 = A := by
  have quarter : (rshift p 2).natAbs = p.natAbs / 4 := natAbs_tdiv p (2 ^ 2)
  rw [sqrtEasy, cast_modExp, quarter]
  refine easy_root ?_
  have half : 2 * (p.natAbs / 4) + 1 = p.natAbs / 2 := by omega
  rw [half]
  exact square_half square

theorem sqrtAtkin_root (square : SquareMod A p) (five : p.natAbs % 8 = 5) :
    (sqrtAtkin A p : ZMod p.natAbs) ^ 2 = A := by
  have nonzero : p ≠ 0 := by omega
  have eighth : (rshift p 3).natAbs = p.natAbs / 8 := Int.natAbs_tdiv p (2 ^ 3)
  have modulus : ((p : Int) : ZMod p.natAbs) = 0 := (cast_zero_iff p).mpr (Int.dvd_refl p)
  have twice : (modLshift1Quick A p : ZMod p.natAbs) = 2 * A := by
    unfold modLshift1Quick lshift
    split
    · rw [Int.cast_sub, modulus, sub_zero, pow_one, Int.cast_mul]
      ring
    · rw [pow_one, Int.cast_mul]
      ring
  have two : (2 : ZMod p.natAbs) ≠ 0 := by
    have small := (cast_zero_iff (p := p) 2).not.mpr fun divides => by
      have := Int.natAbs_dvd_natAbs.mpr divides
      have := le_of_dvd (by decide) this
      omega
    exact_mod_cast small
  -- two is not a square, so that twice a square is none
  have two_half : (2 : ZMod p.natAbs) ^ (p.natAbs / 2) = -1 := by
    refine (ZMod.pow_div_two_eq_neg_one_or_one p.natAbs two).resolve_left fun one => ?_
    have root := (ZMod.exists_sq_eq_two_iff (p := p.natAbs) (by omega)).mp
      ((ZMod.euler_criterion p.natAbs two).mpr one)
    omega
  have half : (A : ZMod p.natAbs) = 0 ∨
      (2 * (A : ZMod p.natAbs)) ^ (4 * (p.natAbs / 8) + 2) = -1 := by
    have exponent : 4 * (p.natAbs / 8) + 2 = p.natAbs / 2 := by omega
    refine (square_half square).imp_right fun one => ?_
    rw [exponent, mul_pow, two_half, one, mul_one]
  rw [← atkin_root half]
  simp only [sqrtAtkin, cast_modMul nonzero, Int.cast_sub, Int.cast_one, cast_modSqr, cast_modExp,
    twice, eighth]
  ring

theorem tonelliRound_keeps {t : TonelliState} (large : 2 < p.natAbs)
    (keeps : ReducedMod p s.b ∧ Keeps (A : ZMod p.natAbs) s.e s.x s.y s.b)
    (goes : tonelliRound A p s = .inr t) :
    ReducedMod p t.b ∧ Keeps (A : ZMod p.natAbs) t.e t.x t.y t.b := by
  have nonzero : p ≠ 0 := by omega
  unfold tonelliRound at goes
  by_cases one : s.b = 1
  · rw [if_pos one] at goes
    contradiction
  · rw [if_neg one] at goes
    have other : (s.b : ZMod p.natAbs) ≠ 1 :=
      fun same => one ((reduced_one (by omega) keeps.1).mp same)
    split at goes
    · contradiction
    · rename_i i found
      cases goes
      have step := keeps_step keeps.2 other (orderSearch_least (by omega) found)
        (orderSearch_lt found).2 (squareTimes_cast (s.e - i - 1) s.y)
      refine ⟨nnmod_reduced nonzero _, ?_⟩
      simpa only [cast_modMul nonzero] using step

theorem tonelli_root (large : 2 < p.natAbs) (reduced : ReducedMod p s.b)
    (keeps : Keeps ((nnmod a p : Int) : ZMod p.natAbs) s.e s.x s.y s.b) :
    ∃ r, rounds (tonelliRound (nnmod a p) p) (s.e + 1) s = some (some r) := by
  have nonzero : p ≠ 0 := by omega
  have ended : ∃ out, rounds (tonelliRound (nnmod a p) p) (s.e + 1) s = some out ∧
      ∃ r, out = some r := by
    refine rounds_total
      (fun s => ReducedMod p s.b ∧ Keeps ((nnmod a p : Int) : ZMod p.natAbs) s.e s.x s.y s.b)
      TonelliState.e ?_ ?_ ⟨reduced, keeps⟩ (lt_succ_self s.e)
    · rintro s out ⟨reduced, keeps⟩ ends
      unfold tonelliRound at ends
      by_cases one : s.b = 1
      · rw [if_pos one] at ends
        have root := keeps.square
        rw [one, Int.cast_one, mul_one] at root
        rw [vrfy_complete nonzero root] at ends
        exact ⟨s.x, (Sum.inl.inj ends).symm⟩
      · rw [if_neg one] at ends
        have other : (s.b : ZMod p.natAbs) ≠ 1 :=
          fun same => one ((reduced_one (by omega) reduced).mp same)
        split at ends
        · rename_i missed
          obtain ⟨_, below⟩ := orderRounds_least (by omega)
            (modSqr_reduced nonzero s.b) (square_power s.b)
          rw [show orderRounds p (s.e - 1) 1 (modSqr s.b p) = none from missed,
            Option.getD_none] at below
          exact (least_exists keeps other fun k low high => below k low (by omega)).elim
        · contradiction
    · exact fun s t keeps goes =>
        ⟨tonelliRound_keeps large keeps goes, (tonelliRound_goes goes).2.2⟩
  obtain ⟨_, done, r, rfl⟩ := ended
  exact ⟨r, done⟩

variable {q r : Int} {e : Nat} {rand : Nat → Nat}

theorem tonelliStart_some {x : Int} (nonneg : 0 ≤ q) (nonzero : p ≠ 0)
    (found : tonelliStart (nnmod a p) p q = some x) :
    (x : ZMod p.natAbs) = ((nnmod a p : Int) : ZMod p.natAbs) ^ (q / 2).natAbs ∧
      ((nnmod a p : Int) : ZMod p.natAbs) ≠ 0 := by
  simp only [tonelliStart, rshift1_eq nonneg] at found
  by_cases first : q / 2 = 0
  · rw [if_pos first] at found
    split at found
    · contradiction
    · rename_i other
      cases found
      rw [first, Int.natAbs_zero, pow_zero, Int.cast_one]
      refine ⟨rfl, fun zero => other ?_⟩
      rw [nnmod_eq nonzero]
      exact emod_eq_zero_of_dvd ((cast_zero_iff _).mp zero)
  · rw [if_neg first] at found
    split at found
    · contradiction
    · rename_i other
      cases found
      refine ⟨cast_modExp _ _, fun zero => other ?_⟩
      have power := cast_modExp (p := p) (nnmod a p) (q / 2).natAbs
      rw [zero, zero_pow (by omega)] at power
      have range := emod_reduced nonzero (nnmod a p ^ (q / 2).natAbs)
      exact (reduced_eq range ⟨le_refl 0, by omega⟩).mp (by rw [Int.cast_zero]; exact power)

theorem tonelliStart_none (nonzero : p ≠ 0) (zero : tonelliStart (nnmod a p) p q = none) :
    p ∣ a := by
  have divides : ((nnmod a p : Int) : ZMod p.natAbs) = 0 := by
    simp only [tonelliStart] at zero
    split at zero
    · split at zero
      · rename_i none_
        rw [← cast_nnmod nonzero, none_, Int.cast_zero]
      · contradiction
    · split at zero
      · rename_i none_
        have power := cast_modExp (p := p) (nnmod a p) (rshift1 q).natAbs
        rw [none_, Int.cast_zero] at power
        exact eq_zero_of_pow_eq_zero power.symm
      · contradiction
  rw [cast_nnmod nonzero, cast_zero_iff] at divides
  exact divides

omit prime in
theorem tonelli_sound {fuel : Nat} {out : Option Int} (nonzero : p ≠ 0)
    (done : rounds (tonelliRound (nnmod a p) p) fuel s = some out) :
    ∀ r, out = some r → p ∣ r * r - a := by
  have ends : ∀ (s : TonelliState) (out : Option Int), True →
      tonelliRound (nnmod a p) p s = .inl out → ∀ r, out = some r → p ∣ r * r - a := by
    intro s out _ ends r shape
    unfold tonelliRound at ends
    split at ends
    · cases ends
      exact vrfy_sound nonzero shape
    · split at ends
      · cases ends
        contradiction
      · contradiction
  exact rounds_sound (fun _ => True) ends (fun _ _ _ _ => trivial) trivial done

theorem sqrtTonelli_sound (nonzero : p ≠ 0)
    (found : sqrtTonelli (nnmod a p) p y e = some (some r)) : p ∣ r * r - a := by
  simp only [sqrtTonelli] at found
  split at found
  · simp at found
  · split at found
    · rename_i zero
      cases found
      simpa using tonelliStart_none nonzero zero
    · exact tonelli_sound nonzero found r rfl

/-- With a number that is not a square, the rounds find a root. -/
theorem sqrtTonelli_root {q : Nat} (square : SquareMod (nnmod a p) p) (some_ : 1 ≤ e)
    (q_odd : q % 2 = 1) (shape : p.natAbs = 2 ^ e * q + 1) (large : 2 < p.natAbs)
    (other : (y : ZMod p.natAbs) ^ (p.natAbs / 2) = -1) :
    ∃ r, sqrtTonelli (nnmod a p) p y e = some (some r) := by
  have nonzero : p ≠ 0 := by omega
  have q_is : rshift (p.natAbs : Int) e = q := by
    have small : 1 < 2 ^ e := Nat.one_lt_two_pow (by omega)
    have nat : p.natAbs / 2 ^ e = q := by
      rw [shape, mul_add_div (by positivity), div_eq_of_lt small, add_zero]
    rw [rshift_eq (by omega)]
    exact_mod_cast nat
  have half : p.natAbs / 2 = q * 2 ^ (e - 1) := by
    obtain ⟨d, rfl⟩ : ∃ d, e = d + 1 := ⟨e - 1, by omega⟩
    rw [shape, Nat.add_sub_cancel, pow_succ, mul_right_comm, mul_comm q]
    omega
  have order : (modExp y q p : ZMod p.natAbs) ^ 2 ^ (e - 1) = -1 := by
    rw [cast_modExp, ← pow_mul, ← half, other]
  have not_one : modExp y q p ≠ 1 := by
    intro one
    rw [one, Int.cast_one, one_pow] at order
    have two : ((2 : Int) : ZMod p.natAbs) = 0 := by
      linear_combination order
    have := natAbs_dvd_natAbs.mpr ((cast_zero_iff 2).mp two)
    have := le_of_dvd (by decide) this
    omega
  simp only [sqrtTonelli, q_is, natAbs_natCast, if_neg not_one]
  split
  · exact ⟨0, rfl⟩
  · rename_i x found
    obtain ⟨power, some_a⟩ := tonelliStart_some (natCast_nonneg q) nonzero found
    have exponent : ((q : Int) / 2).natAbs = q / 2 := by omega
    rw [exponent] at power
    have one := (square_half square).resolve_left some_a
    refine tonelli_root large (nnmod_reduced nonzero _) ⟨some_, ?_, order, ?_⟩
    · simp only [cast_modMul nonzero, cast_modSqr]
      ring
    · have odd_power : (modMul (modSqr x p) (nnmod a p) p : ZMod p.natAbs) =
          ((nnmod a p : Int) : ZMod p.natAbs) ^ q := by
        rw [cast_modMul nonzero, cast_modSqr, power, ← pow_add, ← pow_succ]
        congr 1
        omega
      simp only [odd_power]
      rw [← pow_mul, ← half, one]

theorem nonsquare_half (odd : p.natAbs ≠ 2)
    (symbol : KroneckerSymbol.kroneckerSym y p.natAbs = -1) :
    (y : ZMod p.natAbs) ^ (p.natAbs / 2) = -1 := by
  rw [KroneckerSymbol.kroneckerSym_prime y p.natAbs odd] at symbol
  rw [← legendreSym.eq_pow, symbol]
  simp

/-- Every root that is returned for a prime is one. -/
theorem bnModSqrt_sound (found : bnModSqrt rand a p = some (some r)) : p ∣ r * r - a := by
  have nonzero : p ≠ 0 := by have := prime.out.pos; omega
  simp only [bnModSqrt] at found
  split at found
  · split at found
    · rename_i two
      rw [absIsWord, decide_eq_true_eq] at two
      cases found
      have parity : (2 : Int) ∣ (if isBitSet a 0 then 1 else 0) * (if isBitSet a 0 then 1 else 0) -
          a := by
        by_cases bit : isBitSet a 0
        · rw [if_pos bit]
          rw [isBitSet_iff, pow_zero, Nat.div_one] at bit
          omega
        · rw [if_neg bit]
          rw [isBitSet_iff, pow_zero, Nat.div_one] at bit
          omega
      rw [← natAbs_dvd, two]
      exact parity
    · simp at found
  · split at found
    · rename_i small
      cases found
      cases small with
      | inl zero => simp [zero]
      | inr one => simp [one]
    · split at found
      · contradiction
      · split at found
        · exact vrfy_sound nonzero (some.inj found)
        · split at found
          · exact vrfy_sound nonzero (some.inj found)
          · split at found
            · contradiction
            · simp at found
            · exact sqrtTonelli_sound nonzero found

/-- For a square modulo a prime a root is returned, unless the search for a
    number that is not a square fails. -/
theorem bnModSqrt_complete (square : SquareMod a p)
    (search : p.natAbs % 8 = 1 → ∃ y, searchNonsquare rand p 80 2 = some (some y)) :
    ∃ r, bnModSqrt rand a p = some (some r) := by
  have nonzero : p ≠ 0 := by have := prime.out.pos; omega
  have reduced : SquareMod (nnmod a p) p := by
    obtain ⟨r, divides⟩ := square
    refine ⟨r, ?_⟩
    rw [← cast_zero_iff, Int.cast_sub, cast_nnmod nonzero, ← Int.cast_sub, cast_zero_iff]
    exact divides
  simp only [bnModSqrt]
  split
  · rename_i even
    have two : p.natAbs = 2 := by
      rw [isOdd_false, absIsWord, decide_eq_true_eq] at even
      have := prime.out.two_le
      have := prime.out.eq_two_or_odd
      omega
    rw [if_pos (by rw [absIsWord, decide_eq_true_eq]; exact two)]
    exact ⟨_, rfl⟩
  · rename_i odd
    rw [not_or, Bool.not_eq_false, isOdd_iff, absIsWord, decide_eq_true_eq] at odd
    split
    · exact ⟨_, rfl⟩
    · have large : 2 < p.natAbs := by have := prime.out.two_le; omega
      obtain ⟨e, q, done, some_, q_odd, shape⟩ := @powerOfTwo_spec p (by omega) (by omega)
      simp only [done]
      by_cases one : e = 1
      · rw [if_pos one]
        rw [one] at shape
        rw [vrfy_complete nonzero (sqrtEasy_root reduced (by omega))]
        exact ⟨_, rfl⟩
      · rw [if_neg one]
        by_cases two : e = 2
        · rw [if_pos two]
          rw [two] at shape
          rw [vrfy_complete nonzero (sqrtAtkin_root reduced (by omega))]
          exact ⟨_, rfl⟩
        · rw [if_neg two]
          obtain ⟨d, rfl⟩ : ∃ d, e = d + 3 := ⟨e - 3, by omega⟩
          have eight : p.natAbs = 8 * (2 ^ d * q) + 1 := by
            rw [shape]
            ring
          obtain ⟨y, found⟩ := search (by omega)
          rw [found]
          exact sqrtTonelli_root reduced some_ q_odd shape large
            (nonsquare_half (by omega) (searchNonsquare_found found))

end Primes

/-- BN_mod_sqrt ends for all numbers: in each round of Tonelli and Shanks the exponent e becomes one
    below it. For a prime it returns only roots, and one where there is one and the search for a
    non-square succeeds if needed. -/
theorem mod_sqrt_spec (rand : Nat → Nat) (a p : Int) :
    (∃ out, bnModSqrt rand a p = some out) ∧
    (∀ A s t, tonelliRound A p s = .inr t →
      orderSearch p s.b s.e = some t.e ∧ 0 < t.e ∧ t.e < s.e) ∧
    (p.natAbs.Prime → ∀ out, bnModSqrt rand a p = some out →
      (∀ r, out = some r → p ∣ r * r - a) ∧ (¬ SquareMod a p → out = none) ∧
      (SquareMod a p → (p.natAbs % 8 = 1 → ∃ y, searchNonsquare rand p 80 2 = some (some y)) →
        ∃ r, out = some r)) := by
  refine ⟨bnModSqrt_total rand a, fun A s t goes => tonelliRound_goes goes, ?_⟩
  intro prime out found
  have : Fact p.natAbs.Prime := ⟨prime⟩
  have sound : ∀ r, out = some r → p ∣ r * r - a := by
    rintro r rfl
    exact bnModSqrt_sound found
  refine ⟨sound, ?_, ?_⟩
  · intro nonsquare
    cases out with
    | none => rfl
    | some r => exact (nonsquare ⟨r, sound r rfl⟩).elim
  · intro square search
    obtain ⟨r, root⟩ := bnModSqrt_complete square search
    rw [found] at root
    exact ⟨r, some.inj root⟩

end Ossl
