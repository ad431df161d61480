import Mathlib.Data.Nat.Size
import Mathlib.Data.Int.GCD
import Mathlib.Tactic.Common

/- The operations of crypto/bn on the integers that the BIGNUMs stand for. -/
namespace BnValue

/- The bits of the magnitude, as BN_num_bits, BN_is_odd and BN_is_bit_set see them. -/
def numBits (x : Int) : Nat := x.natAbs.size

def isOdd (x : Int) : Bool := decide (x.natAbs % 2 = 1)

def isBitSet (x : Int) (i : Nat) : Bool := x.natAbs.testBit i

def absIsWord (x : Int) (w : Nat) : Bool := decide (x.natAbs = w)

def oneWord (x : Int) : Bool := decide (0 < x.natAbs ∧ x.natAbs < 2 ^ 64)

def lsw (x : Int) : Nat := x.natAbs % 2 ^ 64

def uadd (x y : Int) : Int := x.natAbs + y.natAbs

def usub (x y : Int) : Int := x.natAbs - y.natAbs

def rshift (x : Int) (n : Nat) : Int := x.tdiv (2 ^ n)

def rshift1 (x : Int) : Int := rshift x 1

def lshift (x : Int) (n : Nat) : Int := x * 2 ^ n

def divRem (x y : Int) : Int × Int := (x.tdiv y, x.tmod y)

def nnmod (m d : Int) : Int :=
  let r := m.tmod d
  if r < 0 then if d < 0 then r - d else r + d else r

def modMul (x y m : Int) : Int := nnmod (x * y) m

def modSqr (x m : Int) : Int := (x * x).tmod m

def modExp (x : Int) (e : Nat) (m : Int) : Int := x ^ e % m

def modLshift1Quick (x m : Int) : Int := if m ≤ lshift x 1 then lshift x 1 - m else lshift x 1

variable {d x : Int}

theorem nnmod_eq (nonzero : d ≠ 0) (m : Int) : nnmod m d = m % d := by
  have range := Int.emod_nonneg m nonzero
  have below := Int.emod_lt m nonzero
  have cut := @Int.tmod_eq_emod m d
  unfold nnmod
  split at cut
  · simp only [cut]
    omega
  · simp only [cut]
    omega

theorem nnmod_nonneg (nonzero : d ≠ 0) (m : Int) : 0 ≤ nnmod m d := by
  rw [nnmod_eq nonzero]
  exact Int.emod_nonneg m nonzero

theorem nnmod_lt (nonzero : d ≠ 0) (m : Int) : nnmod m d < d.natAbs := by
  rw [nnmod_eq nonzero]
  exact Int.emod_lt m nonzero

theorem dvd_sub_nnmod (nonzero : d ≠ 0) (m : Int) : d ∣ m - nnmod m d := by
  rw [nnmod_eq nonzero]
  exact Int.dvd_self_sub_emod

theorem divRem_eq (nonneg : 0 ≤ x) (y : Int) : divRem x y = (x / y, x % y) := by
  rw [divRem, Int.tdiv_eq_ediv_of_nonneg nonneg, Int.tmod_eq_emod_of_nonneg nonneg]

theorem rshift_eq (nonneg : 0 ≤ x) (n : Nat) : rshift x n = x / 2 ^ n :=
  Int.tdiv_eq_ediv_of_nonneg nonneg

theorem rshift1_eq (nonneg : 0 ≤ x) : rshift1 x = x / 2 := rshift_eq nonneg 1

theorem uadd_eq {y : Int} (x_nonneg : 0 ≤ x) (y_nonneg : 0 ≤ y) : uadd x y = x + y := by
  unfold uadd
  omega

theorem usub_eq {y : Int} (x_nonneg : 0 ≤ x) (y_nonneg : 0 ≤ y) : usub x y = x - y := by
  unfold usub
  omega

theorem isOdd_iff (x : Int) : isOdd x = true ↔ x % 2 = 1 := by
  unfold isOdd
  rw [decide_eq_true_eq]
  omega

theorem isOdd_false (x : Int) : isOdd x = false ↔ x % 2 = 0 := by
  unfold isOdd
  rw [decide_eq_false_iff_not]
  omega

theorem isBitSet_iff (x : Int) (i : Nat) : isBitSet x i = true ↔ x.natAbs / 2 ^ i % 2 = 1 := by
  rw [isBitSet, Nat.testBit_eq_decide_div_mod_eq, decide_eq_true_eq]

end BnValue
