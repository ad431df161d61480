import OpenSSL.Lib.BigEndian

/- Whole numbers as octets: in two's complement, and as a sign with a magnitude. -/
namespace Twos
open BigEndian

def negative : List UInt8 → Bool
  | [] => false
  | first :: _ => decide (128 ≤ first.toNat)

def value (c : List UInt8) : Int :=
  netValue c - if negative c then ((2 ^ (8 * c.length) : Nat) : Int) else 0

def firstNine (first second : UInt8) : Nat := first.toNat * 2 + second.toNat / 128

def Minimal : List UInt8 → Prop
  | [] => False
  | [_] => True
  | first :: second :: _ => firstNine first second ≠ 0 ∧ firstNine first second ≠ 511

instance : DecidablePred Minimal
  | [] => inferInstanceAs (Decidable False)
  | [_] => inferInstanceAs (Decidable True)
  | first :: second :: _ =>
    inferInstanceAs (Decidable (firstNine first second ≠ 0 ∧ firstNine first second ≠ 511))

def signed (neg : Bool) (magnitude : List UInt8) : Int :=
  if neg then -(netValue magnitude : Int) else netValue magnitude

/- No leading zero, except for the octet of zero itself, which has no sign. -/
def Canonical (neg : Bool) (magnitude : List UInt8) : Prop :=
  magnitude = [0] ∧ neg = false ∨ ∃ first rest, magnitude = first :: rest ∧ first ≠ 0

theorem positive (n : Nat) : 0 < 2 ^ (8 * n) := Nat.pow_pos (by decide)

theorem step (n : Nat) : 2 ^ (8 * (n + 1)) = 256 * 2 ^ (8 * n) := by
  rw [Nat.mul_succ, Nat.pow_add, Nat.mul_comm]

theorem widen {n m : Nat} (less : n ≤ m) : 2 ^ (8 * n) ≤ 2 ^ (8 * m) :=
  Nat.pow_le_pow_right (by decide) (by omega)

theorem octet_pos {octet : UInt8} (nonzero : octet ≠ 0) : 0 < octet.toNat := by
  apply Nat.pos_of_ne_zero
  intro zero
  exact nonzero (UInt8.toNat_inj.mp zero)

/-- A first octet is at least k exactly when the number is. -/
theorem first_le (first : UInt8) (rest : List UInt8) (k : Nat) :
    k ≤ first.toNat ↔ k * 2 ^ (8 * rest.length) ≤ netValue (first :: rest) := by
  have below := netValue_lt rest
  rw [netValue_cons]
  generalize 2 ^ (8 * rest.length) = w at *
  constructor
  · intro le
    have := Nat.mul_le_mul_right w le
    omega
  · intro le
    by_contra less
    have := Nat.mul_le_mul_right w (by omega : first.toNat + 1 ≤ k)
    rw [Nat.succ_mul] at this
    omega

theorem negative_iff (first : UInt8) (rest : List UInt8) :
    negative (first :: rest) = true ↔ 128 * 2 ^ (8 * rest.length) ≤ netValue (first :: rest) := by
  rw [negative, decide_eq_true_iff, first_le]

/-- The value lies in the range of the octets. -/
theorem value_range (first : UInt8) (rest : List UInt8) :
    -((128 * 2 ^ (8 * rest.length) : Nat) : Int) ≤ value (first :: rest) ∧
      value (first :: rest) < ((128 * 2 ^ (8 * rest.length) : Nat) : Int) := by
  have sign := negative_iff first rest
  have below := netValue_lt (first :: rest)
  rw [value]
  rw [List.length_cons, step] at below ⊢
  by_cases top : negative (first :: rest) = true
  · rw [if_pos top]
    have := sign.mp top
    omega
  · rw [if_neg top]
    rw [sign] at top
    omega

/-- Octets are minimal when one octet less does not have the value in its range. -/
theorem minimal_iff (first second : UInt8) (rest : List UInt8) :
    Minimal (first :: second :: rest) ↔
      value (first :: second :: rest) < -((128 * 2 ^ (8 * rest.length) : Nat) : Int) ∨
        ((128 * 2 ^ (8 * rest.length) : Nat) : Int) ≤ value (first :: second :: rest) := by
  have byte := first.toNat_lt
  have sign : negative (first :: second :: rest) = decide (128 ≤ first.toNat) := rfl
  have top := first_le second rest 128
  have below := netValue_lt (second :: rest)
  rw [value, sign, netValue_cons first]
  simp only [List.length_cons, step] at below ⊢
  simp only [Minimal, firstNine, decide_eq_true_iff]
  generalize netValue (second :: rest) = v at *
  generalize 2 ^ (8 * rest.length) = w at *
  have octets := second.toNat_lt
  by_cases neg : 128 ≤ first.toNat
  · rw [if_pos neg]
    by_cases ones : first.toNat = 255
    · rw [ones]
      omega
    · have := Nat.mul_le_mul_right (256 * w) (by omega : first.toNat ≤ 254)
      omega
  · rw [if_neg neg]
    by_cases zeros : first.toNat = 0
    · rw [zeros]
      omega
    · have := Nat.mul_le_mul_right (256 * w) (by omega : 1 ≤ first.toNat)
      omega

variable {a b : List UInt8}

theorem minimal_not_shorter (left : a ≠ []) (right : Minimal b) (same : value a = value b) :
    b.length ≤ a.length := by
  by_contra more
  cases a with
  | nil => exact left rfl
  | cons x a =>
    match b, right with
    | [_], _ => simp at more
    | first :: second :: rest, right =>
      have range := value_range x a
      have outside := (minimal_iff first second rest).mp right
      have wider := widen (by simpa [Nat.lt_succ_iff] using more : a.length ≤ rest.length)
      rw [same] at range
      omega

theorem minimal_nonempty {c : List UInt8} (minimal : Minimal c) : c ≠ [] := by
  intro empty
  rw [empty] at minimal
  exact minimal

theorem minimal_unique (left : Minimal a) (right : Minimal b) (same : value a = value b) :
    a = b := by
  have lengths : a.length = b.length :=
    le_antisymm (minimal_not_shorter (minimal_nonempty right) left same.symm)
      (minimal_not_shorter (minimal_nonempty left) right same)
  apply netValue_inj lengths
  have below := netValue_lt a
  have above := netValue_lt b
  rw [value, value, lengths] at same
  rw [lengths] at below
  split at same <;> split at same <;> omega

variable {magnitude : List UInt8}

theorem canonical_zero {neg : Bool} (canonical : Canonical neg magnitude)
    (zero : netValue magnitude = 0) : magnitude = [0] ∧ neg = false := by
  rcases canonical with is | ⟨first, rest, rfl, nonzero⟩
  · exact is
  · have least := (first_le first rest 1).mp (octet_pos nonzero)
    have pos := positive rest.length
    omega

theorem canonical_length {magnitude other : List UInt8} {neg sign : Bool}
    (left : Canonical neg magnitude) (right : Canonical sign other)
    (same : netValue magnitude = netValue other) : magnitude.length ≤ other.length := by
  rcases left with ⟨rfl, _⟩ | ⟨first, rest, rfl, nonzero⟩
  · rw [(canonical_zero right same.symm).1]
  · by_contra more
    have least := (first_le first rest 1).mp (octet_pos nonzero)
    have below := netValue_lt other
    have wider := widen (by simpa [Nat.lt_succ_iff] using more : other.length ≤ rest.length)
    omega

theorem canonical_unique {neg sign : Bool} {magnitude other : List UInt8}
    (left : Canonical neg magnitude) (right : Canonical sign other)
    (same : signed neg magnitude = signed sign other) : neg = sign ∧ magnitude = other := by
  have values : netValue magnitude = netValue other := by
    rw [signed, signed] at same
    split at same <;> split at same <;> omega
  have lists : magnitude = other :=
    netValue_inj (le_antisymm (canonical_length left right values)
      (canonical_length right left values.symm)) values
  refine ⟨?_, lists⟩
  by_cases zero : netValue magnitude = 0
  · rw [(canonical_zero left zero).2, (canonical_zero right (values ▸ zero)).2]
  · rw [signed, signed] at same
    cases neg <;> cases sign <;> simp at same ⊢ <;> omega

def Fits (n : Nat) (v : Int) : Prop := v.natAbs < 2 ^ (8 * n)

/-- A canonical magnitude has no more octets than its number needs. -/
theorem canonical_fits {neg : Bool} {n : Nat}
    (canonical : Canonical neg magnitude) (some : 0 < n) :
    Fits n (signed neg magnitude) ↔ magnitude.length ≤ n := by
  have size : (signed neg magnitude).natAbs = netValue magnitude := by
    rw [signed]
    split <;> omega
  have below := netValue_lt magnitude
  rw [Fits, size]
  constructor
  · intro fits
    rcases canonical with ⟨rfl, _⟩ | ⟨first, rest, rfl, nonzero⟩
    · exact some
    · by_contra more
      have least := (first_le first rest 1).mp (octet_pos nonzero)
      have wider := widen (by simpa [Nat.lt_succ_iff] using more : n ≤ rest.length)
      omega
  · intro short
    exact lt_of_lt_of_le below (widen short)

theorem canonical_nonempty {neg : Bool}
    (canonical : Canonical neg magnitude) : magnitude ≠ [] := by
  rcases canonical with ⟨rfl, _⟩ | ⟨first, rest, rfl, _⟩
  · simp
  · simp

/-- Every octet flipped is all ones less the number. -/
theorem netValue_flip (c : List UInt8) :
    netValue (c.map (· ^^^ 0xff)) + netValue c + 1 = 2 ^ (8 * c.length) := by
  induction c with
  | nil => rfl
  | cons octet c ih =>
    have byte := octet.toNat_lt
    have flipped : (octet ^^^ 0xff).toNat = 255 - octet.toNat := by
      rw [show (0xff : UInt8) = -1 from rfl, UInt8.xor_neg_one, UInt8.toNat_not]
      rfl
    rw [List.map_cons, netValue_cons, netValue_cons, List.length_map, flipped, List.length_cons,
      step]
    generalize 2 ^ (8 * c.length) = w at *
    have parts : (255 - octet.toNat) * w + octet.toNat * w = 255 * w := by
      rw [← add_mul]
      congr 1
      omega
    omega

theorem value_inj (same : a.length = b.length) (equal : value a = value b) : a = b := by
  apply netValue_inj same
  have below := netValue_lt a
  have above := netValue_lt b
  rw [value, value, same] at equal
  rw [same] at below
  split at equal <;> split at equal <;> omega

end Twos
