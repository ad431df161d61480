import Mathlib.Data.Nat.Digits.Lemmas

/- Decimal numerals as ASCII octets, and readers that take them digit by digit. -/
namespace Decimal

def digit (d : Nat) : UInt8 := UInt8.ofNat (48 + d)

def leading (v : Nat) : List UInt8 := (Nat.digits 10 v).reverse.map digit

def decimal (v : Nat) : List UInt8 := if v = 0 then [digit 0] else leading v

@[simp] theorem leading_zero : leading 0 = [] := by simp [leading]

theorem leading_pos {v : Nat} (pos : 0 < v) : leading v = leading (v / 10) ++ [digit (v % 10)] := by
  rw [leading, Nat.digits_def' (by decide) pos]
  simp [leading]

theorem digit_toNat {d : Nat} (small : d < 10) : (digit d).toNat = 48 + d := by
  rw [digit, UInt8.toNat_ofNat', Nat.mod_eq_of_lt (by omega)]

theorem digit_of {c : UInt8} (least : 48 ≤ c.toNat) (most : c.toNat ≤ 57) :
    c = digit (c.toNat - 48) ∧ c.toNat - 48 < 10 := by
  refine ⟨?_, by omega⟩
  rw [digit, Nat.add_sub_cancel' least, UInt8.ofNat_toNat]

theorem decimal_ne_nil (v : Nat) : decimal v ≠ [] := by
  rw [decimal]
  split_ifs with zero
  · simp
  · rw [leading_pos (by omega)]
    simp

theorem mem_decimal {v : Nat} {c : UInt8} (member : c ∈ decimal v) : ∃ d < 10, c = digit d := by
  rw [decimal] at member
  split_ifs at member
  · exact ⟨0, by decide, List.mem_singleton.mp member⟩
  · obtain ⟨d, inside, rfl⟩ := List.mem_map.mp member
    exact ⟨d, Nat.digits_lt_base (by decide) (List.mem_reverse.mp inside), rfl⟩

variable {State Out : Type*} (next : List UInt8 → State → Out) (Value : Nat → State → Prop)

/-- A reader whose state has the value of the digits so far has that of the numeral in the end. -/
theorem read_leading (takes : ∀ d < 10, ∀ v s rest, Value v s →
      ∃ s', next (digit d :: rest) s = next rest s' ∧ Value (v * 10 + d) s')
    (v : Nat) {start : State} (zero : Value 0 start) (rest : List UInt8) :
    ∃ s, next (leading v ++ rest) start = next rest s ∧ Value v s := by
  induction v using Nat.strongRecOn generalizing rest with
  | ind v ih =>
    by_cases pos : 0 < v
    · obtain ⟨s, above, value⟩ := ih (v / 10) (by omega) (digit (v % 10) :: rest)
      obtain ⟨s', taken, value'⟩ := takes (v % 10) (Nat.mod_lt _ (by decide)) (v / 10) s rest value
      rw [Nat.div_add_mod'] at value'
      refine ⟨s', ?_, value'⟩
      rw [leading_pos pos, List.append_assoc, List.singleton_append, above, taken]
    · obtain rfl : v = 0 := by omega
      exact ⟨start, by simp, zero⟩

theorem read_decimal (takes : ∀ d < 10, ∀ v s rest, Value v s →
      ∃ s', next (digit d :: rest) s = next rest s' ∧ Value (v * 10 + d) s')
    (v : Nat) {start : State} (zero : Value 0 start) (rest : List UInt8) :
    ∃ s, next (decimal v ++ rest) start = next rest s ∧ Value v s := by
  rw [decimal]
  split_ifs with none
  · subst none
    exact takes 0 (by decide) 0 start rest zero
  · exact read_leading next Value takes v zero rest

end Decimal
