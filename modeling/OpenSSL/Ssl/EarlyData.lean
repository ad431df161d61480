import Mathlib.Algebra.Group.Nat.Defs

/- The limit on early data, and the records that are held against it. -/
namespace Ossl

def earlyDataCiphertextOverhead : Nat := 6 * (16 + 1) + 2

inductive EarlyAlert
  | internalError
  | unexpectedMessage
  deriving DecidableEq

structure EarlyLayer where
  maxEarlyData : Nat
  earlyDataCount : Nat
  deriving DecidableEq

def rlayerEarlyDataCountOk (rl : EarlyLayer) (length overhead : Nat) (send : Bool) :
    Except EarlyAlert EarlyLayer :=
  let refused := if send then EarlyAlert.internalError else EarlyAlert.unexpectedMessage
  if rl.maxEarlyData = 0 then .error refused
  else
    let maxEarlyData := (rl.maxEarlyData + overhead % 2 ^ 32) % 2 ^ 32
    let count := (rl.earlyDataCount + length) % 2 ^ 64
    if count > maxEarlyData then .error refused
    else .ok { rl with earlyDataCount := count }

/- The two places that call it: a record that could not be decrypted and is
   skipped, and the plaintext of one that could. -/
inductive EarlyRecord
  | skipped (length : Nat)
  | decrypted (length : Nat)
  deriving DecidableEq

namespace EarlyRecord

def length : EarlyRecord → Nat
  | skipped length => length
  | decrypted length => length

def overhead : EarlyRecord → Nat
  | skipped _ => earlyDataCiphertextOverhead
  | decrypted _ => 0

theorem overhead_le (r : EarlyRecord) : r.overhead ≤ 104 := by
  cases r <;> simp [overhead, earlyDataCiphertextOverhead]

end EarlyRecord

def earlyRecordOk (rl : EarlyLayer) (r : EarlyRecord) : Except EarlyAlert EarlyLayer :=
  rlayerEarlyDataCountOk rl r.length r.overhead false

def earlyStep (rl : EarlyLayer) (r : EarlyRecord) : EarlyLayer :=
  match earlyRecordOk rl r with
  | .ok next => next
  | .error _ => rl

def WithinLimit (max total : Nat) (r : EarlyRecord) : Prop := total + r.length ≤ max + r.overhead

instance (max total : Nat) (r : EarlyRecord) : Decidable (WithinLimit max total r) :=
  inferInstanceAs (Decidable (_ ≤ _))

def totalAfter (max total : Nat) (r : EarlyRecord) : Nat :=
  if WithinLimit max total r then total + r.length else total

def Enforced (rl : EarlyLayer) (total : Nat) : List EarlyRecord → Prop
  | [] => rl.earlyDataCount = total
  | r :: rest =>
    rl.earlyDataCount = total ∧
      ((earlyRecordOk rl r).isOk = true ↔ WithinLimit rl.maxEarlyData total r) ∧
      Enforced (earlyStep rl r) (totalAfter rl.maxEarlyData total r) rest

/- Where neither sum wraps, or wraps without an effect on the answer. -/
def NoWrap (max total : Nat) (r : EarlyRecord) : Prop :=
  (max + r.overhead < 2 ^ 32 ∨ total + r.length + 2 ^ 32 ≤ max + r.overhead ∨
      max + r.overhead < total + r.length) ∧
    (total + r.length < 2 ^ 64 ∨ (max + r.overhead) % 2 ^ 32 + 2 ^ 64 < total + r.length)

instance (max total : Nat) (r : EarlyRecord) : Decidable (NoWrap max total r) :=
  inferInstanceAs (Decidable (_ ∧ _))

def NoWraps (max total : Nat) : List EarlyRecord → Prop
  | [] => True
  | r :: rest => NoWrap max total r ∧ NoWraps max (totalAfter max total r) rest

variable {rl : EarlyLayer}

theorem earlyRecordOk_eq (set_ : 0 < rl.maxEarlyData) (r : EarlyRecord) : earlyRecordOk rl r =
      if (rl.maxEarlyData + r.overhead) % 2 ^ 32 < (rl.earlyDataCount + r.length) % 2 ^ 64 then
        .error .unexpectedMessage
      else .ok { rl with earlyDataCount := (rl.earlyDataCount + r.length) % 2 ^ 64 } := by
  have nonzero : rl.maxEarlyData ≠ 0 := by omega
  simp [earlyRecordOk, rlayerEarlyDataCountOk, nonzero]

theorem earlyRecordOk_iff (set_ : 0 < rl.maxEarlyData) (r : EarlyRecord) :
    (earlyRecordOk rl r).isOk = true ↔
      (rl.earlyDataCount + r.length) % 2 ^ 64 ≤ (rl.maxEarlyData + r.overhead) % 2 ^ 32 := by
  rw [earlyRecordOk_eq set_ r]
  split
  · rename_i above
    simpa [Except.isOk, Except.toBool] using above
  · rename_i within
    simpa [Except.isOk, Except.toBool] using within

theorem earlyStep_eq (set_ : 0 < rl.maxEarlyData) (r : EarlyRecord) : earlyStep rl r =
      if (earlyRecordOk rl r).isOk then
        { rl with earlyDataCount := (rl.earlyDataCount + r.length) % 2 ^ 64 }
      else rl := by
  unfold earlyStep
  rw [earlyRecordOk_eq set_ r]
  by_cases above : (rl.maxEarlyData + r.overhead) % 2 ^ 32 < (rl.earlyDataCount + r.length) % 2 ^ 64
  · simp only [if_pos above]
    rfl
  · simp only [if_neg above]
    rfl

theorem earlyStep_max (set_ : 0 < rl.maxEarlyData) (r : EarlyRecord) :
    (earlyStep rl r).maxEarlyData = rl.maxEarlyData := by
  rw [earlyStep_eq set_ r]
  split <;> rfl

variable {r : EarlyRecord}

theorem answer_iff (set_ : 0 < rl.maxEarlyData) (word : rl.maxEarlyData < 2 ^ 32)
    (length : r.length < 2 ^ 64) (count : rl.earlyDataCount < 2 ^ 64) :
    ((earlyRecordOk rl r).isOk = true ↔ WithinLimit rl.maxEarlyData rl.earlyDataCount r) ↔
      NoWrap rl.maxEarlyData rl.earlyDataCount r := by
  have small := r.overhead_le
  rw [earlyRecordOk_iff set_, WithinLimit, NoWrap]
  omega

theorem earlyStep_count (set_ : 0 < rl.maxEarlyData) (word : rl.maxEarlyData < 2 ^ 32)
    (agree : (earlyRecordOk rl r).isOk = true ↔ WithinLimit rl.maxEarlyData rl.earlyDataCount r) :
    (earlyStep rl r).earlyDataCount = totalAfter rl.maxEarlyData rl.earlyDataCount r := by
  have small := r.overhead_le
  rw [earlyStep_eq set_, totalAfter]
  by_cases within : WithinLimit rl.maxEarlyData rl.earlyDataCount r
  · rw [if_pos within, if_pos (agree.mpr within)]
    unfold WithinLimit at within
    exact Nat.mod_eq_of_lt (by omega)
  · rw [if_neg within, if_neg fun ok_ => within (agree.mp ok_)]

theorem totalAfter_lt {max total : Nat} (word : max < 2 ^ 32) (below : total < 2 ^ 64)
    (r : EarlyRecord) : totalAfter max total r < 2 ^ 64 := by
  have small := r.overhead_le
  unfold totalAfter
  by_cases within : WithinLimit max total r
  · rw [if_pos within]
    unfold WithinLimit at within
    omega
  · rwa [if_neg within]

/-- The limit is kept along the records exactly where none of them makes a sum wrap. -/
theorem enforced_iff {records : List EarlyRecord}
    (lengths : ∀ r ∈ records, r.length < 2 ^ 64) {rl : EarlyLayer}
    (set_ : 0 < rl.maxEarlyData) (word : rl.maxEarlyData < 2 ^ 32)
    (count : rl.earlyDataCount < 2 ^ 64) :
    Enforced rl rl.earlyDataCount records ↔ NoWraps rl.maxEarlyData rl.earlyDataCount records := by
  induction records generalizing rl with
  | nil => simp [Enforced, NoWraps]
  | cons r rest ih =>
    have first := lengths r List.mem_cons_self
    have others := fun s mem => lengths s (List.mem_cons_of_mem r mem)
    have step := answer_iff set_ word first count
    simp only [Enforced, NoWraps, true_and, step]
    refine and_congr_right fun noWrap => ?_
    have next := earlyStep_count set_ word (step.mpr noWrap)
    have kept := earlyStep_max set_ r
    have below := totalAfter_lt word count r
    have tail := @ih others (earlyStep rl r) (by rwa [kept]) (by rwa [kept]) (by rwa [next])
    rwa [kept, next] at tail

/-- For a limit of at least one, early data are held to it exactly in the runs where no record makes
    the 32-bit sum of limit and overhead, or the 64-bit count, wrap with an effect. -/
theorem early_data_enforced_iff (max : Nat) (set_ : 0 < max) (word : max < 2 ^ 32)
    (records : List EarlyRecord) (lengths : ∀ r ∈ records, r.length < 2 ^ 64) :
    Enforced { maxEarlyData := max, earlyDataCount := 0 } 0 records ↔ NoWraps max 0 records :=
  enforced_iff lengths set_ word (by simp)

theorem early_data_enforced_iff_two :
    Enforced { maxEarlyData := 100, earlyDataCount := 0 } 0
        [.skipped 150, .decrypted 60] ↔
      NoWraps 100 0 [.skipped 150, .decrypted 60] :=
  early_data_enforced_iff 100 (by decide) (by decide) _ (by decide)

theorem early_data_refused_at_max :
    ¬ ∀ max, 0 < max → max < 2 ^ 32 → ∀ records : List EarlyRecord,
      (∀ r ∈ records, r.length < 2 ^ 64) →
        Enforced { maxEarlyData := max, earlyDataCount := 0 } 0 records := by
  intro all
  have run := all (2 ^ 32 - 1) (by decide) (by decide) [.skipped 200] (by decide)
  have within : WithinLimit (2 ^ 32 - 1) 0 (.skipped 200) := by decide
  exact absurd (run.2.1.mpr within) (by decide)

end Ossl
