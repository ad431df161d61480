import OpenSSL.Lib.BigEndian
import OpenSSL.Lib.BitWindow
import OpenSSL.Lib.Runs

/- The anti-replay window of ssl/record/methods/dtls_meth.c. -/
namespace Ossl
open Option List BigEndian BitWindow Runs

structure DtlsBitmap where
  map : Nat
  maxSeqNum : List UInt8

abbrev SeqNum48 : Type := { p : List UInt8 // p.length = 6 }

/- The top two bytes of rl->sequence stay zero. -/
def rlSequence (p : SeqNum48) : List UInt8 := 0 :: 0 :: p.val

def satsub64be (v1 v2 : List UInt8) : Int :=
  let l1 := netValue v1
  let l2 := netValue v2
  let ret := Int.bmod ((l1 : Int) - l2) (2 ^ 64)
  if l2 < l1 ∧ ret < 0 then 128
  else if l1 < l2 ∧ 0 < ret then -128
  else if 128 < ret then 128
  else if ret < -128 then -128
  else ret

def dtlsRecordReplayCheck (seq : List UInt8) (bitmap : DtlsBitmap) : Option (List UInt8) :=
  let cmp := satsub64be seq bitmap.maxSeqNum
  if 0 < cmp then some seq
  else
    let shift := (-cmp).toNat
    if 64 ≤ shift then none
    else if bitmap.map &&& 1 <<< shift ≠ 0 then none
    else some seq

def dtlsRecordBitmapUpdate (seq : List UInt8) (bitmap : DtlsBitmap) : DtlsBitmap :=
  let cmp := satsub64be seq bitmap.maxSeqNum
  if 0 < cmp then
    let shift := cmp.toNat
    let map := if shift < 64 then bitmap.map <<< shift % 2 ^ 64 ||| 1 else 1
    ⟨map, seq⟩
  else
    let shift := (-cmp).toNat
    if shift < 64 then { bitmap with map := bitmap.map ||| 1 <<< shift } else bitmap

theorem sequence_value (p : SeqNum48) : netValue (rlSequence p) < 2 ^ 48 := by
  have bound := netValue_lt p.val
  rw [p.property] at bound
  rw [rlSequence, netValue_cons, netValue_cons]
  simpa using bound

theorem satsub_near {v1 v2 : List UInt8} (small1 : netValue v1 < 2 ^ 48)
    (small2 : netValue v2 < 2 ^ 48) :
    satsub64be v1 v2 = max (-128) (min 128 ((netValue v1 : Int) - netValue v2)) := by
  have exact_ : Int.bmod ((netValue v1 : Int) - netValue v2) (2 ^ 64) =
      (netValue v1 : Int) - netValue v2 := Int.bmod_eq_of_le (by omega) (by omega)
  rw [satsub64be, exact_]
  split_ifs <;> omega

structure ReplayWorld where
  bitmap : DtlsBitmap
  updated : List SeqNum48

inductive ReplayOp where
  | replayCheck (p : SeqNum48)
  | bitmapUpdate (p : SeqNum48)

def replayStep (w : ReplayWorld) : ReplayOp → ReplayWorld
  | .replayCheck _ => w
  | .bitmapUpdate p => ⟨dtlsRecordBitmapUpdate (rlSequence p) w.bitmap, p :: w.updated⟩

def replayStart : ReplayWorld := ⟨⟨0, replicate 8 0⟩, []⟩

def seqValue (p : SeqNum48) : Nat := netValue (rlSequence p)

def largestSeq (seen : List SeqNum48) : Nat := (seen.map seqValue).foldr max 0

def ReplayFresh (seen : List SeqNum48) (p : SeqNum48) : Prop :=
  largestSeq seen < seqValue p ∨
    (seqValue p ≤ largestSeq seen ∧ largestSeq seen < seqValue p + 64 ∧ p ∉ seen)

theorem largestSeq_le (seen : List SeqNum48) : ∀ x ∈ seen.map seqValue, x ≤ largestSeq seen := by
  induction seen with
  | nil =>
    intro x none
    contradiction
  | cons p seen ih =>
    intro x member
    have top : largestSeq (p :: seen) = max (seqValue p) (largestSeq seen) := rfl
    rw [top]
    cases mem_cons.mp member with
    | inl here =>
      rw [here]
      exact le_max_left _ _
    | inr later => exact (ih x later).trans (le_max_right _ _)

/- What the bitmap says about the numbers it was told of. -/
structure ReplayInv (w : ReplayWorld) : Prop where
  top : netValue w.bitmap.maxSeqNum = largestSeq w.updated
  small : largestSeq w.updated < 2 ^ 48
  marks : Marks 64 w.bitmap.map (largestSeq w.updated) (w.updated.map seqValue)

theorem replay_start : ReplayInv replayStart := by
  constructor
  · rfl
  · decide
  · exact marks_zero 64

variable {w : ReplayWorld}

theorem update_inv (inv : ReplayInv w) (p : SeqNum48) :
    ReplayInv (replayStep w (.bitmapUpdate p)) := by
  obtain ⟨top, small, marks⟩ := inv
  have value : netValue (rlSequence p) = seqValue p := rfl
  have low : seqValue p < 2 ^ 48 := sequence_value p
  have near := satsub_near (sequence_value p) (by rw [top]; exact small)
  have above : largestSeq (p :: w.updated) = max (seqValue p) (largestSeq w.updated) := rfl
  have below := largestSeq_le w.updated
  rw [top, value] at near
  rw [replayStep, dtlsRecordBitmapUpdate]
  rw [near]
  by_cases newer : largestSeq w.updated < seqValue p
  · rw [if_pos (by omega)]
    rw [Nat.max_eq_left (by omega)] at above
    constructor
    · exact above.symm
    · rw [above]
      exact low
    · dsimp only
      rw [above, map_cons]
      split_ifs with close
      · have shift : (max (-128) (min 128 ((seqValue p : Int) - largestSeq w.updated))).toNat =
            seqValue p - largestSeq w.updated := by omega
        rw [shift]
        exact marks_slide marks below newer
      · exact marks_jump below (by omega)
  · rw [if_neg (by omega)]
    rw [Nat.max_eq_right (by omega)] at above
    constructor
    · dsimp only
      rw [above, ← top]
      split_ifs <;> rfl
    · rw [above]
      exact small
    · dsimp only
      rw [above, map_cons]
      split_ifs with close
      · have shift : (-max (-128) (min 128 ((seqValue p : Int) - largestSeq w.updated))).toNat =
            largestSeq w.updated - seqValue p := by omega
        rw [shift]
        exact marks_set marks (by omega)
      · exact marks_stale marks (by omega)

theorem step_inv (w : ReplayWorld) (op : ReplayOp) (inv : ReplayInv w) :
    ReplayInv (replayStep w op) := by
  cases op with
  | replayCheck p => exact inv
  | bitmapUpdate p => exact update_inv inv p

theorem seqValue_inj {p q : SeqNum48} (same : seqValue p = seqValue q) : p = q := by
  have bytes : rlSequence p = rlSequence q := by
    apply netValue_inj _ same
    rw [rlSequence, rlSequence, length_cons, length_cons, length_cons,
      length_cons, p.property, q.property]
  exact Subtype.ext (cons.inj (cons.inj bytes).2).2

theorem check_iff (inv : ReplayInv w) (p : SeqNum48) :
    dtlsRecordReplayCheck (rlSequence p) w.bitmap = some (rlSequence p) ↔
      ReplayFresh w.updated p := by
  obtain ⟨top, small, marks⟩ := inv
  have value : netValue (rlSequence p) = seqValue p := rfl
  have near := satsub_near (sequence_value p) (by rw [top]; exact small)
  rw [top, value] at near
  rw [dtlsRecordReplayCheck, ReplayFresh]
  rw [near]
  by_cases newer : largestSeq w.updated < seqValue p
  · rw [if_pos (by omega)]
    exact iff_of_true rfl (.inl newer)
  · rw [if_neg (by omega)]
    by_cases far : largestSeq w.updated < seqValue p + 64
    · have shift : (-max (-128) (min 128 ((seqValue p : Int) - largestSeq w.updated))).toNat =
          largestSeq w.updated - seqValue p := by omega
      have mark := marks (largestSeq w.updated - seqValue p) (by omega)
      have back : largestSeq w.updated - (largestSeq w.updated - seqValue p) = seqValue p := by omega
      have seen : seqValue p ∈ w.updated.map seqValue ↔ p ∈ w.updated := by
        constructor
        · intro somewhere
          obtain ⟨q, member, same⟩ := mem_map.mp somewhere
          exact seqValue_inj same ▸ member
        · exact mem_map_of_mem
      rw [back, seen, and_iff_right (Nat.sub_le _ _)] at mark
      rw [shift, if_neg (by omega), Nat.one_shiftLeft, Nat.and_two_pow]
      cases bit : w.bitmap.map.testBit (largestSeq w.updated - seqValue p) with
      | true =>
        rw [if_pos (by simp)]
        constructor
        · intro none
          contradiction
        · intro either
          cases either with
          | inl more => omega
          | inr old => exact absurd (mark.mp bit) old.2.2
      | false =>
        rw [if_neg (by simp)]
        apply iff_of_true rfl
        refine .inr ⟨by omega, far, ?_⟩
        intro member
        exact Bool.false_ne_true (bit.symm.trans (mark.mpr member))
    · rw [if_pos (by omega)]
      constructor
      · intro none
        contradiction
      · intro either
        omega

theorem check_some (seq : List UInt8) (bitmap : DtlsBitmap) (num : List UInt8)
    (passed : dtlsRecordReplayCheck seq bitmap = some num) : num = seq := by
  rw [dtlsRecordReplayCheck] at passed
  dsimp only at passed
  split_ifs at passed <;> exact (some.inj passed).symm

/-- In every state the check lets a number through if and only if it is above the largest one that
    was updated, or less than 64 below it and was never updated. -/
theorem replay_window (ops : List ReplayOp) (w : ReplayWorld)
    (reached : w ∈ visited replayStep replayStart ops) :
    (∀ p, (dtlsRecordReplayCheck (rlSequence p) w.bitmap).isSome = true ↔ ReplayFresh w.updated p) ∧
      ∀ p ∈ w.updated, dtlsRecordReplayCheck (rlSequence p) w.bitmap = none := by
  have inv : ReplayInv w := visited_always step_inv replay_start ops w reached
  have passes : ∀ p, (dtlsRecordReplayCheck (rlSequence p) w.bitmap).isSome = true ↔
      ReplayFresh w.updated p := by
    intro p
    rw [← check_iff inv p]
    constructor
    · intro there
      obtain ⟨num, passed⟩ := isSome_iff_exists.mp there
      rw [passed, check_some _ _ _ passed]
    · intro passed
      rw [passed]
      rfl
  refine ⟨passes, ?_⟩
  intro p member
  apply not_isSome_iff_eq_none.mp
  intro there
  have le := largestSeq_le w.updated (seqValue p) (mem_map_of_mem member)
  cases (passes p).mp there with
  | inl more => omega
  | inr old => exact old.2.2 member

def replaySample : List ReplayOp :=
  [.replayCheck ⟨[0, 0, 0, 0, 0, 5], rfl⟩, .bitmapUpdate ⟨[0, 0, 0, 0, 0, 5], rfl⟩,
    .bitmapUpdate ⟨[0, 0, 0, 0, 0, 100], rfl⟩]

theorem replay_window_sample :
    dtlsRecordReplayCheck (rlSequence ⟨[0, 0, 0, 0, 0, 100], rfl⟩)
      (run replayStep replayStart replaySample).bitmap = none := by
  have window := replay_window replaySample _ (run_mem_visited _ _ _)
  exact window.2 ⟨[0, 0, 0, 0, 0, 100], rfl⟩ mem_cons_self

end Ossl
