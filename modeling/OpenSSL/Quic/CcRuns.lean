import OpenSSL.Lib.Runs
import OpenSSL.Quic.Cc

/- Runs of the NewReno controller of ssl/quic/cc_newreno.c: the window stays at or above its floor,
   and what was sent before the recovery period does not reduce it again. -/
namespace Ossl
open Nat List Runs

def newrenoSetInputParams (nr : NewReno) : Option (Option Nat) → Bool × NewReno
  | none => (true, nr)
  | some none => (false, nr)
  | some (some value) =>
    if value < quicMinInitialDgramLen then (false, nr)
    else (true, newrenoSetMaxDgramSize nr value)

inductive NewRenoOp where
  | sent (numBytes : Nat)
  | acked (info : CcAckInfo)
  | lost (info : CcLossInfo)
  | lostFinished (now : OsslTime) (flags : Nat)
  | invalidated (numBytes : Nat)
  | ecn (now : OsslTime) (info : CcEcnInfo)
  | inputParams (param : Option (Option Nat))
  | reset

/- The controller with the times of the losses reported to it since the last of them were
   finished. -/
structure TracedNewReno where
  nr : NewReno
  batch : List OsslTime

def newrenoApply (nr : NewReno) : NewRenoOp → NewReno
  | .sent numBytes => (newrenoOnDataSent nr numBytes).2
  | .acked info => (newrenoOnDataAcked nr info).2
  | .lost info => (newrenoOnDataLost nr info).2
  | .lostFinished now flags => (newrenoOnDataLostFinished now nr flags).2
  | .invalidated numBytes => (newrenoOnDataInvalidated nr numBytes).2
  | .ecn now info => (newrenoOnEcn now nr info).2
  | .inputParams param => (newrenoSetInputParams nr param).2
  | .reset => newrenoReset nr

def batchAfter (batch : List OsslTime) : NewRenoOp → List OsslTime
  | .lost info => info.txTime :: batch
  | .lostFinished _ _ => []
  | .ecn _ _ => []
  | .reset => []
  | _ => batch

def newrenoStep (s : TracedNewReno) (op : NewRenoOp) : TracedNewReno :=
  ⟨newrenoApply s.nr op, batchAfter s.batch op⟩

def newrenoStart : TracedNewReno := ⟨newrenoNew, []⟩

structure AboveFloor (nr : NewReno) : Prop where
  floor : nr.kMinWnd = 2 * nr.maxDgramSize
  window : nr.kMinWnd ≤ nr.congWnd
  init : nr.kMinWnd ≤ nr.kInitWnd

def SentBefore (s : TracedNewReno) : NewRenoOp → Prop
  | .lost info => info.txTime ≤ s.nr.congRecoveryStartTime
  | .lostFinished _ _ => ∀ t ∈ s.batch, t ≤ s.nr.congRecoveryStartTime
  | .ecn _ info => info.largestAckedTime ≤ s.nr.congRecoveryStartTime
  | _ => False

def PersistentCongestion : NewRenoOp → Prop
  | .lostFinished _ flags => flags &&& ccLostFlagPersistentCongestion ≠ 0
  | _ => False

/- An acknowledgement does not take the window past 64 bits; a datagram size whose initial window
   fits 64 bits is below the last one, or has its floor within the window. -/
def KeepsFloor (s : TracedNewReno) : NewRenoOp → Prop
  | .acked info => s.nr.congWnd + max info.txSize s.nr.maxDgramSize < 2 ^ 64
  | .inputParams (some (some value)) =>
    10 * value < 2 ^ 64 ∧ (value < s.nr.maxDgramSize ∨ 2 * value ≤ s.nr.congWnd)
  | _ => True

theorem newrenoNew_aboveFloor : AboveFloor newrenoNew := by
  exact ⟨by decide, by decide, by decide⟩

variable {nr : NewReno} {s : TracedNewReno}

theorem newrenoReset_aboveFloor (above : AboveFloor nr) : AboveFloor (newrenoReset nr) :=
  ⟨above.floor, above.init, above.init⟩

theorem newrenoSetMaxDgramSize_aboveFloor {value : Nat} (fits : 10 * value < 2 ^ 64)
    (window : value < nr.maxDgramSize ∨ 2 * value ≤ nr.congWnd) :
    AboveFloor (newrenoSetMaxDgramSize nr value) := by
  have twice : mulU64 2 value = 2 * value := mod_eq_of_lt (by omega)
  have tenfold : mulU64 10 value = 10 * value := mod_eq_of_lt fits
  constructor
  · simp [newrenoSetMaxDgramSize, twice]
  · simp only [newrenoSetMaxDgramSize, twice, tenfold]
    split <;> omega
  · simp only [newrenoSetMaxDgramSize, twice, tenfold]
    omega

variable {batch : List OsslTime} {info : CcAckInfo} {op : NewRenoOp}

theorem newrenoSetInputParams_aboveFloor (above : AboveFloor nr) {param : Option (Option Nat)}
    (keeps : KeepsFloor ⟨nr, batch⟩ (.inputParams param)) :
    AboveFloor (newrenoSetInputParams nr param).2 := by
  cases param with
  | none => exact above
  | some given =>
    cases given with
    | none => exact above
    | some value =>
      simp only [newrenoSetInputParams]
      split
      · exact above
      · exact newrenoSetMaxDgramSize_aboveFloor keeps.1 keeps.2

theorem newrenoCong_aboveFloor (above : AboveFloor nr) (now txTime : OsslTime) :
    AboveFloor (newrenoCong now nr txTime) := by
  unfold newrenoCong
  split
  · exact above
  · refine ⟨above.floor, ?_, above.init⟩
    dsimp only
    split_ifs <;> omega

theorem newrenoFlush_aboveFloor (above : AboveFloor nr) (now : OsslTime) (flags : Nat) :
    AboveFloor (newrenoFlush now nr flags) := by
  have reacted := newrenoCong_aboveFloor above now nr.txTimeOfLastLoss
  unfold newrenoFlush
  split
  · exact above
  · split
    · exact ⟨reacted.floor, Nat.le_refl _, reacted.init⟩
    · exact { reacted with }

theorem newrenoGrow_aboveFloor (above : AboveFloor nr)
    (fits : nr.congWnd + max info.txSize nr.maxDgramSize < 2 ^ 64) :
    AboveFloor (newrenoGrow nr info) := by
  have window := above.window
  have sized : addU64 nr.congWnd info.txSize = nr.congWnd + info.txSize := addU64_exact (by omega)
  have stepped : addU64 nr.congWnd nr.maxDgramSize = nr.congWnd + nr.maxDgramSize :=
    addU64_exact (by omega)
  simp only [newrenoGrow, sized, stepped]
  split_ifs
  · exact above
  · exact ⟨above.floor, le_add_right_of_le window, above.init⟩
  · exact ⟨above.floor, le_add_right_of_le window, above.init⟩
  · exact ⟨above.floor, window, above.init⟩

theorem newrenoOnDataAcked_aboveFloor (above : AboveFloor nr)
    (fits : nr.congWnd + max info.txSize nr.maxDgramSize < 2 ^ 64) :
    AboveFloor (newrenoOnDataAcked nr info).2 := by
  have removed : AboveFloor { nr with bytesInFlight := subU64 nr.bytesInFlight info.txSize } :=
    { above with }
  unfold newrenoOnDataAcked
  dsimp only
  split
  · exact newrenoGrow_aboveFloor removed fits
  · exact removed

theorem newrenoOnDataLost_window (nr : NewReno) (info : CcLossInfo) :
    ∃ bytesInFlight bytesAcked processingLoss txTimeOfLastLoss,
      (newrenoOnDataLost nr info).2 =
        { nr with bytesInFlight, bytesAcked, processingLoss, txTimeOfLastLoss } := by
  unfold newrenoOnDataLost
  dsimp only
  split_ifs <;> exact ⟨_, _, _, _, rfl⟩

theorem newrenoApply_aboveFloor (above : AboveFloor s.nr) (keeps : KeepsFloor s op) :
    AboveFloor (newrenoStep s op).nr := by
  cases op with
  | sent numBytes => exact { above with }
  | acked info => exact newrenoOnDataAcked_aboveFloor above keeps
  | lost info =>
    obtain ⟨_, _, _, _, same⟩ := newrenoOnDataLost_window s.nr info
    show AboveFloor (newrenoOnDataLost s.nr info).2
    rw [same]
    exact { above with }
  | lostFinished now flags => exact newrenoFlush_aboveFloor above now flags
  | invalidated numBytes => exact { above with }
  | ecn now info =>
    have reported : AboveFloor { s.nr with
        processingLoss := true, bytesAcked := 0, txTimeOfLastLoss := info.largestAckedTime } :=
      { above with }
    exact newrenoFlush_aboveFloor reported now 0
  | inputParams param => exact newrenoSetInputParams_aboveFloor above keeps
  | reset => exact newrenoReset_aboveFloor above

def BatchHolds (s : TracedNewReno) : Prop :=
  s.nr.processingLoss = true → s.nr.txTimeOfLastLoss ∈ s.batch

theorem newrenoFlush_processed (now : OsslTime) (nr : NewReno) (flags : Nat) :
    (newrenoFlush now nr flags).processingLoss = false := by
  unfold newrenoFlush
  split
  · assumption
  · rfl

theorem newrenoOnDataLost_batch (holds : BatchHolds ⟨nr, batch⟩) (info : CcLossInfo) :
    BatchHolds ⟨(newrenoOnDataLost nr info).2, info.txTime :: batch⟩ := by
  unfold BatchHolds newrenoOnDataLost osslTimeMax at *
  dsimp only at holds ⊢
  split_ifs with larger ignored idle later later
  · exact fun processing => mem_cons_of_mem _ (holds processing)
  · simp [ignored.1]
  · -- a batch is begun by a loss later than the last one
    exact absurd ⟨idle, Nat.le_of_lt later⟩ ignored
  · simp
  · exact fun processing => mem_cons_of_mem _ (holds processing)
  · simp

theorem BatchHolds.unchanged (holds : BatchHolds s)
    (loss : nr.processingLoss = s.nr.processingLoss)
    (time : nr.txTimeOfLastLoss = s.nr.txTimeOfLastLoss) : BatchHolds { s with nr } := by
  intro processing
  rw [show ({ s with nr } : TracedNewReno).nr.txTimeOfLastLoss = _ from time]
  exact holds (loss.symm.trans processing)

theorem newrenoStep_batch (holds : BatchHolds s) (op : NewRenoOp) :
    BatchHolds (newrenoStep s op) := by
  cases op with
  | sent numBytes => exact holds
  | acked info =>
    have same : (newrenoOnDataAcked s.nr info).2.processingLoss = s.nr.processingLoss ∧
        (newrenoOnDataAcked s.nr info).2.txTimeOfLastLoss = s.nr.txTimeOfLastLoss := by
      simp only [newrenoOnDataAcked, newrenoGrow]
      split_ifs <;> exact ⟨rfl, rfl⟩
    exact holds.unchanged same.1 same.2
  | lost info => exact newrenoOnDataLost_batch holds info
  | lostFinished now flags =>
    intro processing
    rw [show (newrenoStep s (.lostFinished now flags)).nr.processingLoss = false from
      newrenoFlush_processed now s.nr flags] at processing
    contradiction
  | invalidated numBytes => exact holds
  | ecn now info =>
    intro processing
    rw [show (newrenoStep s (.ecn now info)).nr.processingLoss = false from
      newrenoFlush_processed now _ 0] at processing
    contradiction
  | inputParams param =>
    have same : (newrenoSetInputParams s.nr param).2.processingLoss = s.nr.processingLoss ∧
        (newrenoSetInputParams s.nr param).2.txTimeOfLastLoss = s.nr.txTimeOfLastLoss := by
      cases param with
      | none => exact ⟨rfl, rfl⟩
      | some given =>
        cases given with
        | none => exact ⟨rfl, rfl⟩
        | some value =>
          simp only [newrenoSetInputParams]
          split <;> exact ⟨rfl, rfl⟩
    exact holds.unchanged same.1 same.2
  | reset => exact fun processing => nomatch processing

/-- Nothing that is lost in the recovery period moves the window, but persistent congestion. -/
theorem newrenoFlush_recovering {nr : NewReno} (now : OsslTime) {flags : Nat}
    (before : nr.processingLoss = true → nr.txTimeOfLastLoss ≤ nr.congRecoveryStartTime) :
    (newrenoFlush now nr flags).congWnd =
      if nr.processingLoss = true ∧ flags &&& ccLostFlagPersistentCongestion ≠ 0 then nr.kMinWnd
      else nr.congWnd := by
  unfold newrenoFlush
  cases processing : nr.processingLoss with
  | false => simp
  | true =>
    have none_ : newrenoCong now nr nr.txTimeOfLastLoss = nr := by
      unfold newrenoCong newrenoInCongRecovery
      simp [before processing]
    split_ifs <;> simp_all

theorem newrenoStep_recovering (holds : BatchHolds s) (before : SentBefore s op)
    (ordinary : ¬ PersistentCongestion op) : (newrenoStep s op).nr.congWnd = s.nr.congWnd := by
  cases op with
  | lost info =>
    obtain ⟨_, _, _, _, same⟩ := newrenoOnDataLost_window s.nr info
    show (newrenoOnDataLost s.nr info).2.congWnd = _
    rw [same]
  | lostFinished now flags =>
    have unchanged := @newrenoFlush_recovering s.nr now flags
      (fun processing => before _ (holds processing))
    rw [if_neg (fun both => ordinary both.2)] at unchanged
    exact unchanged
  | ecn now info =>
    have unchanged := @newrenoFlush_recovering { s.nr with
      processingLoss := true, bytesAcked := 0, txTimeOfLastLoss := info.largestAckedTime } now 0
      (fun _ => before)
    rw [if_neg (by simp)] at unchanged
    exact unchanged
  | _ => exact absurd before id

theorem newrenoStep_persistent (now : OsslTime) {flags : Nat}
    (processing : s.nr.processingLoss = true)
    (persistent : PersistentCongestion (.lostFinished now flags)) :
    (newrenoStep s (.lostFinished now flags)).nr.congWnd = s.nr.kMinWnd := by
  have same : ∀ txTime, (newrenoCong now s.nr txTime).kMinWnd = s.nr.kMinWnd := by
    intro txTime
    unfold newrenoCong
    split <;> rfl
  show (newrenoFlush now s.nr flags).congWnd = _
  unfold newrenoFlush
  rw [if_neg (by simp [processing])]
  simp only [if_pos (show flags &&& ccLostFlagPersistentCongestion ≠ 0 from persistent), same]

/-- The window stays at its floor or above while no size of datagrams is taken whose floor it does
    not reach; reports of packets sent before the recovery period leave it as it is, but persistent
    congestion takes it to the floor. -/
theorem newreno_window (ops : List NewRenoOp) :
    (Admissible newrenoStep KeepsFloor newrenoStart ops →
      ∀ s ∈ visited newrenoStep newrenoStart ops,
        s.nr.kMinWnd = 2 * s.nr.maxDgramSize ∧ s.nr.kMinWnd ≤ s.nr.congWnd) ∧
    ∀ s ∈ visited newrenoStep newrenoStart ops, ∀ op,
      (SentBefore s op → ¬ PersistentCongestion op → (newrenoStep s op).nr.congWnd = s.nr.congWnd) ∧
      (s.nr.processingLoss = true → PersistentCongestion op →
        (newrenoStep s op).nr.congWnd = s.nr.kMinWnd) := by
  constructor
  · intro admissible s member
    have keeps : ∀ s op, AboveFloor s.nr → KeepsFloor s op → AboveFloor (newrenoStep s op).nr :=
      fun _ _ => newrenoApply_aboveFloor
    have above : AboveFloor s.nr :=
      visited_invariant keeps newrenoNew_aboveFloor admissible s member
    exact ⟨above.floor, above.window⟩
  · intro s member op
    have keeps : ∀ s op, BatchHolds s → BatchHolds (newrenoStep s op) :=
      fun _ op holds => newrenoStep_batch holds op
    have start : BatchHolds newrenoStart := fun never => absurd never (by decide)
    have holds : BatchHolds s := visited_always keeps start ops s member
    refine ⟨newrenoStep_recovering holds, fun processing persistent => ?_⟩
    cases op with
    | lostFinished now flags => exact newrenoStep_persistent now processing persistent
    | _ => exact absurd persistent id

def newrenoSample : List NewRenoOp :=
  [.sent 6000, .lost ⟨5, 1200⟩, .lostFinished 10 0, .acked ⟨11, 1200⟩, .ecn 20 ⟨15⟩,
    .inputParams (some (some 1300))]

theorem newreno_window_two :
    Admissible newrenoStep KeepsFloor newrenoStart newrenoSample ∧
    (run newrenoStep newrenoStart newrenoSample).nr.kMinWnd = 2600 ∧
    ∀ s ∈ visited newrenoStep newrenoStart newrenoSample,
      s.nr.kMinWnd = 2 * s.nr.maxDgramSize ∧ s.nr.kMinWnd ≤ s.nr.congWnd :=
  have keeps : Admissible newrenoStep KeepsFloor newrenoStart newrenoSample :=
    ⟨trivial, trivial, trivial, by show _ + _ < _; decide, trivial,
      by show _ ∧ (_ ∨ _); decide, trivial⟩
  ⟨keeps, by decide, (newreno_window _).1 keeps⟩

/-- Persistent congestion within the recovery period halves the window again. A larger datagram
    leaves it below its floor, as does an acknowledgement that wraps it, and the floor of the
    largest datagrams is not twice their size. -/
theorem newreno_window_falls :
    ¬ (∀ ops : List NewRenoOp, ∀ s ∈ visited newrenoStep newrenoStart ops,
      (s.nr.kMinWnd = 2 * s.nr.maxDgramSize ∧ s.nr.kMinWnd ≤ s.nr.congWnd) ∧
      ∀ op, SentBefore s op → s.nr.congWnd ≤ (newrenoStep s op).nr.congWnd) ∧
    (∃ s ∈ visited newrenoStep newrenoStart [.inputParams (some (some 8000))],
      s.nr.congWnd < s.nr.kMinWnd) ∧
    (∃ s ∈ visited newrenoStep newrenoStart [.sent 12000, .acked ⟨1, 2 ^ 64 - 12000⟩],
      s.nr.congWnd < s.nr.kMinWnd) ∧
    (∃ s ∈ visited newrenoStep newrenoStart [.inputParams (some (some (2 ^ 63)))],
      s.nr.kMinWnd ≠ 2 * s.nr.maxDgramSize) := by
  refine ⟨fun claim => ?_, ⟨_, mem_cons_of_mem _ (mem_singleton.mpr rfl), by decide⟩,
    ⟨_, mem_cons_of_mem _ (mem_cons_of_mem _ (mem_singleton.mpr rfl)), by decide⟩,
    ⟨_, mem_cons_of_mem _ (mem_singleton.mpr rfl), by decide⟩⟩
  have reduced := (claim [.sent 6000, .lost ⟨5, 1200⟩, .lostFinished 10 0, .lost ⟨7, 1200⟩]
    (run newrenoStep newrenoStart
      [.sent 6000, .lost ⟨5, 1200⟩, .lostFinished 10 0, .lost ⟨7, 1200⟩])
    (by simp [visited, run])).2 (.lostFinished 12 1) (by
      show ∀ t ∈ [7], t ≤ 10
      decide)
  exact absurd reduced (by decide)

end Ossl
