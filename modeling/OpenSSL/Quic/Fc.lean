import OpenSSL.Time

/- The receive flow controller of ssl/quic/quic_fc.c. A stream's controller has the connection's as
   its parent, which is given beside it and returned; a standalone one has none. -/
namespace Ossl

structure QuicRxfc where
  cwm : Nat
  swm : Nat
  rwm : Nat
  esrwm : Nat
  hwm : Nat
  curWindowSize : Nat
  maxWindowSize : Nat
  epochStart : OsslTime
  errorCode : Nat
  hasCwmChanged : Bool
  isFin : Bool
  standalone : Bool
  deriving DecidableEq

def quicErrFlowControlError : Nat := 0x03
def quicErrFinalSizeError : Nat := 0x06

def rxfcInit (initialWindowSize maxWindowSize : Nat) : QuicRxfc where
  cwm := initialWindowSize
  swm := 0
  rwm := 0
  esrwm := 0
  hwm := 0
  curWindowSize := initialWindowSize
  maxWindowSize := maxWindowSize
  epochStart := osslTimeZero
  errorCode := 0
  hasCwmChanged := false
  isFin := false
  standalone := false

def rxfcInitStandalone (initialWindowSize : Nat) : QuicRxfc :=
  { rxfcInit initialWindowSize initialWindowSize with standalone := true }

def rxfcStartEpoch (now : OsslTime) (rxfc : QuicRxfc) : QuicRxfc :=
  { rxfc with epochStart := now, esrwm := rxfc.rwm }

def onRxControlledBytes (rxfc : QuicRxfc) (numBytes : Nat) : QuicRxfc :=
  let credit := subU64 rxfc.cwm rxfc.swm
  if credit < numBytes then
    { rxfc with errorCode := quicErrFlowControlError, swm := addU64 rxfc.swm credit }
  else { rxfc with swm := addU64 rxfc.swm numBytes }

theorem onRxControlledBytes_kept (rxfc : QuicRxfc) (numBytes : Nat) :
    (onRxControlledBytes rxfc numBytes).cwm = rxfc.cwm ∧
      (onRxControlledBytes rxfc numBytes).hwm = rxfc.hwm ∧
      (onRxControlledBytes rxfc numBytes).rwm = rxfc.rwm ∧
      (onRxControlledBytes rxfc numBytes).standalone = rxfc.standalone := by
  unfold onRxControlledBytes
  dsimp only
  split
  · exact ⟨rfl, rfl, rfl, rfl⟩
  · exact ⟨rfl, rfl, rfl, rfl⟩

def rxfcOnRxStreamFrame (rxfc : QuicRxfc) (parent : Option QuicRxfc) (stop : Nat) (isFin : Bool) :
    Bool × QuicRxfc × Option QuicRxfc :=
  if ¬ rxfc.standalone ∧ parent = none then (false, rxfc, parent)
  else if rxfc.isFin ∧ ((isFin ∧ rxfc.hwm ≠ stop) ∨ rxfc.hwm < stop) then
    -- the stream size cannot change after the stream is finished
    (true, { rxfc with errorCode := quicErrFinalSizeError }, parent)
  else
    let rxfc := if isFin then { rxfc with isFin := true } else rxfc
    if rxfc.hwm < stop then
      let delta := subU64 stop rxfc.hwm
      (true, onRxControlledBytes { rxfc with hwm := stop } delta,
        parent.map (onRxControlledBytes · delta))
    else if stop < rxfc.hwm ∧ isFin then
      (true, { rxfc with errorCode := quicErrFinalSizeError }, parent)
    else (true, rxfc, parent)

def windowThresholdNum : Nat := 3
def windowThresholdDen : Nat := 4

def rxfcCwmBumpDesired (rxfc : QuicRxfc) : Bool :=
  let windowRem := subU64 rxfc.cwm rxfc.rwm
  let scaled := safeMuldivU64 rxfc.curWindowSize windowThresholdNum windowThresholdDen
  let threshold := if scaled.2 then rxfc.curWindowSize / 2 else scaled.1
  !rxfc.isFin && decide (windowRem ≤ threshold)

def rxfcShouldBumpWindowSize (now : OsslTime) (rxfc : QuicRxfc) (rtt : OsslTime) : Bool :=
  let b := subU64 rxfc.rwm rxfc.esrwm
  if b = 0 then false
  else
    let dt := osslTimeSubtract now rxfc.epochStart
    let tWindow := osslTimeMuldiv dt rxfc.curWindowSize b
    decide (tWindow < osslTimeMultiply rtt 4)

structure RxfcClock where
  firstEpoch : OsslTime
  bump : OsslTime
  nextEpoch : OsslTime
  deriving DecidableEq

def rxfcAdjustWindowSize (clock : RxfcClock) (rxfc : QuicRxfc) (minWindowSize : Nat)
    (rtt : OsslTime) : QuicRxfc :=
  let size := if rxfcShouldBumpWindowSize clock.bump rxfc rtt then mulU64 rxfc.curWindowSize 2
    else rxfc.curWindowSize
  let size := if size < minWindowSize then minWindowSize else size
  -- takes precedence over the least size
  let size := if rxfc.maxWindowSize < size then rxfc.maxWindowSize else size
  rxfcStartEpoch clock.nextEpoch { rxfc with curWindowSize := size }

def rxfcUpdateCwm (clock : RxfcClock) (rxfc : QuicRxfc) (minWindowSize : Nat) (rtt : OsslTime) :
    QuicRxfc :=
  if rxfcCwmBumpDesired rxfc = false then rxfc
  else
    let rxfc := rxfcAdjustWindowSize clock rxfc minWindowSize rtt
    let newCwm := addU64 rxfc.rwm rxfc.curWindowSize
    if rxfc.cwm < newCwm then { rxfc with cwm := newCwm, hasCwmChanged := true } else rxfc

def rxfcRetireBytes (clock : RxfcClock) (rxfc : QuicRxfc) (numBytes minWindowSize : Nat)
    (rtt : OsslTime) : QuicRxfc :=
  let rxfc := if osslTimeIsZero rxfc.epochStart then rxfcStartEpoch clock.firstEpoch rxfc else rxfc
  rxfcUpdateCwm clock { rxfc with rwm := addU64 rxfc.rwm numBytes } minWindowSize rtt

/- ossl_quic_rxfc_on_retire. A parent that is NULL is only retired from when the
   controller is not standalone, which the first test rules out. -/
def rxfcOnRetire (own conn : RxfcClock) (rxfc : QuicRxfc) (parent : Option QuicRxfc)
    (numBytes : Nat) (rtt : OsslTime) : Bool × QuicRxfc × Option QuicRxfc :=
  if parent = none ∧ ¬ rxfc.standalone then (false, rxfc, parent)
  else if numBytes = 0 then (true, rxfc, parent)
  else if rxfc.swm < addU64 rxfc.rwm numBytes then
    -- impossible to retire more bytes than were received
    (false, rxfc, parent)
  else
    let rxfc := rxfcRetireBytes own rxfc numBytes 0 rtt
    if rxfc.standalone then (true, rxfc, parent)
    else
      (true, rxfc, parent.map (rxfcRetireBytes conn · numBytes rxfc.curWindowSize rtt))

/-- The two controllers differ at most in the window and its auto-tuning. -/
structure SameMarks (rxfc rxfc' : QuicRxfc) : Prop where
  rwm : rxfc'.rwm = rxfc.rwm
  swm : rxfc'.swm = rxfc.swm
  hwm : rxfc'.hwm = rxfc.hwm
  isFin : rxfc'.isFin = rxfc.isFin
  standalone : rxfc'.standalone = rxfc.standalone
  errorCode : rxfc'.errorCode = rxfc.errorCode

/-- Retiring bytes moves the retired watermark alone, beside the window. -/
def Retired (rxfc rxfc' : QuicRxfc) (numBytes : Nat) : Prop :=
  SameMarks { rxfc with rwm := addU64 rxfc.rwm numBytes } rxfc'

theorem rxfcUpdateCwm_marks (clock : RxfcClock) (rxfc : QuicRxfc) (minWindowSize : Nat)
    (rtt : OsslTime) : SameMarks rxfc (rxfcUpdateCwm clock rxfc minWindowSize rtt) := by
  rw [rxfcUpdateCwm]
  split
  · exact ⟨rfl, rfl, rfl, rfl, rfl, rfl⟩
  · dsimp only
    split <;> exact ⟨rfl, rfl, rfl, rfl, rfl, rfl⟩

theorem rxfcRetireBytes_retired (clock : RxfcClock) (rxfc : QuicRxfc) (numBytes minSize : Nat)
    (rtt : OsslTime) : Retired rxfc (rxfcRetireBytes clock rxfc numBytes minSize rtt) numBytes := by
  rw [rxfcRetireBytes]
  split
  · have marks := rxfcUpdateCwm_marks clock { rxfcStartEpoch clock.firstEpoch rxfc with
      rwm := addU64 (rxfcStartEpoch clock.firstEpoch rxfc).rwm numBytes } minSize rtt
    exact { marks with }
  · exact rxfcUpdateCwm_marks clock { rxfc with rwm := addU64 rxfc.rwm numBytes } minSize rtt

variable {rxfc : QuicRxfc}

variable {numBytes : Nat}

/-- A retirement succeeds with nothing to do, or adds the bytes to the retired
    watermarks of the controller and of its parent. -/
theorem rxfcOnRetire_retired {own conn : RxfcClock} {parent : Option QuicRxfc} {rtt : OsslTime}
    (success : (rxfcOnRetire own conn rxfc parent numBytes rtt).1 = true) :
    (numBytes = 0 ∧ rxfcOnRetire own conn rxfc parent numBytes rtt = (true, rxfc, parent)) ∨
      (numBytes ≠ 0 ∧ addU64 rxfc.rwm numBytes ≤ rxfc.swm ∧
        ∃ rxfc' parent', rxfcOnRetire own conn rxfc parent numBytes rtt = (true, rxfc', parent') ∧
          Retired rxfc rxfc' numBytes ∧
          ((rxfc.standalone = true ∧ parent' = parent) ∨
            ∃ p p', parent = some p ∧ parent' = some p' ∧ Retired p p' numBytes)) := by
  have retired := rxfcRetireBytes_retired own rxfc numBytes 0 rtt
  by_cases orphan : parent = none ∧ ¬ rxfc.standalone = true
  · simp [rxfcOnRetire, orphan] at success
  by_cases nothing : numBytes = 0
  · exact .inl ⟨nothing, by rw [rxfcOnRetire, if_neg orphan, if_pos nothing]⟩
  by_cases excess : rxfc.swm < addU64 rxfc.rwm numBytes
  · simp [rxfcOnRetire, nothing, excess] at success
  refine .inr ⟨nothing, by omega, ?_⟩
  rw [rxfcOnRetire, if_neg orphan, if_neg nothing, if_neg excess]
  dsimp only
  rw [retired.standalone]
  by_cases alone : rxfc.standalone = true
  · rw [if_pos alone]
    exact ⟨_, _, rfl, retired, .inl ⟨alone, rfl⟩⟩
  · rw [if_neg alone]
    obtain ⟨p, rfl⟩ : ∃ p, parent = some p := by
      cases parent with
      | none => exact absurd ⟨rfl, alone⟩ orphan
      | some p => exact ⟨p, rfl⟩
    exact ⟨_, _, rfl, retired, .inr ⟨p, _, rfl, rfl, rxfcRetireBytes_retired ..⟩⟩

theorem rxfcOnRetire_success (own conn : RxfcClock) {parent : Option QuicRxfc} (numBytes : Nat)
    (rtt : OsslTime) (owned : rxfc.standalone = true ∨ parent ≠ none)
    (received : addU64 rxfc.rwm numBytes ≤ rxfc.swm) :
    (rxfcOnRetire own conn rxfc parent numBytes rtt).1 = true := by
  have notOrphan : ¬ (parent = none ∧ ¬ rxfc.standalone = true) := by tauto
  rw [rxfcOnRetire, if_neg notOrphan, if_neg (by omega : ¬ rxfc.swm < _)]
  split
  · rfl
  · dsimp only
    split <;> rfl

/-- A controller that is in step with its stream: it owns its credit, and it has
    counted every byte up to the highest offset seen. -/
structure RxfcInStep (rxfc : QuicRxfc) (parent : Option QuicRxfc) : Prop where
  owned : rxfc.standalone = true ∨ parent ≠ none
  counted : rxfc.swm = rxfc.hwm

theorem onRxControlledBytes_counts (clean : (onRxControlledBytes rxfc numBytes).errorCode = 0) :
    onRxControlledBytes rxfc numBytes = { rxfc with swm := addU64 rxfc.swm numBytes } := by
  unfold onRxControlledBytes at clean ⊢
  dsimp only at clean ⊢
  split
  · rename_i excess
    rw [if_pos excess] at clean
    simp [quicErrFlowControlError] at clean
  · rfl

/-- A frame within the credit and the final size raises the two watermarks to its
    end. -/
theorem rxfcOnRxStreamFrame_inStep {parent : Option QuicRxfc} {stop : Nat} {isFin : Bool}
    (step : RxfcInStep rxfc parent) (bound : stop < 2 ^ 64)
    (clean : (rxfcOnRxStreamFrame rxfc parent stop isFin).2.1.errorCode = 0) :
    ∃ rxfc' parent', rxfcOnRxStreamFrame rxfc parent stop isFin = (true, rxfc', parent') ∧
      RxfcInStep rxfc' parent' ∧ rxfc'.hwm = max rxfc.hwm stop ∧ rxfc'.rwm = rxfc.rwm := by
  have counted := step.counted
  have owned := step.owned
  have notOrphan : ¬ (¬ rxfc.standalone = true ∧ parent = none) := by tauto
  rw [rxfcOnRxStreamFrame, if_neg notOrphan] at clean ⊢
  by_cases finished : rxfc.isFin = true ∧ ((isFin = true ∧ rxfc.hwm ≠ stop) ∨ rxfc.hwm < stop)
  · rw [if_pos finished] at clean
    simp [quicErrFinalSizeError] at clean
  rw [if_neg finished] at clean ⊢
  dsimp only at clean ⊢
  generalize hr : (if isFin = true then { rxfc with isFin := true } else rxfc) = r at clean ⊢
  have marks : r.swm = rxfc.swm ∧ r.hwm = rxfc.hwm ∧ r.rwm = rxfc.rwm ∧
      r.standalone = rxfc.standalone := by
    subst hr; split <;> exact ⟨rfl, rfl, rfl, rfl⟩
  obtain ⟨swm, hwm, rwm, alone⟩ := marks
  by_cases higher : r.hwm < stop
  · rw [if_pos higher] at clean ⊢
    have counts := onRxControlledBytes_counts clean
    rw [counts]
    refine ⟨_, _, rfl, ⟨?_, ?_⟩, ?_, rwm⟩
    · simpa [alone] using owned
    · dsimp only
      rw [subU64_exact bound (by omega), addU64_exact (by omega)]
      omega
    · dsimp only; omega
  · rw [if_neg higher] at clean ⊢
    by_cases shorter : stop < r.hwm ∧ isFin = true
    · rw [if_pos shorter] at clean
      simp [quicErrFinalSizeError] at clean
    · rw [if_neg shorter]
      exact ⟨_, _, rfl, ⟨by rw [alone]; exact owned, by omega⟩, by omega, rwm⟩

end Ossl
