import OpenSSL.Lib.Runs
import OpenSSL.Lib.Totals
import OpenSSL.Quic.Fc

/- Runs of a connection's receive flow controller with those of its streams. Credit
   is charged to a stream and to the connection, and given out by both. -/
namespace Ossl
open Option Runs Totals

structure ConnRxfcs where
  conn : QuicRxfc
  streams : List QuicRxfc
  deriving DecidableEq

inductive RxfcOp where
  | openStream (initialWindowSize maxWindowSize : Nat)
  | frame (i stop : Nat) (isFin : Bool)
  | retire (i numBytes : Nat) (rtt : OsslTime) (own conn : RxfcClock)

def freshRxfcs (initialWindowSize maxWindowSize : Nat) : ConnRxfcs :=
  ⟨rxfcInit initialWindowSize maxWindowSize, []⟩

def ConnRxfcs.replace (s : ConnRxfcs) (i : Nat) (result : Bool × QuicRxfc × Option QuicRxfc) :
    ConnRxfcs :=
  ⟨result.2.2.getD s.conn, s.streams.set i result.2.1⟩

def applyRxfcOp (s : ConnRxfcs) : RxfcOp → ConnRxfcs
  | .openStream initial max => { s with streams := s.streams ++ [rxfcInit initial max] }
  | .frame i stop isFin =>
    match s.streams[i]? with
    | none => s
    | some rxfc => s.replace i (rxfcOnRxStreamFrame rxfc (some s.conn) stop isFin)
  | .retire i numBytes rtt own conn =>
    match s.streams[i]? with
    | none => s
    | some rxfc => s.replace i (rxfcOnRetire own conn rxfc (some s.conn) numBytes rtt)

def RxfcOpOk : RxfcOp → Prop
  | .openStream initial _ => initial < 2 ^ 64
  | .frame _ stop _ => stop < 2 ^ 64
  | .retire _ _ _ _ _ => True

def ErrorFree (s : ConnRxfcs) : Prop :=
  s.conn.errorCode = 0 ∧ ∀ rxfc ∈ s.streams, rxfc.errorCode = 0

structure RxfcWithin (rxfc : QuicRxfc) : Prop where
  retired : rxfc.rwm ≤ rxfc.swm
  within : rxfc.swm ≤ rxfc.cwm
  bound : rxfc.cwm < 2 ^ 64

structure StreamRxfcOk (rxfc : QuicRxfc) : Prop where
  within : RxfcWithin rxfc
  counted : rxfc.swm = rxfc.hwm
  child : rxfc.standalone = false

structure ConnRxfcsOk (s : ConnRxfcs) : Prop where
  conn : RxfcWithin s.conn
  streams : ∀ rxfc ∈ s.streams, StreamRxfcOk rxfc
  swm : s.conn.swm = total QuicRxfc.swm s.streams
  rwm : s.conn.rwm = total QuicRxfc.rwm s.streams

/- A frame beyond the final size, one that sets another or too low a final size, and
   one beyond the credit of the stream or of the connection. -/
def Violates (conn rxfc : QuicRxfc) (stop : Nat) (isFin : Bool) : Prop :=
  (rxfc.isFin = true ∧ ((isFin = true ∧ rxfc.hwm ≠ stop) ∨ rxfc.hwm < stop)) ∨
    (isFin = true ∧ stop < rxfc.hwm) ∨ rxfc.cwm < stop ∨
    (rxfc.hwm < stop ∧ conn.cwm < conn.swm + (stop - rxfc.hwm))

variable {rxfc : QuicRxfc} {i stop : Nat} {s : ConnRxfcs}

/-- Controlled bytes raise the error exactly when they exceed the credit. -/
theorem onRxControlledBytes_spec (ok : RxfcWithin rxfc) (free : rxfc.errorCode = 0)
    (numBytes : Nat) :
    ((onRxControlledBytes rxfc numBytes).errorCode = 0 ↔ rxfc.swm + numBytes ≤ rxfc.cwm) ∧
      (rxfc.swm + numBytes ≤ rxfc.cwm →
        onRxControlledBytes rxfc numBytes = { rxfc with swm := rxfc.swm + numBytes }) := by
  have within := ok.within
  have bound := ok.bound
  unfold onRxControlledBytes
  dsimp only
  rw [subU64_exact bound within]
  constructor
  · split
    · rename_i excess
      simp only [quicErrFlowControlError]
      omega
    · rename_i enough
      simp only [free, true_iff]
      omega
  · intro enough
    rw [if_neg (by omega), addU64_exact (by omega)]

theorem rxfcUpdateCwm_rises (clock : RxfcClock) (rxfc : QuicRxfc) (minWindowSize : Nat)
    (rtt : OsslTime) :
    rxfc.cwm ≤ (rxfcUpdateCwm clock rxfc minWindowSize rtt).cwm ∧
      (rxfc.cwm < 2 ^ 64 → (rxfcUpdateCwm clock rxfc minWindowSize rtt).cwm < 2 ^ 64) := by
  unfold rxfcUpdateCwm
  split
  · exact ⟨le_refl _, id⟩
  · dsimp only
    generalize adjusted : rxfcAdjustWindowSize clock rxfc minWindowSize rtt = r
    have same : r.cwm = rxfc.cwm := by
      rw [← adjusted]
      rfl
    split
    · rename_i higher
      exact ⟨by dsimp only; omega, fun _ => addU64_lt _ _⟩
    · exact ⟨by omega, fun bound => by omega⟩

theorem rxfcRetireBytes_rises (clock : RxfcClock) (rxfc : QuicRxfc) (numBytes minSize : Nat)
    (rtt : OsslTime) :
    rxfc.cwm ≤ (rxfcRetireBytes clock rxfc numBytes minSize rtt).cwm ∧
      (rxfc.cwm < 2 ^ 64 → (rxfcRetireBytes clock rxfc numBytes minSize rtt).cwm < 2 ^ 64) := by
  unfold rxfcRetireBytes
  generalize started : (if osslTimeIsZero rxfc.epochStart then
    rxfcStartEpoch clock.firstEpoch rxfc else rxfc) = r
  have same : r.cwm = rxfc.cwm := by
    rw [← started]
    split
    · rfl
    · rfl
  rw [← same]
  exact rxfcUpdateCwm_rises clock { r with rwm := addU64 r.rwm numBytes } minSize rtt

structure FrameOutcome (conn rxfc : QuicRxfc) (stop : Nat) (isFin : Bool)
    (conn' rxfc' : QuicRxfc) : Prop where
  free : rxfc'.errorCode = 0 ∧ conn'.errorCode = 0 ↔ ¬ Violates conn rxfc stop isFin
  cwm : rxfc'.cwm = rxfc.cwm ∧ conn'.cwm = conn.cwm
  kept : rxfc'.rwm = rxfc.rwm ∧ rxfc'.standalone = rxfc.standalone
  counted : ¬ Violates conn rxfc stop isFin →
    rxfc'.swm = max rxfc.swm stop ∧ rxfc'.hwm = max rxfc.hwm stop ∧
      conn' = { conn with swm := conn.swm + (stop - rxfc.hwm) }

variable {conn rxfc' : QuicRxfc} {isFin : Bool} {xs : List QuicRxfc} {initial : Nat}

/-- A frame that ends beyond all data seen is charged to both. -/
theorem higherFrame_outcome (ok : StreamRxfcOk rxfc) (connOk : RxfcWithin conn)
    (free : rxfc.errorCode = 0) (connFree : conn.errorCode = 0) (bound : stop < 2 ^ 64)
    (higher : rxfc.hwm < stop) (unfinished : rxfc.isFin = false) (fin : Bool) :
    FrameOutcome conn rxfc stop isFin (onRxControlledBytes conn (subU64 stop rxfc.hwm))
      (onRxControlledBytes { rxfc with isFin := fin, hwm := stop } (subU64 stop rxfc.hwm)) := by
  have counted := ok.counted
  have opened : RxfcWithin { rxfc with isFin := fin, hwm := stop } :=
    ⟨ok.within.retired, ok.within.within, ok.within.bound⟩
  obtain ⟨ownFree, own⟩ := onRxControlledBytes_spec opened free (subU64 stop rxfc.hwm)
  obtain ⟨connFree', connCounts⟩ := onRxControlledBytes_spec connOk connFree (subU64 stop rxfc.hwm)
  obtain ⟨cwm, hwm, rwm, alone⟩ :=
    onRxControlledBytes_kept { rxfc with isFin := fin, hwm := stop } (subU64 stop rxfc.hwm)
  obtain ⟨connCwm, _⟩ := onRxControlledBytes_kept conn (subU64 stop rxfc.hwm)
  rw [subU64_exact bound higher.le] at *
  have violates : Violates conn rxfc stop isFin ↔
      rxfc.cwm < stop ∨ conn.cwm < conn.swm + (stop - rxfc.hwm) := by
    simp only [Violates, unfinished, Bool.false_eq_true, false_and, false_or, higher, true_and]
    omega
  dsimp only at ownFree own
  refine ⟨?_, ⟨cwm, connCwm⟩, ⟨rwm, alone⟩, ?_⟩
  · rw [ownFree, connFree', violates]
    omega
  · intro fine
    rw [violates] at fine
    rw [own (by omega), connCounts (by omega)]
    dsimp only
    exact ⟨by omega, by omega, rfl⟩

theorem rxfcOnRxStreamFrame_outcome (ok : StreamRxfcOk rxfc) (connOk : RxfcWithin conn)
    (free : rxfc.errorCode = 0) (connFree : conn.errorCode = 0) (bound : stop < 2 ^ 64)
    (isFin : Bool) :
    ∃ rxfc' conn', rxfcOnRxStreamFrame rxfc (some conn) stop isFin = (true, rxfc', some conn') ∧
      FrameOutcome conn rxfc stop isFin conn' rxfc' := by
  have counted := ok.counted
  have within := ok.within.within
  have owned : ¬ (¬ rxfc.standalone = true ∧ some conn = none) := by simp
  unfold rxfcOnRxStreamFrame
  rw [if_neg owned]
  by_cases changed : rxfc.isFin = true ∧ ((isFin = true ∧ rxfc.hwm ≠ stop) ∨ rxfc.hwm < stop)
  · have violates : Violates conn rxfc stop isFin := .inl changed
    rw [if_pos changed]
    refine ⟨_, _, rfl, ?_, ⟨rfl, rfl⟩, ⟨rfl, rfl⟩, fun fine => absurd violates fine⟩
    simp [violates, quicErrFinalSizeError]
  rw [if_neg changed]
  have marked : (if isFin = true then { rxfc with isFin := true } else rxfc) =
      { rxfc with isFin := rxfc.isFin || isFin } := by
    cases isFin with
    | false => simp
    | true => simp
  rw [marked]
  by_cases higher : rxfc.hwm < stop
  · rw [if_pos higher]
    have unfinished : rxfc.isFin = false := by
      cases fin : rxfc.isFin with
      | false => rfl
      | true => exact absurd ⟨fin, .inr higher⟩ changed
    exact ⟨_, _, rfl, higherFrame_outcome ok connOk free connFree bound higher unfinished _⟩
  · rw [if_neg higher]
    by_cases lower : stop < rxfc.hwm ∧ isFin = true
    · have violates : Violates conn rxfc stop isFin := .inr (.inl ⟨lower.2, lower.1⟩)
      rw [if_pos lower]
      refine ⟨_, _, rfl, ?_, ⟨rfl, rfl⟩, ⟨rfl, rfl⟩, fun fine => absurd violates fine⟩
      simp [violates, quicErrFinalSizeError]
    · have fine : ¬ Violates conn rxfc stop isFin := by
        rintro (final | below | beyond | excess)
        · exact changed final
        · exact lower ⟨below.2, below.1⟩
        · omega
        · exact higher excess.1
      rw [if_neg lower]
      refine ⟨_, _, rfl, ?_, ⟨rfl, rfl⟩, ⟨rfl, rfl⟩, fun _ => ⟨by dsimp only; omega,
        by dsimp only; omega, ?_⟩⟩
      · simp [fine, free, connFree]
      · rw [Nat.sub_eq_zero_of_le (not_lt.mp higher)]
        rfl

/-- A retirement is refused, or it moves the retired watermarks of both. -/
theorem rxfcOnRetire_outcome (conn : QuicRxfc) (child : rxfc.standalone = false) (numBytes : Nat)
    (rtt : OsslTime) (own connClock : RxfcClock) :
    let r := rxfcOnRetire own connClock rxfc (some conn) numBytes rtt
    (r.2 = (rxfc, some conn)) ∨
      (addU64 rxfc.rwm numBytes ≤ rxfc.swm ∧ ∃ rxfc' conn', r.2 = (rxfc', some conn') ∧
        Retired rxfc rxfc' numBytes ∧ Retired conn conn' numBytes ∧
        (rxfc.cwm ≤ rxfc'.cwm ∧ (rxfc.cwm < 2 ^ 64 → rxfc'.cwm < 2 ^ 64)) ∧
        conn.cwm ≤ conn'.cwm ∧ (conn.cwm < 2 ^ 64 → conn'.cwm < 2 ^ 64)) := by
  intro r
  have run : r = rxfcOnRetire own connClock rxfc (some conn) numBytes rtt := rfl
  unfold rxfcOnRetire at run
  rw [if_neg (by simp)] at run
  split at run
  · exact .inl (by rw [run])
  · split at run
    · exact .inl (by rw [run])
    · rename_i received
      have alone : (rxfcRetireBytes own rxfc numBytes 0 rtt).standalone = false :=
        (rxfcRetireBytes_retired own rxfc numBytes 0 rtt).standalone.trans child
      dsimp only at run
      rw [alone, if_neg Bool.false_ne_true, map_some] at run
      refine .inr ⟨not_lt.mp received, _, _, by rw [run], rxfcRetireBytes_retired .., ?_⟩
      exact ⟨rxfcRetireBytes_retired .., rxfcRetireBytes_rises .., rxfcRetireBytes_rises ..⟩

theorem member_of_get (here : xs[i]? = some rxfc) : rxfc ∈ xs := List.mem_of_getElem? here

theorem set_member (here : xs[i]? = some rxfc) (rxfc' : QuicRxfc) : rxfc' ∈ xs.set i rxfc' := by
  have inside : i < xs.length := (getElem?_eq_some_iff.mp here).1
  exact List.mem_of_getElem? (by rw [List.getElem?_set_self inside])

/-- An error is raised by a frame exactly when it violates a limit or a final size. -/
theorem frame_errorFree_iff (ok : ConnRxfcsOk s) (free : ErrorFree s)
    (here : s.streams[i]? = some rxfc) (bound : stop < 2 ^ 64) (isFin : Bool) :
    ErrorFree (applyRxfcOp s (.frame i stop isFin)) ↔ ¬ Violates s.conn rxfc stop isFin := by
  have member := member_of_get here
  obtain ⟨rxfc', conn', run, outcome⟩ := rxfcOnRxStreamFrame_outcome (ok.streams rxfc member) ok.conn
    (free.2 rxfc member) free.1 bound isFin
  have after : applyRxfcOp s (.frame i stop isFin) = ⟨conn', s.streams.set i rxfc'⟩ := by
    simp only [applyRxfcOp, here, run, ConnRxfcs.replace, getD_some]
  rw [after, ← outcome.free]
  constructor
  · rintro ⟨connFree, streamsFree⟩
    exact ⟨streamsFree rxfc' (set_member here rxfc'), connFree⟩
  · rintro ⟨ownFree, connFree⟩
    exact ⟨connFree, forall_set free.2 i ownFree⟩

theorem frame_ok (ok : ConnRxfcsOk s) (free : ErrorFree s) (here : s.streams[i]? = some rxfc)
    (bound : stop < 2 ^ 64) (fine : ¬ Violates s.conn rxfc stop isFin) :
    ConnRxfcsOk (applyRxfcOp s (.frame i stop isFin)) := by
  have member := member_of_get here
  have own := ok.streams rxfc member
  obtain ⟨rxfc', conn', run, outcome⟩ := rxfcOnRxStreamFrame_outcome own ok.conn
    (free.2 rxfc member) free.1 bound isFin
  have after : applyRxfcOp s (.frame i stop isFin) = ⟨conn', s.streams.set i rxfc'⟩ := by
    simp only [applyRxfcOp, here, run, ConnRxfcs.replace, getD_some]
  obtain ⟨swm, hwm, rfl⟩ := outcome.counted fine
  obtain ⟨rwm, alone⟩ := outcome.kept
  obtain ⟨cwm, _⟩ := outcome.cwm
  have limits : rxfc'.swm ≤ rxfc.cwm ∧ s.conn.swm + (stop - rxfc.hwm) ≤ s.conn.cwm := by
    have first := own.within.within
    have second := ok.conn.within
    have counted := own.counted
    simp only [Violates, not_or, not_and, not_lt] at fine
    obtain ⟨_, _, low, shared⟩ := fine
    refine ⟨by omega, ?_⟩
    by_cases higher : rxfc.hwm < stop
    · exact shared higher
    · omega
  have counted := own.counted
  have raised := total_set QuicRxfc.swm here rxfc'
  have retired := total_set QuicRxfc.rwm here rxfc'
  rw [after]
  refine ⟨⟨?_, limits.2, ok.conn.bound⟩, forall_set ok.streams i ⟨⟨?_, ?_, ?_⟩, ?_, ?_⟩, ?_, ?_⟩
  · exact ok.conn.retired.trans (Nat.le_add_right _ _)
  · have := own.within.retired
    omega
  · omega
  · rw [cwm]
    exact own.within.bound
  · rw [swm, hwm, counted]
  · rw [alone]
    exact own.child
  · have := ok.swm
    dsimp only
    omega
  · have := ok.rwm
    dsimp only
    omega

theorem retired_within {numBytes : Nat} (ok : RxfcWithin rxfc)
    (moved : Retired rxfc rxfc' numBytes) (received : rxfc'.rwm ≤ rxfc.swm)
    (rises : rxfc.cwm ≤ rxfc'.cwm ∧ (rxfc.cwm < 2 ^ 64 → rxfc'.cwm < 2 ^ 64)) :
    RxfcWithin rxfc' := by
  have swm : rxfc'.swm = rxfc.swm := moved.swm
  refine ⟨?_, ?_, rises.2 ok.bound⟩
  · rw [swm]
    exact received
  · rw [swm]
    exact ok.within.trans rises.1

theorem retire_ok (ok : ConnRxfcsOk s) (here : s.streams[i]? = some rxfc) (numBytes : Nat)
    (rtt : OsslTime) (own connClock : RxfcClock) :
    ConnRxfcsOk (applyRxfcOp s (.retire i numBytes rtt own connClock)) := by
  have stream := ok.streams rxfc (member_of_get here)
  have after : applyRxfcOp s (.retire i numBytes rtt own connClock) =
      s.replace i (rxfcOnRetire own connClock rxfc (some s.conn) numBytes rtt) := by
    simp only [applyRxfcOp, here]
  rw [after, ConnRxfcs.replace]
  rcases rxfcOnRetire_outcome s.conn stream.child numBytes rtt own connClock with
    same | ⟨received, rxfc', conn', result, moved, connMoved, rises, connRises⟩
  · rw [same, getD_some]
    have unchanged : s.streams.set i rxfc = s.streams := by
      obtain ⟨inside, rfl⟩ := getElem?_eq_some_iff.mp here
      exact List.set_getElem_self inside
    rw [unchanged]
    exact ok
  · rw [result, getD_some]
    have rwm : rxfc'.rwm = addU64 rxfc.rwm numBytes := moved.rwm
    have connRwm : conn'.rwm = addU64 s.conn.rwm numBytes := connMoved.rwm
    have swm : rxfc'.swm = rxfc.swm := moved.swm
    have connSwm : conn'.swm = s.conn.swm := connMoved.swm
    have changed : StreamRxfcOk rxfc' := by
      refine ⟨retired_within stream.within moved (by omega) rises, ?_, ?_⟩
      · rw [swm, stream.counted]
        exact moved.hwm.symm
      · exact moved.standalone.trans stream.child
    have streams := forall_set ok.streams i changed
    have raised := total_set QuicRxfc.swm here rxfc'
    have retired := total_set QuicRxfc.rwm here rxfc'
    have less : total QuicRxfc.rwm (s.streams.set i rxfc') ≤
        total QuicRxfc.swm (s.streams.set i rxfc') :=
      total_le_total (fun r member => (streams r member).within.retired)
    have bound := ok.conn.bound
    have within := ok.conn.within
    have sums := ok.swm
    have sums' := ok.rwm
    -- the sum of what is retired is in range, so that the 64-bit sum is exact
    have exactly : conn'.rwm = total QuicRxfc.rwm (s.streams.set i rxfc') := by
      rw [connRwm]
      rw [rwm] at retired
      unfold addU64 at retired ⊢
      omega
    have conn : RxfcWithin conn' := retired_within ok.conn connMoved (by omega) connRises
    refine ⟨conn, streams, ?_, exactly⟩
    dsimp only
    omega

theorem openStream_ok (ok : ConnRxfcsOk s) (bound : initial < 2 ^ 64) (max : Nat) :
    ConnRxfcsOk (applyRxfcOp s (.openStream initial max)) := by
  have fresh : StreamRxfcOk (rxfcInit initial max) :=
    ⟨⟨Nat.le_refl _, Nat.zero_le _, bound⟩, rfl, rfl⟩
  refine ⟨ok.conn, ?_, ?_, ?_⟩
  · intro rxfc member
    rcases List.mem_append.mp member with old | new
    · exact ok.streams rxfc old
    · rw [List.mem_singleton.mp new]
      exact fresh
  · simp only [applyRxfcOp, total_append, ok.swm]
    rfl
  · simp only [applyRxfcOp, total_append, ok.rwm]
    rfl

structure RxfcInv (s : ConnRxfcs) : Prop where
  ok : ConnRxfcsOk s
  free : ErrorFree s

/-- A step that raises no error keeps the watermarks in order. -/
theorem applyRxfcOp_inv (s : ConnRxfcs) (op : RxfcOp) (inv : RxfcInv s)
    (valid : RxfcOpOk op ∧ ErrorFree (applyRxfcOp s op)) : RxfcInv (applyRxfcOp s op) := by
  refine ⟨?_, valid.2⟩
  cases op with
  | openStream initial max => exact openStream_ok inv.ok valid.1 max
  | frame i stop isFin =>
    cases here : s.streams[i]? with
    | none =>
      have same : applyRxfcOp s (.frame i stop isFin) = s := by simp only [applyRxfcOp, here]
      rw [same]
      exact inv.ok
    | some rxfc =>
      have fine := (frame_errorFree_iff inv.ok inv.free here valid.1 isFin).mp valid.2
      exact frame_ok inv.ok inv.free here valid.1 fine
  | retire i numBytes rtt own conn =>
    cases here : s.streams[i]? with
    | none =>
      have same : applyRxfcOp s (.retire i numBytes rtt own conn) = s := by
        simp only [applyRxfcOp, here]
      rw [same]
      exact inv.ok
    | some rxfc => exact retire_ok inv.ok here numBytes rtt own conn

/- No limit falls, and no stream goes away. -/
structure CwmRises (s t : ConnRxfcs) : Prop where
  conn : s.conn.cwm ≤ t.conn.cwm
  streams : ∀ (i : Nat) (rxfc : QuicRxfc), s.streams[i]? = some rxfc →
    ∃ rxfc', t.streams[i]? = some rxfc' ∧ rxfc.cwm ≤ rxfc'.cwm

theorem cwmRises_refl (s : ConnRxfcs) : CwmRises s s :=
  ⟨le_refl _, fun _ rxfc here => ⟨rxfc, here, le_refl _⟩⟩

theorem cwmRises_trans (s t u : ConnRxfcs) (first : CwmRises s t) (second : CwmRises t u) :
    CwmRises s u := by
  refine ⟨first.conn.trans second.conn, fun i rxfc here => ?_⟩
  obtain ⟨rxfc', here', le⟩ := first.streams i rxfc here
  obtain ⟨rxfc'', here'', le'⟩ := second.streams i rxfc' here'
  exact ⟨rxfc'', here'', le.trans le'⟩

theorem cwmRises_of_set {conn' : QuicRxfc} (here : s.streams[i]? = some rxfc)
    (conn : s.conn.cwm ≤ conn'.cwm) (own : rxfc.cwm ≤ rxfc'.cwm) :
    CwmRises s ⟨conn', s.streams.set i rxfc'⟩ := by
  have inside : i < s.streams.length := (getElem?_eq_some_iff.mp here).1
  refine ⟨conn, fun j other there => ?_⟩
  by_cases same : i = j
  · subst same
    obtain rfl := some.inj (here.symm.trans there)
    exact ⟨rxfc', List.getElem?_set_self inside, own⟩
  · exact ⟨other, (List.getElem?_set_ne same).trans there, le_refl _⟩

theorem applyRxfcOp_cwm (s : ConnRxfcs) (op : RxfcOp) (inv : RxfcInv s)
    (valid : RxfcOpOk op ∧ ErrorFree (applyRxfcOp s op)) : CwmRises s (applyRxfcOp s op) := by
  cases op with
  | openStream initial max =>
    refine ⟨le_refl _, fun i rxfc here => ⟨rxfc, ?_, le_refl _⟩⟩
    have inside : i < s.streams.length := (getElem?_eq_some_iff.mp here).1
    simp only [applyRxfcOp]
    rw [List.getElem?_append_left inside, here]
  | frame i stop isFin =>
    simp only [applyRxfcOp]
    split
    · exact cwmRises_refl s
    · rename_i rxfc here
      have member := member_of_get here
      obtain ⟨rxfc', conn', run, outcome⟩ := rxfcOnRxStreamFrame_outcome
        (inv.ok.streams rxfc member) inv.ok.conn (inv.free.2 rxfc member) inv.free.1 valid.1 isFin
      rw [run]
      exact cwmRises_of_set here outcome.cwm.2.ge outcome.cwm.1.ge
  | retire i numBytes rtt own conn =>
    simp only [applyRxfcOp]
    split
    · exact cwmRises_refl s
    · rename_i rxfc here
      have child := (inv.ok.streams rxfc (member_of_get here)).child
      rcases rxfcOnRetire_outcome s.conn child numBytes rtt own conn with
        same | ⟨_, rxfc', conn', result, _, _, rises, connRises⟩
      · rw [ConnRxfcs.replace, same]
        exact cwmRises_of_set here (le_refl _) (le_refl _)
      · rw [ConnRxfcs.replace, result]
        exact cwmRises_of_set here connRises.1 rises.1

theorem freshRxfcs_inv (bound : initial < 2 ^ 64) (max : Nat) : RxfcInv (freshRxfcs initial max) :=
  ⟨⟨⟨Nat.le_refl _, Nat.zero_le _, bound⟩, nofun, rfl, rfl⟩, rfl, nofun⟩

/-- While no error is raised, every stream has its watermarks in order, those of the
    connection are the totals and within its limit, and no limit falls; a frame
    raises an error exactly when it exceeds a limit or contradicts a final size. -/
theorem rxfc_sound (initial max : Nat) (bound : initial < 2 ^ 64) (first later : List RxfcOp)
    (valid : Admissible applyRxfcOp (fun s op => RxfcOpOk op ∧ ErrorFree (applyRxfcOp s op))
      (freshRxfcs initial max) (first ++ later)) :
    let s := run applyRxfcOp (freshRxfcs initial max) first
    let t := run applyRxfcOp s later
    (∀ rxfc ∈ s.streams, rxfc.rwm ≤ rxfc.swm ∧ rxfc.swm = rxfc.hwm ∧ rxfc.hwm ≤ rxfc.cwm) ∧
      s.conn.swm = total QuicRxfc.swm s.streams ∧ s.conn.rwm = total QuicRxfc.rwm s.streams ∧
      s.conn.rwm ≤ s.conn.cwm ∧ s.conn.swm ≤ s.conn.cwm ∧ CwmRises s t ∧
      ∀ (i : Nat) (rxfc : QuicRxfc), s.streams[i]? = some rxfc →
        ∀ (stop : Nat) (isFin : Bool), stop < 2 ^ 64 →
          (ErrorFree (applyRxfcOp s (.frame i stop isFin)) ↔ ¬ Violates s.conn rxfc stop isFin) := by
  intro s t
  obtain ⟨before, after⟩ := admissible_append.mp valid
  have inv : RxfcInv s := run_invariant applyRxfcOp_inv (freshRxfcs_inv bound max) before
  have conn := inv.ok.conn
  refine ⟨?_, inv.ok.swm, inv.ok.rwm, conn.retired.trans conn.within, conn.within, ?_, ?_⟩
  · intro rxfc member
    have stream := inv.ok.streams rxfc member
    exact ⟨stream.within.retired, stream.counted, stream.counted ▸ stream.within.within⟩
  · exact run_climbs cwmRises_refl cwmRises_trans applyRxfcOp_inv applyRxfcOp_cwm inv after
  · intro i rxfc here stop isFin small
    exact frame_errorFree_iff inv.ok inv.free here small isFin

def sampleRxfcClock : RxfcClock := ⟨1, 2, 3⟩

def sampleRxfcOps : List RxfcOp :=
  [.openStream 100 400, .openStream 100 400, .frame 0 60 false, .frame 1 30 true,
    .retire 0 50 1000 sampleRxfcClock sampleRxfcClock]

theorem rxfc_sound_two_streams :
    ErrorFree (applyRxfcOp (run applyRxfcOp (freshRxfcs 150 600) sampleRxfcOps) (.frame 1 31 false)) ↔
      ¬ Violates (run applyRxfcOp (freshRxfcs 150 600) sampleRxfcOps).conn
        { rxfcInit 100 400 with swm := 30, hwm := 30, isFin := true } 31 false :=
  (rxfc_sound 150 600 (by decide) sampleRxfcOps [] (by
    simp only [sampleRxfcOps, List.append_nil, Admissible, RxfcOpOk, ErrorFree, and_true]
    decide)).2.2.2.2.2.2 1 _ rfl 31 false (by decide)

end Ossl
