import OpenSSL.Quic.AckmTx

/- Which space the loss detection timer of ssl/quic/quic_ackm.c is set for. A loss time of zero
   is one that is not set. -/
namespace Ossl
open Spans Runs

section
variable {δ : Type*}

def Ackm.Armed (a : Ackm δ) (space : PnSpace) : Prop := (a.spaces space).lossTime ≠ 0

structure EarliestLoss (a : Ackm δ) (space : PnSpace) : Prop where
  armed : a.Armed space
  least : ∀ other, a.Armed other → (a.spaces space).lossTime ≤ (a.spaces other).lossTime

def ackmLossTimeout (cc : CcMethod δ) (clock : AckmClock) (a : Ackm δ) (space : PnSpace) : Ackm δ :=
  let lost := ackmDetectAndRemoveLostPkts clock.lost a space
  let a := if lost.1 ≠ [] then ackmOnPktsLost cc clock.cong lost.2 lost.1 false else lost.2
  ackmSetLossDetectionTimer clock.pto a

def Ackm.probes (a : Ackm δ) : (PnSpace → Nat) × Nat × Nat × Nat :=
  (fun space => (a.spaces space).pendingPto, a.antiDeadlockInitial, a.antiDeadlockHandshake,
    a.ptoCount)

structure TimerRemembers (cc : CcMethod δ) (a : Ackm δ) : Prop where
  unset : (ackmGetLossTimeAndSpace a).1 = 0 ↔ ∀ space, ¬ a.Armed space
  earliest : (∃ space, a.Armed space) → EarliestLoss a (ackmGetLossTimeAndSpace a).2 ∧
    (ackmGetLossTimeAndSpace a).1 = (a.spaces (ackmGetLossTimeAndSpace a).2).lossTime
  deadline : ∀ now space, a.Armed space →
    (ackmSetLossDetectionTimer now a).lossDetectionDeadline ≠ 0 ∧
      (ackmSetLossDetectionTimer now a).lossDetectionDeadline ≤ (a.spaces space).lossTime
  timeout : ∀ clock, (∃ space, a.Armed space) → ∃ space, EarliestLoss a space ∧
    ackmOnTimeout cc clock a = (true, ackmLossTimeout cc clock a space) ∧
    (ackmOnTimeout cc clock a).2.probes = a.probes

/- No space after one that is set takes the place of an earlier loss time: the application space
   is set if any is, and it is due first where only the handshake space is not set. -/
def NoneOvertaken (a : Ackm δ) : Prop :=
  ((a.Armed .initial ∨ a.Armed .handshake) → a.Armed .app) ∧
    (a.Armed .initial → ¬ a.Armed .handshake →
      (a.spaces .app).lossTime ≤ (a.spaces .initial).lossTime)

variable (cc : CcMethod δ) (a : Ackm δ)

theorem ackmModify_probes (space : PnSpace) {f : AckmSpace → AckmSpace}
    (keeps : (f (a.spaces space)).pendingPto = (a.spaces space).pendingPto) :
    (a.modify space f).probes = a.probes := by
  unfold Ackm.probes Ackm.modify
  rw [update_proj_same AckmSpace.pendingPto keeps]

theorem ackmLeaveFlight_probes (p : TxPkt) : (ackmLeaveFlight a p).probes = a.probes := by
  unfold ackmLeaveFlight
  split
  · split
    · exact ackmModify_probes { a with bytesInFlight := subU64 a.bytesInFlight p.numBytes }
        p.pktSpace rfl
    · rfl
  · rfl

theorem ackmOnPktLost_probes (pseudo : Bool) (a : Ackm δ) (p : TxPkt) :
    (ackmOnPktLost cc pseudo a p).probes = a.probes := by
  rw [← ackmLeaveFlight_probes a p]
  unfold ackmOnPktLost
  split
  · rfl
  · rfl

theorem ackmOnPktsLost_probes (now : OsslTime) (a : Ackm δ) (lpkt : List TxPkt) (pseudo : Bool) :
    (ackmOnPktsLost cc now a lpkt pseudo).probes = a.probes := by
  induction lpkt generalizing a with
  | nil => rfl
  | cons p rest ih => exact (ih _).trans (ackmOnPktLost_probes cc pseudo a p)

theorem ackmLossTimeout_probes (clock : AckmClock) (a : Ackm δ) (space : PnSpace) :
    (ackmLossTimeout cc clock a space).probes = a.probes := by
  have detected : (ackmDetectAndRemoveLostPkts clock.lost a space).2.probes = a.probes :=
    ackmModify_probes a space (f := fun s => { s with lossTime := _, txHistory := _ }) rfl
  rw [← detected]
  change Ackm.probes (if _ then _ else _) = _
  split
  · exact ackmOnPktsLost_probes cc clock.cong _ _ false
  · rfl

/-- Where the scan ends, one case for each space. -/
theorem ackmGetLossTimeAndSpace_cases :
    (ackmGetLossTimeAndSpace a = ((a.spaces .initial).lossTime, .initial) ∧
      (a.spaces .initial).lossTime ≠ 0 ∧
      (a.spaces .initial).lossTime ≤ (a.spaces .handshake).lossTime ∧
      (a.spaces .initial).lossTime ≤ (a.spaces .app).lossTime) ∨
    (ackmGetLossTimeAndSpace a = ((a.spaces .handshake).lossTime, .handshake) ∧
      ((a.spaces .initial).lossTime = 0 ∨
        (a.spaces .handshake).lossTime < (a.spaces .initial).lossTime) ∧
      (a.spaces .handshake).lossTime ≠ 0 ∧
      (a.spaces .handshake).lossTime ≤ (a.spaces .app).lossTime) ∨
    (ackmGetLossTimeAndSpace a = ((a.spaces .app).lossTime, .app) ∧
      ((a.spaces .initial).lossTime = 0 ∨
        (a.spaces .handshake).lossTime < (a.spaces .initial).lossTime →
        (a.spaces .handshake).lossTime = 0 ∨
          (a.spaces .app).lossTime < (a.spaces .handshake).lossTime) ∧
      (¬ ((a.spaces .initial).lossTime = 0 ∨
          (a.spaces .handshake).lossTime < (a.spaces .initial).lossTime) →
        (a.spaces .app).lossTime < (a.spaces .initial).lossTime)) := by
  unfold ackmGetLossTimeAndSpace osslTimeIsZero osslTimeZero
  simp only [List.foldl_cons, List.foldl_nil, decide_eq_true_eq]
  by_cases first : (a.spaces .initial).lossTime = 0 ∨
      (a.spaces .handshake).lossTime < (a.spaces .initial).lossTime
  · simp only [if_pos first]
    by_cases second : (a.spaces .handshake).lossTime = 0 ∨
        (a.spaces .app).lossTime < (a.spaces .handshake).lossTime
    · rw [if_pos second]
      exact .inr (.inr ⟨rfl, fun _ => second, fun not_ => absurd first not_⟩)
    · rw [if_neg second]
      exact .inr (.inl ⟨rfl, first, by grind, by grind⟩)
  · simp only [if_neg first]
    by_cases second : (a.spaces .initial).lossTime = 0 ∨
        (a.spaces .app).lossTime < (a.spaces .initial).lossTime
    · rw [if_pos second]
      exact .inr (.inr ⟨rfl, fun yes => absurd yes first, fun _ => by grind⟩)
    · rw [if_neg second]
      exact .inl ⟨rfl, by grind, by grind, by grind⟩

theorem lossTime_found :
    (ackmGetLossTimeAndSpace a).1 = (a.spaces (ackmGetLossTimeAndSpace a).2).lossTime := by
  rcases ackmGetLossTimeAndSpace_cases a with ⟨ends, _⟩ | ⟨ends, _⟩ | ⟨ends, _⟩
  all_goals rw [ends]

theorem forall_space {P : PnSpace → Prop} : (∀ space, P space) ↔ P .initial ∧ P .handshake ∧ P .app :=
  ⟨fun all => ⟨all .initial, all .handshake, all .app⟩,
    fun all space => by cases space; exacts [all.1, all.2.1, all.2.2]⟩

/-- The scan finds the earliest loss time in every state it can, and only in these. -/
theorem earliestLoss_iff {a : Ackm δ} (some_ : ∃ space, a.Armed space) :
    EarliestLoss a (ackmGetLossTimeAndSpace a).2 ↔ NoneOvertaken a := by
  have any : ¬ ((a.spaces .initial).lossTime = 0 ∧ (a.spaces .handshake).lossTime = 0 ∧
      (a.spaces .app).lossTime = 0) := by
    rintro ⟨initial, handshake, app⟩
    obtain ⟨space, armed⟩ := some_
    cases space
    · exact armed initial
    · exact armed handshake
    · exact armed app
  have spread : EarliestLoss a (ackmGetLossTimeAndSpace a).2 ↔
      (a.spaces (ackmGetLossTimeAndSpace a).2).lossTime ≠ 0 ∧
        ∀ other, a.Armed other →
          (a.spaces (ackmGetLossTimeAndSpace a).2).lossTime ≤ (a.spaces other).lossTime :=
    ⟨fun found => ⟨found.armed, found.least⟩, fun found => ⟨found.1, found.2⟩⟩
  rw [spread, forall_space]
  unfold NoneOvertaken Ackm.Armed
  rcases ackmGetLossTimeAndSpace_cases a with ⟨ends, case_⟩ | ⟨ends, case_⟩ | ⟨ends, case_⟩
  all_goals rw [ends]
  all_goals dsimp only
  all_goals grind

theorem lossTime_set_iff {a : Ackm δ} (held : NoneOvertaken a) :
    (ackmGetLossTimeAndSpace a).1 = 0 ↔ ∀ space, ¬ a.Armed space := by
  constructor
  · intro zero space armed
    have found := (earliestLoss_iff ⟨space, armed⟩).mpr held
    exact found.armed ((lossTime_found a).symm.trans zero)
  · intro none_
    rw [lossTime_found]
    exact not_not.mp (none_ _)

/-- The timer and the timeout remember every loss time that is set in exactly the states in which
    none is overtaken by one that is not set. -/
theorem loss_timer_remembers_iff (cc : CcMethod δ) (a : Ackm δ) :
    TimerRemembers cc a ↔ NoneOvertaken a := by
  constructor
  · intro remembers
    by_cases some_ : ∃ space, a.Armed space
    · exact (earliestLoss_iff some_).mp (remembers.earliest some_).1
    · rw [not_exists] at some_
      refine ⟨?_, fun armed => absurd armed (some_ .initial)⟩
      rintro (armed | armed)
      · exact absurd armed (some_ .initial)
      · exact absurd armed (some_ .handshake)
  · intro held
    have set_ : ∀ space, a.Armed space →
        osslTimeIsZero (ackmGetLossTimeAndSpace a).1 = false := by
      intro space armed
      unfold osslTimeIsZero osslTimeZero
      rw [decide_eq_false_iff_not]
      exact fun zero => (lossTime_set_iff held).mp zero space armed
    constructor
    · exact lossTime_set_iff held
    · intro some_
      exact ⟨(earliestLoss_iff some_).mpr held, lossTime_found a⟩
    · intro now space armed
      have found := (earliestLoss_iff ⟨space, armed⟩).mpr held
      have due : (ackmSetLossDetectionTimer now a).lossDetectionDeadline =
          (a.spaces (ackmGetLossTimeAndSpace a).2).lossTime := by
        unfold ackmSetLossDetectionTimer
        dsimp only
        rw [if_pos (set_ space armed), lossTime_found]
      rw [due]
      exact ⟨found.armed, found.least space armed⟩
    · intro clock some_
      obtain ⟨space, armed⟩ := some_
      have ran : ackmOnTimeout cc clock a =
          (true, ackmLossTimeout cc clock a (ackmGetLossTimeAndSpace a).2) := by
        unfold ackmOnTimeout
        rw [if_pos (set_ space armed)]
        rfl
      refine ⟨_, (earliestLoss_iff ⟨space, armed⟩).mpr held, ran, ?_⟩
      rw [ran]
      exact ackmLossTimeout_probes cc clock a _

end

/- Of two packets sent in the Initial space the second is acknowledged. The loss time of the first
   is set, and the two spaces after it have none. -/
def initialLossCalls : List AckmCall :=
  [sentCall 0 50, sentCall 1 60, .rxAckFrame sampleClock ⟨[⟨1, 1⟩], 0, 0, 0, 0, false⟩ .initial]

theorem initialLossCalls_valid :
    Admissible (applyAckmCall newrenoMethod) AckmCallOk sampleAckm initialLossCalls :=
  ⟨⟨rfl, by decide, by decide⟩, ⟨rfl, by decide, by decide⟩, ⟨rfl, by simp⟩, trivial⟩

/-- The loss time of the Initial space is lost: the scan returns zero. -/
theorem loss_timer_forgets :
    ¬ ∀ calls : List AckmCall,
      Admissible (applyAckmCall newrenoMethod) AckmCallOk sampleAckm calls →
      TimerRemembers newrenoMethod (run (applyAckmCall newrenoMethod) sampleAckm calls).ackm := by
  intro always
  have remembers := always initialLossCalls initialLossCalls_valid
  exact remembers.unset.mp (by decide) .initial (by unfold Ackm.Armed; decide)

end Ossl
