import OpenSSL.Lib.Runs
import OpenSSL.Quic.RcidmLaws

/- The state machine of the RCID objects and the preferred connection ID over any run
   of the remote connection ID manager. -/
namespace Ossl
open List Runs

inductive RcidmCall where
  | addFromInitial (mem : Bool) (rcid : QuicConnId)
  | addFromServerRetry (retryOdcid : QuicConnId)
  | addFromNcid (mem : Bool) (ncid : FrameNewConnId)
  | onHandshakeComplete
  | onPacketSent (numPackets : Nat)
  | requestRoll
  | popRetireSeqNum
  deriving DecidableEq

def RcidmCall.Valid : RcidmCall → Prop
  | .addFromNcid _ ncid => ncid.retirePriorTo ≤ ncid.seqNum
  | _ => True

structure RcidmRun where
  rcidm : QuicRcidm
  popped : List Nat

def startRcidm (initialOdcid : Option QuicConnId) : RcidmRun := ⟨quicRcidmNew initialOdcid, []⟩

def applyRcidmCall (s : RcidmRun) : RcidmCall → RcidmRun
  | .addFromInitial mem rcid => { s with rcidm := (quicRcidmAddFromInitial mem rcid s.rcidm).2 }
  | .addFromServerRetry odcid => { s with rcidm := (quicRcidmAddFromServerRetry odcid s.rcidm).2 }
  | .addFromNcid mem ncid => { s with rcidm := (quicRcidmAddFromNcid mem ncid s.rcidm).2 }
  | .onHandshakeComplete => { s with rcidm := quicRcidmOnHandshakeComplete s.rcidm }
  | .onPacketSent numPackets => { s with rcidm := quicRcidmOnPacketSent numPackets s.rcidm }
  | .requestRoll => { s with rcidm := quicRcidmRequestRoll s.rcidm }
  | .popRetireSeqNum =>
    { rcidm := (quicRcidmPopRetireSeqNum s.rcidm).2
      popped := s.popped ++ s.rcidm.retiringList.head?.toList }

/-- The documented state machine: each object created so far is in exactly one of the
    queue, cur_rcid, the retiring list and the popped ones, and its state says so. -/
structure RcidmStates (s : RcidmRun) : Prop where
  once : (pendingRcids s.rcidm ++ (s.rcidm.curRcid.toList ++ (s.rcidm.retiringList ++
    s.popped))).Perm (List.range s.rcidm.fresh)
  pending : ∀ a ∈ pendingRcids s.rcidm, ∃ obj, s.rcidm.objs a = some obj ∧
    obj.state = .pending ∧ s.rcidm.retirePriorTo ≤ obj.seqNum
  current : ∀ a, s.rcidm.curRcid = some a → ∃ obj, s.rcidm.objs a = some obj ∧
    obj.state = .cur ∧ s.rcidm.retirePriorTo ≤ obj.seqNum
  retiring : ∀ a ∈ s.rcidm.retiringList, ∃ obj, s.rcidm.objs a = some obj ∧ obj.state = .retiring
  freed : ∀ a ∈ s.popped, s.rcidm.objs a = none
  pops : ∀ a rest, s.rcidm.retiringList = a :: rest →
    (quicRcidmPopRetireSeqNum s.rcidm).1 = some (derefRcid s.rcidm.objs a).seqNum ∧
      (quicRcidmPopRetireSeqNum s.rcidm).2.retiringList = rest

structure RcidmInv (s : RcidmRun) : Prop where
  ok : RcidmOk s.popped s.rcidm.retirePriorTo s.rcidm
  vacant : s.rcidm.curRcid = none → s.rcidm.fresh = 0 ∧ s.rcidm.retirePriorTo = 0

variable {s : RcidmRun} {mid : QuicRcidm} {cid : QuicConnId} {seqNum : Nat}

theorem inv_states (inv : RcidmInv s) : RcidmStates s := by
  have ok := inv.ok
  constructor
  · have shared := ok.shared
    rw [rcidmHolders, append_assoc, append_assoc] at shared
    exact shared
  · intro a member
    obtain ⟨x, held, rfl⟩ := mem_map.mp member
    obtain ⟨obj, stored, state, _, above⟩ := ok.pending x held
    exact ⟨obj, stored, state, above⟩
  · exact ok.current
  · exact ok.retiring
  · intro a member
    have nodup := ok.shared.nodup_iff.mpr nodup_range
    have apart := (nodup_append.mp nodup).2.2
    by_cases live : s.rcidm.objs a = none
    · exact live
    · exact absurd rfl (apart a (ok.freed a live) a member)
  · intro a rest list
    obtain ⟨result, left, _⟩ := popRetire_done ok list
    exact ⟨result, left⟩

def RcidCreatable (mem : Bool) (seqNum : Nat) (cid : QuicConnId) : Prop :=
  1 ≤ cid.idLen ∧ cid.idLen ≤ quicMaxConnIdLen ∧ seqNum ≤ vlintMax ∧ mem = true

/-- While there is no preferred connection ID, an accepted call brings one that equals
    the value left in preferred_rcid. -/
def RcidmStale (rcidm : QuicRcidm) : RcidmCall → Prop
  | .addFromInitial mem rcid =>
    rcidm.havePreferredRcid = false ∧ quicConnIdEq rcidm.preferredRcid rcid = true ∧
      rcidm.addedInitialRcid = false ∧ rcidm.handshakeComplete = false ∧
      RcidCreatable mem initialSeqNum rcid
  | .addFromServerRetry retryOdcid =>
    rcidm.havePreferredRcid = false ∧ quicConnIdEq rcidm.preferredRcid retryOdcid = true ∧
      rcidm.addedRetryOdcid = false ∧ rcidm.handshakeComplete = false
  | .addFromNcid mem ncid =>
    rcidm.havePreferredRcid = false ∧ quicConnIdEq rcidm.preferredRcid ncid.connId = true ∧
      RcidCreatable mem ncid.seqNum ncid.connId
  | _ => False

structure RcidmBlank (s : RcidmRun) : Prop where
  vacant : s.rcidm.curRcid = none
  fresh : s.rcidm.fresh = 0
  watermark : s.rcidm.retirePriorTo = 0
  boot : s.rcidm.handshakeComplete = false →
    s.rcidm.addedRetryOdcid = false ∧ s.rcidm.addedInitialOdcid = false

theorem blank_of (inv : RcidmInv s) (offers : RcidmOffers s.rcidm)
    (lacks : s.rcidm.havePreferredRcid = false) : RcidmBlank s := by
  have nothing : rcidmTarget s.rcidm = none := by
    cases target : rcidmTarget s.rcidm with
    | none => rfl
    | some cid =>
      obtain ⟨tx, gets, _⟩ := offers cid target
      rw [quicRcidmGetPreferredTxDcid, lacks] at gets
      cases gets
  unfold rcidmTarget at nothing
  cases is : s.rcidm.curRcid with
  | some c =>
    rw [is] at nothing
    cases nothing
  | none =>
    rw [is] at nothing
    obtain ⟨fresh, watermark⟩ := inv.vacant is
    refine ⟨is, fresh, watermark, ?_⟩
    intro incomplete
    rw [incomplete] at nothing
    cases retry : s.rcidm.addedRetryOdcid with
    | true => simp [retry] at nothing
    | false =>
      cases initial : s.rcidm.addedInitialOdcid with
      | true => simp [retry, initial] at nothing
      | false => exact ⟨rfl, rfl⟩

theorem blank_empty (inv : RcidmInv s) (fresh : s.rcidm.fresh = 0) :
    pqueueMembers s.rcidm.rcids = [] ∧ s.rcidm.numRetiring = 0 := by
  have none (a : Nat) : a ∉ rcidmHolders s.rcidm := by
    intro held
    have created := holder_created inv.ok held
    omega
  constructor
  · apply eq_nil_iff_forall_not_mem.mpr
    intro x member
    exact none x.data (mem_append_left _ (pending_held member))
  · rw [inv.ok.count]
    apply length_eq_zero_iff.mpr
    apply eq_nil_iff_forall_not_mem.mpr
    intro a member
    exact none a (mem_append_right _ (mem_append_right _ member))

theorem creatable_iff (inv : RcidmInv s) (blank : RcidmBlank s) (mem : Bool) (seqNum : Nat)
    (cid : QuicConnId) (type : RcidType) :
    (rcidmCreateRcid mem seqNum cid type s.rcidm).isSome = true ↔ RcidCreatable mem seqNum cid := by
  obtain ⟨empty, count⟩ := blank_empty inv blank.fresh
  have none : s.rcidm.rcids.htop = 0 := by
    have length := BinHeap.items_length s.rcidm.rcids.htop s.rcidm.rcids.heap
    rw [← pqueueMembers, empty] at length
    exact length.symm
  have size := inv.ok.queue.slots.size
  have room : s.rcidm.rcids.htop + 1 < s.rcidm.rcids.hmax := by
    have least : minNodes = 8 := rfl
    omega
  have few : ¬ maxNumberedRcids < pqueueNum s.rcidm.rcids + s.rcidm.numRetiring := by
    rw [pqueueNum, none, count]
    decide
  unfold rcidmCreateRcid RcidCreatable
  split
  · rename_i refused
    constructor
    · intro some'
      cases some'
    · intro fits
      omega
  · cases mem with
    | false => simp
    | true =>
      rename_i accepted
      simp only [not_true_eq_false, if_false, blank.watermark, zero_le, if_true,
        pqueuePush, pqueueReserve, room]
      simp only [and_true]
      constructor
      · intro _
        omega
      · intro _
        rfl

structure RcidmStep (s s' : RcidmRun) (call : RcidmCall) : Prop where
  inv : RcidmInv s'
  forward : RcidForward s.rcidm s'.rcidm
  offers : RcidmOffers s.rcidm → (RcidmOffers s'.rcidm ↔ ¬ RcidmStale s.rcidm call)

variable {call : RcidmCall}

theorem unchanged_step (inv : RcidmInv s)
    (fresh : RcidmOffers s.rcidm → ¬ RcidmStale s.rcidm call) : RcidmStep s s call := by
  constructor
  · exact inv
  · exact rcidForward_refl s.rcidm
  · intro offers
    constructor
    · intro _
      exact fresh offers
    · intro _
      exact offers

variable {rcidm' : QuicRcidm} {mem : Bool}

theorem not_confused (offers : RcidmOffers rcidm' ↔ ¬ RcidmConfused s.rcidm rcidm')
    (same : s.rcidm.havePreferredRcid = false → ((∃ cid, rcidmTarget rcidm' = some cid ∧
        quicConnIdEq s.rcidm.preferredRcid cid = true) ↔ RcidmStale s.rcidm call))
    (lacks : RcidmStale s.rcidm call → s.rcidm.havePreferredRcid = false) :
    RcidmOffers rcidm' ↔ ¬ RcidmStale s.rcidm call := by
  rw [offers, RcidmConfused]
  apply not_congr
  constructor
  · intro confused
    exact (same confused.1).mp confused.2
  · intro stale
    exact ⟨lacks stale, (same (lacks stale)).mpr stale⟩

structure FlagsOnly (rcidm mid : QuicRcidm) : Prop where
  objs : mid.objs = rcidm.objs
  fresh : mid.fresh = rcidm.fresh
  rcids : mid.rcids = rcidm.rcids
  current : mid.curRcid = rcidm.curRcid
  list : mid.retiringList = rcidm.retiringList
  count : mid.numRetiring = rcidm.numRetiring
  watermark : mid.retirePriorTo = rcidm.retirePriorTo
  lacks : mid.havePreferredRcid = rcidm.havePreferredRcid
  preferred : mid.preferredRcid = rcidm.preferredRcid

/-- The decisions taken after flags were set. -/
theorem flags_ticked (inv : RcidmInv s) (flags : FlagsOnly s.rcidm mid) :
    RcidmTicked s.popped s.rcidm.retirePriorTo mid (rcidmTick mid) ∧
      RcidmInv ⟨rcidmTick mid, s.popped⟩ ∧ RcidForward s.rcidm (rcidmTick mid) ∧
      (RcidmOffers (rcidmTick mid) ↔ ¬ RcidmConfused s.rcidm (rcidmTick mid)) ∧
      (RcidmBlank s → (rcidmTick mid).curRcid = none) := by
  obtain ⟨objs, fresh, rcids, current, list, count, watermark, lacks, preferred⟩ := flags
  have holders : rcidmHolders mid = rcidmHolders s.rcidm := by
    rw [rcidmHolders, rcidmHolders, pendingRcids, pendingRcids, rcids, current, list]
  have ok : RcidmOk s.popped s.rcidm.retirePriorTo mid := by
    have old := inv.ok
    constructor
    · rw [objs, rcids]
      exact old.queue
    · rw [holders, fresh]
      exact old.shared
    · rw [objs, holders]
      exact old.freed
    · rw [objs, rcids]
      exact old.pending
    · rw [objs, current]
      exact old.current
    · rw [objs, list]
      exact old.retiring
    · rw [count, list]
      exact old.count
  have ticked := tick_ticked ok
  have idle (vacant : s.rcidm.curRcid = none) (nothing : s.rcidm.fresh = 0) :
      (rcidmTick mid).curRcid = none := by
    apply ticked.idle
    intro ready
    cases ready with
    | inl is => exact is (current.trans vacant)
    | inr pending =>
      rw [rcids] at pending
      exact pending (blank_empty inv nothing).1
  constructor
  · exact ticked
  · constructor
    · constructor
      · rw [ticked.watermark, watermark]
        exact ticked.ok
      · intro vacant
        have before : s.rcidm.curRcid = none := by
          cases is : s.rcidm.curRcid with
          | none => rfl
          | some c =>
            rw [is] at current
            exact absurd vacant (ticked.ready (ready_of_current current))
        rw [ticked.fresh, ticked.watermark, fresh, watermark]
        exact inv.vacant before
    · constructor
      · have forward : RcidForward s.rcidm mid := by
          constructor
          · rw [fresh]
          · intro a _
            rw [rcidStage, rcidStage, objs]
          · intro a obj obj' _ was is
            rw [objs, was] at is
            cases is
            exact ⟨rfl, rfl⟩
        exact rcidForward_trans _ _ _ forward ticked.forward
      · constructor
        · have offers := ticked.offers
          unfold RcidmConfused at offers ⊢
          rw [lacks, preferred] at offers
          exact offers
        · intro blank
          exact idle blank.vacant blank.fresh

/-- After an object was created, with the decisions that follow. -/
theorem created_ticked (ok : RcidmOk s.popped mid.retirePriorTo mid)
    (forward : RcidForward s.rcidm mid) (ready : RcidmReady mid)
    (lacks : mid.havePreferredRcid = s.rcidm.havePreferredRcid)
    (preferred : mid.preferredRcid = s.rcidm.preferredRcid)
    (stored : s.rcidm.fresh = 0 → mid.fresh = 1 ∧ ∀ obj, mid.objs 0 = some obj → obj.cid = cid) :
    RcidmInv ⟨rcidmTick mid, s.popped⟩ ∧ RcidForward s.rcidm (rcidmTick mid) ∧
      (RcidmOffers (rcidmTick mid) ↔ ¬ RcidmConfused s.rcidm (rcidmTick mid)) ∧
      (RcidmBlank s → rcidmTarget (rcidmTick mid) = some cid) := by
  have ticked := tick_ticked ok
  have current := ticked.ready ready
  constructor
  · constructor
    · rw [ticked.watermark]
      exact ticked.ok
    · intro vacant
      exact absurd vacant current
  · constructor
    · exact rcidForward_trans _ _ _ forward ticked.forward
    · constructor
      · have offers := ticked.offers
        unfold RcidmConfused at offers ⊢
        rw [lacks, preferred] at offers
        exact offers
      · intro blank
        obtain ⟨one, first⟩ := stored blank.fresh
        cases is : (rcidmTick mid).curRcid with
        | none => exact absurd is current
        | some c =>
          obtain ⟨obj, held, _⟩ := ticked.ok.current c is
          have low := live_created ticked.ok held
          rw [ticked.fresh, one] at low
          obtain rfl : c = 0 := by omega
          have still := ticked.forward.forward 0 (by omega)
          rw [(stage_live held).1] at still
          cases before : mid.objs 0 with
          | none =>
            rw [rcidStage, before] at still
            have live := (stage_live held).2
            dsimp only at still
            omega
          | some old =>
            have same := ticked.forward.identity 0 old obj (by omega) before held
            rw [rcidmTarget, is]
            dsimp only
            rw [deref_of held, same.1, first old before]

theorem createRcid_none {type : RcidType} (inv : RcidmInv s)
    (failed : rcidmCreateRcid mem seqNum cid type s.rcidm = none) (blank : RcidmBlank s) :
    ¬ RcidCreatable mem seqNum cid := by
  intro creatable
  have made := (creatable_iff inv blank mem seqNum cid type).mpr creatable
  rw [failed] at made
  cases made

theorem createRcid_some {type : RcidType} (inv : RcidmInv s) {created : Nat × QuicRcidm}
    (made : rcidmCreateRcid mem seqNum cid type s.rcidm = some created) (blank : RcidmBlank s) :
    RcidCreatable mem seqNum cid := by
  apply (creatable_iff inv blank mem seqNum cid type).mp
  rw [made]
  rfl

theorem created_ready (inv : RcidmInv s) {floor : Nat}
    (created : RcidmCreated s.popped floor seqNum cid s.rcidm rcidm') : RcidmReady rcidm' := by
  cases is : s.rcidm.curRcid with
  | some c =>
    apply ready_of_current
    exact created.current.trans is
  | none =>
    right
    have low : s.rcidm.retirePriorTo ≤ seqNum := by
      rw [(inv.vacant is).2]
      exact Nat.zero_le _
    obtain ⟨x, member, _⟩ := created.queued low
    exact ne_nil_of_mem member

theorem addFromInitial_step (inv : RcidmInv s) (mem : Bool) (rcid : QuicConnId) :
    RcidmStep s (applyRcidmCall s (.addFromInitial mem rcid)) (.addFromInitial mem rcid) := by
  rw [applyRcidmCall, quicRcidmAddFromInitial]
  by_cases refused : s.rcidm.addedInitialRcid = true ∨ s.rcidm.handshakeComplete = true
  · rw [if_pos refused]
    apply unchanged_step inv
    intro _ stale
    obtain ⟨_, _, first, incomplete, _⟩ := stale
    rw [first, incomplete] at refused
    simp at refused
  · rw [if_neg refused]
    cases made : rcidmCreateRcid mem initialSeqNum rcid .initial s.rcidm with
    | none =>
      apply unchanged_step inv
      intro offers stale
      obtain ⟨lacks, _, _, _, creatable⟩ := stale
      exact createRcid_none inv made (blank_of inv offers lacks) creatable
    | some result =>
      obtain ⟨a, mid⟩ := result
      have created := createRcid_created inv.ok made
      have ready := created_ready inv created
      have good := created.made.1
      have ahead := created.made.2
      have ok : RcidmOk s.popped mid.retirePriorTo { mid with addedInitialRcid := true } := by
        rw [created.watermark]
        exact { good with }
      have stored (nothing : s.rcidm.fresh = 0) : mid.fresh = 1 ∧
          ∀ obj, mid.objs 0 = some obj → obj.cid = rcid := by
        constructor
        · rw [created.fresh, nothing]
        · intro obj held
          have cid := created.stored.1
          rw [nothing, deref_of held] at cid
          exact cid
      have forward : RcidForward s.rcidm { mid with addedInitialRcid := true } :=
        { ahead with }
      obtain ⟨newInv, newForward, offers, target⟩ := created_ticked ok forward ready
        created.frame.have' created.frame.preferred stored
      constructor
      · exact newInv
      · exact newForward
      · intro before
        apply not_confused offers
        · intro lacks
          have blank := blank_of inv before lacks
          rw [target blank]
          constructor
          · intro confused
            obtain ⟨cid, is, equal⟩ := confused
            cases is
            refine ⟨lacks, equal, ?_, ?_, createRcid_some inv made blank⟩
            · simpa using fun flag => refused (.inl flag)
            · simpa using fun flag => refused (.inr flag)
          · intro stale
            exact ⟨rcid, rfl, stale.2.1⟩
        · intro stale
          exact stale.1

theorem addFromNcid_step (inv : RcidmInv s) (mem : Bool) (ncid : FrameNewConnId)
    (valid : ncid.retirePriorTo ≤ ncid.seqNum) :
    RcidmStep s (applyRcidmCall s (.addFromNcid mem ncid)) (.addFromNcid mem ncid) := by
  rw [applyRcidmCall, quicRcidmAddFromNcid]
  cases made : rcidmCreateRcid mem ncid.seqNum ncid.connId .ncid s.rcidm with
  | none =>
    apply unchanged_step inv
    intro offers stale
    obtain ⟨lacks, _, creatable⟩ := stale
    exact createRcid_none inv made (blank_of inv offers lacks) creatable
  | some result =>
    obtain ⟨a, mid⟩ := result
    have created := createRcid_created inv.ok made
    have ready := created_ready inv created
    have ok : RcidmOk s.popped mid.retirePriorTo mid := by
      rw [created.watermark]
      exact created.made.1
    obtain ⟨laterOk, later, frame, fresh, goOn⟩ := handleRetire_done ok ncid.retirePriorTo
    have laterReady : RcidmReady (rcidmHandleRetirePriorTo ncid.retirePriorTo mid) := by
      apply goOn
      by_cases low : ncid.seqNum < s.rcidm.retirePriorTo
      · left
        rw [created.watermark]
        exact ⟨by omega, ready⟩
      · right
        obtain ⟨x, member, here⟩ := created.queued (by omega)
        refine ⟨x, member, ?_⟩
        rw [here, created.stored.2]
        exact valid
    have forward := rcidForward_trans _ _ _ created.made.2 later
    have stored (nothing : s.rcidm.fresh = 0) :
        (rcidmHandleRetirePriorTo ncid.retirePriorTo mid).fresh = 1 ∧
          ∀ obj, (rcidmHandleRetirePriorTo ncid.retirePriorTo mid).objs 0 = some obj →
            obj.cid = ncid.connId := by
      constructor
      · rw [fresh, created.fresh, nothing]
      · intro obj held
        have cid := created.stored.1
        have live := created.live
        rw [nothing] at cid live
        cases before : mid.objs 0 with
        | none => exact absurd before live
        | some old =>
          rw [deref_of before] at cid
          rw [(later.identity 0 old obj (live_created ok before) before held).1, cid]
    obtain ⟨newInv, newForward, offers, target⟩ := created_ticked laterOk forward laterReady
      (frame.have'.trans created.frame.have') (frame.preferred.trans created.frame.preferred)
      stored
    constructor
    · exact newInv
    · exact newForward
    · intro before
      apply not_confused offers
      · intro lacks
        have blank := blank_of inv before lacks
        rw [target blank]
        constructor
        · intro confused
          obtain ⟨cid, is, equal⟩ := confused
          cases is
          exact ⟨lacks, equal, createRcid_some inv made blank⟩
        · intro stale
          exact ⟨ncid.connId, rfl, stale.2.1⟩
      · intro stale
        exact stale.1

theorem idle_step (inv : RcidmInv s) (flags : FlagsOnly s.rcidm mid)
    (boot : mid.handshakeComplete = false → s.rcidm.handshakeComplete = false ∧
      mid.addedRetryOdcid = s.rcidm.addedRetryOdcid ∧
      mid.addedInitialOdcid = s.rcidm.addedInitialOdcid) (never : ¬ RcidmStale s.rcidm call) :
    RcidmStep s ⟨rcidmTick mid, s.popped⟩ call := by
  obtain ⟨ticked, newInv, forward, offers, vacant⟩ := flags_ticked inv flags
  constructor
  · exact newInv
  · exact forward
  · intro before
    apply not_confused offers
    · intro none
      have blank := blank_of inv before none
      have nothing : rcidmTarget (rcidmTick mid) = Option.none := by
        rw [rcidmTarget, vacant blank, ticked.complete, ticked.addedRetry, ticked.addedInitial]
        cases complete : mid.handshakeComplete with
        | true => rfl
        | false =>
          obtain ⟨was, retry, initial⟩ := boot complete
          rw [retry, initial, (blank.boot was).1, (blank.boot was).2]
          rfl
      rw [nothing]
      constructor
      · intro confused
        obtain ⟨_, absent, _⟩ := confused
        cases absent
      · intro stale
        exact absurd stale never
    · intro stale
      exact absurd stale never

theorem addFromServerRetry_step (inv : RcidmInv s) (retryOdcid : QuicConnId) :
    RcidmStep s (applyRcidmCall s (.addFromServerRetry retryOdcid))
      (.addFromServerRetry retryOdcid) := by
  rw [applyRcidmCall, quicRcidmAddFromServerRetry]
  by_cases refused : s.rcidm.addedRetryOdcid = true ∨ s.rcidm.handshakeComplete = true
  · rw [if_pos refused]
    apply unchanged_step inv
    intro _ stale
    obtain ⟨_, _, first, incomplete⟩ := stale
    rw [first, incomplete] at refused
    simp at refused
  · rw [if_neg refused]
    have first : s.rcidm.addedRetryOdcid = false := by
      simpa using fun flag => refused (.inl flag)
    have incomplete : s.rcidm.handshakeComplete = false := by
      simpa using fun flag => refused (.inr flag)
    have flags : FlagsOnly s.rcidm { s.rcidm with retryOdcid, addedRetryOdcid := true } :=
      ⟨rfl, rfl, rfl, rfl, rfl, rfl, rfl, rfl, rfl⟩
    obtain ⟨ticked, newInv, forward, offers, vacant⟩ := flags_ticked inv flags
    constructor
    · exact newInv
    · exact forward
    · intro before
      apply not_confused offers
      · intro lacks
        have blank := blank_of inv before lacks
        have target : rcidmTarget
            (rcidmTick { s.rcidm with retryOdcid, addedRetryOdcid := true }) = some retryOdcid := by
          have complete := ticked.complete.trans incomplete
          rw [rcidmTarget, vacant blank, complete, ticked.addedRetry, ticked.retry]
          rfl
        rw [target]
        constructor
        · intro confused
          obtain ⟨cid, is, equal⟩ := confused
          cases is
          exact ⟨lacks, equal, first, incomplete⟩
        · intro stale
          exact ⟨retryOdcid, rfl, stale.2.1⟩
      · intro stale
        exact stale.1

theorem popRetire_step (inv : RcidmInv s) :
    RcidmStep s (applyRcidmCall s .popRetireSeqNum) .popRetireSeqNum := by
  rw [applyRcidmCall]
  cases list : s.rcidm.retiringList with
  | nil =>
    have same : (quicRcidmPopRetireSeqNum s.rcidm).2 = s.rcidm := by
      rw [quicRcidmPopRetireSeqNum, rcidmGetRetire, list]
    rw [same, List.head?_nil, Option.toList_none, append_nil]
    exact unchanged_step inv (fun _ stale => stale)
  | cons a rest =>
    obtain ⟨_, _, ok, forward, frame, current, rcids, watermark, fresh⟩ :=
      popRetire_done inv.ok list
    have target : rcidmTarget (quicRcidmPopRetireSeqNum s.rcidm).2 = rcidmTarget s.rcidm := by
      unfold rcidmTarget
      rw [current, frame.complete, frame.addedRetry, frame.retry, frame.addedInitial, frame.initial]
      cases is : s.rcidm.curRcid with
      | none => rfl
      | some c =>
        obtain ⟨old, oldHeld, _⟩ := inv.ok.current c is
        obtain ⟨new, newHeld, _⟩ := ok.current c (current.trans is)
        dsimp only
        rw [(moved_seqNum inv.ok forward oldHeld newHeld).1]
    constructor
    · constructor
      · rw [watermark]
        exact ok
      · rw [current, fresh, watermark]
        exact inv.vacant
    · exact forward
    · intro before
      constructor
      · intro _ stale
        exact stale
      · intro _ cid is
        rw [target] at is
        rw [quicRcidmGetPreferredTxDcid, frame.have', frame.preferred]
        exact before cid is

theorem applyRcidmCall_step (inv : RcidmInv s) (valid : call.Valid) :
    RcidmStep s (applyRcidmCall s call) call := by
  cases call with
  | addFromInitial mem rcid => exact addFromInitial_step inv mem rcid
  | addFromServerRetry retryOdcid => exact addFromServerRetry_step inv retryOdcid
  | addFromNcid mem ncid => exact addFromNcid_step inv mem ncid valid
  | onHandshakeComplete =>
    rw [applyRcidmCall, quicRcidmOnHandshakeComplete]
    split
    · exact unchanged_step inv (fun _ stale => stale)
    · have flags : FlagsOnly s.rcidm { s.rcidm with handshakeComplete := true } :=
        ⟨rfl, rfl, rfl, rfl, rfl, rfl, rfl, rfl, rfl⟩
      apply idle_step inv flags
      · intro incomplete
        cases incomplete
      · intro stale
        exact stale
  | onPacketSent numPackets =>
    rw [applyRcidmCall, quicRcidmOnPacketSent]
    split
    · exact unchanged_step inv (fun _ stale => stale)
    · have flags : FlagsOnly s.rcidm
          { s.rcidm with packetsSent := addU64 s.rcidm.packetsSent numPackets } :=
        ⟨rfl, rfl, rfl, rfl, rfl, rfl, rfl, rfl, rfl⟩
      apply idle_step inv flags
      · intro incomplete
        exact ⟨incomplete, rfl, rfl⟩
      · intro stale
        exact stale
  | requestRoll =>
    rw [applyRcidmCall, quicRcidmRequestRoll]
    have flags : FlagsOnly s.rcidm { s.rcidm with rollRequested := true } :=
      ⟨rfl, rfl, rfl, rfl, rfl, rfl, rfl, rfl, rfl⟩
    apply idle_step inv flags
    · intro incomplete
      exact ⟨incomplete, rfl, rfl⟩
    · intro stale
      exact stale
  | popRetireSeqNum => exact popRetire_step inv

theorem emptyRcidm_ok (initialOdcid : Option QuicConnId) :
    RcidmOk [] 0 (emptyRcidm initialOdcid) ∧ ¬ RcidmReady (emptyRcidm initialOdcid) := by
  obtain ⟨queue, empty⟩ := pqueueNew_ok (rcidCompare (fun _ => none))
  constructor
  · constructor
    · exact queue
    · rw [rcidmHolders, pendingRcids, emptyRcidm]
      rw [empty]
      exact List.Perm.refl _
    · intro a live
      exact absurd rfl live
    · intro x member
      rw [emptyRcidm] at member
      rw [empty] at member
      cases member
    · intro a is
      cases is
    · intro a member
      cases member
    · rfl
  · intro ready
    cases ready with
    | inl is => exact is rfl
    | inr pending => exact pending empty

theorem quicConnIdEq_empty (cid : QuicConnId) :
    quicConnIdEq (connIdOf []) cid = true ↔ cid.idLen = 0 := by
  unfold quicConnIdEq
  have few : (connIdOf []).idLen = 0 := rfl
  rw [few]
  constructor
  · intro same
    split at same
    · cases same
    · omega
  · intro none
    have valid : ¬ (0 ≠ cid.idLen ∨ quicMaxConnIdLen < 0) := by omega
    rw [if_neg valid]
    apply decide_eq_true
    rw [QuicConnId.bytes, few, QuicConnId.bytes, none, take_zero, take_zero]

theorem startRcidm_ok (initialOdcid : Option QuicConnId) :
    RcidmInv (startRcidm initialOdcid) ∧
      (RcidmOffers (startRcidm initialOdcid).rcidm ↔
        ∀ cid, initialOdcid = some cid → cid.idLen ≠ 0) := by
  obtain ⟨ok, idle⟩ := emptyRcidm_ok initialOdcid
  have ticked := update_ticked ok
  have vacant := ticked.idle idle
  rw [startRcidm, quicRcidmNew]
  constructor
  · constructor
    · rw [ticked.watermark]
      exact ticked.ok
    · intro _
      rw [ticked.fresh, ticked.watermark]
      exact ⟨rfl, rfl⟩
  · have target : rcidmTarget (rcidmUpdate (emptyRcidm initialOdcid)) = initialOdcid := by
      rw [rcidmTarget, vacant, ticked.complete, ticked.addedRetry, ticked.addedInitial,
        ticked.initial]
      cases initialOdcid with
      | none => rfl
      | some cid => rfl
    rw [ticked.offers, RcidmConfused, target]
    constructor
    · intro clear cid is none
      exact clear ⟨rfl, cid, is, (quicConnIdEq_empty cid).mpr none⟩
    · intro given confused
      obtain ⟨_, cid, is, same⟩ := confused
      exact given cid is ((quicConnIdEq_empty cid).mp same)

/-- The documented state machine, and the connection ID that is offered, over a run. -/
structure RcidmSound (initialOdcid : Option QuicConnId) (calls : List RcidmCall) : Prop where
  states : ∀ t ∈ visited applyRcidmCall (startRcidm initialOdcid) calls, RcidmStates t
  forward : ∀ earlier later, earlier ++ later <+: calls →
    RcidForward (run applyRcidmCall (startRcidm initialOdcid) earlier).rcidm
      (run applyRcidmCall (startRcidm initialOdcid) (earlier ++ later)).rcidm
  offers : ∀ t ∈ visited applyRcidmCall (startRcidm initialOdcid) calls, RcidmOffers t.rcidm

theorem rcidm_sound_iff (initialOdcid : Option QuicConnId) (calls : List RcidmCall)
    (valid : ∀ call ∈ calls, call.Valid) :
    RcidmSound initialOdcid calls ↔
      (∀ cid, initialOdcid = some cid → cid.idLen ≠ 0) ∧
        Admissible applyRcidmCall (fun s call => ¬ RcidmStale s.rcidm call)
          (startRcidm initialOdcid) calls := by
  obtain ⟨start, first⟩ := startRcidm_ok initialOdcid
  have keeps (s : RcidmRun) (call : RcidmCall) (inv : RcidmInv s) (ok : call.Valid) :
      RcidmInv (applyRcidmCall s call) := (applyRcidmCall_step inv ok).inv
  have admissible (ops : List RcidmCall) (part : ∀ call ∈ ops, call.Valid) (s : RcidmRun) :
      Admissible applyRcidmCall (fun _ call => call.Valid) s ops := admissible_of_forall part
  have exactly (good : RcidmOffers (startRcidm initialOdcid).rcidm) :=
    visited_good_iff keeps (fun s call inv good ok => (applyRcidmCall_step inv ok).offers good)
      start good (admissible calls valid _)
  constructor
  · intro sound
    have good : RcidmOffers (startRcidm initialOdcid).rcidm := by
      apply sound.offers
      cases calls <;> simp [visited]
    exact ⟨first.mp good, (exactly good).mp sound.offers⟩
  · intro fresh
    obtain ⟨given, clear⟩ := fresh
    constructor
    · intro t member
      exact inv_states (visited_invariant keeps start (admissible calls valid _) t member)
    · intro earlier later part
      have within (call : RcidmCall) (member : call ∈ earlier ++ later) : call.Valid :=
        valid call (part.subset member)
      have before : RcidmInv (run applyRcidmCall (startRcidm initialOdcid) earlier) :=
        run_invariant keeps start (admissible earlier
          (fun call member => within call (mem_append_left _ member)) _)
      rw [run_append]
      have ahead : RcidForward (run applyRcidmCall (startRcidm initialOdcid) earlier).rcidm _ :=
        run_climbs (fun s => rcidForward_refl s.rcidm)
          (fun s t u => rcidForward_trans s.rcidm t.rcidm u.rcidm) keeps
          (fun s call inv ok => (applyRcidmCall_step inv ok).forward) before
          (admissible later (fun call member => within call (mem_append_right _ member)) _)
      exact ahead
    · exact (exactly (first.mpr given)).mpr clear

instance (mem : Bool) (seqNum : Nat) (cid : QuicConnId) : Decidable (RcidCreatable mem seqNum cid) :=
  inferInstanceAs (Decidable (_ ∧ _))

instance (rcidm : QuicRcidm) : (call : RcidmCall) → Decidable (RcidmStale rcidm call)
  | .addFromInitial .. => inferInstanceAs (Decidable (_ ∧ _))
  | .addFromServerRetry .. => inferInstanceAs (Decidable (_ ∧ _))
  | .addFromNcid .. => inferInstanceAs (Decidable (_ ∧ _))
  | .onHandshakeComplete => inferInstanceAs (Decidable False)
  | .onPacketSent _ => inferInstanceAs (Decidable False)
  | .requestRoll => inferInstanceAs (Decidable False)
  | .popRetireSeqNum => inferInstanceAs (Decidable False)

def sampleNcid (seqNum retirePriorTo : Nat) (cid : UInt8) : FrameNewConnId :=
  { seqNum, retirePriorTo, connId := connIdOf [cid], statelessReset := copiedTo _ [] }

def reusedOdcidCalls : List RcidmCall :=
  [.onHandshakeComplete, .addFromNcid true (sampleNcid 1 0 7)]

theorem rcidm_offers_nothing :
    (∀ call ∈ reusedOdcidCalls, call.Valid) ∧
      (run applyRcidmCall (startRcidm (some (connIdOf [7]))) reusedOdcidCalls).rcidm.curRcid =
        some 0 ∧
      quicRcidmGetPreferredTxDcid
        (run applyRcidmCall (startRcidm (some (connIdOf [7]))) reusedOdcidCalls).rcidm = none := by
  constructor
  · intro call member
    cases member with
    | head => trivial
    | tail _ later =>
      cases mem_singleton.mp later
      exact Nat.zero_le 1
  · decide

def shuffledNcidCalls : List RcidmCall :=
  [.addFromInitial true (connIdOf [2]), .addFromNcid true (sampleNcid 3 1 5),
    .addFromNcid true (sampleNcid 0 0 4), .addFromNcid true (sampleNcid 2 1 6),
    .onHandshakeComplete, .requestRoll, .popRetireSeqNum]

theorem rcidm_sound_shuffled : RcidmSound (some (connIdOf [1])) shuffledNcidCalls := by
  apply (rcidm_sound_iff (some (connIdOf [1])) shuffledNcidCalls ?_).mpr
  · constructor
    · intro cid is
      cases is
      decide
    · simp only [shuffledNcidCalls, Admissible]
      decide
  · simp [shuffledNcidCalls, RcidmCall.Valid, sampleNcid]

end Ossl
