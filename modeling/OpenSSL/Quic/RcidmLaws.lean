import OpenSSL.Quic.Rcidm

/- What the transitions of RCID objects do to the remote connection ID manager, and
   what each decision leaves as the preferred connection ID. -/
namespace Ossl
open Option List Function BinHeap

theorem rcidCompare_comparator (objs : Nat → Option Rcid) : Comparator (rcidCompare objs) := by
  constructor
  · intro a b
    unfold rcidCompare rcidCmp
    split <;> split <;> omega
  · intro a b c
    unfold rcidCompare rcidCmp
    split <;> split <;> split <;> omega

variable {objs : Nat → Option Rcid} {a floor : Nat} {obj obj' : Rcid} {rcidm rcidm' s t : QuicRcidm}
    {popped : List Nat}

theorem rcidCompare_le {b : Nat} :
    rcidCompare objs a b ≤ 0 ↔ (derefRcid objs a).seqNum ≤ (derefRcid objs b).seqNum := by
  unfold rcidCompare rcidCmp
  split
  · omega
  · split <;> omega

theorem deref_of (held : objs a = some obj) : derefRcid objs a = obj := by
  rw [derefRcid, held]
  rfl

def pendingRcids (rcidm : QuicRcidm) : List Nat := (pqueueMembers rcidm.rcids).map PqHeap.data

def rcidmHolders (rcidm : QuicRcidm) : List Nat :=
  pendingRcids rcidm ++ (rcidm.curRcid.toList ++ rcidm.retiringList)

/-- Every object ever created is held in one place or was popped, and its state says
    where; no pending or current one is below the floor. -/
structure RcidmOk (popped : List Nat) (floor : Nat) (rcidm : QuicRcidm) : Prop where
  queue : PqueueOk (rcidCompare rcidm.objs) rcidm.rcids
  shared : (rcidmHolders rcidm ++ popped).Perm (List.range rcidm.fresh)
  freed : ∀ a, rcidm.objs a ≠ none → a ∈ rcidmHolders rcidm
  pending : ∀ x ∈ pqueueMembers rcidm.rcids, ∃ obj, rcidm.objs x.data = some obj ∧
    obj.state = .pending ∧ obj.pqIdx = x.index ∧ floor ≤ obj.seqNum
  current : ∀ a, rcidm.curRcid = some a → ∃ obj, rcidm.objs a = some obj ∧
    obj.state = .cur ∧ floor ≤ obj.seqNum
  retiring : ∀ a ∈ rcidm.retiringList, ∃ obj, rcidm.objs a = some obj ∧ obj.state = .retiring
  count : rcidm.numRetiring = rcidm.retiringList.length

def RcidState.rank : RcidState → Nat
  | .pending => 0
  | .cur => 1
  | .retiring => 2

def rcidStage (rcidm : QuicRcidm) (rcid : Nat) : Nat :=
  match rcidm.objs rcid with
  | none => 3
  | some obj => obj.state.rank

/-- Objects only move forward and keep their identity. -/
structure RcidForward (rcidm rcidm' : QuicRcidm) : Prop where
  created : rcidm.fresh ≤ rcidm'.fresh
  forward : ∀ a, a < rcidm.fresh → rcidStage rcidm a ≤ rcidStage rcidm' a
  identity : ∀ a obj obj', a < rcidm.fresh → rcidm.objs a = some obj →
    rcidm'.objs a = some obj' → obj'.cid = obj.cid ∧ obj'.seqNum = obj.seqNum

/- What concerns the preferred connection ID and the bootstrap ones. -/
structure RcidmFrame (rcidm rcidm' : QuicRcidm) : Prop where
  preferred : rcidm'.preferredRcid = rcidm.preferredRcid
  have' : rcidm'.havePreferredRcid = rcidm.havePreferredRcid
  complete : rcidm'.handshakeComplete = rcidm.handshakeComplete
  addedInitial : rcidm'.addedInitialOdcid = rcidm.addedInitialOdcid
  initial : rcidm'.initialOdcid = rcidm.initialOdcid
  addedRetry : rcidm'.addedRetryOdcid = rcidm.addedRetryOdcid
  retry : rcidm'.retryOdcid = rcidm.retryOdcid

theorem rcidForward_refl (rcidm : QuicRcidm) : RcidForward rcidm rcidm := by
  constructor
  · exact le_refl _
  · intro a _
    exact le_refl _
  · intro a obj obj' _ held held'
    rw [held] at held'
    cases held'
    exact ⟨rfl, rfl⟩

theorem stage_le (rcidm : QuicRcidm) (a : Nat) : rcidStage rcidm a ≤ 3 := by
  unfold rcidStage
  split
  · exact le_refl _
  · rename_i obj _
    cases obj.state <;> decide

theorem stage_live (held : rcidm.objs a = some obj) :
    rcidStage rcidm a = obj.state.rank ∧ obj.state.rank ≤ 2 := by
  constructor
  · rw [rcidStage, held]
  · cases obj.state <;> decide

theorem rcidForward_trans (s t u : QuicRcidm) (first : RcidForward s t)
    (second : RcidForward t u) : RcidForward s u := by
  constructor
  · exact le_trans first.created second.created
  · intro a created
    have later := second.forward a (lt_of_lt_of_le created first.created)
    exact le_trans (first.forward a created) later
  · intro a obj obj' created held held'
    have now := lt_of_lt_of_le created first.created
    cases between : t.objs a with
    | none =>
      have behind := second.forward a now
      have live := stage_live held'
      rw [rcidStage, between] at behind
      dsimp only at behind
      omega
    | some mid =>
      have one := first.identity a obj mid created held between
      have two := second.identity a mid obj' now between held'
      exact ⟨two.1.trans one.1, two.2.trans one.2⟩

theorem rcidmFrame_refl (rcidm : QuicRcidm) : RcidmFrame rcidm rcidm :=
  ⟨rfl, rfl, rfl, rfl, rfl, rfl, rfl⟩

variable {u : QuicRcidm} {pq : OsslPqueue Nat}

theorem rcidmFrame_trans (first : RcidmFrame s t) (second : RcidmFrame t u) : RcidmFrame s u :=
  ⟨second.preferred.trans first.preferred, second.have'.trans first.have',
    second.complete.trans first.complete, second.addedInitial.trans first.addedInitial,
    second.initial.trans first.initial, second.addedRetry.trans first.addedRetry,
    second.retry.trans first.retry⟩

/-- What the transitions of objects do: the invariant is kept, objects only move
    forward, and the rest stays. -/
structure RcidmMoved (popped : List Nat) (floor : Nat) (rcidm rcidm' : QuicRcidm) : Prop where
  ok : RcidmOk popped floor rcidm'
  forward : RcidForward rcidm rcidm'
  frame : RcidmFrame rcidm rcidm'
  fresh : rcidm'.fresh = rcidm.fresh

theorem rcidmMoved_refl (ok : RcidmOk popped floor rcidm) : RcidmMoved popped floor rcidm rcidm :=
  ⟨ok, rcidForward_refl rcidm, rcidmFrame_refl rcidm, rfl⟩

theorem rcidmMoved_trans (first : RcidmMoved popped floor s t)
    (second : RcidmMoved popped floor t u) : RcidmMoved popped floor s u :=
  ⟨second.ok, rcidForward_trans _ _ _ first.forward second.forward,
    rcidmFrame_trans first.frame second.frame, second.fresh.trans first.fresh⟩

section
variable {popped : List Nat} {floor : Nat} {rcidm : QuicRcidm} (ok : RcidmOk popped floor rcidm)
include ok

theorem holders_nodup : (rcidmHolders rcidm).Nodup :=
  (nodup_append.mp (ok.shared.nodup_iff.mpr nodup_range)).1

theorem holder_created {a : Nat} (held : a ∈ rcidmHolders rcidm) : a < rcidm.fresh :=
  mem_range.mp (ok.shared.subset (mem_append_left _ held))

theorem live_created {a : Nat} {obj : Rcid} (live : rcidm.objs a = some obj) :
    a < rcidm.fresh := by
  apply holder_created ok
  apply ok.freed
  rw [live]
  intro absent
  cases absent

end

theorem pending_held {x : PqHeap Nat} (member : x ∈ pqueueMembers rcidm.rcids) :
    x.data ∈ pendingRcids rcidm :=
  mem_map_of_mem member

theorem rcidCompare_write (held : objs a = some obj) (seq : obj'.seqNum = obj.seqNum) :
    rcidCompare (update objs a (some obj')) = rcidCompare objs := by
  have number (b : Nat) : (derefRcid (update objs a (some obj')) b).seqNum =
      (derefRcid objs b).seqNum := by
    by_cases here : b = a
    · subst here
      rw [deref_of (update_self ..), deref_of held, seq]
    · rw [derefRcid, update_of_ne here, derefRcid]
  funext b c
  unfold rcidCompare rcidCmp
  rw [number b, number c]

/-- An object that goes from one place to a later one. -/
theorem rcidm_moved (ok : RcidmOk popped floor rcidm) (held : rcidm.objs a = some obj)
    (objs : rcidm'.objs = update rcidm.objs a (some obj'))
    (kept : obj'.cid = obj.cid ∧ obj'.seqNum = obj.seqNum)
    (later : obj.state.rank ≤ obj'.state.rank) (fresh : rcidm'.fresh = rcidm.fresh)
    (frame : RcidmFrame rcidm rcidm') (queue : PqueueOk (rcidCompare rcidm.objs) rcidm'.rcids)
    (holders : (rcidmHolders rcidm').Perm (rcidmHolders rcidm))
    (pending : ∀ x ∈ pqueueMembers rcidm'.rcids, x ∈ pqueueMembers rcidm.rcids ∧ x.data ≠ a)
    (current : ∀ b, rcidm'.curRcid = some b →
      (b = a ∧ obj'.state = .cur ∧ floor ≤ obj'.seqNum) ∨ (b ≠ a ∧ rcidm.curRcid = some b))
    (retiring : ∀ b ∈ rcidm'.retiringList,
      (b = a ∧ obj'.state = .retiring) ∨ (b ≠ a ∧ b ∈ rcidm.retiringList))
    (count : rcidm'.numRetiring = rcidm'.retiringList.length) :
    RcidmMoved popped floor rcidm rcidm' := by
  have here : rcidm'.objs a = some obj' := by
    rw [objs]
    exact update_self ..
  have other (b : Nat) (apart : b ≠ a) : rcidm'.objs b = rcidm.objs b := by
    rw [objs]
    exact update_of_ne apart ..
  constructor
  · constructor
    · rw [objs, rcidCompare_write held kept.2]
      exact queue
    · rw [fresh]
      exact (holders.append_right popped).trans ok.shared
    · intro b live
      apply holders.symm.subset
      apply ok.freed
      by_cases same : b = a
      · subst same
        rw [held]
        intro absent
        cases absent
      · rw [← other b same]
        exact live
    · intro x member
      obtain ⟨old, apart⟩ := pending x member
      rw [other x.data apart]
      exact ok.pending x old
    · intro b is
      cases current b is with
      | inl moved =>
        obtain ⟨rfl, state, above⟩ := moved
        exact ⟨obj', here, state, above⟩
      | inr stays =>
        rw [other b stays.1]
        exact ok.current b stays.2
    · intro b member
      cases retiring b member with
      | inl moved =>
        obtain ⟨rfl, state⟩ := moved
        exact ⟨obj', here, state⟩
      | inr stays =>
        rw [other b stays.1]
        exact ok.retiring b stays.2
    · exact count
  · constructor
    · exact le_of_eq fresh.symm
    · intro b _
      by_cases same : b = a
      · subst same
        rw [(stage_live held).1, (stage_live here).1]
        exact later
      · rw [rcidStage, rcidStage, other b same]
    · intro b old new _ was is
      by_cases same : b = a
      · subst same
        rw [held] at was
        rw [here] at is
        cases was
        cases is
        exact kept
      · rw [other b same, was] at is
        cases is
        exact ⟨rfl, rfl⟩
  · exact frame
  · exact fresh

/- The transitions. -/

theorem perm_last_first (xs ys zs : List Nat) (a : Nat) :
    (xs ++ (ys ++ (zs ++ [a]))).Perm (a :: (xs ++ (ys ++ zs))) := by
  rw [← append_assoc, ← append_assoc, ← append_assoc]
  exact perm_append_singleton ..

theorem retireCurrent_eq {c : Nat} (held : rcidm.objs c = some obj) (state : obj.state = .cur)
    (is : rcidm.curRcid = some c) : rcidmTransitionRcid c .retiring rcidm =
      { rcidm with
        objs := update rcidm.objs c (some { obj with state := .retiring })
        curRcid := none
        retiringList := rcidm.retiringList ++ [c]
        numRetiring := rcidm.numRetiring + 1 } := by
  simp [rcidmTransitionRcid, deref_of held, state, is, rcidmMoveRcid, rcidmWriteRcid]

theorem retirePending_eq (held : rcidm.objs a = some obj) (state : obj.state = .pending) :
    rcidmTransitionRcid a .retiring rcidm =
      { rcidm with
        objs := update rcidm.objs a (some { obj with pqIdx := maxU64, state := .retiring })
        rcids := (pqueueRemove (rcidCompare rcidm.objs) obj.pqIdx rcidm.rcids).2
        retiringList := rcidm.retiringList ++ [a]
        numRetiring := rcidm.numRetiring + 1 } := by
  cases is : rcidm.curRcid with
  | none => simp [rcidmTransitionRcid, deref_of held, state, is, rcidmMoveRcid, rcidmWriteRcid]
  | some c => simp [rcidmTransitionRcid, deref_of held, state, is, rcidmMoveRcid, rcidmWriteRcid]

theorem selectPending_eq (held : rcidm.objs a = some obj) : rcidmMoveRcid a .pending .cur rcidm =
      { rcidm with
        objs := update rcidm.objs a (some { obj with pqIdx := maxU64, state := .cur })
        rcids := (pqueueRemove (rcidCompare rcidm.objs) obj.pqIdx rcidm.rcids).2
        curRcid := some a } := by
  simp [deref_of held, rcidmMoveRcid, rcidmWriteRcid]

section
variable {popped : List Nat} {floor : Nat} {rcidm : QuicRcidm} (ok : RcidmOk popped floor rcidm)
include ok

variable {c : Nat}

theorem current_apart (is : rcidm.curRcid = some c) :
    c ∉ pendingRcids rcidm ∧ c ∉ rcidm.retiringList := by
  have nodup := holders_nodup ok
  rw [rcidmHolders, is] at nodup
  have apart := (nodup_append.mp nodup).2.2
  have later := (nodup_cons.mp (nodup_append.mp nodup).2.1).1
  constructor
  · intro member
    exact apart c member c mem_cons_self rfl
  · exact later

theorem retireCurrent_moved (is : rcidm.curRcid = some c) :
    let rcidm' := rcidmTransitionRcid c .retiring rcidm
    RcidmMoved popped floor rcidm rcidm' ∧ rcidm'.curRcid = none ∧
      rcidm'.rcids = rcidm.rcids ∧ rcidm'.retirePriorTo = rcidm.retirePriorTo := by
  obtain ⟨obj, held, state, above⟩ := ok.current c is
  obtain ⟨notPending, notRetiring⟩ := current_apart ok is
  rw [retireCurrent_eq held state is]
  constructor
  · apply rcidm_moved ok held rfl
    · exact ⟨rfl, rfl⟩
    · rw [state]
      change 1 ≤ 2
      omega
    · rfl
    · exact ⟨rfl, rfl, rfl, rfl, rfl, rfl, rfl⟩
    · exact ok.queue
    · rw [rcidmHolders, rcidmHolders, is]
      apply List.Perm.append_left
      exact perm_append_singleton ..
    · intro x member
      constructor
      · exact member
      · intro same
        rw [← same] at notPending
        exact notPending (pending_held member)
    · intro b absent
      cases absent
    · intro b member
      cases mem_append.mp member with
      | inl old =>
        right
        constructor
        · intro same
          subst same
          exact notRetiring old
        · exact old
      | inr new =>
        left
        exact ⟨mem_singleton.mp new, rfl⟩
    · rw [length_append, ok.count]
      rfl
  · exact ⟨rfl, rfl, rfl⟩

variable {x : PqHeap Nat}

theorem pending_leaves (member : x ∈ pqueueMembers rcidm.rcids) :
    let rcids := (pqueueRemove (rcidCompare rcidm.objs) x.index rcidm.rcids).2
    PqueueOk (rcidCompare rcidm.objs) rcids ∧
      (pqueueMembers rcidm.rcids).Perm (x :: pqueueMembers rcids) ∧
      (∀ y ∈ pqueueMembers rcids, y ∈ pqueueMembers rcidm.rcids ∧ y.data ≠ x.data) ∧
      x.data ∉ rcidm.retiringList ∧ ∀ c, rcidm.curRcid = some c → c ≠ x.data := by
  obtain ⟨_, queue, members⟩ := remove_done (rcidCompare_comparator rcidm.objs) ok.queue member
  have nodup := holders_nodup ok
  rw [rcidmHolders, pendingRcids] at nodup
  have few := (nodup_append.mp nodup).1
  have apart := (nodup_append.mp nodup).2.2
  rw [(members.map PqHeap.data).nodup_iff] at few
  have here : x.data ∈ (pqueueMembers rcidm.rcids).map PqHeap.data := mem_map_of_mem member
  constructor
  · exact queue
  · constructor
    · exact members
    · constructor
      · intro y left
        constructor
        · exact members.symm.subset (mem_cons_of_mem _ left)
        · intro same
          have fresh := (nodup_cons.mp few).1
          rw [← same] at fresh
          exact fresh (mem_map_of_mem left)
      · constructor
        · intro retiring
          exact apart _ here _ (mem_append_right _ retiring) rfl
        · intro c is same
          subst same
          apply apart _ here _ _ rfl
          rw [is]
          exact mem_cons_self

theorem retirePending_moved (member : x ∈ pqueueMembers rcidm.rcids) :
    let rcidm' := rcidmTransitionRcid x.data .retiring rcidm
    RcidmMoved popped floor rcidm rcidm' ∧ rcidm'.curRcid = rcidm.curRcid ∧
      (pqueueMembers rcidm.rcids).Perm (x :: pqueueMembers rcidm'.rcids) ∧
      rcidm'.retirePriorTo = rcidm.retirePriorTo := by
  obtain ⟨obj, held, state, handle, above⟩ := ok.pending x member
  obtain ⟨queue, members, rest, notRetiring, notCurrent⟩ := pending_leaves ok member
  rw [retirePending_eq held state, handle]
  constructor
  · apply rcidm_moved ok held rfl
    · exact ⟨rfl, rfl⟩
    · rw [state]
      change 0 ≤ 2
      omega
    · rfl
    · exact ⟨rfl, rfl, rfl, rfl, rfl, rfl, rfl⟩
    · exact queue
    · have pending := members.map PqHeap.data
      rw [rcidmHolders, rcidmHolders, pendingRcids, pendingRcids]
      apply List.Perm.trans _ (pending.append_right _).symm
      exact perm_last_first ..
    · exact rest
    · intro b is
      right
      exact ⟨notCurrent b is, is⟩
    · intro b left
      cases mem_append.mp left with
      | inl old =>
        right
        constructor
        · intro same
          subst same
          exact notRetiring old
        · exact old
      | inr new =>
        left
        exact ⟨mem_singleton.mp new, rfl⟩
    · rw [length_append, ok.count]
      rfl
  · exact ⟨rfl, members, rfl⟩

theorem selectPending_moved (member : x ∈ pqueueMembers rcidm.rcids)
    (vacant : rcidm.curRcid = none) : let rcidm' := rcidmMoveRcid x.data .pending .cur rcidm
    RcidmMoved popped floor rcidm rcidm' ∧ rcidm'.curRcid = some x.data ∧
      rcidm'.retirePriorTo = rcidm.retirePriorTo := by
  obtain ⟨obj, held, state, handle, above⟩ := ok.pending x member
  obtain ⟨queue, members, rest, notRetiring, _⟩ := pending_leaves ok member
  rw [selectPending_eq held, handle]
  constructor
  · apply rcidm_moved ok held rfl
    · exact ⟨rfl, rfl⟩
    · rw [state]
      change 0 ≤ 1
      omega
    · rfl
    · exact ⟨rfl, rfl, rfl, rfl, rfl, rfl, rfl⟩
    · exact queue
    · have pending := members.map PqHeap.data
      rw [rcidmHolders, rcidmHolders, pendingRcids, pendingRcids, vacant]
      apply List.Perm.trans _ (pending.append_right _).symm
      exact perm_middle
    · exact rest
    · intro b is
      left
      obtain rfl := some.inj is
      exact ⟨rfl, rfl, above⟩
    · intro b left
      right
      constructor
      · intro same
        subst same
        exact notRetiring left
      · exact left
    · exact ok.count
  · exact ⟨rfl, rfl⟩

theorem select_moved (member : x ∈ pqueueMembers rcidm.rcids) :
    let rcidm' := rcidmTransitionRcid x.data .cur rcidm
    RcidmMoved popped floor rcidm rcidm' ∧ rcidm'.curRcid = some x.data ∧
      rcidm'.retirePriorTo = rcidm.retirePriorTo := by
  obtain ⟨obj, held, state, _, _⟩ := ok.pending x member
  cases is : rcidm.curRcid with
  | none =>
    have same : rcidmTransitionRcid x.data .cur rcidm =
        rcidmMoveRcid x.data .pending .cur rcidm := by
      simp [rcidmTransitionRcid, deref_of held, state, is]
    rw [same]
    exact selectPending_moved ok member is
  | some c =>
    obtain ⟨old, oldHeld, oldState, _⟩ := ok.current c is
    obtain ⟨retired, vacant, rcids, watermark⟩ := retireCurrent_moved ok is
    have same : rcidmTransitionRcid x.data .cur rcidm =
        rcidmMoveRcid x.data .pending .cur (rcidmTransitionRcid c .retiring rcidm) := by
      simp [rcidmTransitionRcid, deref_of held, state, is, rcidmRetireRcid, deref_of oldHeld,
        oldState]
    rw [← rcids] at member
    obtain ⟨moved, current, unchanged⟩ := selectPending_moved retired.ok member vacant
    rw [same]
    exact ⟨rcidmMoved_trans retired moved, current, unchanged.trans watermark⟩

end

theorem head_member (queue : PqueueOk (rcidCompare objs) pq) (first : pqueuePeek pq = some a) :
    ∃ x ∈ pqueueMembers pq, x.data = a ∧ ∀ y ∈ pqueueMembers pq,
      (derefRcid objs a).seqNum ≤ (derefRcid objs y.data).seqNum := by
  obtain ⟨nonempty, rfl, least⟩ := peek_least (rcidCompare_comparator objs) queue first
  exists pq.heap 0
  constructor
  · exact mem_members.mpr ⟨0, nonempty, rfl⟩
  · constructor
    · rfl
    · intro y member
      exact rcidCompare_le.mp (least y member)

/- Retirement in bulk. -/

theorem moved_seqNum (ok : RcidmOk popped floor s) (forward : RcidForward s t)
    (was : s.objs a = some obj) (is : t.objs a = some obj') :
    (derefRcid t.objs a).cid = (derefRcid s.objs a).cid ∧
      (derefRcid t.objs a).seqNum = (derefRcid s.objs a).seqNum := by
  rw [deref_of was, deref_of is]
  exact forward.identity a obj obj' (live_created ok was) was is

theorem retireHeads_moved (retirePriorTo fuel : Nat) (ok : RcidmOk popped floor rcidm)
    (enough : (pqueueMembers rcidm.rcids).length ≤ fuel) :
    let rcidm' := rcidmRetireHeads retirePriorTo fuel rcidm
    RcidmMoved popped floor rcidm rcidm' ∧ rcidm'.curRcid = rcidm.curRcid ∧
      (∀ x ∈ pqueueMembers rcidm'.rcids, retirePriorTo ≤ (derefRcid rcidm'.objs x.data).seqNum) ∧
      (∀ x ∈ pqueueMembers rcidm.rcids, retirePriorTo ≤ (derefRcid rcidm.objs x.data).seqNum →
        x ∈ pqueueMembers rcidm'.rcids) := by
  induction fuel generalizing rcidm with
  | zero =>
    have empty : pqueueMembers rcidm.rcids = [] := length_eq_zero_iff.mp (Nat.le_zero.mp enough)
    rw [rcidmRetireHeads]
    refine ⟨rcidmMoved_refl ok, rfl, ?_, fun x member _ => member⟩
    intro x member
    rw [empty] at member
    cases member
  | succ fuel ih =>
    rw [rcidmRetireHeads]
    cases first : pqueuePeek rcidm.rcids with
    | none =>
      have empty := (peek_none_iff rcidm.rcids).mp first
      refine ⟨rcidmMoved_refl ok, rfl, ?_, fun x member _ => member⟩
      intro x member
      rw [empty] at member
      cases member
    | some a =>
      obtain ⟨x, member, rfl, least⟩ := head_member ok.queue first
      dsimp only
      by_cases low : (derefRcid rcidm.objs x.data).seqNum < retirePriorTo
      · obtain ⟨moved, current, members, _⟩ := retirePending_moved ok member
        have fewer := members.length_eq
        rw [length_cons] at fewer
        obtain ⟨later, same, above, kept⟩ := ih moved.ok (by omega)
        rw [if_pos low]
        refine ⟨rcidmMoved_trans moved later, same.trans current, above, ?_⟩
        intro y yMember high
        have stays : y ∈ pqueueMembers (rcidmTransitionRcid x.data .retiring rcidm).rcids := by
          cases mem_cons.mp (members.subset yMember) with
          | inl head =>
            subst head
            omega
          | inr tail => exact tail
        obtain ⟨obj, held, _⟩ := ok.pending y yMember
        obtain ⟨obj', held', _⟩ := moved.ok.pending y stays
        apply kept y stays
        rw [(moved_seqNum ok moved.forward held held').2]
        exact high
      · rw [if_neg low]
        refine ⟨rcidmMoved_refl ok, rfl, ?_, fun y yMember _ => yMember⟩
        intro y yMember
        have order := least y yMember
        omega

theorem raise_ok (ok : RcidmOk popped floor rcidm) {retirePriorTo : Nat}
    (pending : ∀ x ∈ pqueueMembers rcidm.rcids,
      retirePriorTo ≤ (derefRcid rcidm.objs x.data).seqNum)
    (current : ∀ a, rcidm.curRcid = some a → retirePriorTo ≤ (derefRcid rcidm.objs a).seqNum) :
    RcidmOk popped retirePriorTo { rcidm with retirePriorTo } := by
  constructor
  · exact ok.queue
  · exact ok.shared
  · exact ok.freed
  · intro x member
    obtain ⟨obj, held, state, handle, _⟩ := ok.pending x member
    have high := pending x member
    rw [deref_of held] at high
    exact ⟨obj, held, state, handle, high⟩
  · intro a is
    obtain ⟨obj, held, state, _⟩ := ok.current a is
    have high := current a is
    rw [deref_of held] at high
    exact ⟨obj, held, state, high⟩
  · exact ok.retiring
  · exact ok.count

theorem retireLowCurrent_moved (ok : RcidmOk popped floor rcidm) (retirePriorTo : Nat) :
    let rcidm' := rcidmRetireLowCurrent retirePriorTo rcidm
    RcidmMoved popped floor rcidm rcidm' ∧ rcidm'.rcids = rcidm.rcids ∧
      ∀ a, rcidm'.curRcid = some a → retirePriorTo ≤ (derefRcid rcidm'.objs a).seqNum := by
  unfold rcidmRetireLowCurrent
  cases is : rcidm.curRcid with
  | none =>
    refine ⟨rcidmMoved_refl ok, rfl, ?_⟩
    intro a current
    rw [is] at current
    cases current
  | some c =>
    dsimp only
    by_cases low : (derefRcid rcidm.objs c).seqNum < retirePriorTo
    · obtain ⟨moved, vacant, rcids, _⟩ := retireCurrent_moved ok is
      rw [if_pos low]
      refine ⟨moved, rcids, ?_⟩
      intro a current
      rw [vacant] at current
      cases current
    · rw [if_neg low]
      refine ⟨rcidmMoved_refl ok, rfl, ?_⟩
      intro a current
      rw [is] at current
      obtain rfl := some.inj current
      omega

/-- The manager can go on: an object is current or can become so. -/
def RcidmReady (rcidm : QuicRcidm) : Prop := rcidm.curRcid ≠ none ∨ pqueueMembers rcidm.rcids ≠ []

theorem handleRetire_done (ok : RcidmOk popped rcidm.retirePriorTo rcidm) (retirePriorTo : Nat) :
    let rcidm' := rcidmHandleRetirePriorTo retirePriorTo rcidm
    RcidmOk popped rcidm'.retirePriorTo rcidm' ∧ RcidForward rcidm rcidm' ∧
      RcidmFrame rcidm rcidm' ∧ rcidm'.fresh = rcidm.fresh ∧
      (retirePriorTo ≤ rcidm.retirePriorTo ∧ RcidmReady rcidm ∨ (∃ x ∈ pqueueMembers rcidm.rcids,
          retirePriorTo ≤ (derefRcid rcidm.objs x.data).seqNum) → RcidmReady rcidm') := by
  unfold rcidmHandleRetirePriorTo
  by_cases old : retirePriorTo ≤ rcidm.retirePriorTo
  · rw [if_pos old]
    refine ⟨ok, rcidForward_refl rcidm, rcidmFrame_refl rcidm, rfl, ?_⟩
    intro ready
    cases ready with
    | inl already => exact already.2
    | inr exists' =>
      right
      obtain ⟨x, member, _⟩ := exists'
      exact ne_nil_of_mem member
  · rw [if_neg old]
    obtain ⟨moved, rcids, high⟩ := retireLowCurrent_moved ok retirePriorTo
    dsimp only
    generalize rcidmRetireLowCurrent retirePriorTo rcidm = mid at *
    have enough : (pqueueMembers mid.rcids).length ≤ pqueueNum mid.rcids := by
      rw [pqueueMembers, items_length]
      exact le_refl _
    obtain ⟨later, current, above, kept⟩ :=
      retireHeads_moved retirePriorTo (pqueueNum mid.rcids) moved.ok enough
    have forward := rcidForward_trans _ _ _ moved.forward later.forward
    have frame := rcidmFrame_trans moved.frame later.frame
    generalize rcidmRetireHeads retirePriorTo (pqueueNum mid.rcids) mid = last at *
    constructor
    · apply raise_ok later.ok above
      intro a is
      rw [current] at is
      obtain ⟨obj, held, _⟩ := moved.ok.current a is
      obtain ⟨obj', held', _⟩ := later.ok.current a (current.trans is)
      rw [(moved_seqNum moved.ok later.forward held held').2]
      exact high a is
    · refine ⟨{ forward with },
        { frame with  }, later.fresh.trans moved.fresh, ?_⟩
      intro ready
      cases ready with
      | inl already => exact absurd already.1 old
      | inr exists' =>
        right
        obtain ⟨x, member, highX⟩ := exists'
        obtain ⟨obj, held, _⟩ := ok.pending x member
        rw [← rcids] at member
        obtain ⟨obj', held', _⟩ := moved.ok.pending x member
        apply ne_nil_of_mem
        apply kept x member
        rw [(moved_seqNum ok moved.forward held held').2]
        exact highX

/- Creation and release. -/

theorem queue_write (queue : PqueueOk (rcidCompare objs) pq)
    (outside : a ∉ (pqueueMembers pq).map PqHeap.data) (obj : Option Rcid) :
    PqueueOk (rcidCompare (update objs a obj)) pq := by
  have same (x : PqHeap Nat) (member : x ∈ pqueueMembers pq) :
      derefRcid (update objs a obj) x.data = derefRcid objs x.data := by
    rw [derefRcid, update_of_ne, derefRcid]
    intro here
    rw [← here] at outside
    exact outside (mem_map_of_mem member)
  apply pqueueOk_congr queue
  intro x xMember y yMember
  rw [rcidCompare, same x xMember, same y yMember, rcidCompare]

theorem fresh_outside (ok : RcidmOk popped floor rcidm) : rcidm.fresh ∉ rcidmHolders rcidm := by
  intro held
  exact lt_irrefl _ (holder_created ok held)

structure RcidmCreated (popped : List Nat) (floor seqNum : Nat) (cid : QuicConnId)
    (rcidm rcidm' : QuicRcidm) : Prop where
  made : RcidmOk popped floor rcidm' ∧ RcidForward rcidm rcidm'
  frame : RcidmFrame rcidm rcidm'
  current : rcidm'.curRcid = rcidm.curRcid
  watermark : rcidm'.retirePriorTo = rcidm.retirePriorTo
  fresh : rcidm'.fresh = rcidm.fresh + 1
  stored : (derefRcid rcidm'.objs rcidm.fresh).cid = cid ∧
    (derefRcid rcidm'.objs rcidm.fresh).seqNum = seqNum
  queued : rcidm.retirePriorTo ≤ seqNum → ∃ x ∈ pqueueMembers rcidm'.rcids, x.data = rcidm.fresh
  live : rcidm'.objs rcidm.fresh ≠ none

theorem rcidm_created (ok : RcidmOk popped floor rcidm)
    (objs : rcidm'.objs = update rcidm.objs rcidm.fresh (some obj))
    (fresh : rcidm'.fresh = rcidm.fresh + 1)
    (queue : PqueueOk (rcidCompare rcidm'.objs) rcidm'.rcids)
    (holders : (rcidmHolders rcidm').Perm (rcidm.fresh :: rcidmHolders rcidm))
    (pending : ∀ x ∈ pqueueMembers rcidm'.rcids, x ∈ pqueueMembers rcidm.rcids ∨
      x.data = rcidm.fresh ∧ obj.state = .pending ∧ obj.pqIdx = x.index ∧ floor ≤ obj.seqNum)
    (current : rcidm'.curRcid = rcidm.curRcid)
    (retiring : ∀ b ∈ rcidm'.retiringList, b ∈ rcidm.retiringList ∨
      b = rcidm.fresh ∧ obj.state = .retiring)
    (count : rcidm'.numRetiring = rcidm'.retiringList.length) :
    RcidmOk popped floor rcidm' ∧ RcidForward rcidm rcidm' := by
  have here : rcidm'.objs rcidm.fresh = some obj := by
    rw [objs]
    exact update_self ..
  have other (b : Nat) (old : b ∈ rcidmHolders rcidm) : rcidm'.objs b = rcidm.objs b := by
    rw [objs]
    exact update_of_ne (ne_of_lt (holder_created ok old)) ..
  constructor
  · constructor
    · exact queue
    · rw [fresh, range_succ]
      apply List.Perm.trans (holders.append_right popped)
      apply List.Perm.trans (ok.shared.cons rcidm.fresh)
      exact (perm_append_singleton ..).symm
    · intro b live
      apply holders.symm.subset
      by_cases same : b = rcidm.fresh
      · subst same
        exact mem_cons_self
      · apply mem_cons_of_mem
        apply ok.freed
        rw [objs, update_of_ne same] at live
        exact live
    · intro x member
      cases pending x member with
      | inl old =>
        rw [other x.data (mem_append_left _ (pending_held old))]
        exact ok.pending x old
      | inr new =>
        rw [new.1]
        exact ⟨obj, here, new.2⟩
    · intro b is
      rw [current] at is
      rw [other b]
      · exact ok.current b is
      · rw [rcidmHolders, is]
        exact mem_append_right _ mem_cons_self
    · intro b member
      cases retiring b member with
      | inl old =>
        rw [other b (mem_append_right _ (mem_append_right _ old))]
        exact ok.retiring b old
      | inr new =>
        rw [new.1]
        exact ⟨obj, here, new.2⟩
    · exact count
  · constructor
    · omega
    · intro b created
      rw [rcidStage, rcidStage, objs, update_of_ne (ne_of_lt created)]
    · intro b old new created was is
      rw [objs, update_of_ne (ne_of_lt created), was] at is
      cases is
      exact ⟨rfl, rfl⟩

theorem createRcid_created (ok : RcidmOk popped rcidm.retirePriorTo rcidm) {mem : Bool}
    {seqNum : Nat} {cid : QuicConnId} {type : RcidType}
    (created : rcidmCreateRcid mem seqNum cid type rcidm = some (a, rcidm')) :
    RcidmCreated popped rcidm.retirePriorTo seqNum cid rcidm rcidm' := by
  have outside := fresh_outside ok
  have notPending : rcidm.fresh ∉ (pqueueMembers rcidm.rcids).map PqHeap.data := by
    intro member
    exact outside (mem_append_left _ member)
  unfold rcidmCreateRcid at created
  split at created
  · cases created
  · split at created
    · cases created
    · dsimp only at created
      split at created
      · rename_i high
        split at created
        · cases created
        · rename_i rcids pqIdx pushed
          obtain ⟨rfl, rfl⟩ := Prod.mk.inj (some.inj created)
          have before := queue_write ok.queue notPending
            (some { cid, seqNum, pqIdx := 0, state := .pending, type })
          obtain ⟨queue, _, members⟩ := push_done (rcidCompare_comparator _) before pushed
          have objs (obj obj' : Option Rcid) : update
              (update rcidm.objs rcidm.fresh obj) rcidm.fresh obj' =
                update rcidm.objs rcidm.fresh obj' := update_idem ..
          constructor
          · apply rcidm_created ok (objs _ _)
            · rfl
            · dsimp only [rcidmWriteRcid]
              rw [rcidCompare_write (update_self ..)]
              · exact queue
              · rfl
            · rw [rcidmHolders, rcidmHolders, pendingRcids, pendingRcids]
              exact (members.map PqHeap.data).append_right _
            · intro x member
              cases mem_cons.mp (members.subset member) with
              | inl new =>
                subst new
                exact .inr ⟨rfl, rfl, rfl, high⟩
              | inr old => exact .inl old
            · rfl
            · intro b old
              exact .inl old
            · exact ok.count
          · exact ⟨rfl, rfl, rfl, rfl, rfl, rfl, rfl⟩
          · rfl
          · rfl
          · rfl
          · dsimp only [rcidmWriteRcid]
            rw [deref_of (update_self ..)]
            exact ⟨rfl, rfl⟩
          · intro _
            refine ⟨{ data := rcidm.fresh, index := pqIdx }, ?_, rfl⟩
            apply members.symm.subset
            exact mem_cons_self
          · dsimp only [rcidmWriteRcid]
            rw [update_self]
            intro absent
            cases absent
      · rename_i low
        obtain ⟨rfl, rfl⟩ := Prod.mk.inj (some.inj created)
        have objs (obj obj' : Option Rcid) : update
            (update rcidm.objs rcidm.fresh obj) rcidm.fresh obj' =
              update rcidm.objs rcidm.fresh obj' := update_idem ..
        constructor
        · apply rcidm_created ok (objs _ _)
          · rfl
          · dsimp only [rcidmWriteRcid]
            rw [objs]
            exact queue_write ok.queue notPending _
          · exact perm_last_first ..
          · intro x member
            exact .inl member
          · rfl
          · intro b member
            cases mem_append.mp member with
            | inl old => exact .inl old
            | inr new => exact .inr ⟨mem_singleton.mp new, rfl⟩
          · dsimp only [rcidmWriteRcid]
            rw [length_append, ok.count]
            rfl
        · exact ⟨rfl, rfl, rfl, rfl, rfl, rfl, rfl⟩
        · rfl
        · rfl
        · rfl
        · dsimp only [rcidmWriteRcid]
          rw [deref_of (update_self ..)]
          exact ⟨rfl, rfl⟩
        · intro high
          exact absurd high low
        · dsimp only [rcidmWriteRcid]
          rw [update_self]
          intro absent
          cases absent

theorem popRetire_done (ok : RcidmOk popped floor rcidm) {rest : List Nat}
    (list : rcidm.retiringList = a :: rest) : let r := quicRcidmPopRetireSeqNum rcidm
    r.1 = some (derefRcid rcidm.objs a).seqNum ∧ r.2.retiringList = rest ∧
      RcidmOk (popped ++ [a]) floor r.2 ∧ RcidForward rcidm r.2 ∧ RcidmFrame rcidm r.2 ∧
      r.2.curRcid = rcidm.curRcid ∧ r.2.rcids = rcidm.rcids ∧
      r.2.retirePriorTo = rcidm.retirePriorTo ∧ r.2.fresh = rcidm.fresh := by
  have first : a ∈ rcidm.retiringList := by
    rw [list]
    exact mem_cons_self
  obtain ⟨obj, held, state⟩ := ok.retiring a first
  have result : quicRcidmPopRetireSeqNum rcidm = (some (derefRcid rcidm.objs a).seqNum,
      { rcidm with
        retiringList := rest
        numRetiring := rcidm.numRetiring - 1
        objs := update rcidm.objs a none }) := by
    simp [quicRcidmPopRetireSeqNum, rcidmGetRetire, list, rcidmFreeRcid, deref_of held, state]
  have nodup := holders_nodup ok
  rw [rcidmHolders, list] at nodup
  have apart := (nodup_append.mp nodup).2.2
  have lists := (nodup_append.mp nodup).2.1
  have notPending : a ∉ pendingRcids rcidm := by
    intro member
    exact apart a member a (mem_append_right _ mem_cons_self) rfl
  have notRest : a ∉ rest := (nodup_cons.mp (nodup_append.mp lists).2.1).1
  have holders : (rcidmHolders rcidm).Perm
      (a :: (pendingRcids rcidm ++ (rcidm.curRcid.toList ++ rest))) := by
    rw [rcidmHolders, list, ← append_assoc, ← append_assoc]
    exact perm_middle
  rw [result]
  refine ⟨rfl, rfl, ?_, ?_, ⟨rfl, rfl, rfl, rfl, rfl, rfl, rfl⟩, rfl, rfl, rfl, rfl⟩
  · constructor
    · exact queue_write ok.queue notPending none
    · apply List.Perm.trans _ ok.shared
      apply List.Perm.trans _ (holders.symm.append_right popped)
      rw [← append_assoc _ popped [a]]
      exact perm_append_singleton ..
    · intro b live
      dsimp only at live
      have other : b ≠ a := by
        intro same
        subst same
        rw [update_self] at live
        exact live rfl
      rw [update_of_ne other] at live
      cases mem_cons.mp (holders.subset (ok.freed b live)) with
      | inl same => exact absurd same other
      | inr later => exact later
    · intro x member
      have other : x.data ≠ a := by
        intro same
        rw [← same] at notPending
        exact notPending (pending_held member)
      dsimp only
      rw [update_of_ne other]
      exact ok.pending x member
    · intro b is
      obtain ⟨old, oldHeld, oldState, above⟩ := ok.current b is
      have other : b ≠ a := by
        intro same
        subst same
        rw [held] at oldHeld
        cases oldHeld
        rw [state] at oldState
        cases oldState
      dsimp only
      rw [update_of_ne other]
      exact ⟨old, oldHeld, oldState, above⟩
    · intro b member
      have other : b ≠ a := by
        intro same
        subst same
        exact notRest member
      dsimp only
      rw [update_of_ne other]
      apply ok.retiring
      rw [list]
      exact mem_cons_of_mem a member
    · have count := ok.count
      rw [list, length_cons] at count
      dsimp only
      omega
  · constructor
    · exact le_refl _
    · intro b _
      by_cases same : b = a
      · subst same
        have freed : rcidStage { rcidm with
            retiringList := rest
            numRetiring := rcidm.numRetiring - 1
            objs := update rcidm.objs b none } b = 3 := by
          rw [rcidStage]
          dsimp only
          rw [update_self]
        rw [freed]
        exact stage_le rcidm b
      · rw [rcidStage, rcidStage]
        dsimp only
        rw [update_of_ne same]
    · intro b old new _ was is
      dsimp only at is
      by_cases same : b = a
      · subst same
        rw [update_self] at is
        cases is
      · rw [update_of_ne same, was] at is
        cases is
        exact ⟨rfl, rfl⟩

/- The decision logic. -/

/-- The connection ID to use: the current object's, else before the handshake is
    complete the Retry ODCID, else the initial one. -/
def rcidmTarget (rcidm : QuicRcidm) : Option QuicConnId :=
  match rcidm.curRcid with
  | some a => some (derefRcid rcidm.objs a).cid
  | none =>
    if rcidm.handshakeComplete then none
    else if rcidm.addedRetryOdcid then some rcidm.retryOdcid
    else if rcidm.addedInitialOdcid then some rcidm.initialOdcid
    else none

def RcidmOffers (rcidm : QuicRcidm) : Prop :=
  ∀ cid, rcidmTarget rcidm = some cid → ∃ tx, quicRcidmGetPreferredTxDcid rcidm = some tx ∧
    tx.idLen = cid.idLen ∧ tx.bytes = cid.bytes

/- What is wanted now looks like the value left from before. -/
def RcidmConfused (rcidm rcidm' : QuicRcidm) : Prop :=
  rcidm.havePreferredRcid = false ∧
    ∃ cid, rcidmTarget rcidm' = some cid ∧ quicConnIdEq rcidm.preferredRcid cid = true

theorem quicConnIdEq_same {a b : QuicConnId} (same : quicConnIdEq a b = true) :
    a.idLen = b.idLen ∧ a.bytes = b.bytes := by
  unfold quicConnIdEq at same
  split at same
  · cases same
  · rename_i lengths
    constructor
    · omega
    · exact of_decide_eq_true same

/-- What an update leaves, and when it offers what it should. -/
structure RcidmTicked (popped : List Nat) (floor : Nat) (rcidm rcidm' : QuicRcidm) : Prop where
  ok : RcidmOk popped floor rcidm'
  forward : RcidForward rcidm rcidm'
  watermark : rcidm'.retirePriorTo = rcidm.retirePriorTo
  complete : rcidm'.handshakeComplete = rcidm.handshakeComplete
  addedInitial : rcidm'.addedInitialOdcid = rcidm.addedInitialOdcid
  initial : rcidm'.initialOdcid = rcidm.initialOdcid
  addedRetry : rcidm'.addedRetryOdcid = rcidm.addedRetryOdcid
  retry : rcidm'.retryOdcid = rcidm.retryOdcid
  ready : RcidmReady rcidm → rcidm'.curRcid ≠ none
  idle : ¬ RcidmReady rcidm → rcidm'.curRcid = none
  fresh : rcidm'.fresh = rcidm.fresh
  offers : RcidmOffers rcidm' ↔ ¬ RcidmConfused rcidm rcidm'

theorem ready_of_current (is : rcidm.curRcid = some a) : RcidmReady rcidm := by
  left
  rw [is]
  intro absent
  cases absent

theorem setPreferred_offers (wanted : Option QuicConnId) (target : rcidmTarget rcidm = wanted) :
    let rcidm' := rcidmSetPreferredRcid wanted rcidm
    rcidmTarget rcidm' = wanted ∧ (RcidmOffers rcidm' ↔ ¬ RcidmConfused rcidm rcidm') := by
  intro rcidm'
  have after : rcidmTarget rcidm' = wanted := by
    cases wanted with
    | none => exact target
    | some cid =>
      change rcidmTarget (if quicConnIdEq rcidm.preferredRcid cid then rcidm else _) = _
      split
      · exact target
      · exact target
  constructor
  · exact after
  · unfold RcidmOffers RcidmConfused
    rw [after]
    cases wanted with
    | none =>
      constructor
      · intro _ confused
        obtain ⟨_, _, absent, _⟩ := confused
        cases absent
      · intro _ cid absent
        cases absent
    | some cid =>
      by_cases same : quicConnIdEq rcidm.preferredRcid cid = true
      · have left : rcidm' = rcidm := if_pos same
        have lengths := quicConnIdEq_same same
        rw [left, quicRcidmGetPreferredTxDcid]
        cases has : rcidm.havePreferredRcid with
        | false =>
          constructor
          · intro offers
            obtain ⟨tx, absent, _⟩ := offers cid rfl
            cases absent
          · intro clear
            exact absurd ⟨rfl, cid, rfl, same⟩ clear
        | true =>
          constructor
          · intro _ confused
            cases confused.1
          · intro _ other is
            cases is
            exact ⟨rcidm.preferredRcid, rfl, lengths⟩
      · have set : rcidm' = { rcidm with
            preferredRcid := cid, preferredRcidChanged := true, havePreferredRcid := true } :=
          if_neg same
        rw [set, quicRcidmGetPreferredTxDcid]
        constructor
        · intro _ confused
          obtain ⟨_, other, is, equal⟩ := confused
          cases is
          exact same equal
        · intro _ other is
          cases is
          exact ⟨cid, rfl, rfl, rfl⟩

theorem useHead_moved (ok : RcidmOk popped floor rcidm) : let rcidm' := rcidmUseHead rcidm
    RcidmMoved popped floor rcidm rcidm' ∧ rcidm'.retirePriorTo = rcidm.retirePriorTo ∧
      (RcidmReady rcidm → rcidm'.curRcid ≠ none) ∧ (¬ RcidmReady rcidm → rcidm' = rcidm) := by
  unfold rcidmUseHead
  cases is : rcidm.curRcid with
  | some c =>
    refine ⟨rcidmMoved_refl ok, rfl, ?_, fun _ => rfl⟩
    intro _ absent
    rw [is] at absent
    cases absent
  | none =>
    cases first : pqueuePeek rcidm.rcids with
    | none =>
      have empty := (peek_none_iff rcidm.rcids).mp first
      refine ⟨rcidmMoved_refl ok, rfl, ?_, fun _ => rfl⟩
      intro ready
      cases ready with
      | inl current => exact absurd is current
      | inr pending => exact absurd empty pending
    | some a =>
      obtain ⟨x, member, rfl, _⟩ := head_member ok.queue first
      obtain ⟨moved, current, watermark⟩ := select_moved ok member
      refine ⟨moved, watermark, ?_, ?_⟩
      · intro _ absent
        rw [current] at absent
        cases absent
      · intro idle
        exact absurd (.inr (ne_nil_of_mem member)) idle

theorem update_ticked (ok : RcidmOk popped floor rcidm) :
    RcidmTicked popped floor rcidm (rcidmUpdate rcidm) := by
  obtain ⟨moved, watermark, ready, idle⟩ := useHead_moved ok
  have chosen : rcidmUpdate rcidm =
      rcidmSetPreferredRcid (rcidmTarget (rcidmUseHead rcidm)) (rcidmUseHead rcidm) := by
    unfold rcidmUpdate rcidmTarget
    dsimp only
    cases (rcidmUseHead rcidm).curRcid with
    | some c => rfl
    | none =>
      cases (rcidmUseHead rcidm).handshakeComplete with
      | true => simp
      | false =>
        cases (rcidmUseHead rcidm).addedRetryOdcid with
        | true => simp
        | false =>
          cases (rcidmUseHead rcidm).addedInitialOdcid with
          | true => simp
          | false => simp
  have stays (wanted : Option QuicConnId) (s : QuicRcidm) :
      let s' := rcidmSetPreferredRcid wanted s
      s' = { s with
        preferredRcid := s'.preferredRcid
        preferredRcidChanged := s'.preferredRcidChanged
        havePreferredRcid := s'.havePreferredRcid } := by
    cases wanted with
    | none => rfl
    | some cid =>
      dsimp only [rcidmSetPreferredRcid]
      split
      · rfl
      · rfl
  obtain ⟨target, offers⟩ := setPreferred_offers _ (rfl : rcidmTarget (rcidmUseHead rcidm) = _)
  unfold RcidmConfused at offers
  rw [moved.frame.have', moved.frame.preferred] at offers
  rw [chosen]
  have result := stays (rcidmTarget (rcidmUseHead rcidm)) (rcidmUseHead rcidm)
  generalize rcidmSetPreferredRcid (rcidmTarget (rcidmUseHead rcidm)) (rcidmUseHead rcidm) = last
    at *
  have good := moved.ok
  have ahead := moved.forward
  have frame := moved.frame
  have created := moved.fresh
  generalize rcidmUseHead rcidm = mid at *
  constructor
  · rw [result]
    exact { good with }
  · rw [result]
    exact { ahead with }
  · rw [result]
    exact watermark
  · rw [result]
    exact frame.complete
  · rw [result]
    exact frame.addedInitial
  · rw [result]
    exact frame.initial
  · rw [result]
    exact frame.addedRetry
  · rw [result]
    exact frame.retry
  · intro can
    rw [result]
    exact ready can
  · intro cannot
    have same := idle cannot
    subst same
    rw [result]
    by_cases current : mid.curRcid = none
    · exact current
    · exact absurd (.inl current) cannot
  · rw [result]
    exact created
  · exact offers

theorem roll_moved (ok : RcidmOk popped floor rcidm) : let rcidm' := rcidmRoll rcidm
    RcidmMoved popped floor rcidm rcidm' ∧ rcidm'.retirePriorTo = rcidm.retirePriorTo ∧
      (RcidmReady rcidm → RcidmReady rcidm') ∧ (¬ RcidmReady rcidm → rcidm' = rcidm) := by
  unfold rcidmRoll
  cases first : pqueuePeek rcidm.rcids with
  | none => exact ⟨rcidmMoved_refl ok, rfl, fun ready => ready, fun _ => rfl⟩
  | some a =>
    obtain ⟨x, member, rfl, _⟩ := head_member ok.queue first
    obtain ⟨moved, current, watermark⟩ := select_moved ok member
    have good := moved.ok
    have ahead := moved.forward
    have frame := moved.frame
    constructor
    · constructor
      · exact { good with }
      · exact { ahead with }
      · exact { frame with  }
      · exact moved.fresh
    · constructor
      · exact watermark
      · constructor
        · intro _
          exact ready_of_current current
        · intro idle
          exact absurd (.inr (ne_nil_of_mem member)) idle

theorem tick_ticked (ok : RcidmOk popped floor rcidm) :
    RcidmTicked popped floor rcidm (rcidmTick rcidm) := by
  unfold rcidmTick
  split
  · obtain ⟨moved, watermark, ready, idle⟩ := roll_moved ok
    have ticked := update_ticked moved.ok
    have offers := ticked.offers
    unfold RcidmConfused at offers
    rw [moved.frame.have', moved.frame.preferred] at offers
    constructor
    · exact ticked.ok
    · exact rcidForward_trans _ _ _ moved.forward ticked.forward
    · exact ticked.watermark.trans watermark
    · exact ticked.complete.trans moved.frame.complete
    · exact ticked.addedInitial.trans moved.frame.addedInitial
    · exact ticked.initial.trans moved.frame.initial
    · exact ticked.addedRetry.trans moved.frame.addedRetry
    · exact ticked.retry.trans moved.frame.retry
    · intro can
      exact ticked.ready (ready can)
    · intro cannot
      have same := idle cannot
      rw [same] at ticked ⊢
      exact ticked.idle cannot
    · exact ticked.fresh.trans moved.fresh
    · exact offers
  · exact update_ticked ok

end Ossl
