import OpenSSL.Quic.StreamList

/- The stream map over whole runs: the lists, the cursor and the counters that mirror its
   streams. -/
namespace Ossl
open Bool List Option Links Runs

/- The stream map with its accept queue, its round-robin counters and the nodes of its lists.
   The lists of ids say what the nodes link. -/
structure QuicStreams where
  qsm : QuicStreamMap
  acceptList : List Nat
  numAcceptBidi : Nat
  numAcceptUni : Nat
  rrStepping : Nat
  rrCounter : Nat
  maxStreamsBidiRxfc : Option QuicRxfc
  maxStreamsUniRxfc : Option QuicRxfc
  activeNodes : StreamNodes
  acceptNodes : StreamNodes
  gcNodes : StreamNodes

def streamMapInit (isServer : Bool) (getStreamLimit : Option (Bool → Nat))
    (maxStreamsBidiRxfc maxStreamsUniRxfc : Option QuicRxfc) (connTxfc : QuicTxfc) :
    QuicStreams where
  qsm :=
    { map := fun _ => none, isServer, activeList := [], readyForGcList := [], rrCur := none
      numShutdownFlush := 0, getStreamLimit, connTxfc }
  acceptList := []
  numAcceptBidi := 0
  numAcceptUni := 0
  rrStepping := 1
  rrCounter := 0
  maxStreamsBidiRxfc
  maxStreamsUniRxfc
  activeNodes := streamListInit
  acceptNodes := streamListInit
  gcNodes := streamListInit

def streamsAlloc (mem : Bool) (id : Nat) (serverInit bidi : Bool) (w : QuicStreams) : QuicStreams :=
  match streamMapAlloc mem id serverInit bidi w.qsm with
  | none => w
  | some (_, qsm) => { w with qsm }

/- Neither rr_cur nor the two counters are changed. -/
def streamMapRelease (id : Nat) (w : QuicStreams) : QuicStreams :=
  let w := if streamLinked id w.activeNodes then
      { w with
        qsm := { w.qsm with activeList := w.qsm.activeList.erase id }
        activeNodes := streamListRemove id w.activeNodes }
    else w
  let w := if streamLinked id w.acceptNodes then
      { w with
        acceptList := w.acceptList.erase id, acceptNodes := streamListRemove id w.acceptNodes }
    else w
  let w := if streamLinked id w.gcNodes then
      { w with
        qsm := { w.qsm with readyForGcList := w.qsm.readyForGcList.erase id }
        gcNodes := streamListRemove id w.gcNodes }
    else w
  { w with qsm := { w.qsm with map := Function.update w.qsm.map id none } }

def followFlag (before after : Bool) (id : Nat) (nodes : StreamNodes) : StreamNodes :=
  if !before && after then streamListInsertTail id nodes
  else if before && !after then streamListRemove id nodes
  else nodes

def streamsUpdateState (id : Nat) (w : QuicStreams) : QuicStreams :=
  match w.qsm.map id with
  | none => w
  | some s =>
    let qsm := streamMapUpdateState s w.qsm
    match qsm.map id with
    | none => { w with qsm }
    | some after =>
      { w with
        qsm
        gcNodes := followFlag s.readyForGc after.readyForGc id w.gcNodes
        activeNodes := followFlag s.active after.active id w.activeNodes }

def streamMapPushAcceptQueue (id : Nat) (w : QuicStreams) : QuicStreams :=
  let bidi := (w.qsm.map id).any (·.bidi)
  { w with
    acceptList := w.acceptList ++ [id]
    acceptNodes := streamListInsertTail id w.acceptNodes
    numAcceptBidi := if bidi then w.numAcceptBidi + 1 else w.numAcceptBidi
    numAcceptUni := if bidi then w.numAcceptUni else w.numAcceptUni + 1 }

def streamMapRemoveFromAcceptQueue (clock : RxfcClock) (id : Nat) (rtt : OsslTime)
    (w : QuicStreams) : QuicStreams :=
  let bidi := (w.qsm.map id).any (·.bidi)
  let retire := Option.map fun rxfc => (rxfcOnRetire clock clock rxfc none 1 rtt).2.1
  { w with
    acceptList := w.acceptList.erase id
    acceptNodes := streamListRemove id w.acceptNodes
    numAcceptBidi := if bidi then w.numAcceptBidi - 1 else w.numAcceptBidi
    numAcceptUni := if bidi then w.numAcceptUni else w.numAcceptUni - 1
    maxStreamsBidiRxfc := if bidi then retire w.maxStreamsBidiRxfc else w.maxStreamsBidiRxfc
    maxStreamsUniRxfc := if bidi then w.maxStreamsUniRxfc else retire w.maxStreamsUniRxfc }

def streamMapGcRounds (qsHead : Option Nat) : Nat → Option Nat → QuicStreams → QuicStreams
  | fuel + 1, some qs, w =>
    if some qs ≠ qsHead then
      let qsn := streamListNext (some qs) w.gcNodes
      streamMapGcRounds qsHead fuel qsn (streamMapRelease qs w)
    else w
  | _, _, w => w

def streamMapGc (w : QuicStreams) : QuicStreams :=
  let qsHead := streamListNext none w.gcNodes
  streamMapGcRounds qsHead w.qsm.readyForGcList.length qsHead w

def streamMapSetRrStepping (stepping : Nat) (w : QuicStreams) : QuicStreams :=
  { w with rrStepping := stepping, rrCounter := 0 }

structure QuicStreamIter where
  stream : Option Nat
  firstStream : Option Nat

def quicStreamIterInit (advanceRr : Bool) (w : QuicStreams) : QuicStreamIter × QuicStreams :=
  (⟨w.qsm.rrCur, w.qsm.rrCur⟩,
    match advanceRr, w.qsm.rrCur with
    | true, some id =>
      if w.rrStepping ≤ w.rrCounter + 1 then
        { w with
          rrCounter := 0
          qsm := { w.qsm with rrCur := streamListNext (some id) w.activeNodes } }
      else { w with rrCounter := w.rrCounter + 1 }
    | _, _ => w)

def quicStreamIterNext (it : QuicStreamIter) (w : QuicStreams) : QuicStreamIter :=
  match it.stream with
  | none => it
  | some id =>
    let stream := streamListNext (some id) w.activeNodes
    { it with stream := if stream = it.firstStream then none else stream }

def iterVisits (w : QuicStreams) : Nat → QuicStreamIter → List Nat
  | 0, _ => []
  | fuel + 1, it =>
    match it.stream with
    | none => []
    | some id => id :: iterVisits w fuel (quicStreamIterNext it w)

/- The iteration goes once round the list. -/

variable {nodes : StreamNodes} {us xs : List Nat} {w : QuicStreams} {s : QuicStream}

variable {bs vs : List Nat} {c first fuel : Nat} {qsm : QuicStreamMap}

theorem streamListNext_at {n : Nat} (list : Circular nodes (us ++ n :: vs)) :
    streamListNext (some n) nodes = firstOr none (vs ++ us ++ [n]) := by
  have head := list.head
  unfold streamListNext
  rw [circular_at list, head]
  cases vs with
  | cons v vs => rfl
  | nil =>
    cases us with
    | nil => rfl
    | cons u us => rfl

theorem iterVisits_before (list : Circular w.activeNodes (us ++ c :: (bs ++ first :: vs)))
    (enough : bs.length < fuel) : iterVisits w fuel ⟨some c, some first⟩ = c :: bs := by
  induction bs generalizing us c fuel with
  | nil =>
    cases fuel with
    | zero => simp at enough
    | succ fuel =>
      rw [iterVisits, quicStreamIterNext]
      dsimp only
      rw [streamListNext_at list, nil_append, cons_append, cons_append, firstOr_cons, if_pos rfl]
      cases fuel <;> rfl
  | cons b bs ih =>
    cases fuel with
    | zero => simp at enough
    | succ fuel =>
      have other : some b ≠ some first := by
        intro is
        have nodup := (nodup_append.mp list.nodup).2.1
        rw [some.inj is, nodup_cons, cons_append, nodup_cons] at nodup
        exact nodup.2.1 (by simp)
      rw [iterVisits, quicStreamIterNext]
      dsimp only
      rw [streamListNext_at list, cons_append, cons_append, cons_append, firstOr_cons, if_neg other]
      rw [length_cons] at enough
      have shift : us ++ c :: (b :: bs ++ first :: vs) =
          (us ++ [c]) ++ b :: (bs ++ first :: vs) := by simp
      rw [shift] at list
      rw [ih list (by omega)]

theorem iterVisits_after {zs : List Nat} (list : Circular w.activeNodes (us ++ zs ++ c :: bs))
    (starts : firstOr none (zs ++ [c]) = some first) (enough : bs.length + us.length < fuel) :
    iterVisits w fuel ⟨some c, some first⟩ = c :: (bs ++ us) := by
  induction bs generalizing zs c fuel with
  | nil =>
    cases fuel with
    | zero => simp at enough
    | succ fuel =>
      rw [iterVisits, quicStreamIterNext]
      dsimp only
      rw [streamListNext_at list, nil_append, append_assoc]
      cases us with
      | nil =>
        rw [nil_append, starts, if_pos rfl]
        cases fuel <;> rfl
      | cons u us =>
        obtain ⟨rest, is⟩ : ∃ rest, zs ++ [c] = first :: rest := by
          cases all : zs ++ [c] with
          | nil => simp at all
          | cons x xs =>
            rw [all] at starts
            exact ⟨xs, by rw [some.inj starts]⟩
        have whole : u :: us ++ zs ++ [c] = [] ++ u :: (us ++ first :: rest) := by
          rw [← is]
          simp
        rw [whole] at list
        have other : some u ≠ some first := by
          intro same
          have nodup := list.nodup
          rw [some.inj same, nil_append, nodup_cons] at nodup
          exact nodup.1 (by simp)
        rw [cons_append, firstOr_cons, if_neg other]
        rw [length_nil, length_cons] at enough
        rw [iterVisits_before list (by omega)]
        rfl
  | cons b bs ih =>
    cases fuel with
    | zero => simp at enough
    | succ fuel =>
      have member : first ∈ us ++ zs ++ [c] := by
        cases firstOr_mem starts with
        | inl inside =>
          simp only [mem_append, mem_singleton] at inside ⊢
          tauto
        | inr empty => exact nomatch empty.2
      have shift : us ++ zs ++ c :: b :: bs = (us ++ zs ++ [c]) ++ b :: bs := by simp
      have other : some b ≠ some first := by
        intro is
        have nodup := list.nodup
        rw [shift, nodup_append] at nodup
        exact nodup.2.2 first member b (by simp) (some.inj is).symm
      rw [iterVisits, quicStreamIterNext]
      dsimp only
      rw [streamListNext_at list, cons_append, cons_append, firstOr_cons, if_neg other]
      rw [length_cons] at enough
      rw [shift, append_assoc us zs [c]] at list
      have still : firstOr none (zs ++ [c] ++ [b]) = some first := by
        cases zs with
        | nil => exact starts
        | cons z zs => exact starts
      rw [ih list still (by omega)]
      rfl

/- What ossl_quic_stream_map_update_state does to a stream and to the lists. -/

theorem shutdownFlushDone_kept (s : QuicStream) (qsm : QuicStreamMap) :
    ∃ flush num, shutdownFlushDone s qsm =
      ({ s with shutdownFlush := flush }, { qsm with numShutdownFlush := num }) := by
  unfold shutdownFlushDone
  split
  · exact ⟨s.shutdownFlush, qsm.numShutdownFlush, rfl⟩
  · exact ⟨false, _, rfl⟩

structure SameLists (s s' : QuicStream) (qsm qsm' : QuicStreamMap) : Prop where
  id : s'.id = s.id
  bidi : s'.bidi = s.bidi
  active : s'.active = s.active
  readyForGc : s'.readyForGc = s.readyForGc
  map : qsm'.map = qsm.map
  activeList : qsm'.activeList = qsm.activeList
  readyForGcList : qsm'.readyForGcList = qsm.readyForGcList
  rrCur : qsm'.rrCur = qsm.rrCur

theorem sameLists_refl (s : QuicStream) (qsm : QuicStreamMap) : SameLists s s qsm qsm :=
  ⟨rfl, rfl, rfl, rfl, rfl, rfl, rfl, rfl⟩

theorem flushDone_same (s : QuicStream) (qsm : QuicStreamMap) :
    SameLists s (shutdownFlushDone s qsm).1 qsm (shutdownFlushDone s qsm).2 := by
  obtain ⟨flush, num, is⟩ := shutdownFlushDone_kept s qsm
  rw [is]
  exact ⟨rfl, rfl, rfl, rfl, rfl, rfl, rfl, rfl⟩

theorem totallyAcked_same (s : QuicStream) (qsm : QuicStreamMap) :
    SameLists s (streamMapNotifyTotallyAcked s qsm).2.1 qsm
      (streamMapNotifyTotallyAcked s qsm).2.2 := by
  unfold streamMapNotifyTotallyAcked
  split
  · have done := flushDone_same { s with sendState := .dataRecvd, sstream := none } qsm
    exact { done with }
  · exact sameLists_refl s qsm

/- The lists as the flags of a stream change, and the cursor with them. -/
structure UpdateFollows (s s' : QuicStream) (qsm qsm' : QuicStreamMap) : Prop where
  id : s'.id = s.id
  bidi : s'.bidi = s.bidi
  keeps : s.readyForGc = true → s'.readyForGc = true
  map : qsm'.map = Function.update qsm.map s.id (some s')
  readyForGcList : qsm'.readyForGcList =
    if !s.readyForGc && s'.readyForGc then qsm.readyForGcList ++ [s.id] else qsm.readyForGcList
  lists : s'.active = s.active ∧ qsm'.activeList = qsm.activeList ∧ qsm'.rrCur = qsm.rrCur ∨
    s.active = false ∧ s'.active = true ∧ qsm'.activeList = qsm.activeList ++ [s.id] ∧
      qsm'.rrCur = (if qsm.rrCur = none then some s.id else qsm.rrCur) ∨
    s.active = true ∧ s'.active = false ∧ qsm'.activeList = qsm.activeList.erase s.id ∧
      qsm'.rrCur =
        (let rrCur := if qsm.rrCur = some s.id then activeNext qsm.activeList s.id else qsm.rrCur
        if rrCur = some s.id then none else rrCur)

theorem mark_follows {s' : QuicStream} {qsm' : QuicStreamMap} (same : s'.active = s.active)
    (id : s'.id = s.id) (bidi : s'.bidi = s.bidi)
    (keeps : s.readyForGc = true → s'.readyForGc = true) (map : qsm'.map = qsm.map)
    (activeList : qsm'.activeList = qsm.activeList) (rrCur : qsm'.rrCur = qsm.rrCur)
    (readyForGcList : qsm'.readyForGcList =
      if !s.readyForGc && s'.readyForGc then qsm.readyForGcList ++ [s.id] else qsm.readyForGcList)
    (should : Bool) : ∃ after, UpdateFollows s after qsm
      (if should then streamMapMarkActive s' (putStream s' qsm')
        else streamMapMarkInactive s' (putStream s' qsm')) := by
  cases should with
  | true =>
    rw [if_pos rfl, streamMapMarkActive]
    by_cases active : s'.active = true
    · rw [if_pos active]
      refine ⟨s', id, bidi, keeps, ?_, readyForGcList, .inl ⟨same, activeList, rrCur⟩⟩
      rw [putStream, map, id]
    · rw [if_neg active]
      have inactive : s.active = false := by
        rw [← same]
        exact not_eq_true _ ▸ active
      refine ⟨{ s' with active := true }, id, bidi, keeps, ?_, readyForGcList,
        .inr (.inl ⟨inactive, rfl, ?_, ?_⟩)⟩
      · simp only [putStream]
        rw [Function.update_idem, map, id]
      · simp only [putStream]
        rw [activeList, id]
      · simp only [putStream, rrCur, id]
  | false =>
    rw [if_neg Bool.false_ne_true, streamMapMarkInactive]
    by_cases active : s'.active = true
    · rw [if_neg (not_not_intro active)]
      refine ⟨{ s' with active := false }, id, bidi, keeps, ?_, readyForGcList,
        .inr (.inr ⟨same ▸ active, rfl, ?_, ?_⟩)⟩
      · simp only [putStream]
        rw [Function.update_idem, map, id]
      · simp only [putStream]
        rw [activeList, id]
      · simp only [putStream, rrCur, activeList, id]
    · rw [if_pos active]
      refine ⟨s', id, bidi, keeps, ?_, readyForGcList, .inl ⟨same, activeList, rrCur⟩⟩
      rw [putStream, map, id]

theorem streamMapUpdateState_follows (s : QuicStream) (qsm : QuicStreamMap) :
    ∃ after, UpdateFollows s after qsm (streamMapUpdateState s qsm) := by
  unfold streamMapUpdateState
  dsimp only
  generalize notified : (if s.sendState = .dataSent ∧ sstreamTotallyAcked s then
      (streamMapNotifyTotallyAcked s qsm).2
    else if s.shutdownFlush ∧ s.sendState = .send ∧ sstreamTotallyAcked s then
      shutdownFlushDone s qsm
    else (s, qsm)) = out
  have kept : SameLists s out.1 qsm out.2 := by
    rw [← notified]
    split
    · exact totallyAcked_same s qsm
    · split
      · exact flushDone_same s qsm
      · exact sameLists_refl s qsm
  by_cases collected : ¬ out.1.readyForGc = true ∧ qsmReadyForGc out.1 = true
  · rw [if_pos collected]
    have before : s.readyForGc = false := by
      rw [← kept.readyForGc]
      exact not_eq_true _ ▸ collected.1
    apply mark_follows
    · exact kept.active
    · exact kept.id
    · exact kept.bidi
    · exact fun _ => rfl
    · exact kept.map
    · exact kept.activeList
    · exact kept.rrCur
    · rw [before, kept.readyForGcList, kept.id]
      rfl
  · rw [if_neg collected]
    apply mark_follows
    · exact kept.active
    · exact kept.id
    · exact kept.bidi
    · exact fun ready => by rw [kept.readyForGc]; exact ready
    · exact kept.map
    · exact kept.activeList
    · exact kept.rrCur
    · rw [kept.readyForGc, kept.readyForGcList]
      cases s.readyForGc <;> rfl

/- A run of the calls, with the rest of the program between them. -/
inductive StreamsOp where
  | alloc (mem : Bool) (id : Nat) (serverInit bidi : Bool)
  | elsewhere (s : QuicStream)
  | connection (connTxfc : QuicTxfc)
  | updateState (id : Nat)
  | pushAcceptQueue (id : Nat)
  | removeFromAcceptQueue (clock : RxfcClock) (id : Nat) (rtt : OsslTime)
  | release (id : Nat)
  | gc
  | setRrStepping (stepping : Nat)
  | iterInit (advanceRr : Bool)

def applyStreams (w : QuicStreams) : StreamsOp → QuicStreams
  | .alloc mem id serverInit bidi => streamsAlloc mem id serverInit bidi w
  | .elsewhere s => { w with qsm := putStream s w.qsm }
  | .connection connTxfc => { w with qsm := { w.qsm with connTxfc } }
  | .updateState id => streamsUpdateState id w
  | .pushAcceptQueue id => streamMapPushAcceptQueue id w
  | .removeFromAcceptQueue clock id rtt => streamMapRemoveFromAcceptQueue clock id rtt w
  | .release id => streamMapRelease id w
  | .gc => streamMapGc w
  | .setRrStepping stepping => streamMapSetRrStepping stepping w
  | .iterInit advanceRr => (quicStreamIterInit advanceRr w).2

/- Streams are named while they are in the map; the rest of the program leaves what belongs
   to the lists alone; a stream is pushed when it is not queued and removed when it is. -/
def StreamsOpValid (w : QuicStreams) : StreamsOp → Prop
  | .elsewhere s => ∃ before, w.qsm.map s.id = some before ∧ s.bidi = before.bidi ∧
      s.active = before.active ∧ s.readyForGc = before.readyForGc
  | .updateState id => (w.qsm.map id).isSome
  | .pushAcceptQueue id => (w.qsm.map id).isSome ∧ id ∉ w.acceptList
  | .removeFromAcceptQueue _ id _ => id ∈ w.acceptList
  | .release id => (w.qsm.map id).isSome
  | _ => True

def ReleaseApart (w : QuicStreams) : StreamsOp → Prop
  | .release id => id ∉ w.acceptList ∧ w.qsm.rrCur ≠ some id
  | _ => True

def streamIsBidi (w : QuicStreams) (id : Nat) : Bool := (w.qsm.map id).any (·.bidi)

structure StreamsHold (w : QuicStreams) : Prop where
  active : Circular w.activeNodes w.qsm.activeList
  accept : Circular w.acceptNodes w.acceptList
  gc : Circular w.gcNodes w.qsm.readyForGcList
  ids : ∀ id s, w.qsm.map id = some s → s.id = id
  activeFlag : ∀ id, id ∈ w.qsm.activeList ↔ ∃ s, w.qsm.map id = some s ∧ s.active = true
  gcFlag : ∀ id, id ∈ w.qsm.readyForGcList ↔ ∃ s, w.qsm.map id = some s ∧ s.readyForGc = true
  queued : ∀ id ∈ w.acceptList, (w.qsm.map id).isSome
  cursorEmpty : w.qsm.rrCur = none ↔ w.qsm.activeList = []
  cursor : ∀ id, w.qsm.rrCur = some id → id ∈ w.qsm.activeList
  bidi : w.numAcceptBidi = w.acceptList.countP (streamIsBidi w)
  uni : w.numAcceptUni = w.acceptList.countP (fun id => !streamIsBidi w id)

theorem streamMapInit_holds (isServer : Bool) (getStreamLimit : Option (Bool → Nat))
    (bidi uni : Option QuicRxfc) (connTxfc : QuicTxfc) :
    StreamsHold (streamMapInit isServer getStreamLimit bidi uni connTxfc) := by
  refine ⟨circular_init, circular_init, circular_init, ?_, ?_, ?_, ?_, ?_, ?_, rfl, rfl⟩
  · exact fun _ _ never => nomatch never
  · exact fun _ => ⟨(fun never => nomatch never), (fun ⟨_, never, _⟩ => nomatch never)⟩
  · exact fun _ => ⟨(fun never => nomatch never), (fun ⟨_, never, _⟩ => nomatch never)⟩
  · exact fun _ never => nomatch never
  · exact ⟨fun _ => rfl, fun _ => rfl⟩
  · exact fun _ never => nomatch never

theorem activeNext_mem (list : Circular nodes xs) {id : Nat} (member : id ∈ xs) :
    ∃ next ∈ xs, activeNext xs id = some next ∧ (next = id → xs = [id]) := by
  rw [← streamListNext_spec list member]
  obtain ⟨us, vs, rfl⟩ := append_of_mem member
  rw [streamListNext_at list]
  have absent := (nodup_cons.mp (perm_middle.nodup_iff.mp list.nodup)).1
  cases vs with
  | cons v vs =>
    refine ⟨v, by simp, rfl, ?_⟩
    intro is
    rw [is] at absent
    simp at absent
  | nil =>
    cases us with
    | nil => exact ⟨id, by simp, rfl, fun _ => rfl⟩
    | cons u us =>
      refine ⟨u, by simp, rfl, ?_⟩
      intro is
      rw [is] at absent
      simp at absent

/-- A change of a stream's fields apart from its flags keeps everything. -/
theorem holds_put (holds : StreamsHold w) {before : QuicStream}
    (known : w.qsm.map s.id = some before) (bidi : s.bidi = before.bidi)
    (active : s.active = before.active) (ready : s.readyForGc = before.readyForGc) :
    StreamsHold { w with qsm := putStream s w.qsm } := by
  have here : (putStream s w.qsm).map s.id = some s := Function.update_self ..
  have there : ∀ id, id ≠ s.id → (putStream s w.qsm).map id = w.qsm.map id :=
    fun id other => Function.update_of_ne other ..
  have same : streamIsBidi { w with qsm := putStream s w.qsm } = streamIsBidi w := by
    funext id
    unfold streamIsBidi
    by_cases is : id = s.id
    · rw [is, here, known]
      exact bidi
    · rw [there id is]
  have flags : ∀ (flag : QuicStream → Bool), flag s = flag before → ∀ id,
      ((∃ t, (putStream s w.qsm).map id = some t ∧ flag t = true) ↔
        ∃ t, w.qsm.map id = some t ∧ flag t = true) := by
    intro flag equal id
    by_cases is : id = s.id
    · rw [is, here, known]
      simp [equal]
    · rw [there id is]
  refine ⟨holds.active, holds.accept, holds.gc, ?_, ?_, ?_, ?_, holds.cursorEmpty, holds.cursor, ?_,
    ?_⟩
  · intro id t found
    by_cases is : id = s.id
    · rw [is] at found ⊢
      rw [here] at found
      rw [some.inj found]
    · rw [there id is] at found
      exact holds.ids id t found
  · intro id
    rw [flags (·.active) active id]
    exact holds.activeFlag id
  · intro id
    rw [flags (·.readyForGc) ready id]
    exact holds.gcFlag id
  · intro id member
    by_cases is : id = s.id
    · rw [is, here]
      rfl
    · rw [there id is]
      exact holds.queued id member
  · rw [same]
    exact holds.bidi
  · rw [same]
    exact holds.uni

theorem streamsAlloc_holds (holds : StreamsHold w) (mem : Bool) (id : Nat)
    (serverInit bidi : Bool) : StreamsHold (streamsAlloc mem id serverInit bidi w) := by
  unfold streamsAlloc streamMapAlloc
  cases found : w.qsm.map id with
  | some s => exact holds
  | none =>
    dsimp only
    by_cases full : mem = false
    · rw [if_pos full]
      exact holds
    rw [if_neg full]
    dsimp only
    generalize made : QuicStream.mk id _ _ _ _ _ _ _ _ _ _ _ _ _ _ _ _ _ _ _ _ = s
    have sid : s.id = id := by rw [← made]
    have inactive : s.active = false := by rw [← made]
    have notReady : s.readyForGc = false := by rw [← made]
    subst sid
    have here : (putStream s w.qsm).map s.id = some s := Function.update_self ..
    have there : ∀ id, id ≠ s.id → (putStream s w.qsm).map id = w.qsm.map id :=
      fun id other => Function.update_of_ne other ..
    have notQueued : s.id ∉ w.acceptList := by
      intro member
      have := holds.queued s.id member
      rw [found] at this
      exact nomatch this
    have flags : ∀ (flag : QuicStream → Bool), flag s = false → ∀ id,
        ((∃ t, (putStream s w.qsm).map id = some t ∧ flag t = true) ↔
          ∃ t, w.qsm.map id = some t ∧ flag t = true) := by
      intro flag clear id
      by_cases is : id = s.id
      · rw [is, here, found]
        simp [clear]
      · rw [there id is]
    have counts : ∀ (p : Bool → Bool), w.acceptList.countP (fun id => p (streamIsBidi w id)) =
        w.acceptList.countP (fun id => p (streamIsBidi { w with qsm := putStream s w.qsm } id)) := by
      intro p
      apply countP_congr
      intro id member
      have other : id ≠ s.id := ne_of_mem_of_not_mem member notQueued
      unfold streamIsBidi
      rw [there id other]
    refine ⟨holds.active, holds.accept, holds.gc, ?_, ?_, ?_, ?_, holds.cursorEmpty, holds.cursor,
      holds.bidi.trans (counts fun bidi => bidi), holds.uni.trans (counts not)⟩
    · intro id t known
      by_cases is : id = s.id
      · rw [is] at known ⊢
        rw [here] at known
        rw [some.inj known]
      · rw [there id is] at known
        exact holds.ids id t known
    · intro id
      rw [flags (·.active) inactive id]
      exact holds.activeFlag id
    · intro id
      rw [flags (·.readyForGc) notReady id]
      exact holds.gcFlag id
    · intro id member
      rw [there id (ne_of_mem_of_not_mem member notQueued)]
      exact holds.queued id member

theorem followFlag_holds (list : Circular nodes xs) {before after : Bool} {id : Nat}
    (flag : id ∈ xs ↔ before = true) : Circular (followFlag before after id nodes)
      (if !before && after then xs ++ [id] else if before && !after then xs.erase id else xs) := by
  cases before with
  | false =>
    cases after with
    | false => exact list
    | true => exact streamListInsertTail_spec list (fun member => nomatch flag.mp member)
  | true =>
    cases after with
    | false => exact streamListRemove_spec list (flag.mpr rfl)
    | true => exact list

theorem mem_append_other {id x : Nat} (other : x ≠ id) : x ∈ xs ++ [id] ↔ x ∈ xs := by
  rw [mem_append, mem_singleton]
  exact or_iff_left other

/-- The cursor stays on the list, and is null when the list is empty. -/
theorem cursor_follows (holds : StreamsHold w) {after : QuicStream}
    (follows : UpdateFollows s after w.qsm qsm) (flag : s.id ∈ w.qsm.activeList ↔ s.active = true) :
    (qsm.rrCur = none ↔ qsm.activeList = []) ∧ ∀ id, qsm.rrCur = some id → id ∈ qsm.activeList := by
  rcases follows.lists with ⟨_, list, cursor⟩ | ⟨_, _, list, cursor⟩ | ⟨on, _, list, cursor⟩
  · rw [list, cursor]
    exact ⟨holds.cursorEmpty, holds.cursor⟩
  · rw [list, cursor]
    cases before : w.qsm.rrCur with
    | none => simp
    | some id =>
      have member := holds.cursor id before
      refine ⟨by simp, ?_⟩
      intro x is
      rw [← some.inj is]
      exact mem_append_left _ member
  · have member := flag.mpr on
    obtain ⟨next, inside, is, alone⟩ := activeNext_mem holds.active member
    rw [list, cursor]
    by_cases here : w.qsm.rrCur = some s.id
    · rw [if_pos here, is]
      by_cases own : next = s.id
      · rw [if_pos (by rw [own]), alone own]
        simp
      · have kept : next ∈ w.qsm.activeList.erase s.id := (mem_erase_of_ne own).mpr inside
        rw [if_neg (by simpa using own)]
        refine ⟨?_, ?_⟩
        · simp only [reduceCtorEq, false_iff]
          exact ne_nil_of_mem kept
        · intro x same
          rw [← some.inj same]
          exact kept
    · rw [if_neg here, if_neg here]
      cases before : w.qsm.rrCur with
      | none =>
        rw [holds.cursorEmpty.mp before] at member
        exact nomatch member
      | some id =>
        rw [before] at here
        have other : id ≠ s.id := by simpa using here
        have kept : id ∈ w.qsm.activeList.erase s.id :=
          (mem_erase_of_ne other).mpr (holds.cursor id before)
        refine ⟨?_, ?_⟩
        · simp only [reduceCtorEq, false_iff]
          exact ne_nil_of_mem kept
        · intro x same
          rw [← some.inj same]
          exact kept

theorem streamsUpdateState_holds (holds : StreamsHold w) (id : Nat) :
    StreamsHold (streamsUpdateState id w) := by
  unfold streamsUpdateState
  cases found : w.qsm.map id with
  | none => exact holds
  | some s =>
    obtain rfl := holds.ids id s found
    obtain ⟨after, follows⟩ := streamMapUpdateState_follows s w.qsm
    have here : (streamMapUpdateState s w.qsm).map s.id = some after := by
      rw [follows.map, Function.update_self]
    have there : ∀ id, id ≠ s.id → (streamMapUpdateState s w.qsm).map id = w.qsm.map id := by
      intro id other
      rw [follows.map, Function.update_of_ne other]
    dsimp only
    rw [here]
    generalize streamMapUpdateState s w.qsm = qsm at follows here there ⊢
    have activeBefore : s.id ∈ w.qsm.activeList ↔ s.active = true := by
      rw [holds.activeFlag, found]
      simp
    have gcBefore : s.id ∈ w.qsm.readyForGcList ↔ s.readyForGc = true := by
      rw [holds.gcFlag, found]
      simp
    have activeList : qsm.activeList =
        if !s.active && after.active then w.qsm.activeList ++ [s.id]
        else if s.active && !after.active then w.qsm.activeList.erase s.id
        else w.qsm.activeList := by
      rcases follows.lists with ⟨same, list, _⟩ | ⟨off, on, list, _⟩ | ⟨on, off, list, _⟩
      · rw [list, same]
        cases s.active <;> rfl
      · rw [list, off, on]
        rfl
      · rw [list, on, off]
        rfl
    have gcList : qsm.readyForGcList =
        if !s.readyForGc && after.readyForGc then w.qsm.readyForGcList ++ [s.id]
        else if s.readyForGc && !after.readyForGc then w.qsm.readyForGcList.erase s.id
        else w.qsm.readyForGcList := by
      rw [follows.readyForGcList]
      cases ready : s.readyForGc with
      | false => simp
      | true => simp [follows.keeps ready]
    have same : streamIsBidi { w with qsm } = streamIsBidi w := by
      funext id
      unfold streamIsBidi
      by_cases is : id = s.id
      · rw [is, here, found]
        exact follows.bidi
      · rw [there id is]
    have flags : ∀ (xs : List Nat) (flag : QuicStream → Bool), xs.Nodup →
        (∀ id, id ∈ xs ↔ ∃ t, w.qsm.map id = some t ∧ flag t = true) → ∀ id,
        (id ∈ (if !flag s && flag after then xs ++ [s.id]
          else if flag s && !flag after then xs.erase s.id else xs) ↔
          ∃ t, qsm.map id = some t ∧ flag t = true) := by
      intro xs flag nodup known id
      by_cases is : id = s.id
      · have now := known s.id
        rw [found] at now
        rw [is, here]
        cases before : flag s with
        | false =>
          have absent : s.id ∉ xs := by
            rw [now]
            simp [before]
          cases flagged : flag after with
          | false => simp [absent, flagged]
          | true => simp [flagged]
        | true =>
          have member : s.id ∈ xs := by
            rw [now]
            simp [before]
          cases flagged : flag after with
          | false => simp [flagged, nodup.mem_erase_iff]
          | true => simp [member, flagged]
      · rw [there id is, ← known id]
        split
        · exact mem_append_other is
        · split
          · exact mem_erase_of_ne is
          · exact Iff.rfl
    refine ⟨?_, holds.accept, ?_, ?_, ?_, ?_, ?_, ?_, ?_, ?_, ?_⟩
    · rw [activeList]
      exact followFlag_holds holds.active activeBefore
    · rw [gcList]
      exact followFlag_holds holds.gc gcBefore
    · intro id t known
      by_cases is : id = s.id
      · rw [is, here] at known
        rw [is, ← some.inj known]
        exact follows.id
      · rw [there id is] at known
        exact holds.ids id t known
    · rw [activeList]
      exact flags _ (·.active) holds.active.nodup holds.activeFlag
    · rw [gcList]
      exact flags _ (·.readyForGc) holds.gc.nodup holds.gcFlag
    · intro id member
      by_cases is : id = s.id
      · rw [is, here]
        rfl
      · rw [there id is]
        exact holds.queued id member
    · exact (cursor_follows holds follows activeBefore).1
    · exact (cursor_follows holds follows activeBefore).2
    · rw [holds.bidi]
      exact congrArg (fun p => w.acceptList.countP p) same.symm
    · rw [holds.uni]
      exact congrArg (fun p : Nat → Bool => w.acceptList.countP fun id => !p id) same.symm

theorem streamMapPush_holds (holds : StreamsHold w) {id : Nat} (known : (w.qsm.map id).isSome)
    (absent : id ∉ w.acceptList) : StreamsHold (streamMapPushAcceptQueue id w) := by
  refine ⟨holds.active, streamListInsertTail_spec holds.accept absent, holds.gc, holds.ids,
    holds.activeFlag, holds.gcFlag, ?_, holds.cursorEmpty, holds.cursor, ?_, ?_⟩
  · intro x member
    cases mem_append.mp member with
    | inl before => exact holds.queued x before
    | inr here =>
      rw [mem_singleton.mp here]
      exact known
  · unfold streamMapPushAcceptQueue
    rw [countP_append, countP_singleton, holds.bidi]
    show (if streamIsBidi w id = true then _ else _) = _ + if streamIsBidi w id = true then 1 else 0
    split <;> rfl
  · unfold streamMapPushAcceptQueue
    rw [countP_append, countP_singleton, holds.uni]
    show (if streamIsBidi w id = true then _ else _) =
      _ + if (!streamIsBidi w id) = true then 1 else 0
    cases streamIsBidi w id <;> rfl

theorem streamMapRemove_holds (holds : StreamsHold w) (clock : RxfcClock) (rtt : OsslTime)
    {id : Nat} (member : id ∈ w.acceptList) :
    StreamsHold (streamMapRemoveFromAcceptQueue clock id rtt w) := by
  refine ⟨holds.active, streamListRemove_spec holds.accept member, holds.gc, holds.ids,
    holds.activeFlag, holds.gcFlag, fun x inside => holds.queued x (mem_of_mem_erase inside),
    holds.cursorEmpty, holds.cursor, ?_, ?_⟩
  · have counted := (perm_cons_erase member).countP_eq (streamIsBidi w)
    rw [countP_cons] at counted
    show (if streamIsBidi w id = true then w.numAcceptBidi - 1 else w.numAcceptBidi) =
      (w.acceptList.erase id).countP (streamIsBidi w)
    rw [holds.bidi, counted]
    split <;> omega
  · have counted := (perm_cons_erase member).countP_eq (fun id => !streamIsBidi w id)
    rw [countP_cons] at counted
    show (if streamIsBidi w id = true then w.numAcceptUni else w.numAcceptUni - 1) =
      (w.acceptList.erase id).countP (fun id => !streamIsBidi w id)
    rw [holds.uni, counted]
    cases streamIsBidi w id <;> simp

theorem streamMapRelease_holds (holds : StreamsHold w) {id : Nat} (notQueued : id ∉ w.acceptList)
    (apart : w.qsm.rrCur ≠ some id) : StreamsHold (streamMapRelease id w) := by
  have idle : ¬ streamLinked id w.acceptNodes = true :=
    mt (streamLinked_iff holds.accept id).mp notQueued
  have released : streamMapRelease id w =
      { w with
        qsm :=
          { w.qsm with
            map := Function.update w.qsm.map id none
            activeList := w.qsm.activeList.erase id
            readyForGcList := w.qsm.readyForGcList.erase id }
        activeNodes :=
          if streamLinked id w.activeNodes then streamListRemove id w.activeNodes
          else w.activeNodes
        gcNodes :=
          if streamLinked id w.gcNodes then streamListRemove id w.gcNodes else w.gcNodes } := by
    unfold streamMapRelease
    by_cases active : streamLinked id w.activeNodes = true
    · by_cases gc : streamLinked id w.gcNodes = true
      · simp only [active, idle, gc, if_true, if_false, false_eq_true]
      · have kept := erase_of_not_mem (mt (streamLinked_iff holds.gc id).mpr gc)
        simp only [active, idle, gc, if_true, if_false, false_eq_true, kept]
    · have same := erase_of_not_mem (mt (streamLinked_iff holds.active id).mpr active)
      by_cases gc : streamLinked id w.gcNodes = true
      · simp only [active, idle, gc, if_true, if_false, false_eq_true, same]
      · have kept := erase_of_not_mem (mt (streamLinked_iff holds.gc id).mpr gc)
        simp only [active, idle, gc, if_false, false_eq_true, same, kept]
  have removal : ∀ {nodes : StreamNodes} {xs : List Nat}, Circular nodes xs →
      Circular (if streamLinked id nodes then streamListRemove id nodes else nodes)
        (xs.erase id) := by
    intro nodes xs list
    by_cases linked : streamLinked id nodes = true
    · rw [if_pos linked]
      exact streamListRemove_spec list ((streamLinked_iff list id).mp linked)
    · rw [if_neg linked, erase_of_not_mem (mt (streamLinked_iff list id).mpr linked)]
      exact list
  have gone : ∀ x t, Function.update w.qsm.map id none x = some t →
      x ≠ id ∧ w.qsm.map x = some t := by
    intro x t found
    by_cases is : x = id
    · rw [is, Function.update_self] at found
      exact nomatch found
    · rw [Function.update_of_ne is] at found
      exact ⟨is, found⟩
  have there : ∀ x, x ≠ id → Function.update w.qsm.map id none x = w.qsm.map x :=
    fun x other => Function.update_of_ne other ..
  have flags : ∀ (xs : List Nat) (flag : QuicStream → Bool), xs.Nodup →
      (∀ x, x ∈ xs ↔ ∃ t, w.qsm.map x = some t ∧ flag t = true) → ∀ x,
      (x ∈ xs.erase id ↔ ∃ t, Function.update w.qsm.map id none x = some t ∧ flag t = true) := by
    intro xs flag nodup known x
    rw [nodup.mem_erase_iff, known]
    constructor
    · rintro ⟨other, t, found, set⟩
      exact ⟨t, by rw [there x other]; exact found, set⟩
    · rintro ⟨t, found, set⟩
      obtain ⟨other, before⟩ := gone x t found
      exact ⟨other, t, before, set⟩
  have counts : ∀ (p : Bool → Bool), w.acceptList.countP (fun x => p (streamIsBidi w x)) =
      w.acceptList.countP (fun x => p ((Function.update w.qsm.map id none x).any (·.bidi))) := by
    intro p
    apply countP_congr
    intro x member
    rw [there x (ne_of_mem_of_not_mem member notQueued)]
    rfl
  rw [released]
  refine ⟨removal holds.active, holds.accept, removal holds.gc, ?_,
    flags _ (·.active) holds.active.nodup holds.activeFlag,
    flags _ (·.readyForGc) holds.gc.nodup holds.gcFlag, ?_, ?_, ?_,
    holds.bidi.trans (counts fun bidi => bidi),
    holds.uni.trans (counts not)⟩
  · exact fun x t found => holds.ids x t (gone x t found).2
  · intro x member
    dsimp only
    rw [there x (ne_of_mem_of_not_mem member notQueued)]
    exact holds.queued x member
  · dsimp only
    constructor
    · intro none
      rw [holds.cursorEmpty.mp none]
      rfl
    · intro empty
      cases cursor : w.qsm.rrCur with
      | none => rfl
      | some x =>
        have other : x ≠ id := fun is => apart (by rw [cursor, is])
        have kept := (mem_erase_of_ne other).mpr (holds.cursor x cursor)
        rw [empty] at kept
        exact nomatch kept
  · intro x cursor
    have other : x ≠ id := fun is => apart (by rw [← is]; exact cursor)
    exact (mem_erase_of_ne other).mpr (holds.cursor x cursor)

theorem streamMapGcRounds_stop (head : Option Nat) (rounds : Nat) (w : QuicStreams) :
    streamMapGcRounds head rounds head w = w := by
  cases rounds with
  | zero => rfl
  | succ rounds =>
    cases head with
    | none => rfl
    | some qs =>
      rw [streamMapGcRounds]
      exact if_neg (not_not_intro rfl)

theorem streamMapGc_eq (w : QuicStreams) : streamMapGc w = w := streamMapGcRounds_stop _ _ w

theorem quicStreamIterInit_holds (holds : StreamsHold w) (advanceRr : Bool) :
    StreamsHold (quicStreamIterInit advanceRr w).2 := by
  unfold quicStreamIterInit
  cases advanceRr with
  | false => exact holds
  | true =>
    cases cursor : w.qsm.rrCur with
    | none => exact holds
    | some id =>
      dsimp only
      split
      · have member := holds.cursor id cursor
        obtain ⟨next, inside, is, _⟩ := activeNext_mem holds.active member
        rw [streamListNext_spec holds.active member, is]
        refine { holds with cursorEmpty := ?_, cursor := ?_ }
        · simp only [reduceCtorEq, false_iff]
          exact ne_nil_of_mem inside
        · intro x same
          rw [← some.inj same]
          exact inside
      · exact { holds with }

theorem applyStreams_holds (w : QuicStreams) (op : StreamsOp) (holds : StreamsHold w)
    (ok : StreamsOpValid w op ∧ ReleaseApart w op) : StreamsHold (applyStreams w op) := by
  obtain ⟨valid, apart⟩ := ok
  cases op with
  | alloc mem id serverInit bidi => exact streamsAlloc_holds holds mem id serverInit bidi
  | elsewhere s =>
    obtain ⟨before, known, bidi, active, ready⟩ := valid
    exact holds_put holds known bidi active ready
  | connection connTxfc =>
    exact { holds with }
  | updateState id => exact streamsUpdateState_holds holds id
  | pushAcceptQueue id => exact streamMapPush_holds holds valid.1 valid.2
  | removeFromAcceptQueue clock id rtt => exact streamMapRemove_holds holds clock rtt valid
  | release id => exact streamMapRelease_holds holds apart.1 apart.2
  | gc =>
    rw [applyStreams, streamMapGc_eq]
    exact holds
  | setRrStepping stepping =>
    exact { holds with }
  | iterInit advanceRr => exact quicStreamIterInit_holds holds advanceRr

/- The flag of a stream says whether it is linked; the cursor is null when the list head points to
   itself, and else on a linked stream; the counters are those of the queue; an iteration comes once
   to every active stream. -/
structure StreamsMirror (w : QuicStreams) : Prop where
  active : Circular w.activeNodes w.qsm.activeList
  accept : Circular w.acceptNodes w.acceptList
  flag : ∀ id s, w.qsm.map id = some s → (s.active = true ↔ streamLinked id w.activeNodes = true)
  cursorEmpty : w.qsm.rrCur = none ↔ (w.activeNodes none).next = some none
  cursor : ∀ id, w.qsm.rrCur = some id →
    (w.qsm.map id).isSome ∧ streamLinked id w.activeNodes = true
  bidi : w.numAcceptBidi = w.acceptList.countP (streamIsBidi w)
  uni : w.numAcceptUni = w.acceptList.countP (fun id => !streamIsBidi w id)
  visits : ∀ advanceRr fuel, w.qsm.activeList.length < fuel →
    let started := quicStreamIterInit advanceRr w
    (iterVisits started.2 fuel started.1).Perm w.qsm.activeList

theorem iterVisits_nodes {w' : QuicStreams} (same : w'.activeNodes = w.activeNodes) (fuel : Nat)
    (it : QuicStreamIter) : iterVisits w' fuel it = iterVisits w fuel it := by
  induction fuel generalizing it with
  | zero => rfl
  | succ fuel ih =>
    rw [iterVisits, iterVisits]
    cases it.stream with
    | none => rfl
    | some id =>
      have next : quicStreamIterNext it w' = quicStreamIterNext it w := by
        unfold quicStreamIterNext
        rw [same]
      rw [next, ih]

theorem holds_mirror (holds : StreamsHold w) : StreamsMirror w := by
  refine ⟨holds.active, holds.accept, ?_, ?_, ?_, holds.bidi, holds.uni, ?_⟩
  · intro id s found
    rw [streamLinked_iff holds.active, holds.activeFlag, found]
    simp
  · rw [holds.cursorEmpty, holds.active.head]
    exact firstOr_head.symm
  · intro id cursor
    have member := holds.cursor id cursor
    obtain ⟨s, found, _⟩ := (holds.activeFlag id).mp member
    exact ⟨by rw [found]; rfl, (streamLinked_iff holds.active id).mpr member⟩
  · intro advanceRr fuel enough
    have nodes : (quicStreamIterInit advanceRr w).2.activeNodes = w.activeNodes := by
      unfold quicStreamIterInit
      split
      · split <;> rfl
      · rfl
    dsimp only
    rw [iterVisits_nodes nodes]
    show (iterVisits w fuel ⟨w.qsm.rrCur, w.qsm.rrCur⟩).Perm _
    cases cursor : w.qsm.rrCur with
    | none =>
      rw [holds.cursorEmpty.mp cursor]
      cases fuel <;> exact List.Perm.refl _
    | some id =>
      obtain ⟨us, vs, is⟩ := append_of_mem (holds.cursor id cursor)
      have list := holds.active
      rw [is] at list enough ⊢
      rw [← append_nil us] at list
      rw [length_append, length_cons] at enough
      rw [iterVisits_after list rfl (by omega)]
      exact (@perm_append_comm _ (id :: vs) us)

theorem release_fields (w : QuicStreams) (id : Nat) :
    (streamMapRelease id w).qsm.rrCur = w.qsm.rrCur ∧ (streamMapRelease id w).qsm.map id = none ∧
      (streamMapRelease id w).numAcceptBidi = w.numAcceptBidi ∧
      (streamMapRelease id w).numAcceptUni = w.numAcceptUni ∧
      (streamMapRelease id w).acceptList =
        if streamLinked id w.acceptNodes then w.acceptList.erase id else w.acceptList := by
  unfold streamMapRelease
  by_cases active : streamLinked id w.activeNodes = true <;>
    by_cases queued : streamLinked id w.acceptNodes = true <;>
      by_cases collected : streamLinked id w.gcNodes = true <;>
        simp [active, queued, collected]

/-- If everything still mirrors the streams after a release, the stream was neither queued nor under
    the cursor: its count or the cursor would have been left behind. -/
theorem release_apart {id : Nat} (holds : StreamsHold w)
    (mirrors : StreamsMirror (streamMapRelease id w)) :
    id ∉ w.acceptList ∧ w.qsm.rrCur ≠ some id := by
  obtain ⟨cursor, gone, bidi, uni, queue⟩ := release_fields w id
  constructor
  · intro member
    have after := length_eq_countP_add_countP (streamIsBidi (streamMapRelease id w))
      (l := (streamMapRelease id w).acceptList)
    have before := length_eq_countP_add_countP (streamIsBidi w) (l := w.acceptList)
    have countsBidi := mirrors.bidi
    have countsUni := mirrors.uni
    rw [bidi, holds.bidi] at countsBidi
    rw [uni, holds.uni] at countsUni
    have fewer := length_erase_of_mem member
    have some_ := length_pos_of_mem member
    simp only [Bool.not_eq_true, Bool.decide_eq_false] at after before
    rw [← countsBidi, ← countsUni, ← before, queue,
      if_pos ((streamLinked_iff holds.accept id).mpr member)] at after
    omega
  · intro is
    have known := (mirrors.cursor id (cursor.trans is)).1
    rw [gone] at known
    contradiction

/-- The lists, the cursor and the counters mirror the streams all along a run exactly if no stream is
    released that is queued or under the cursor. -/
theorem stream_map_mirrors (isServer : Bool) (getStreamLimit : Option (Bool → Nat))
    (bidi uni : Option QuicRxfc) (connTxfc : QuicTxfc) {ops : List StreamsOp}
    (valid : Admissible applyStreams StreamsOpValid
      (streamMapInit isServer getStreamLimit bidi uni connTxfc) ops) :
    (∀ w ∈ visited applyStreams (streamMapInit isServer getStreamLimit bidi uni connTxfc) ops,
      StreamsMirror w) ↔
      Admissible applyStreams ReleaseApart
        (streamMapInit isServer getStreamLimit bidi uni connTxfc) ops := by
  have start := streamMapInit_holds isServer getStreamLimit bidi uni connTxfc
  have weaken (w : QuicStreams) (holds : StreamsHold w) : StreamsMirror w := holds_mirror holds
  have keeps (w : QuicStreams) (op : StreamsOp) (holds : StreamsHold w)
      (valid : StreamsOpValid w op) (apart : ReleaseApart w op) : StreamsHold (applyStreams w op) :=
    applyStreams_holds w op holds ⟨valid, apart⟩
  apply visited_weak_iff weaken keeps _ start valid
  intro w op holds _ mirrors
  cases op with
  | release id => exact release_apart holds mirrors
  | _ => trivial

def sampleWanting : QuicStream :=
  { id := 0, stopSendingAec := 0, resetStreamAec := 0, sendFinalSize := maxU64, sstream := none
    txfc := txfcInit, rxfc := rxfcInit 0 0, serverInit := false, bidi := true, sendState := .ready
    recvState := .recv, active := false, stopSending := true, peerStopSending := false
    wantMaxStreamData := false, wantStopSending := true, wantResetStream := false
    ackedStopSending := false, deleted := false, readyForGc := false, shutdownFlush := false }

def sampleStreams : QuicStreams := streamMapInit true none none none txfcInit

def queuedRelease : List StreamsOp := [.alloc true 0 false true, .pushAcceptQueue 0, .release 0]

def cursorRelease : List StreamsOp :=
  [.alloc true 0 false true, .elsewhere sampleWanting, .updateState 0, .release 0]

def orderlyRelease : List StreamsOp :=
  [.alloc true 0 false true, .pushAcceptQueue 0, .alloc true 3 true false, .elsewhere sampleWanting,
    .updateState 0, .iterInit true, .removeFromAcceptQueue ⟨0, 0, 0⟩ 0 0, .gc, .release 3]

theorem orderlyRelease_valid :
    Admissible applyStreams StreamsOpValid sampleStreams orderlyRelease ∧
      Admissible applyStreams ReleaseApart sampleStreams orderlyRelease := by
  refine ⟨⟨trivial, ⟨rfl, by decide⟩, trivial, ⟨_, rfl, rfl, rfl, rfl⟩, rfl, trivial, ?_, trivial,
    rfl, trivial⟩, trivial, trivial, trivial, trivial, trivial, trivial, trivial, trivial, ?_, trivial⟩
  · show 0 ∈ _
    decide
  · show 3 ∉ _ ∧ _ ≠ some 3
    decide

theorem stream_map_mirrors_orderly :
    StreamsMirror (run applyStreams sampleStreams orderlyRelease) :=
  (stream_map_mirrors true none none none txfcInit orderlyRelease_valid.1).mpr
    orderlyRelease_valid.2 _ (run_mem_visited _ _ _)

theorem stream_map_release_leaves :
    (Admissible applyStreams StreamsOpValid sampleStreams queuedRelease ∧
      ¬ StreamsMirror (run applyStreams sampleStreams queuedRelease)) ∧
    Admissible applyStreams StreamsOpValid sampleStreams cursorRelease ∧
      ¬ StreamsMirror (run applyStreams sampleStreams cursorRelease) := by
  refine ⟨⟨⟨trivial, ⟨rfl, by decide⟩, rfl, trivial⟩, ?_⟩,
    ⟨trivial, ⟨_, rfl, rfl, rfl, rfl⟩, rfl, rfl, trivial⟩, ?_⟩
  · intro mirrors
    have counted : (run applyStreams sampleStreams queuedRelease).numAcceptBidi = 1 ∧
        (run applyStreams sampleStreams queuedRelease).acceptList = [] := by decide
    have bidi := mirrors.bidi
    rw [counted.1, counted.2] at bidi
    exact nomatch bidi
  · intro mirrors
    have left : (run applyStreams sampleStreams cursorRelease).qsm.rrCur = some 0 ∧
        streamLinked 0 (run applyStreams sampleStreams cursorRelease).activeNodes = false := by
      decide
    have linked := (mirrors.cursor 0 left.1).2
    rw [left.2] at linked
    exact nomatch linked

/- What a collection is for: it ends, however many rounds it is given, every stream that was
   ready is gone, and the others are where they were. -/
structure Collects (w : QuicStreams) : Prop where
  ends : ∀ rounds, w.qsm.readyForGcList.length ≤ rounds →
    streamMapGcRounds (streamListNext none w.gcNodes) rounds (streamListNext none w.gcNodes) w =
      streamMapGc w
  emptied : (streamMapGc w).qsm.readyForGcList = []
  unlinked : Circular (streamMapGc w).gcNodes []
  gone : ∀ id ∈ w.qsm.readyForGcList, (streamMapGc w).qsm.map id = none
  others : ∀ id, id ∉ w.qsm.readyForGcList → (streamMapGc w).qsm.map id = w.qsm.map id
  active : (streamMapGc w).qsm.activeList =
    w.qsm.activeList.filter (fun id => id ∉ w.qsm.readyForGcList)
  accept : (streamMapGc w).acceptList = w.acceptList.filter (fun id => id ∉ w.qsm.readyForGcList)

/-- A collection does what it is for only where there is nothing to collect. -/
theorem stream_map_gc_collects_iff {w : QuicStreams}
    (gc : Circular w.gcNodes w.qsm.readyForGcList) :
    Collects w ↔ w.qsm.readyForGcList = [] := by
  constructor
  · intro collects
    have emptied := collects.emptied
    rwa [streamMapGc_eq] at emptied
  · intro empty
    constructor
    · intro rounds _
      rw [streamMapGcRounds_stop, streamMapGc_eq]
    · rw [streamMapGc_eq, empty]
    · rw [streamMapGc_eq, ← empty]
      exact gc
    · intro id member
      rw [empty] at member
      exact nomatch member
    · intro id _
      rw [streamMapGc_eq]
    · rw [streamMapGc_eq, empty]
      exact (filter_eq_self.mpr (by simp)).symm
    · rw [streamMapGc_eq, empty]
      exact (filter_eq_self.mpr (by simp)).symm

def sampleDone : QuicStream :=
  { sampleWanting with
    sendState := .dataRecvd, deleted := true, ackedStopSending := true, wantStopSending := false }

def doneStreams : List StreamsOp := [.alloc true 0 false true, .elsewhere sampleDone, .updateState 0]

theorem doneStreams_valid : Admissible applyStreams
    (fun w op => StreamsOpValid w op ∧ ReleaseApart w op) sampleStreams doneStreams :=
  ⟨⟨trivial, trivial⟩, ⟨⟨_, rfl, rfl, rfl, rfl⟩, trivial⟩, ⟨rfl, trivial⟩, trivial⟩

theorem stream_map_gc_collects_iff_done :
    ¬ Collects (run applyStreams sampleStreams doneStreams) := by
  intro collects
  have holds := visited_invariant applyStreams_holds (streamMapInit_holds true none none none txfcInit)
    doneStreams_valid _ (run_mem_visited _ _ _)
  exact absurd ((stream_map_gc_collects_iff holds.gc).mp collects) (by decide)

/-- A stream that is ready stays in the map and on the list. -/
theorem stream_map_gc_keeps :
    ¬ ∀ ops, Admissible applyStreams (fun w op => StreamsOpValid w op ∧ ReleaseApart w op)
        sampleStreams ops →
      Collects (run applyStreams sampleStreams ops) := by
  intro always
  exact absurd (always doneStreams doneStreams_valid).emptied (by decide)

end Ossl
