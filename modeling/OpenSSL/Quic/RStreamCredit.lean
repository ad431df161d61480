import OpenSSL.Quic.RStreamRuns

/- The flow-control credit that a receive stream returns, over runs that mix reads
   with records that are released in parts. -/
namespace Ossl
open Prod Option Runs

inductive RecordCall where
  | queue (mem : Bool) (offset : Nat) (data : Option (List UInt8)) (dataLen : Nat) (fin : Bool)
  | read (env : RetireEnv) (size : Nat)
  | getRecord
  | releaseRecord (env : RetireEnv) (readLen : Nat)
  deriving DecidableEq

def recordCall (s : QuicRstream) : RecordCall → Bool × QuicRstream
  | .queue mem offset data dataLen fin =>
    quicRstreamQueueData mem (tellRxfc s (addU64 offset dataLen) fin).2 offset data dataLen fin
  | .read env size => ((quicRstreamRead env s size).1, (quicRstreamRead env s size).2.2)
  | .getRecord => ((quicRstreamGetRecord s).1, (quicRstreamGetRecord s).2.2)
  | .releaseRecord env readLen => quicRstreamReleaseRecord env s readLen

def applyRecordCall (s : QuicRstream) (c : RecordCall) : QuicRstream := (recordCall s c).2

def Succeeds (s : QuicRstream) (c : RecordCall) : Prop :=
  (recordCall s c).1 = true ∧
    match c with
    | .queue _ offset data dataLen _ =>
      offset + dataLen < maxOffset ∧ ∀ d ∈ data, d.length = dataLen
    | _ => True

/-- The stream's controller, and its parent since conn, have been given back exactly
    what has been dropped from the list. -/
def CreditAgrees (conn : QuicRxfc) (s : QuicRstream) : Prop :=
  ∀ rxfc parent, s.rxfc = some (rxfc, parent) →
    rxfc.rwm = s.fl.offset ∧ ∀ p ∈ parent, p.rwm = addU64 conn.rwm s.fl.offset

structure OwnsCredit (s : QuicRstream) (rxfc conn : QuicRxfc) : Prop where
  pair : s.rxfc = some (rxfc, some conn)
  child : rxfc.standalone = false
  own : rxfc.rwm < 2 ^ 64
  parent : conn.rwm < 2 ^ 64

structure RecordOk (s : QuicRstream) : Prop where
  list : SframeListOk s.fl
  bounded : ∀ f ∈ s.fl.frames, f.range.stop < maxOffset
  sized : ∀ f ∈ s.fl.frames, ∀ d ∈ f.data, d.length = f.range.stop - f.range.start
  offset : s.fl.offset < maxOffset
  locked : s.fl.headLocked = true → s.headRange.start = s.fl.offset ∧
    s.headRange.start ≤ s.headRange.stop ∧ s.headRange.stop < maxOffset
  owns : ∃ rxfc conn, OwnsCredit s rxfc conn

variable {env : RetireEnv} {s : QuicRstream} {n start : Nat} {fl : SframeList}

variable {conn : QuicRxfc} {l limit size : Nat} {r rbuf : RingBuf} {s' t : QuicRstream}

theorem retire_credit {rxfc : QuicRxfc} (owns : OwnsCredit s rxfc conn)
    (success : (retire env s n).1 = true) :
    ∃ rxfc' conn', retire env s n = (true, { s with rxfc := some (rxfc', some conn') }) ∧
      rxfc'.standalone = false ∧ rxfc'.rwm = addU64 rxfc.rwm n ∧
      conn'.rwm = addU64 conn.rwm n := by
  obtain ⟨fl, controller, headRange, rbuf⟩ := s
  obtain rfl : controller = _ := owns.pair
  simp only [retire] at success ⊢
  rcases rxfcOnRetire_retired success with ⟨nothing, same⟩ | ⟨_, _, r, p, done, retired, owner⟩
  · refine ⟨rxfc, conn, by rw [same], owns.child, ?_, ?_⟩
    · rw [nothing, addU64_exact (by have := owns.own; omega), add_zero]
    · rw [nothing, addU64_exact (by have := owns.parent; omega), add_zero]
  · rcases owner with ⟨alone, _⟩ | ⟨q, q', own, rfl, above⟩
    · rw [owns.child] at alone; simp at alone
    · obtain rfl := some.inj own
      exact ⟨r, q', by rw [done], retired.standalone.trans owns.child, retired.rwm, above.rwm⟩

theorem dropFrames_success (success : (sframeListDropFrames fl limit).1 = true) :
    fl.offset ≤ limit ∧ limit ≤ sframeCurrEnd fl := by
  rw [sframeListDropFrames] at success
  split at success
  · simp at success
  · rename_i passes
    simp only [not_or, not_and, not_exists, not_not] at passes
    obtain ⟨low, high, empty⟩ := passes
    refine ⟨by omega, ?_⟩
    rcases List.eq_nil_or_concat' fl.frames with none | ⟨init, tail, split⟩
    · simp [sframeCurrEnd, none, empty none]
    · rw [currEnd_of_last split]
      have := high tail (by simp [split])
      omega

theorem fetchRing_length {bytes : List UInt8} (fetched : fetchRing r start l = some bytes) :
    bytes.length = l := by
  unfold fetchRing at fetched
  split at fetched
  · simp at fetched
  · split at fetched
    · split at fetched
      · simp at fetched
      · split at fetched
        · simp at fetched
        · obtain rfl := some.inj fetched
          rw [List.length_append]
          simp only [RingWindow.readCells_length]
          omega
    · obtain rfl := some.inj fetched
      simp

theorem fetchBytes_length {f : StreamFrame} {bytes : List UInt8}
    (sized : ∀ d ∈ f.data, d.length = f.range.stop - f.range.start)
    (begun : f.range.start ≤ start) (inside : start + l ≤ f.range.stop)
    (fetched : fetchBytes r (f.data.map (List.drop (start - f.range.start))) start l = some bytes) :
    bytes.length = l := by
  cases place : f.data with
  | none =>
    rw [place] at fetched
    exact fetchRing_length fetched
  | some d =>
    rw [place] at fetched
    have len := sized d place
    obtain rfl := some.inj fetched
    rw [List.length_take, List.length_drop]
    omega

/-- The loop of read_internal returns as many bytes as it moves the offset. -/
theorem readRounds_offset {rounds : Nat} {iter : Option SframeIter} {frames : List StreamFrame}
    {acc got : Gathered}
    (sized : ∀ f ∈ frames, ∀ d ∈ f.data, d.length = f.range.stop - f.range.start)
    (bounded : ∀ f ∈ frames, f.range.stop < maxOffset)
    (here : sframeListPeek fl iter = peekFrames fl.fin start frames)
    (run : readRounds rounds rbuf fl iter size acc = some got) :
    ∃ k, got.bytes.length = acc.bytes.length + k ∧
      ((got.offset = start + k ∧ got.offset < maxOffset) ∨ (k = 0 ∧ got.offset = acc.offset)) := by
  have limit : maxOffset < 2 ^ 64 := by decide
  induction rounds generalizing start size iter frames acc with
  | zero =>
    obtain rfl := some.inj run
    exact ⟨0, rfl, .inr ⟨rfl, rfl⟩⟩
  | succ i ih =>
    rw [readRounds, here] at run
    cases frames with
    | nil =>
      obtain rfl := some.inj run
      exact ⟨0, rfl, .inr ⟨rfl, rfl⟩⟩
    | cons f next =>
      have top := bounded f (by simp)
      rw [peekFrames] at run
      by_cases gap : start < f.range.start
      · rw [if_pos gap] at run
        obtain rfl := some.inj run
        exact ⟨0, rfl, .inr ⟨rfl, rfl⟩⟩
      rw [if_neg gap] at run
      by_cases ahead : start < f.range.stop
      · rw [if_neg (by omega)] at run
        simp only at run
        rw [subU64_exact (by omega) (by omega)] at run
        -- the part of the frame that is read, whole or cut to the size
        generalize hl : (if size < f.range.stop - start then size else f.range.stop - start) = l
          at run
        have part : l ≤ f.range.stop - start := by split at hl <;> omega
        rw [addU64_exact (by omega)] at run
        by_cases none : l = 0
        · rw [if_pos none] at run
          obtain rfl := some.inj run
          exact ⟨0, rfl, .inl ⟨by simp only; omega, by simp only; omega⟩⟩
        rw [if_neg none] at run
        split at run
        · simp at run
        · rename_i bytes fetched
          have len := fetchBytes_length (sized f (by simp)) (by omega) (by omega) fetched
          by_cases full : size - l = 0
          · rw [if_pos full] at run
            obtain rfl := some.inj run
            exact ⟨l, by simp [len], .inl ⟨rfl, by simp only; omega⟩⟩
          · rw [if_neg full] at run
            have whole : l = f.range.stop - start := by split at hl <;> omega
            obtain ⟨k, more, moved⟩ := ih (fun g hg => sized g (by simp [hg]))
              (fun g hg => bounded g (by simp [hg])) rfl run
            refine ⟨l + k, by rw [more]; simp only [List.length_append]; omega, .inl ?_⟩
            simp only at moved
            rcases moved with ⟨on, below⟩ | ⟨stay, same⟩
            · exact ⟨by omega, below⟩
            · exact ⟨by omega, by omega⟩
      · rw [if_pos (by omega)] at run
        obtain rfl := some.inj run
        exact ⟨0, rfl, .inr ⟨rfl, rfl⟩⟩

/-- What a call that succeeds does to the credit: it drops a number of bytes and
    gives both controllers a number of bytes, none of either for most calls. -/
structure CreditStep (s s' : QuicRstream) (moved given : Nat) : Prop where
  ok : RecordOk s'
  offset : s'.fl.offset = s.fl.offset + moved
  rxfc : ∀ rxfc conn, OwnsCredit s rxfc conn → ∃ rxfc' conn', OwnsCredit s' rxfc' conn' ∧
    rxfc'.rwm = addU64 rxfc.rwm given ∧ conn'.rwm = addU64 conn.rwm given

theorem addU64_nothing {a : Nat} (fits : a < 2 ^ 64) : addU64 a 0 = a := addU64_exact fits

theorem creditStep_of (ok : RecordOk s) {moved given : Nat} (list : SframeListOk s'.fl)
    (bounded : ∀ f ∈ s'.fl.frames, f.range.stop < maxOffset)
    (sized : ∀ f ∈ s'.fl.frames, ∀ d ∈ f.data, d.length = f.range.stop - f.range.start)
    (offset : s'.fl.offset = s.fl.offset + moved) (below : s'.fl.offset < maxOffset)
    (locked : s'.fl.headLocked = true → s'.headRange.start = s'.fl.offset ∧
      s'.headRange.start ≤ s'.headRange.stop ∧ s'.headRange.stop < maxOffset)
    (rxfc : ∀ rxfc conn, OwnsCredit s rxfc conn → ∃ rxfc' conn', OwnsCredit s' rxfc' conn' ∧
      rxfc'.rwm = addU64 rxfc.rwm given ∧ conn'.rwm = addU64 conn.rwm given) :
    CreditStep s s' moved given := by
  obtain ⟨r, c, owns⟩ := ok.owns
  obtain ⟨r', c', owns', _, _⟩ := rxfc r c owns
  exact ⟨⟨list, bounded, sized, below, locked, r', c', owns'⟩, offset, rxfc⟩

theorem rxfc_kept (same : s'.rxfc = s.rxfc) (rxfc conn : QuicRxfc) (owns : OwnsCredit s rxfc conn) :
    ∃ rxfc' conn', OwnsCredit s' rxfc' conn' ∧
      rxfc'.rwm = addU64 rxfc.rwm 0 ∧ conn'.rwm = addU64 conn.rwm 0 :=
  ⟨rxfc, conn, { owns with pair := same.trans owns.pair },
    (addU64_nothing owns.own).symm, (addU64_nothing owns.parent).symm⟩

theorem retire_step (same : t.rxfc = s.rxfc) (owned : ∃ rxfc conn, OwnsCredit s rxfc conn)
    (success : (retire env t n).1 = true) :
    (retire env t n).2.fl = t.fl ∧ (retire env t n).2.headRange = t.headRange ∧
      ∀ rxfc conn, OwnsCredit s rxfc conn → ∃ rxfc' conn', OwnsCredit (retire env t n).2 rxfc' conn' ∧
        rxfc'.rwm = addU64 rxfc.rwm n ∧ conn'.rwm = addU64 conn.rwm n := by
  obtain ⟨r, c, owns⟩ := owned
  obtain ⟨r', c', retired, child, own, parent⟩ := retire_credit (s := t)
    { owns with pair := same.trans owns.pair } success
  rw [retired]
  refine ⟨rfl, rfl, fun rxfc conn given => ?_⟩
  have pairs := owns.pair.symm.trans given.pair
  obtain ⟨rfl, rest⟩ := mk.inj (some.inj pairs)
  obtain rfl := some.inj rest
  exact ⟨r', c', ⟨rfl, child, by rw [own]; exact addU64_lt _ _, by rw [parent]; exact addU64_lt _ _⟩,
    own, parent⟩

theorem drop_retire_step (ok : RecordOk s) (dropped : SframeDropped s.fl limit fl)
    (below : limit < maxOffset) (low : s.fl.offset ≤ limit)
    (success : (retire env { s with fl := fl, rbuf := rbuf } n).1 = true) :
    CreditStep s (retire env { s with fl := fl, rbuf := rbuf } n).2 (limit - s.fl.offset) n := by
  obtain ⟨list, range, rxfc⟩ := retire_step (s := s) (t := { s with fl := fl, rbuf := rbuf }) rfl
    ok.owns success
  refine creditStep_of ok (by rw [list]; exact dropped.ok) ?_ ?_ ?_ ?_ ?_ rxfc
  · rw [list]; exact fun f hf => ok.bounded f (dropped.sub.subset hf)
  · rw [list]; exact fun f hf => ok.sized f (dropped.sub.subset hf)
  · rw [list, dropped.offset]; omega
  · rw [list, dropped.offset]; exact below
  · intro locked
    rw [list, dropped.headLocked] at locked
    simp at locked

theorem recordRead_step (ok : RecordOk s) (success : (quicRstreamRead env s size).1 = true) :
    ∃ k, CreditStep s (quicRstreamRead env s size).2.2 k k := by
  unfold quicRstreamRead at success ⊢
  unfold readInternal at success ⊢
  cases loop : readRounds (s.fl.frames.length + 1) s.rbuf s.fl none size ⟨[], 0, false, false⟩ with
  | none => simp [loop] at success
  | some got =>
    obtain ⟨k, len, moved⟩ := readRounds_offset ok.sized ok.bounded rfl loop
    simp only [List.length_nil, zero_add] at len
    subst len
    simp only [loop, true_and] at success ⊢
    by_cases drop : got.offset = 0
    · rw [if_neg (by omega)] at success ⊢
      simp only at success ⊢
      obtain ⟨list, range, rxfc⟩ := retire_step rfl ok.owns success
      have none : got.bytes.length = 0 := by omega
      rw [none] at list range rxfc
      rw [none]
      refine ⟨0, creditStep_of ok ?_ ?_ ?_ ?_ ?_ ?_ rxfc⟩
      · rw [list]; exact ok.list
      · rw [list]; exact ok.bounded
      · rw [list]; exact ok.sized
      · rw [list]; rfl
      · rw [list]; exact ok.offset
      · rw [list, range]; exact ok.locked
    · rw [if_pos drop] at success ⊢
      by_cases kept : (sframeListDropFrames s.fl got.offset).1 = true
      · obtain ⟨low, high⟩ := dropFrames_success kept
        obtain ⟨fl, run, dropped⟩ := sframeListDropFrames_dropped ok.list got.offset low high
        simp only [run, if_true] at success ⊢
        have offset : got.offset = s.fl.offset + got.bytes.length ∧ got.offset < maxOffset := by
          rcases moved with on | ⟨_, zero⟩
          · exact on
          · exact absurd zero drop
        have step := drop_retire_step ok dropped offset.2 low success
        have count : got.offset - s.fl.offset = got.bytes.length := by omega
        rw [count] at step
        exact ⟨_, step⟩
      · simp [kept] at success

theorem recordRelease_step (ok : RecordOk s) {readLen : Nat}
    (success : (quicRstreamReleaseRecord env s readLen).1 = true) :
    ∃ limit, s.fl.offset ≤ limit ∧ limit < maxOffset ∧
      CreditStep s (quicRstreamReleaseRecord env s readLen).2 (limit - s.fl.offset) limit := by
  have bound : maxOffset < 2 ^ 64 := by decide
  unfold quicRstreamReleaseRecord at success ⊢
  by_cases locked : s.fl.headLocked = false
  · simp [locked] at success
  rw [if_neg locked] at success ⊢
  obtain ⟨start, valid, top⟩ := ok.locked (by simpa using locked)
  rw [subU64_exact (by omega) valid] at success ⊢
  by_cases tooLong : s.headRange.stop - s.headRange.start < readLen ∧ readLen ≠ sizeMax
  · rw [if_pos tooLong] at success
    simp at success
  rw [if_neg tooLong] at success ⊢
  generalize hlimit : (if s.headRange.stop - s.headRange.start < readLen then s.headRange.stop
    else addU64 s.headRange.start readLen) = limit at success ⊢
  have below : limit < maxOffset := by
    split at hlimit
    · omega
    · rw [addU64_exact (by omega)] at hlimit; omega
  by_cases kept : (sframeListDropFrames s.fl limit).1 = true
  · obtain ⟨low, high⟩ := dropFrames_success kept
    obtain ⟨fl, run, dropped⟩ := sframeListDropFrames_dropped ok.list limit low high
    simp only [run, Bool.true_eq_false, if_false] at success ⊢
    exact ⟨limit, low, below, drop_retire_step ok dropped below low success⟩
  · simp [kept] at success

theorem peek_lock {old range : UintRange} {fl' : SframeList}
    {found : Option (Option (List UInt8) × Bool)}
    (bounded : ∀ f ∈ fl.frames, f.range.stop < maxOffset)
    (run : sframeListLockHead fl old = (fl', range, found)) :
    (fl' = fl ∧ found = none ∧ (fl.headLocked = true → range = old)) ∨
      (fl' = { fl with headLocked := true } ∧ range.start = fl.offset ∧
        range.start < range.stop ∧ range.stop < maxOffset) := by
  rw [sframeListLockHead] at run
  by_cases locked : fl.headLocked = true
  · rw [if_pos locked] at run
    obtain ⟨rfl, rfl, rfl⟩ := by simpa using run
    exact .inl ⟨rfl, rfl, fun _ => rfl⟩
  rw [if_neg locked, sframeListPeek] at run
  cases place : fl.frames with
  | nil =>
    rw [place] at run
    simp only [peekFrames, mk.injEq] at run
    exact .inl ⟨run.1.symm, run.2.2.symm, fun given => absurd given locked⟩
  | cons f next =>
    have top := bounded f (by simp [place])
    rw [place, peekFrames] at run
    by_cases gap : fl.offset < f.range.start
    · rw [if_pos gap] at run
      simp only [mk.injEq] at run
      exact .inl ⟨run.1.symm, run.2.2.symm, fun given => absurd given locked⟩
    rw [if_neg gap] at run
    by_cases ahead : fl.offset < f.range.stop
    · rw [if_neg (by omega)] at run
      simp only [mk.injEq] at run
      obtain ⟨list, rfl, _⟩ := run
      exact .inr ⟨list.symm, rfl, ahead, top⟩
    · rw [if_pos ahead] at run
      simp only [mk.injEq] at run
      exact .inl ⟨run.1.symm, run.2.2.symm, fun given => absurd given locked⟩

theorem locked_step (ok : RecordOk s) (list : t.fl = { s.fl with headLocked := true })
    (rxfc : t.rxfc = s.rxfc) (start : t.headRange.start = s.fl.offset)
    (valid : t.headRange.start ≤ t.headRange.stop) (top : t.headRange.stop < maxOffset) :
    CreditStep s t 0 0 := by
  refine creditStep_of ok ?_ ?_ ?_ ?_ ?_ ?_ (rxfc_kept rxfc)
  · rw [list]; exact ⟨ok.list.sorted, ok.list.valid, ok.list.ahead⟩
  · rw [list]; exact ok.bounded
  · rw [list]; exact ok.sized
  · rw [list]; rfl
  · rw [list]; exact ok.offset
  · rw [list]; exact fun _ => ⟨start, valid, top⟩

theorem recordGet_step (ok : RecordOk s) (success : (quicRstreamGetRecord s).1 = true) :
    CreditStep s (quicRstreamGetRecord s).2.2 0 0 := by
  have bound : maxOffset < 2 ^ 64 := by decide
  unfold quicRstreamGetRecord at success ⊢
  generalize hlock : sframeListLockHead s.fl s.headRange = locked at success ⊢
  obtain ⟨fl, range, found⟩ := locked
  rcases peek_lock ok.bounded hlock with ⟨rfl, rfl, stays⟩ | ⟨rfl, start, some, top⟩
  · simp only
    exact creditStep_of ok ok.list ok.bounded ok.sized rfl ok.offset
      (fun locked => by rw [stays locked]; exact ok.locked locked) (rxfc_kept rfl)
  · cases found with
    | none => exact locked_step ok rfl rfl start (le_of_lt some) top
    | some pair =>
      obtain ⟨record, fin⟩ := pair
      simp only [if_neg (by omega : ¬ range.stop = range.start)] at success ⊢
      cases record with
      | some bytes => exact locked_step ok rfl rfl start (le_of_lt some) top
      | none =>
        simp only [Bool.true_eq_false, if_false] at success ⊢
        rw [subU64_exact (by omega) (by omega)] at success ⊢
        split at success
        · omega
        · split at success
          · simp at success
          · rename_i _ data maxLen _
            rw [if_neg (by omega)]
            split
            · rename_i cut
              have fits : addU64 range.start maxLen = range.start + maxLen :=
                addU64_exact (by omega)
              exact locked_step ok rfl rfl start (by simp only; omega) (by simp only; omega)
            · exact locked_step ok rfl rfl start (le_of_lt some) top

theorem onRxStreamFrame_kept (rxfc conn : QuicRxfc) (stop : Nat) (isFin : Bool) :
    ∃ rxfc' conn', (rxfcOnRxStreamFrame rxfc (some conn) stop isFin).2 = (rxfc', some conn') ∧
      rxfc'.rwm = rxfc.rwm ∧ rxfc'.standalone = rxfc.standalone ∧ conn'.rwm = conn.rwm := by
  rw [rxfcOnRxStreamFrame, if_neg (by simp)]
  split
  · exact ⟨_, conn, rfl, rfl, rfl, rfl⟩
  · generalize hr : (if isFin = true then { rxfc with isFin := true } else rxfc) = r
    have marks : r.rwm = rxfc.rwm ∧ r.standalone = rxfc.standalone := by
      subst hr; split <;> exact ⟨rfl, rfl⟩
    simp only
    split
    · have own := onRxControlledBytes_kept { r with hwm := stop } (subU64 stop r.hwm)
      have above := onRxControlledBytes_kept conn (subU64 stop r.hwm)
      exact ⟨_, _, rfl, own.2.2.1.trans marks.1, own.2.2.2.trans marks.2, above.2.2.1⟩
    · split
      · exact ⟨_, conn, rfl, marks.1, marks.2, rfl⟩
      · exact ⟨r, conn, rfl, marks.1, marks.2, rfl⟩

theorem recordQueue_step (ok : RecordOk s) {mem fin : Bool} {offset dataLen : Nat}
    {data : Option (List UInt8)} (good : Succeeds s (.queue mem offset data dataLen fin)) :
    CreditStep s (applyRecordCall s (.queue mem offset data dataLen fin)) 0 0 := by
  have bound : maxOffset < 2 ^ 64 := by decide
  obtain ⟨success, below, len⟩ := good
  obtain ⟨r, c, owns⟩ := ok.owns
  obtain ⟨r', c', told, rwm, child, connRwm⟩ := onRxStreamFrame_kept r c (addU64 offset dataLen) fin
  have tell : (tellRxfc s (addU64 offset dataLen) fin).2 = { s with rxfc := some (r', some c') } := by
    rw [tellRxfc, owns.pair]
    simp only [told]
  rw [recordCall, tell, quicRstreamQueueData, addU64_exact (by omega)] at success
  rw [applyRecordCall, recordCall, tell, quicRstreamQueueData, addU64_exact (by omega)]
  by_cases refused : (data = none ∧ dataLen ≠ 0) ∨ (dataLen = 0 ∧ fin = false)
  · rw [if_pos refused] at success
    simp at success
  rw [if_neg refused] at success ⊢
  rcases sframeListInsert_inserted mem ok.list ⟨offset, offset + dataLen⟩ data fin (by simp) with
    ⟨failed, _⟩ | ⟨fl, stored, effect⟩
  · rw [failed] at success
    simp at success
  · rw [stored]
    refine creditStep_of ok effect.ok ?_ ?_ (by rw [effect.offset]; rfl)
      (by rw [effect.offset]; exact ok.offset) ?_ ?_
    · intro f hf
      rcases effect.frame f hf with old | same
      · exact ok.bounded f old
      · subst same; exact below
    · intro f hf d hd
      rcases effect.frame f hf with old | same
      · exact ok.sized f old d hd
      · subst same
        rw [len d hd]
        simp only; omega
    · simp only
      rw [effect.headLocked, effect.offset]
      exact ok.locked
    · intro r1 c1 owns1
      have same := owns.pair.symm.trans owns1.pair
      obtain ⟨rfl, rest⟩ := mk.inj (some.inj same)
      obtain rfl := some.inj rest
      refine ⟨r', c', ⟨rfl, child.trans owns.child, ?_, ?_⟩, ?_, ?_⟩
      · rw [rwm]; exact owns.own
      · rw [connRwm]; exact owns.parent
      · rw [rwm, addU64_nothing owns.own]
      · rw [connRwm, addU64_nothing owns.parent]

/-- The record is released while nothing has been dropped yet, where the offset that
    the call retires is the number of bytes released. -/
def ReleasesAtStart (s : QuicRstream) : RecordCall → Prop
  | .releaseRecord _ _ => s.fl.offset = 0
  | _ => True

theorem recordCall_step {c : RecordCall} (ok : RecordOk s) (good : Succeeds s c) :
    ∃ moved given, CreditStep s (applyRecordCall s c) moved given ∧
      (ReleasesAtStart s c → given = moved) ∧
      (¬ ReleasesAtStart s c → 0 < s.fl.offset ∧ given = s.fl.offset + moved) := by
  cases c with
  | queue mem offset data dataLen fin =>
    exact ⟨0, 0, recordQueue_step ok good, fun _ => rfl, fun no => absurd trivial no⟩
  | read env size =>
    obtain ⟨k, step⟩ := recordRead_step ok good.1
    exact ⟨k, k, step, fun _ => rfl, fun no => absurd trivial no⟩
  | getRecord =>
    exact ⟨0, 0, recordGet_step ok good.1, fun _ => rfl, fun no => absurd trivial no⟩
  | releaseRecord env readLen =>
    obtain ⟨limit, low, _, step⟩ := recordRelease_step ok good.1
    refine ⟨_, _, step, fun start => ?_, fun later => ?_⟩
    · have none : s.fl.offset = 0 := start
      omega
    · have some : ¬ s.fl.offset = 0 := later
      omega

theorem applyRecordCall_ok (s : QuicRstream) (c : RecordCall) (ok : RecordOk s)
    (good : Succeeds s c) : RecordOk (applyRecordCall s c) := by
  obtain ⟨_, _, step, _⟩ := recordCall_step ok good
  exact step.ok

theorem applyRecordCall_agrees_iff (s : QuicRstream) (c : RecordCall) (ok : RecordOk s)
    (agrees : CreditAgrees conn s) (good : Succeeds s c) :
    CreditAgrees conn (applyRecordCall s c) ↔ ReleasesAtStart s c := by
  have bound : maxOffset < 2 ^ 62 + 1 := by decide
  obtain ⟨moved, given, step, atStart, later⟩ := recordCall_step ok good
  obtain ⟨r, p, owns⟩ := ok.owns
  obtain ⟨r', p', owns', rwm, parentRwm⟩ := step.rxfc r p owns
  obtain ⟨own, above⟩ := agrees r (some p) owns.pair
  have after := step.ok.offset
  have offset := step.offset
  constructor
  · intro still
    by_contra no
    obtain ⟨positive, excess⟩ := later no
    have sum := (still r' (some p') owns'.pair).1
    rw [rwm, addU64_exact (by omega)] at sum
    omega
  · intro start r1 p1 pair
    have same := owns'.pair.symm.trans pair
    obtain ⟨rfl, rfl⟩ := mk.inj (some.inj same)
    have count := atStart start
    refine ⟨by rw [rwm, addU64_exact (by omega)]; omega, fun q hq => ?_⟩
    obtain rfl := some.inj hq
    rw [parentRwm, above p rfl, offset, count]
    simp only [addU64]
    omega

/-- The credit returned to the stream's controller and to its parent equals the
    bytes dropped after every call of a run whose calls succeed exactly when every
    record is released while the list stands at offset 0. -/
theorem rstream_credit_iff (mem : Bool) (rbufSize windowSize maxWindowSize : Nat)
    (conn : QuicRxfc) (word : conn.rwm < 2 ^ 64) (qrs : QuicRstream)
    (made : quicRstreamNew mem (some (rxfcInit windowSize maxWindowSize, some conn)) rbufSize =
      some qrs)
    (calls : List RecordCall) (valid : Admissible applyRecordCall Succeeds qrs calls) :
    (∀ s ∈ visited applyRecordCall qrs calls, CreditAgrees conn s) ↔
      Admissible applyRecordCall ReleasesAtStart qrs calls := by
  rw [quicRstreamNew] at made
  split at made
  · simp at made
  obtain rfl := some.inj made
  have start : RecordOk ⟨sframeListInit, some (rxfcInit windowSize maxWindowSize, some conn),
      ⟨0, 0⟩, (ringBufResize mem ringBufInit rbufSize).2⟩ :=
    ⟨⟨.nil, by simp [sframeListInit], by simp [sframeListInit]⟩, by simp [sframeListInit],
      by simp [sframeListInit], (by decide : 0 < maxOffset), by simp [sframeListInit],
      _, _, rfl, rfl, by simp [rxfcInit], word⟩
  refine visited_good_iff applyRecordCall_ok applyRecordCall_agrees_iff start ?_ valid
  intro rxfc parent pair
  obtain ⟨rfl, rfl⟩ := mk.inj (some.inj pair)
  refine ⟨rfl, fun p hp => ?_⟩
  obtain rfl := some.inj hp
  exact (addU64_nothing word).symm

def partedRelease : List RecordCall :=
  let env : RetireEnv := ⟨0, ⟨1, 2, 3⟩, ⟨1, 2, 3⟩⟩
  [.queue true 0 (some [1, 2, 3, 4, 5, 6, 7, 8]) 8 false, .getRecord, .releaseRecord env 2,
    .getRecord, .releaseRecord env 2]

def recordStream : QuicRstream :=
  ⟨sframeListInit, some (rxfcInit 16 16, some (rxfcInit 64 64)), ⟨0, 0⟩, ringBufInit⟩

theorem partedRelease_valid : Admissible applyRecordCall Succeeds recordStream partedRelease :=
  ⟨⟨rfl, by decide, by simp⟩, ⟨rfl, trivial⟩, ⟨rfl, trivial⟩, ⟨rfl, trivial⟩, ⟨rfl, trivial⟩, trivial⟩

theorem partedRelease_credit :
    ((run applyRecordCall recordStream partedRelease).rxfc.map (fun pair => pair.1.rwm)) = some 6 ∧
      (run applyRecordCall recordStream partedRelease).fl.offset = 4 := by
  decide

theorem partedRelease_disagrees (conn : QuicRxfc) :
    ¬ CreditAgrees conn (run applyRecordCall recordStream partedRelease) := by
  intro agrees
  obtain ⟨rwm, offset⟩ := partedRelease_credit
  cases pair : (run applyRecordCall recordStream partedRelease).rxfc with
  | none => rw [pair] at rwm; simp at rwm
  | some both =>
    have same := (agrees both.1 both.2 pair).1
    rw [pair] at rwm
    simp only [map_some, some.injEq] at rwm
    omega

theorem rstream_credit_exceeds :
    ¬ ∀ (conn : QuicRxfc) (qrs : QuicRstream) (calls : List RecordCall), conn.rwm < 2 ^ 64 →
      quicRstreamNew true (some (rxfcInit 16 16, some conn)) 0 = some qrs →
      Admissible applyRecordCall Succeeds qrs calls →
      CreditAgrees conn (run applyRecordCall qrs calls) := by
  intro always
  exact partedRelease_disagrees _ (always (rxfcInit 64 64) recordStream partedRelease (by decide)
    rfl partedRelease_valid)

theorem rstream_credit_iff_parted :
    ¬ Admissible applyRecordCall ReleasesAtStart recordStream partedRelease := by
  intro atStart
  refine partedRelease_disagrees (rxfcInit 64 64) ((rstream_credit_iff true 0 16 16
    (rxfcInit 64 64) (by decide) recordStream rfl partedRelease partedRelease_valid).mpr atStart _ ?_)
  simp [visited, partedRelease]

end Ossl
