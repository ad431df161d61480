import OpenSSL.Lib.Runs
import OpenSSL.Quic.RStreamLaws

/- Runs of a receive stream that is fed from one byte stream with a final size. Every frame is first
   told to the flow controller, if any, as quic_rx_depack.c does. Carried along are the bytes that
   the reads have returned and the offsets that the queued frames have covered. -/
namespace Ossl
open Prod List Option RingWindow Runs

inductive RxfcSetup where
  | absent
  | standalone (windowSize : Nat)
  | stream (windowSize maxWindowSize : Nat) (conn : QuicRxfc)

def RxfcSetup.make : RxfcSetup → Option (QuicRxfc × Option QuicRxfc)
  | .absent => none
  | .standalone size => some (rxfcInitStandalone size, none)
  | .stream size maxSize conn => some (rxfcInit size maxSize, some conn)

def tellRxfc (qrs : QuicRstream) (stop : Nat) (isFin : Bool) : Bool × QuicRstream :=
  match qrs.rxfc with
  | none => (true, qrs)
  | some (rxfc, parent) =>
    let told := rxfcOnRxStreamFrame rxfc parent stop isFin
    (told.1 && decide (told.2.1.errorCode = 0), { qrs with rxfc := some told.2 })

inductive RstreamCall where
  | queue (mem : Bool) (offset : Nat) (data : Option (List UInt8)) (dataLen : Nat) (fin : Bool)
  | read (env : RetireEnv) (size : Nat)
  | moveToRbuf
  deriving DecidableEq

structure TracedRstream where
  qrs : QuicRstream
  got : List UInt8
  queued : Set Nat
  finQueued : Bool

def freshRstream (qrs : QuicRstream) : TracedRstream := ⟨qrs, [], ∅, false⟩

def applyRstreamCall (s : TracedRstream) : RstreamCall → TracedRstream
  | .queue mem offset data dataLen fin =>
    let told := tellRxfc s.qrs (addU64 offset dataLen) fin
    let result := quicRstreamQueueData mem told.2 offset data dataLen fin
    { s with
      qrs := result.2
      queued := if result.1 then s.queued ∪ Set.Ico offset (offset + dataLen) else s.queued
      finQueued := s.finQueued || (result.1 && fin) }
  | .read env size =>
    let result := quicRstreamRead env s.qrs size
    { s with qrs := result.2.2, got := s.got ++ (result.2.1.map Gathered.bytes).getD [] }
  | .moveToRbuf => { s with qrs := (quicRstreamMoveToRbuf s.qrs).2 }

def CarriesPart (stream : List UInt8) (s : TracedRstream) : RstreamCall → Prop
  | .queue _ offset data dataLen fin =>
    offset + dataLen ≤ stream.length ∧
      (∀ d ∈ data, d = (stream.drop offset).take dataLen) ∧
      (fin = true → offset + dataLen = stream.length) ∧
      (tellRxfc s.qrs (offset + dataLen) fin).1 = true
  | .read _ _ => True
  | .moveToRbuf => True

def byteAt (stream : List UInt8) (x : Nat) : UInt8 := stream.getD x 0

theorem carries_byteAt (stream : List UInt8) (off len : Nat) :
    Carries (byteAt stream) off ((stream.drop off).take len) := by
  intro i h
  simp only [length_take, length_drop] at h
  rw [getElem_take, getElem_drop, byteAt, getD_eq_getElem _ _ (by omega)]

variable {stream : List UInt8} {qrs : QuicRstream} {s : TracedRstream}

theorem prefix_of_carries {got : List UInt8} (carries : Carries (byteAt stream) 0 got)
    (short : got.length ≤ stream.length) : got <+: stream := by
  have same : got = stream.take got.length := by
    have whole := carries_byteAt stream 0 got.length
    rw [drop_zero] at whole
    exact carries_unique carries whole (by rw [length_take]; omega)
  rw [same]
  exact take_prefix _ _

/- The controller has counted all the data that the list may still return. -/
def FlowHolds (size : Nat) (qrs : QuicRstream) : Prop :=
  ∀ rxfc parent, qrs.rxfc = some (rxfc, parent) →
    RxfcInStep rxfc parent ∧ rxfc.rwm = qrs.fl.offset ∧ sframeCurrEnd qrs.fl ≤ rxfc.hwm ∧
      rxfc.hwm ≤ size

structure TracedHolds (stream : List UInt8) (s : TracedRstream) : Prop where
  holds : RstreamHolds (byteAt stream) stream.length s.qrs
  flow : FlowHolds stream.length s.qrs
  length : s.got.length = s.qrs.fl.offset
  carries : Carries (byteAt stream) 0 s.got
  queued : ∀ x, x ∈ s.queued ↔ x < s.qrs.fl.offset ∨ x ∈ covered s.qrs.fl.frames
  fin : s.qrs.fl.fin = s.finQueued

theorem tellRxfc_holds {size : Nat} (flow : FlowHolds size qrs) {stop : Nat} {isFin : Bool}
    (inside : stop ≤ size) (bound : size < maxOffset)
    (accepted : (tellRxfc qrs stop isFin).1 = true) :
    ∃ rxfc, tellRxfc qrs stop isFin = (true, { qrs with rxfc := rxfc }) ∧
      ∀ r parent, rxfc = some (r, parent) → RxfcInStep r parent ∧ r.rwm = qrs.fl.offset ∧
        sframeCurrEnd qrs.fl ≤ r.hwm ∧ stop ≤ r.hwm ∧ r.hwm ≤ size := by
  have limit : maxOffset < 2 ^ 64 := by decide
  obtain ⟨fl, controller, headRange, rbuf⟩ := qrs
  cases controller with
  | none => exact ⟨none, rfl, by simp⟩
  | some pair =>
    obtain ⟨rxfc, parent⟩ := pair
    simp only [tellRxfc, Bool.and_eq_true, decide_eq_true_eq] at accepted ⊢
    obtain ⟨step, rwm, reach, high⟩ := flow rxfc parent rfl
    dsimp only at rwm reach
    obtain ⟨rxfc', parent', told, step', hwm, rwm'⟩ :=
      rxfcOnRxStreamFrame_inStep step (by omega) accepted.2
    rw [told] at accepted ⊢
    refine ⟨some (rxfc', parent'), by simpa using accepted.2, ?_⟩
    intro r p same
    obtain ⟨rfl, rfl⟩ := mk.inj (some.inj same)
    exact ⟨step', by omega, by omega, by omega, by omega⟩

theorem applyQueue_holds (bound : stream.length < maxOffset) (ok : TracedHolds stream s)
    {mem fin : Bool} {offset dataLen : Nat} {data : Option (List UInt8)}
    (valid : CarriesPart stream s (.queue mem offset data dataLen fin)) :
    TracedHolds stream (applyRstreamCall s (.queue mem offset data dataLen fin)) := by
  have limit : maxOffset < 2 ^ 64 := by decide
  obtain ⟨inside, part, final, accepted⟩ := valid
  obtain ⟨rxfc, told, flow⟩ := tellRxfc_holds ok.flow inside bound accepted
  rw [applyRstreamCall, addU64_exact (by omega), told]
  have holds : RstreamHolds (byteAt stream) stream.length { s.qrs with rxfc := rxfc } :=
    ⟨ok.holds.held, ok.holds.ring, ok.holds.tail, ok.holds.within, ok.holds.finEnd,
      ok.holds.unlocked⟩
  have carried : ∀ d ∈ data, d.length = dataLen ∧ Carries (byteAt stream) offset d := by
    intro d hd
    rw [part d hd]
    exact ⟨by rw [length_take, length_drop]; omega, carries_byteAt stream offset dataLen⟩
  rcases queueData_holds holds bound mem inside carried final with
    failed | ⟨qrs', done, holds', off, sameRxfc, sameFin, ends, covers⟩
  · rw [failed]
    refine ⟨holds, fun r p same => ?_, ok.length, ok.carries, by simpa using ok.queued, ?_⟩
    · obtain ⟨step, rwm, reach, _, high⟩ := flow r p same
      exact ⟨step, rwm, reach, high⟩
    · simpa using ok.fin
  · rw [done]
    refine ⟨holds', fun r p same => ?_, by rw [off]; exact ok.length, ok.carries, fun x => ?_, ?_⟩
    · rw [sameRxfc] at same
      obtain ⟨step, rwm, reach, here, high⟩ := flow r p same
      rw [ends, off]
      exact ⟨step, rwm, by simp only at reach ⊢; omega, high⟩
    · simp only [if_true, Set.mem_union, Set.mem_Ico, ok.queued x, off]
      by_cases early : x < s.qrs.fl.offset
      · simp [early]
      · rw [covers x (by simp only; omega)]
        simp only [early, false_or]
    · rw [sameFin, ok.fin, Bool.true_and, Bool.or_comm]

/-- Retiring what a read has returned keeps the controller in step. -/
theorem retire_holds {size n : Nat} (env : RetireEnv)
    (flow : ∀ rxfc parent, qrs.rxfc = some (rxfc, parent) →
      RxfcInStep rxfc parent ∧ rxfc.rwm + n = qrs.fl.offset ∧ sframeCurrEnd qrs.fl ≤ rxfc.hwm ∧
        rxfc.hwm ≤ size) (reached : qrs.fl.offset ≤ sframeCurrEnd qrs.fl)
    (bound : size < maxOffset) : ∃ rxfc, retire env qrs n = (true, { qrs with rxfc := rxfc }) ∧
      FlowHolds size { qrs with rxfc := rxfc } := by
  have limit : maxOffset < 2 ^ 63 := by decide
  obtain ⟨fl, controller, headRange, rbuf⟩ := qrs
  cases controller with
  | none => exact ⟨none, rfl, fun r p given => by simp at given⟩
  | some pair =>
    obtain ⟨rxfc, parent⟩ := pair
    obtain ⟨step, rwm, reach, high⟩ := flow rxfc parent rfl
    dsimp only at rwm reach reached
    have counted := step.counted
    have sum : addU64 rxfc.rwm n = rxfc.rwm + n := addU64_exact (by omega)
    have success := rxfcOnRetire_success env.own env.conn n env.rtt step.owned (by rw [sum]; omega)
    rcases rxfcOnRetire_retired success with ⟨nothing, same⟩ | ⟨_, _, r, p, done, retired, owner⟩
    · refine ⟨some (rxfc, parent), by simp only [retire, same], fun r p given => ?_⟩
      obtain ⟨rfl, rfl⟩ := mk.inj (some.inj given)
      exact ⟨step, by dsimp only; omega, reach, high⟩
    · refine ⟨some (r, p), by simp only [retire, done], fun r' p' given => ?_⟩
      obtain ⟨rfl, rfl⟩ := mk.inj (some.inj given)
      refine ⟨⟨?_, by rw [retired.swm, retired.hwm]; exact counted⟩, ?_, ?_, ?_⟩
      · rcases owner with ⟨alone, _⟩ | ⟨q, q', _, own, _⟩
        · exact .inl (retired.standalone.trans alone)
        · exact .inr (by rw [own]; simp)
      · rw [retired.rwm]; dsimp only; omega
      · rw [retired.hwm]; exact reach
      · rw [retired.hwm]; exact high

/-- A read returns what the frames cover without a gap, as far as it fits. -/
structure ReadReturns (stream : List UInt8) (s : TracedRstream) (env : RetireEnv) (size : Nat)
    (got : Gathered) : Prop where
  success : (quicRstreamRead env s.qrs size).1 = true
  result : (quicRstreamRead env s.qrs size).2.1 = some got
  length : got.bytes.length = min size (frontier s.qrs.fl.offset s.qrs.fl.frames - s.qrs.fl.offset)
  carries : Carries (byteAt stream) 0 (s.got ++ got.bytes)
  fin : got.fin = true ↔ s.finQueued = true ∧ s.got.length + got.bytes.length = stream.length
  whole : got.broken = false

theorem applyRead_holds (bound : stream.length < maxOffset) (ok : TracedHolds stream s)
    (env : RetireEnv) (size : Nat) : TracedHolds stream (applyRstreamCall s (.read env size)) ∧
      ∃ got, ReadReturns stream s env size got := by
  have listOk := ok.holds.listOk
  have low := frontier_low ok.holds.held.ahead ok.holds.held.sorted
  have top := frontier_top (offset_le_currEnd listOk) (fun f hf => currEnd_top listOk.sorted hf)
  obtain ⟨got, qrs', run, done⟩ := readInternal_done ok.holds bound size
  -- fin is known where the list ends, which is the end of the stream once it is
  have fin : got.fin = true ↔ s.finQueued = true ∧
      s.got.length + got.bytes.length = stream.length := by
    rw [done.fin, ok.fin, done.length, ok.length]
    constructor
    · rintro ⟨queued, reached⟩
      exact ⟨queued, by rw [← ok.holds.finEnd (ok.fin ▸ queued)]; exact reached⟩
    · rintro ⟨queued, reached⟩
      exact ⟨queued, by rw [ok.holds.finEnd (ok.fin ▸ queued)]; exact reached⟩
  have joined : Carries (byteAt stream) 0 (s.got ++ got.bytes) := by
    refine carries_append.mpr ⟨ok.carries, ?_⟩
    rw [ok.length, zero_add]
    exact done.carries
  have covers : ∀ x, x ∈ s.queued ↔ x < qrs'.fl.offset ∨ x ∈ covered qrs'.fl.frames := by
    intro x
    rw [ok.queued x, done.offset]
    obtain ⟨below, _⟩ := frontier_covers ok.holds.held.ahead ok.holds.held.sorted
    by_cases early : x < s.qrs.fl.offset
    · simp only [early, true_or, true_iff]; left; omega
    by_cases returned : x < s.qrs.fl.offset +
        min size (frontier s.qrs.fl.offset s.qrs.fl.frames - s.qrs.fl.offset)
    · simp only [returned, true_or, iff_true]
      exact .inr (below x (by omega) (by omega))
    · rw [done.covers x (by rw [done.offset]; omega)]
      simp only [early, returned, false_or]
  obtain ⟨rxfc, retired, flow⟩ := retire_holds env (n := got.bytes.length) (fun r p given => by
    rw [done.rxfc] at given
    obtain ⟨step, rwm, reach, high⟩ := ok.flow r p given
    exact ⟨step, by rw [done.offset, done.length]; omega, by rw [done.currEnd]; exact reach, high⟩)
    (by rw [done.offset, done.currEnd]; omega) bound
  have read : quicRstreamRead env s.qrs size = (true, some got, { qrs' with rxfc := rxfc }) := by
    simp only [quicRstreamRead, run, retired]
  refine ⟨?_, got, by rw [read], by rw [read], done.length, joined, fin, done.whole⟩
  rw [applyRstreamCall, read]
  refine ⟨⟨done.holds.held, done.holds.ring, done.holds.tail, done.holds.within,
    done.holds.finEnd, done.holds.unlocked⟩, flow, ?_, joined, covers, done.sameFin.trans ok.fin⟩
  change (s.got ++ got.bytes).length = qrs'.fl.offset
  rw [length_append, ok.length, done.length, done.offset]

theorem applyMove_holds (ok : TracedHolds stream s) :
    TracedHolds stream (applyRstreamCall s .moveToRbuf) := by
  obtain ⟨holds, offset, rxfc, fin, ends, covers⟩ := moveToRbuf_holds ok.holds
  refine ⟨holds, fun r p given => ?_, ?_, ok.carries, fun x => ?_, fin.trans ok.fin⟩
  · change (quicRstreamMoveToRbuf s.qrs).2.rxfc = _ at given
    rw [rxfc] at given
    change _ ∧ _ = (quicRstreamMoveToRbuf s.qrs).2.fl.offset ∧
      sframeCurrEnd (quicRstreamMoveToRbuf s.qrs).2.fl ≤ _ ∧ _
    rw [offset, ends]
    exact ok.flow r p given
  · exact ok.length.trans offset.symm
  · change x ∈ s.queued ↔ x < (quicRstreamMoveToRbuf s.qrs).2.fl.offset ∨ _
    rw [ok.queued x, offset]
    exact or_congr Iff.rfl (covers x).symm

theorem applyRstreamCall_holds (bound : stream.length < maxOffset) (s : TracedRstream)
    (c : RstreamCall) (ok : TracedHolds stream s) (valid : CarriesPart stream s c) :
    TracedHolds stream (applyRstreamCall s c) := by
  cases c with
  | queue mem offset data dataLen fin => exact applyQueue_holds bound ok valid
  | read env size => exact (applyRead_holds bound ok env size).1
  | moveToRbuf => exact applyMove_holds ok

theorem quicRstreamNew_holds {mem : Bool} {setup : RxfcSetup} {rbufSize : Nat}
    (sized : rbufSize < 2 ^ 64) (made : quicRstreamNew mem setup.make rbufSize = some qrs) :
    TracedHolds stream (freshRstream qrs) := by
  rw [quicRstreamNew] at made
  rcases ringBufResize_resized ringBufInit_ok (by simp [ringBufInit]) mem sized with
    failed | ⟨rbuf, resized, result⟩
  · simp [failed] at made
  · rw [resized] at made
    obtain rfl := some.inj made
    have held : FramesHeld (byteAt stream) stream.length 0 rbuf [] :=
      ⟨.nil, by simp, by simp, by simp, by simp⟩
    refine ⟨⟨held, result.ok, ?_, Nat.zero_le _, by simp [freshRstream, sframeListInit], rfl⟩, ?_,
      rfl, carries_nil _ _, ?_, rfl⟩
    · exact result.ctail
    · intro rxfc parent given
      cases setup with
      | absent => simp [freshRstream, RxfcSetup.make] at given
      | standalone size =>
        obtain ⟨rfl, rfl⟩ := mk.inj (some.inj given)
        exact ⟨⟨.inl rfl, rfl⟩, rfl, Nat.le_refl _, Nat.zero_le _⟩
      | stream size maxSize conn =>
        obtain ⟨rfl, rfl⟩ := mk.inj (some.inj given)
        exact ⟨⟨.inr (by simp), rfl⟩, rfl, Nat.le_refl _, Nat.zero_le _⟩
    · intro x
      simp [freshRstream, sframeListInit]

/-- The end of the contiguous prefix that a set of offsets covers. -/
def PrefixEnd (offsets : Set Nat) (m : Nat) : Prop := (∀ x < m, x ∈ offsets) ∧ m ∉ offsets

theorem frontier_prefixEnd (ok : TracedHolds stream s) :
    PrefixEnd s.queued (frontier s.qrs.fl.offset s.qrs.fl.frames) := by
  obtain ⟨below, top⟩ := frontier_covers ok.holds.held.ahead ok.holds.held.sorted
  have low := frontier_low ok.holds.held.ahead ok.holds.held.sorted
  refine ⟨fun x hx => (ok.queued x).mpr ?_, fun here => ?_⟩
  · by_cases early : x < s.qrs.fl.offset
    · exact .inl early
    · exact .inr (below x (by omega) hx)
  · rcases (ok.queued _).mp here with early | inside
    · omega
    · exact top inside

/-- A reader gets the peer's stream and nothing else: every read succeeds with the
    bytes up to the first gap that fit, fin comes with the read that leaves all of
    the stream returned once a FIN is queued, and no assertion fails. -/
theorem rstream_delivers_stream (stream : List UInt8) (bound : stream.length < maxOffset)
    (mem : Bool) (setup : RxfcSetup) (rbufSize : Nat) (sized : rbufSize < 2 ^ 64)
    (qrs : QuicRstream) (made : quicRstreamNew mem setup.make rbufSize = some qrs)
    (calls : List RstreamCall)
    (valid : Admissible applyRstreamCall (CarriesPart stream) (freshRstream qrs) calls) :
    let s := run applyRstreamCall (freshRstream qrs) calls
    s.got <+: stream ∧
      (∀ env size, ∃ got m, PrefixEnd s.queued m ∧ (quicRstreamRead env s.qrs size).1 = true ∧
        (quicRstreamRead env s.qrs size).2.1 = some got ∧
        got.bytes.length = min size (m - s.got.length) ∧ s.got ++ got.bytes <+: stream ∧
        (got.fin = true ↔ s.finQueued = true ∧ s.got.length + got.bytes.length = stream.length) ∧
        got.broken = false) ∧
      ∀ mem offset data dataLen fin, CarriesPart stream s (.queue mem offset data dataLen fin) →
        sframeListInsert mem s.qrs.fl ⟨offset, addU64 offset dataLen⟩ data fin ≠
          .error .invariantBroken := by
  intro s
  have limit : maxOffset < 2 ^ 64 := by decide
  have ok : TracedHolds stream s :=
    run_invariant (applyRstreamCall_holds bound) (quicRstreamNew_holds sized made) valid
  have within := ok.holds.within
  refine ⟨prefix_of_carries ok.carries (by rw [ok.length]; exact within), ?_, ?_⟩
  · intro env size
    obtain ⟨_, got, returns⟩ := applyRead_holds bound ok env size
    have top := frontier_top (offset_le_currEnd ok.holds.listOk)
      (fun f hf => currEnd_top ok.holds.held.sorted hf)
    have ends := currEnd_within ok.holds
    refine ⟨got, _, frontier_prefixEnd ok, returns.success, returns.result, ?_, ?_, returns.fin,
      returns.whole⟩
    · rw [ok.length]; exact returns.length
    · refine prefix_of_carries returns.carries ?_
      rw [length_append, returns.length, ok.length]
      omega
  · intro mem offset data dataLen fin part broken
    have inside := part.1
    rcases sframeListInsert_inserted mem ok.holds.listOk ⟨offset, addU64 offset dataLen⟩ data fin
      (by rw [addU64_exact (by omega)]; simp) with ⟨failed, _⟩ | ⟨fl, stored, _⟩
    · rw [failed] at broken; simp at broken
    · rw [stored] at broken; simp at broken

/- Out of order, over the end of a ring buffer of three bytes, with an empty FIN. -/
def shuffledCalls : List RstreamCall :=
  [.queue true 2 (some [3, 4]) 2 false, .queue true 0 (some [1, 2]) 2 false, .moveToRbuf,
    .read ⟨0, ⟨1, 2, 3⟩, ⟨1, 2, 3⟩⟩ 2, .moveToRbuf, .queue true 4 none 0 true]

def emptyRstream : QuicRstream :=
  ⟨sframeListInit, some (rxfcInitStandalone 16, none), ⟨0, 0⟩, ⟨fun _ => 0, 3, 0, 0⟩⟩

theorem rstream_delivers_shuffled :
    (run applyRstreamCall (freshRstream emptyRstream) shuffledCalls).got <+: [1, 2, 3, 4] :=
  (rstream_delivers_stream [1, 2, 3, 4] (by decide) true (.standalone 16) 3 (by decide)
    emptyRstream rfl shuffledCalls
    ⟨⟨by decide, by simp, by simp, by decide⟩, ⟨by decide, by simp, by simp, by decide⟩, trivial,
      trivial, trivial, ⟨by decide, by simp, by simp, by decide⟩, trivial⟩).1

def lateFinCalls : List RstreamCall := [.queue true 0 (some [7]) 1 false]

theorem rstream_fin_not_with_last_byte :
    ¬ ∀ (stream : List UInt8) (qrs : QuicRstream) (calls : List RstreamCall),
      stream.length < maxOffset → quicRstreamNew true RxfcSetup.absent.make 0 = some qrs →
      Admissible applyRstreamCall (CarriesPart stream) (freshRstream qrs) calls →
      let s := run applyRstreamCall (freshRstream qrs) calls
      ∀ env size got, (quicRstreamRead env s.qrs size).2.1 = some got →
        (got.fin = true ↔
          s.got.length < stream.length ∧ s.got.length + got.bytes.length = stream.length) := by
  intro always
  have both := always [7] ⟨sframeListInit, none, ⟨0, 0⟩, ringBufInit⟩ lateFinCalls (by decide) rfl
    ⟨⟨by decide, by simp, by simp, rfl⟩, trivial⟩ ⟨0, ⟨0, 0, 0⟩, ⟨0, 0, 0⟩⟩ 8 ⟨[7], 1, false, false⟩
    rfl
  exact absurd (both.mpr (by decide)) (by decide)

end Ossl
