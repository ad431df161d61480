import OpenSSL.Quic.RStreamRuns
import OpenSSL.Quic.SStreamRuns

/- A stream from end to end. The frames of a send stream, cut to the room that a packet has
   left, come to a receive stream in any order, more than once or never. -/
namespace Ossl
open List Runs

structure StreamTransfer where
  sender : TracedSstream
  wire : List StreamFrameOut
  receiver : TracedRstream

inductive TransferOp where
  | send (call : SstreamCall)
  | emit (skip room : Nat)
  | arrive (mem : Bool) (k : Nat)
  | read (env : RetireEnv) (size : Nat)
  | moveToRbuf

/- The frame as txp_generate_stream_frames puts it into a packet: one that is cut short has
   no FIN. -/
def cutFrame (room : Nat) (frame : StreamFrameOut) : StreamFrameOut where
  offset := frame.offset
  len := min room frame.len
  isFin := frame.isFin && decide (frame.len ≤ room)
  iov := quicSstreamAdjustIov (min room frame.len) frame.iov

def arrival (mem : Bool) (frame : StreamFrameOut) : RstreamCall :=
  .queue mem frame.offset (some frame.iov.flatten) frame.len frame.isFin

def transferStep (t : StreamTransfer) : TransferOp → StreamTransfer
  | .send call => { t with sender := applySstreamCall t.sender call }
  | .emit skip room =>
    { t with
      wire := t.wire ++
        ((quicSstreamGetStreamFrame t.sender.qss skip 2).map (cutFrame room)).toList }
  | .arrive mem k =>
    match t.wire[k]? with
    | none => t
    | some frame => { t with receiver := applyRstreamCall t.receiver (arrival mem frame) }
  | .read env size => { t with receiver := applyRstreamCall t.receiver (.read env size) }
  | .moveToRbuf => { t with receiver := applyRstreamCall t.receiver .moveToRbuf }

/- The marks come as the packets fare, and the flow controller refuses no frame. -/
def TransferOk (t : StreamTransfer) : TransferOp → Prop
  | .send call => MarksInOrder t.sender call
  | .arrive _ k => ∀ frame, t.wire[k]? = some frame →
    (tellRxfc t.receiver.qrs (frame.offset + frame.len) frame.isFin).1 = true
  | _ => True

/-- A frame carries its part of the stream, and a FIN only at the end of the stream. -/
structure FrameCarries (stream : List UInt8) (frame : StreamFrameOut) : Prop where
  inside : frame.offset + frame.len ≤ stream.length
  bytes : frame.iov.flatten = (stream.drop frame.offset).take frame.len
  isFin : frame.isFin = true → frame.offset + frame.len = stream.length

/-- What was appended is the beginning of the stream, and once finished it is all of it. -/
structure Towards (stream : List UInt8) (s : TracedSstream) : Prop where
  appended : s.appended <+: stream
  finished : s.finished = true → s.appended = stream

/-- The sender's part keeps its order, every frame on the wire carries its part of the whole
    stream, and the receiver holds parts of that stream alone. -/
structure TransferHolds (stream : List UInt8) (t : StreamTransfer) : Prop where
  sender : SstreamOk t.sender
  wire : ∀ frame ∈ t.wire, FrameCarries stream frame ∧
    (frame.isFin = true → t.sender.finished = true)
  receiver : TracedHolds stream t.receiver
  fin : t.receiver.finQueued = true → t.sender.finished = true

variable {stream : List UInt8} {s : TracedSstream} {t : StreamTransfer} {frame : StreamFrameOut}

theorem adjustIov_flatten (len : Nat) (iov : List (List UInt8)) :
    (quicSstreamAdjustIov len iov).flatten = iov.flatten.take len := by
  induction iov generalizing len with
  | nil => simp [quicSstreamAdjustIov]
  | cons v rest ih => rw [quicSstreamAdjustIov, flatten_cons, flatten_cons, ih, take_append]

theorem cutFrame_carries (carries : FrameCarries stream frame) (room : Nat) :
    FrameCarries stream (cutFrame room frame) := by
  have inside := carries.inside
  refine ⟨?_, ?_, ?_⟩
  · simp only [cutFrame]
    omega
  · simp only [cutFrame]
    rw [adjustIov_flatten, carries.bytes, take_take, min_assoc, min_self]
  · intro fin
    simp only [cutFrame, Bool.and_eq_true, decide_eq_true_eq] at fin ⊢
    rw [min_eq_right fin.2]
    exact carries.isFin fin.1

/-- A frame of the send stream carries its part of what was appended so far. -/
theorem getStreamFrame_carries (ok : SstreamOk s) (towards : Towards stream s) {skip : Nat}
    (offered : quicSstreamGetStreamFrame s.qss skip 2 = some frame) :
    FrameCarries stream frame ∧ (frame.isFin = true → s.finished = true) := by
  obtain ⟨rest, whole⟩ := towards.appended
  by_cases past : s.qss.newSet.length ≤ skip
  · obtain ⟨_, finished, is⟩ := getStreamFrame_past ok past offered
    have all := towards.finished finished
    rw [is]
    exact ⟨⟨by rw [all]; exact Nat.le_refl _, by simp, fun _ => by rw [all]; rfl⟩,
      fun _ => finished⟩
  · obtain ⟨range, here⟩ : ∃ range, s.qss.newSet[skip]? = some range :=
      ⟨_, List.getElem?_eq_getElem (not_le.mp past)⟩
    obtain ⟨frame', run, made⟩ := getStreamFrame_range ok (Nat.le_refl 2) here
    obtain rfl := Option.some.inj (run.symm.trans offered)
    have member : range ∈ s.qss.newSet := mem_of_getElem? here
    have valid := ok.newSep.nonempty range member
    have top := ((ok.new range.stop).mp
      (Spans.mem_points_of_mem member ⟨valid, Nat.le_refl _⟩)).1
    have stop : frame'.offset + frame'.len = range.stop + 1 := by
      rw [made.offset, made.len]
      omega
    refine ⟨⟨?_, ?_, ?_⟩, fun fin => (made.isFin.mp fin).1⟩
    · rw [stop, ← whole, length_append]
      omega
    · rw [made.bytes, made.offset, ← whole, drop_append_of_le_length (by omega),
        take_append_of_le_length]
      rw [length_drop, made.len]
      omega
    · intro fin
      obtain ⟨finished, last⟩ := made.isFin.mp fin
      rw [stop, last, towards.finished finished]

theorem applySstreamCall_towards (ok : SstreamOk s) {call : SstreamCall}
    (later : Towards stream (applySstreamCall s call)) : Towards stream s := by
  cases call with
  | append mem buf =>
    refine ⟨(prefix_append _ _).trans later.appended, fun finished => ?_⟩
    have refused : quicSstreamAppend mem s.qss buf = (false, 0, s.qss) := by
      rw [quicSstreamAppend, if_pos (ok.finished.trans finished)]
    have all := later.finished finished
    simpa only [applySstreamCall, refused, take_zero, append_nil] using all
  | fin => exact ⟨later.appended, fun _ => later.finished rfl⟩
  | _ => exact ⟨later.appended, later.finished⟩

theorem applySstreamCall_finished (call : SstreamCall) (finished : s.finished = true) :
    (applySstreamCall s call).finished = true := by
  cases call with
  | fin => rfl
  | _ => exact finished

theorem transferStep_sender (op : TransferOp) : (transferStep t op).sender = t.sender ∨
    ∃ call, op = .send call ∧ (transferStep t op).sender = applySstreamCall t.sender call := by
  cases op with
  | send call => exact .inr ⟨call, rfl, rfl⟩
  | emit skip room => exact .inl rfl
  | arrive mem k =>
    left
    simp only [transferStep]
    split <;> rfl
  | read env size => exact .inl rfl
  | moveToRbuf => exact .inl rfl

theorem transferStep_senderOk (t : StreamTransfer) (op : TransferOp) (ok : SstreamOk t.sender)
    (valid : TransferOk t op) : SstreamOk (transferStep t op).sender := by
  rcases transferStep_sender op with same | ⟨call, rfl, called⟩
  · rwa [same]
  · rw [called]
    exact applySstreamCall_ok t.sender call ok valid

theorem run_towards {ops : List TransferOp} (ok : SstreamOk t.sender)
    (valid : Admissible transferStep TransferOk t ops) :
    Towards (run transferStep t ops).sender.appended t.sender := by
  let Before (t u : StreamTransfer) := ∀ stream, Towards stream u.sender → Towards stream t.sender
  have before : Before t (run transferStep t ops) := by
    refine run_climbs (fun t _ => id) ?_ transferStep_senderOk ?_ ok valid
    · exact fun t u v first second stream later => first stream (second stream later)
    · intro t op ok _ stream later
      rcases transferStep_sender op with same | ⟨call, _, called⟩
      · rwa [same] at later
      · exact applySstreamCall_towards ok (called ▸ later)
  exact before _ ⟨prefix_rfl, fun _ => rfl⟩

theorem transferStep_holds {op : TransferOp} (bound : stream.length < maxOffset)
    (ok : TransferHolds stream t) (towards : Towards stream t.sender) (valid : TransferOk t op) :
    TransferHolds stream (transferStep t op) := by
  have sender := transferStep_senderOk t op ok.sender valid
  cases op with
  | send call =>
    have stays := applySstreamCall_finished (s := t.sender) call
    exact ⟨sender, fun frame member => ⟨(ok.wire frame member).1, fun fin =>
      stays ((ok.wire frame member).2 fin)⟩, ok.receiver, fun fin => stays (ok.fin fin)⟩
  | emit skip room =>
    refine ⟨sender, fun frame member => ?_, ok.receiver, ok.fin⟩
    rcases mem_append.mp member with old | new
    · exact ok.wire frame old
    · obtain ⟨whole, offered, rfl⟩ := Option.map_eq_some_iff.mp (Option.mem_toList.mp new)
      obtain ⟨carries, ends⟩ := getStreamFrame_carries ok.sender towards offered
      refine ⟨cutFrame_carries carries room, fun fin => ends ?_⟩
      simp only [cutFrame, Bool.and_eq_true] at fin
      exact fin.1
  | arrive mem k =>
    cases here : t.wire[k]? with
    | none => simpa only [transferStep, here] using ok
    | some frame =>
      obtain ⟨carries, ends⟩ := ok.wire frame (mem_of_getElem? here)
      have part : CarriesPart stream t.receiver (arrival mem frame) :=
        ⟨carries.inside, fun d is => Option.some.inj is ▸ carries.bytes, carries.isFin,
          valid frame here⟩
      have receiver := applyRstreamCall_holds bound t.receiver (arrival mem frame) ok.receiver part
      simp only [transferStep, here]
      refine ⟨ok.sender, ok.wire, receiver, ?_⟩
      simp only [arrival, applyRstreamCall, Bool.or_eq_true, Bool.and_eq_true]
      rintro (before | now)
      · exact ok.fin before
      · exact ends now.2
  | read env size =>
    exact ⟨sender, ok.wire, applyRstreamCall_holds bound _ (.read env size) ok.receiver trivial,
      ok.fin⟩
  | moveToRbuf =>
    exact ⟨sender, ok.wire, applyRstreamCall_holds bound _ .moveToRbuf ok.receiver trivial,
      ok.fin⟩

theorem run_transferHolds (ops : List TransferOp) (t : StreamTransfer)
    (valid : Admissible transferStep TransferOk t ops)
    (bound : (run transferStep t ops).sender.appended.length < maxOffset)
    (ok : TransferHolds (run transferStep t ops).sender.appended t) :
    TransferHolds (run transferStep t ops).sender.appended (run transferStep t ops) := by
  induction ops generalizing t with
  | nil => exact ok
  | cons op rest ih =>
    exact ih (transferStep t op) valid.2 bound
      (transferStep_holds bound ok (run_towards ok.sender valid) valid.1)

/-- Whatever the network does to the frames, the receiver's application reads the beginning of
    what the sender's application has appended, and it is told of the end when it has read all
    of a finished stream. -/
theorem stream_transferred {mem mem' : Bool} {initBufSize rbufSize : Nat} {qss : QuicSstream}
    {qrs : QuicRstream} {setup : RxfcSetup} (sendSize : initBufSize < 2 ^ 64)
    (created : quicSstreamNew mem initBufSize = some qss) (sized : rbufSize < 2 ^ 64)
    (made : quicRstreamNew mem' setup.make rbufSize = some qrs) (ops : List TransferOp)
    (valid : Admissible transferStep TransferOk ⟨freshSstream qss, [], freshRstream qrs⟩ ops)
    (short : (run transferStep ⟨freshSstream qss, [], freshRstream qrs⟩ ops).sender.appended.length
      < maxOffset) :
    let t := run transferStep ⟨freshSstream qss, [], freshRstream qrs⟩ ops
    t.receiver.got <+: t.sender.appended ∧
      ∀ env size, ∃ got, (quicRstreamRead env t.receiver.qrs size).1 = true ∧
        (quicRstreamRead env t.receiver.qrs size).2.1 = some got ∧
        t.receiver.got ++ got.bytes <+: t.sender.appended ∧
        (got.fin = true → t.sender.finished = true ∧
          t.receiver.got ++ got.bytes = t.sender.appended) := by
  intro t
  have ok : TransferHolds t.sender.appended t := run_transferHolds ops _ valid short
    ⟨quicSstreamNew_ok sendSize created, fun _ member => absurd member not_mem_nil,
      quicRstreamNew_holds sized made, fun fin => absurd fin Bool.false_ne_true⟩
  refine ⟨prefix_of_carries ok.receiver.carries
    (ok.receiver.length ▸ ok.receiver.holds.within), fun env size => ?_⟩
  obtain ⟨next, got, returns⟩ := applyRead_holds short ok.receiver env size
  have gives : (applyRstreamCall t.receiver (.read env size)).got =
      t.receiver.got ++ got.bytes := by
    simp only [applyRstreamCall, returns.result]
    rfl
  have front : t.receiver.got ++ got.bytes <+: t.sender.appended :=
    prefix_of_carries returns.carries (gives ▸ next.length ▸ next.holds.within)
  refine ⟨got, returns.success, returns.result, front, fun fin => ?_⟩
  obtain ⟨queued, all⟩ := returns.fin.mp fin
  exact ⟨ok.fin queued, front.eq_of_length (by rw [length_append, all])⟩

/- The end comes first, then what it repeats. -/
def sampleTransfer : List TransferOp :=
  [.send (.append true [1, 2, 3]), .emit 0 2, .send .fin, .emit 0 9, .arrive true 1, .arrive true 0,
    .read ⟨0, ⟨1, 2, 3⟩, ⟨1, 2, 3⟩⟩ 9]

theorem stream_transferred_backwards :
    let t := run transferStep ⟨freshSstream emptySstream, [], freshRstream emptyRstream⟩
      sampleTransfer
    t.receiver.got <+: t.sender.appended :=
  (stream_transferred (by decide : 4 < 2 ^ 64) (rfl : quicSstreamNew true 4 = some emptySstream)
    (by decide : 3 < 2 ^ 64)
    (rfl : quicRstreamNew true (RxfcSetup.standalone 16).make 3 = some emptyRstream) sampleTransfer
    ⟨trivial, trivial, trivial, trivial,
      fun frame here => Option.some.inj here ▸ (by decide),
      fun frame here => Option.some.inj here ▸ (by decide), trivial, trivial⟩ (by decide)).1

end Ossl
