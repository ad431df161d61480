import OpenSSL.Ssl.TlsRead

/- The records that come out of a stream, over all the calls that read it. -/
namespace Ossl
open Nat List BigEndian Runs

structure PlainRecord where
  type : UInt8
  version : Nat
  body : List UInt8
  deriving DecidableEq

def PlainRecord.header (r : PlainRecord) : List UInt8 :=
  r.type :: (netBytes 2 r.version ++ netBytes 2 r.body.length)

def PlainRecord.encode (r : PlainRecord) : List UInt8 := r.header ++ r.body

section Records
variable (validate : UInt8 → Nat → Nat → Bool)

/- A header that is let through, and that no V2ClientHello begins with. -/
structure WellFormed (r : PlainRecord) : Prop where
  type : r.type.toNat < 128
  version : r.version < 2 ^ 16
  notSsl2 : r.version ≠ ssl2Version
  length : r.body.length < 2 ^ 16
  valid : validate r.type r.version r.body.length = true

def RoomFor (align length : Nat) (r : PlainRecord) : Prop :=
  align + ssl3RtHeaderLength + r.body.length ≤ length

@[simp] theorem header_length (r : PlainRecord) : r.header.length = 5 := by
  simp [PlainRecord.header]

theorem netValue_two {v : Nat} (small : v < 2 ^ 16) : netValue (netBytes 2 v) = v := by
  rw [netValue_netBytes, mod_eq_of_lt small]

variable {validate}

variable {r : PlainRecord} {rl : ReadLayer} {rest : List UInt8} {recs rs : List PlainRecord}
    {bio : TransportBio}

theorem header_fields (good : WellFormed validate r) (rest : List UInt8) :
    (r.header ++ rest).getD 0 0 = r.type ∧
      netValue (((r.header ++ rest).drop 1).take 2) = r.version ∧
      netValue (((r.header ++ rest).drop 3).take 2) = r.body.length ∧
      netValue ((r.header ++ rest).take 2) < 2 ^ 15 := by
  have version := netValue_two good.version
  have length := netValue_two good.length
  refine ⟨rfl, version, length, ?_⟩
  have first : (r.header ++ rest).take 2 = [r.type, UInt8.ofNat (r.version >>> 8)] := rfl
  have type := good.type
  rw [first, netValue_cons, netValue_cons]
  simp [netValue]
  omega

/-- The header of the next record is let through as it is. -/
theorem tlsRecordHeader_spec {more : List UInt8} (good : WellFormed validate r)
    (held : Held rl rest (r.encode ++ more)) (whole : rl.packetLength = 5)
    (room : RoomFor rl.align rl.buf.length r) : tlsRecordHeader validate rl =
      (.success, { rl with thisrr := ⟨r.type, r.version, r.body.length, 0⟩ }) := by
  have bytes := held.bytes
  have fits := held.room
  have next := held.next
  have p : slice rl.buf rl.packet rl.packetLength = r.header ++ [] := by
    rw [slice_add, whole, PlainRecord.encode, append_assoc, append_assoc] at bytes
    rw [whole, append_nil]
    exact append_inj_left bytes (by rw [slice_length rl.buf rl.packet 5 (by omega), header_length])
  obtain ⟨type, version, length, low⟩ := header_fields good []
  rw [tlsRecordHeader, p]
  have plain : ¬ (rl.server = true ∧ rl.isFirstRecord = true ∧
      netValue ((r.header ++ []).take 2) &&& 0x8000 ≠ 0 ∧
        (r.header ++ []).getD 2 0 = ssl2MtClientHello) := by
    intro hello
    apply hello.2.2.1
    rw [show (0x8000 : Nat) = 2 ^ 15 from rfl, and_two_pow, testBit_eq_false_of_lt low]
    rfl
  rw [RoomFor, ssl3RtHeaderLength] at room
  rw [if_neg plain, type, version, length, if_neg good.notSsl2,
    if_neg (by rw [ssl3RtHeaderLength]; omega), if_pos good.valid]

/- The packet holds the header of the record, and the body is either in the buffer or will be put
   right behind it. -/
structure BodyReady (r : PlainRecord) (rl : ReadLayer) (rest stream : List UInt8) : Prop where
  held : Held rl rest stream
  inBody : rl.inBody = true
  whole : rl.packetLength = 5
  thisrr : ∃ input, rl.thisrr = ⟨r.type, r.version, r.body.length, input⟩
  placed : rl.packet = rl.align ∨ r.body.length ≤ rl.left

def streamOf (rs : List PlainRecord) : List UInt8 := rs.flatMap PlainRecord.encode

theorem stream_starts (long : 5 ≤ (streamOf rs).length) : ∃ r later, rs = r :: later := by
  cases rs with
  | nil => simp [streamOf] at long
  | cons r later => exact ⟨r, later, rfl⟩

theorem encode_long (r : PlainRecord) : r.encode.length = 5 + r.body.length := by
  rw [PlainRecord.encode, length_append, header_length]

theorem stream_cons (r : PlainRecord) (later : List PlainRecord) :
    streamOf (r :: later) = r.encode ++ streamOf later := flatMap_cons

theorem stream_short (short : (streamOf rs).length < 5) : rs = [] := by
  cases rs with
  | nil => rfl
  | cons r later =>
    rw [stream_cons, length_append, encode_long] at short
    omega

def Roomy (rs : List PlainRecord) (rl : ReadLayer) : Prop :=
  rl.align + 5 ≤ rl.buf.length ∧ ∀ r ∈ rs, RoomFor rl.align rl.buf.length r

theorem Roomy.same {rl' : ReadLayer} (roomy : Roomy rs rl) (setting : SameSetting rl rl') :
    Roomy rs rl' := by
  obtain ⟨length, align, _⟩ := setting
  rw [Roomy, length, align]
  exact roomy

def NextWaits (rs : List PlainRecord) (rl : ReadLayer) : Prop :=
  ∃ r later, rs = r :: later ∧ 5 + r.body.length ≤ rl.left

theorem getHeader_spec (good : ∀ r ∈ rs, WellFormed validate r) (first : Bool)
    (head : rl.inBody = false) (over_ : Leftover rl bio.rest (streamOf rs)) (roomy : Roomy rs rl)
    (waits : first = true ∨ NextWaits rs rl) :
    ∃ ret rl' bio', getHeader validate first rl bio = (ret, rl', bio') ∧
      rl'.buf.length = rl.buf.length ∧ rl'.align = rl.align ∧ rl'.maxPipelines = rl.maxPipelines ∧
      (first = false → ret = .success ∧ rl'.buf = rl.buf ∧ rl'.left = rl.left - 5) ∧
      ((ret = .success ∧ ∃ r later, rs = r :: later ∧ BodyReady r rl' bio'.rest (streamOf rs) ∧
          (first = true → rl'.packet = rl'.align)) ∨
        (Unfilled 5 ret rl' ∧ rl'.inBody = false ∧
          (Leftover rl' bio'.rest (streamOf rs) ∨ LetGo rl' bio'.rest (streamOf rs)))) := by
  have placed : first = true ∨ 5 ≤ rl.left := by
    rcases waits with is | ⟨r, later, _, more⟩
    · exact Or.inl is
    · exact Or.inr (by omega)
  obtain ⟨ret, rl1, bio1, is, setting, at_, kept, result⟩ :=
    readHeader_spec 5 rl.buf.length (by decide) first over_ placed roomy.1
  have whole : getHeader validate first rl bio = _ := if_pos (Or.inl head)
  obtain ⟨length, align, inBody, _, pipes⟩ := setting
  rw [whole, ssl3RtHeaderLength, is]
  rcases result with ⟨rfl, held, five⟩ | ⟨unfilled, held⟩
  · have bytes := held.bytes
    have room := held.room
    have next := held.next
    have long : 5 ≤ (streamOf rs).length := by
      rw [← bytes, length_append, slice_length _ _ _ (by omega)]
      omega
    obtain ⟨r, later, rfl⟩ := stream_starts long
    have held1 : Held { rl1 with inBody := true } bio1.rest (r.encode ++ streamOf later) := by
      rw [← stream_cons]
      exact { held with }
    have through := tlsRecordHeader_spec (good r (by simp)) held1 five
      (by dsimp only; rw [align, length]; exact roomy.2 r (by simp))
    dsimp only
    rw [through]
    refine ⟨_, _, _, rfl, length, align, pipes, ?_, Or.inl ⟨rfl, r, later, rfl, ?_, ?_⟩⟩
    · intro no
      exact ⟨rfl, (kept no).2⟩
    · rw [stream_cons]
      refine ⟨{ held1 with }, rfl, five, ⟨0, rfl⟩, ?_⟩
      rcases waits with yes | ⟨r', later', same, more⟩
      · exact Or.inl ((at_ yes).trans align.symm)
      · cases first with
        | true => exact Or.inl ((at_ rfl).trans align.symm)
        | false =>
          cases same
          have left := (kept rfl).2.2
          apply Or.inr
          dsimp only
          omega
    · intro yes
      exact (at_ yes).trans align.symm
  · have failed : ret ≠ .success := by
      rcases unfilled.1 with rfl | rfl <;> decide
    refine ⟨ret, rl1, bio1, ?_, length, align, pipes, ?_, Or.inr ⟨unfilled, inBody.trans head, held⟩⟩
    · rcases unfilled.1 with rfl | rfl <;> rfl
    · intro no
      exact absurd (kept no).1 failed

/-- The body is read behind its header, or the transport has nothing more for it. -/
theorem getBody_spec {stream : List UInt8} (good : WellFormed validate r)
    (ready : BodyReady r rl bio.rest stream) (room : RoomFor rl.align rl.buf.length r) :
    ∃ ret rl' bio', getBody rl bio = (ret, rl', bio') ∧ SameSetting rl rl' ∧
      rl'.packet = rl.packet ∧ (r.body.length ≤ rl.left → ret = .success ∧ rl'.buf = rl.buf) ∧
      ((ret = .success ∧ Held rl' bio'.rest stream ∧ rl'.packetLength = 5 + r.body.length) ∨
        (Unfilled r.body.length ret rl' ∧ BodyReady r rl' bio'.rest stream ∧
          rl'.packet = rl'.align)) := by
  obtain ⟨input, thisrr⟩ := ready.thisrr
  have more : bodyLength rl.thisrr = r.body.length := by
    rw [bodyLength, thisrr]
    exact if_neg good.notSsl2
  have next := ready.held.next
  have five := ready.whole
  have inside := ready.held.room
  rw [getBody, more]
  by_cases some_ : r.body.length > 0
  · rw [RoomFor, ssl3RtHeaderLength] at room
    have fits : rl.offset + r.body.length ≤ rl.buf.length := by
      rcases ready.placed with is | there <;> omega
    have whole : tlsDefaultReadN r.body.length r.body.length true false rl bio =
        takeOrRead r.body.length r.body.length rl bio := if_neg (by omega)
    rw [if_pos some_, whole]
    obtain ⟨ret, rl', bio', is, setting, packet, already, result⟩ :=
      takeOrRead_spec r.body.length r.body.length ready.held ready.placed fits
    refine ⟨ret, rl', bio', is, setting, packet, fun there => ⟨(already there).1, (already there).2.1⟩, ?_⟩
    obtain ⟨length, align, inBody, kept, _⟩ := setting
    rcases result with ⟨success, held, long⟩ | ⟨unfilled, same, held | gone⟩
    · exact Or.inl ⟨success, held, by omega⟩
    · have first : rl.packet = rl.align := by
        rcases ready.placed with is | there
        · exact is
        · have success := (already there).1
          rcases unfilled.1 with rfl | rfl <;> contradiction
      apply Or.inr
      refine ⟨unfilled, ⟨held, inBody.trans ready.inBody, by omega, ⟨input, kept.trans thisrr⟩, ?_⟩,
        by omega⟩
      exact Or.inl (by omega)
    · have := gone.packetLength
      omega
  · rw [if_neg some_]
    exact ⟨_, _, _, rfl, ⟨rfl, rfl, rfl, rfl, rfl⟩, rfl, fun _ => ⟨rfl, rfl⟩,
      Or.inl ⟨rfl, ready.held, by omega⟩⟩

/- The record that an entry of rl->rrec stands for. -/
def delivered (buf : List UInt8) (e : RrecEntry) : PlainRecord :=
  ⟨e.type, e.recVersion, slice buf e.input e.length⟩

variable {later : List PlainRecord}

/-- The record is cut out of the packet, and what follows it is left over. -/
theorem pulledIn_spec {input : Nat} (good : WellFormed validate r)
    (held : Held rl rest (streamOf (r :: later))) (long : rl.packetLength = 5 + r.body.length)
    (thisrr : rl.thisrr = ⟨r.type, r.version, r.body.length, input⟩) :
    Leftover (pulledIn rl) rest (streamOf later) ∧ delivered rl.buf (pulledIn rl).thisrr = r := by
  have next := held.next
  have room := held.room
  have front := held.front
  have bytes := held.bytes
  have header : (if rl.thisrr.recVersion = ssl2Version then ssl2RtHeaderLength
      else ssl3RtHeaderLength) = 5 := by
    rw [thisrr]
    exact if_neg good.notSsl2
  rw [stream_cons, PlainRecord.encode, long, slice_add, slice_add, append_assoc,
    append_assoc, append_assoc] at bytes
  have first := append_inj bytes (by rw [slice_length rl.buf rl.packet 5 (by omega), header_length])
  have second := append_inj first.2 (slice_length rl.buf (rl.packet + 5) r.body.length (by omega))
  constructor
  · constructor
    · exact held.live
    · dsimp only [pulledIn]
      omega
    · dsimp only [pulledIn]
      omega
    · dsimp only [pulledIn]
      rw [show rl.offset = rl.packet + (5 + r.body.length) by omega]
      exact second.2
  · have entry : (pulledIn rl).thisrr = ⟨r.type, r.version, r.body.length, rl.packet + 5⟩ := by
      dsimp only [pulledIn]
      rw [header, thisrr]
    rw [entry, delivered]
    rw [second.1]

def Looking (rs : List PlainRecord) (rl : ReadLayer) (rest : List UInt8) : Prop :=
  (rl.inBody = false ∧ Leftover rl rest (streamOf rs)) ∨
    ∃ r later, rs = r :: later ∧ BodyReady r rl rest (streamOf rs) ∧ rl.packet = rl.align

/- What a call leaves when the transport is to be asked again: if all is delivered, there is no
   record any more. -/
structure LeftOff (rs : List PlainRecord) (ret : RecordReturn) (rl : ReadLayer) (rest : List UInt8) :
    Prop where
  asks : ret = .retry ∨ ret = .eof
  state : Looking rs rl rest ∨ rl.inBody = false ∧ LetGo rl rest (streamOf rs)
  drained : rest = [] → rs = []

theorem getBody_taken (good : ∀ r ∈ rs, WellFormed validate r) {first : Bool}
    (roomy : Roomy rs rl) (is : rs = r :: later) {rl1 : ReadLayer} {bio1 : TransportBio}
    (ready : BodyReady r rl1 bio1.rest (streamOf rs))
    (length1 : rl1.buf.length = rl.buf.length) (align1 : rl1.align = rl.align)
    (pipes1 : rl1.maxPipelines = rl.maxPipelines)
    (kept1 : first = false → rl1.buf = rl.buf ∧ r.body.length ≤ rl1.left) :
    ∃ ret rl' bio', (match getBody rl1 bio1 with
        | (.success, rl, bio) => (RecordReturn.success, pulledIn rl, bio)
        | failed => failed) = (ret, rl', bio') ∧
      rl'.buf.length = rl.buf.length ∧ rl'.align = rl.align ∧ rl'.maxPipelines = rl.maxPipelines ∧
      (first = false → ret = .success ∧ rl'.buf = rl.buf) ∧
      ((ret = .success ∧ rl'.inBody = false ∧ ∃ r later, rs = r :: later ∧
          Leftover rl' bio'.rest (streamOf later) ∧ delivered rl'.buf rl'.thisrr = r) ∨
        LeftOff rs ret rl' bio'.rest) := by
  subst is
  have ok := good r (by simp)
  obtain ⟨ret, rl2, bio2, is, setting, packet, already, result⟩ :=
    getBody_spec ok ready (by rw [align1, length1]; exact roomy.2 r (by simp))
  obtain ⟨length, align, inBody, thisrr, pipes⟩ := setting
  obtain ⟨input, entry⟩ := ready.thisrr
  rw [is]
  rcases result with ⟨rfl, held, long⟩ | ⟨unfilled, ready', at_⟩
  · obtain ⟨over_, holds⟩ := pulledIn_spec ok held long (thisrr.trans entry)
    refine ⟨_, _, _, rfl, length.trans length1, align.trans align1, pipes.trans pipes1, ?_,
      .inl ⟨rfl, rfl, r, later, rfl, over_, holds⟩⟩
    intro no
    obtain ⟨same, there⟩ := kept1 no
    exact ⟨rfl, (already there).2.trans same⟩
  · have failed : ret ≠ .success := by
      rcases unfilled.1 with rfl | rfl <;> decide
    refine ⟨ret, rl2, bio2, ?_, length.trans length1, align.trans align1, pipes.trans pipes1, ?_,
      .inr ⟨unfilled.1, .inl (.inr ⟨r, later, rfl, ready', at_⟩), ?_⟩⟩
    · rcases unfilled.1 with rfl | rfl <;> rfl
    · intro no
      exact absurd (already (kept1 no).2).1 failed
    · -- all is delivered, and yet the body is not there: the stream would be too short
      intro all
      have bytes := congrArg List.length ready'.held.bytes
      have room := ready'.held.room
      have next := ready'.held.next
      have five := ready'.whole
      have short := unfilled.2
      rw [all, append_nil, slice_length _ _ _ (by omega), stream_cons, length_append,
        encode_long] at bytes
      omega

/-- One record is cut out of the stream, or the transport has to be asked again. -/
theorem getRecord_spec (good : ∀ r ∈ rs, WellFormed validate r) (first : Bool)
    (looking : Looking rs rl bio.rest) (roomy : Roomy rs rl)
    (waits : first = true ∨ rl.inBody = false ∧ NextWaits rs rl) :
    ∃ ret rl' bio', getRecord validate first rl bio = (ret, rl', bio') ∧
      rl'.buf.length = rl.buf.length ∧ rl'.align = rl.align ∧ rl'.maxPipelines = rl.maxPipelines ∧
      (first = false → ret = .success ∧ rl'.buf = rl.buf) ∧
      ((ret = .success ∧ rl'.inBody = false ∧ ∃ r later, rs = r :: later ∧
          Leftover rl' bio'.rest (streamOf later) ∧ delivered rl'.buf rl'.thisrr = r) ∨
        LeftOff rs ret rl' bio'.rest) := by
  rcases looking with ⟨head, over_⟩ | ⟨r, later, is, ready, at_⟩
  · have waits' : first = true ∨ NextWaits rs rl := waits.imp_right (fun w => w.2)
    obtain ⟨ret, rl1, bio1, is, length, align, pipes, kept, result⟩ :=
      getHeader_spec good first head over_ roomy waits'
    rw [getRecord, is]
    rcases result with ⟨rfl, r, later, starts, ready, placed⟩ | ⟨unfilled, head', state⟩
    · refine getBody_taken good roomy starts ready length align pipes ?_
      intro no
      obtain ⟨_, same, left⟩ := kept no
      rcases waits' with yes | ⟨r', later', starts', more⟩
      · rw [no] at yes
        cases yes
      · rw [starts] at starts'
        cases starts'
        exact ⟨same, by omega⟩
    · have failed : ret ≠ .success := by
        rcases unfilled.1 with rfl | rfl <;> decide
      refine ⟨ret, rl1, bio1, ?_, length, align, pipes, ?_, .inr ⟨unfilled.1, ?_, ?_⟩⟩
      · rcases unfilled.1 with rfl | rfl <;> rfl
      · intro no
        exact absurd (kept no).1 failed
      · rcases state with over' | gone
        · exact .inl (.inl ⟨head', over'⟩)
        · exact .inr ⟨head', gone⟩
      · intro all
        apply stream_short
        rcases state with over' | gone
        · rw [← over'.bytes, all, append_nil, over'.length]
          exact unfilled.2
        · rw [← gone.rest, all]
          decide
  · have first_ : first = true := by
      rcases waits with yes | ⟨head, _⟩
      · exact yes
      · rw [ready.inBody] at head
        cases head
    have whole := ready.whole
    have skip : getHeader validate first rl bio = (.success, rl, bio) := by
      apply if_neg
      rw [ready.inBody, whole]
      decide
    rw [getRecord, skip]
    refine getBody_taken good roomy is ready rfl rfl rfl ?_
    intro no
    rw [first_] at no
    cases no

/-- The peek finds a whole record only where there is one. -/
theorem waiting_next (good : ∀ r ∈ rs, WellFormed validate r)
    (over_ : Leftover rl rest (streamOf rs)) (waiting : tlsRecordAppDataWaiting rl = true) :
    NextWaits rs rl := by
  have bytes := over_.bytes
  rw [tlsRecordAppDataWaiting, ssl3RtHeaderLength] at waiting
  by_cases short : rl.left < 5
  · rw [if_pos short] at waiting
    nomatch waiting
  rw [if_neg short] at waiting
  have long : 5 ≤ (streamOf rs).length := by
    rw [← bytes, length_append, over_.length]
    omega
  obtain ⟨_, room⟩ := over_.placed.resolve_left (by omega)
  obtain ⟨r, later, rfl⟩ := stream_starts long
  have ok := good r (by simp)
  have header : (rl.buf.drop rl.offset).take 5 = r.header := by
    rw [show rl.left = 5 + (rl.left - 5) by omega, slice_add, stream_cons, PlainRecord.encode,
      append_assoc, append_assoc] at bytes
    exact append_inj_left bytes
      (by rw [header_length]; exact slice_length rl.buf rl.offset 5 (by omega))
  have length : netValue (((rl.buf.drop rl.offset).drop 3).take 2) = r.body.length := by
    have fields := (header_fields ok []).2.2.1
    rw [append_nil, ← header, drop_take, take_take] at fields
    exact fields
  rw [length] at waiting
  refine ⟨r, later, rfl, ?_⟩
  by_contra less
  rw [if_pos (show rl.left < 5 + r.body.length by omega)] at waiting
  split at waiting <;> nomatch waiting

def Between (rs : List PlainRecord) (more : Nat) (rr : List RrecEntry) (rl : ReadLayer) : Prop :=
  rr = [] ∧ 0 < more ∨ rr ≠ [] ∧ rl.inBody = false ∧ (0 < more → NextWaits rs rl)

/-- The records of one call are cut out of the stream in order. -/
theorem getRecords_spec (more : Nat) (good : ∀ r ∈ rs, WellFormed validate r)
    (rr : List RrecEntry) (looking : Looking rs rl bio.rest) (roomy : Roomy rs rl)
    (between : Between rs more rr rl) :
    ∃ ret all rl' bio', getRecords validate more rr rl bio = (ret, all, rl', bio') ∧
      rl'.buf.length = rl.buf.length ∧ rl'.align = rl.align ∧
      (rr ≠ [] → ret = .success ∧ rl'.buf = rl.buf) ∧
      ((ret = .success ∧ rl'.inBody = false ∧ ∃ es later, all = rr ++ es ∧ all ≠ [] ∧
          rs = es.map (delivered rl'.buf) ++ later ∧ Leftover rl' bio'.rest (streamOf later)) ∨
        all = [] ∧ LeftOff rs ret rl' bio'.rest) := by
  induction more generalizing rs rr rl bio with
  | zero =>
    rcases between with ⟨_, some_⟩ | ⟨has, head, _⟩
    · exact absurd some_ (by decide)
    · rcases looking with ⟨_, over_⟩ | ⟨r, later, _, ready, _⟩
      · exact ⟨_, _, _, _, rfl, rfl, rfl, fun _ => ⟨rfl, rfl⟩,
          .inl ⟨rfl, head, [], rs, (append_nil _).symm, has, rfl, over_⟩⟩
      · have inBody := ready.inBody
        rw [head] at inBody
        contradiction
  | succ more ih =>
    have waits : decide (rr.length = 0) = true ∨ rl.inBody = false ∧ NextWaits rs rl := by
      rcases between with ⟨none_, _⟩ | ⟨_, head, next⟩
      · exact .inl (by rw [none_]; rfl)
      · exact .inr ⟨head, next (succ_pos _)⟩
    obtain ⟨ret, rl1, bio1, is, length, align, _, kept, result⟩ :=
      getRecord_spec good (decide (rr.length = 0)) looking roomy waits
    have later_ (has : rr ≠ []) : decide (rr.length = 0) = false :=
      decide_eq_false (fun none_ => has (length_eq_zero_iff.mp none_))
    rw [getRecords, is]
    rcases result with ⟨rfl, head, r, later, rfl, over_, holds⟩ | off
    · have roomy1 : Roomy later rl1 := by
        rw [Roomy, length, align]
        exact ⟨roomy.1, fun r' at_ => roomy.2 r' (mem_cons_of_mem _ at_)⟩
      have good1 : ∀ r ∈ later, WellFormed validate r :=
        fun r' at_ => good r' (mem_cons_of_mem _ at_)
      dsimp only
      by_cases again : rl1.thisrr.type = ssl3RtApplicationData ∧ rl1.pipelines = true ∧
          tlsRecordAppDataWaiting rl1 = true
      · rw [if_pos again]
        obtain ⟨ret, all, rl2, bio2, is2, length2, align2, kept2, result2⟩ :=
          ih good1 (rr ++ [rl1.thisrr]) (.inl ⟨head, over_⟩) roomy1
            (.inr ⟨by simp, head, fun _ => waiting_next good1 over_ again.2.2⟩)
        obtain ⟨success, same⟩ := kept2 (by simp)
        refine ⟨ret, all, rl2, bio2, is2, length2.trans length, align2.trans align, ?_, ?_⟩
        · intro has
          exact ⟨success, same.trans (kept (later_ has)).2⟩
        · rcases result2 with ⟨_, head2, es, rest, appended, has, stream, over2⟩ | ⟨_, off⟩
          · refine .inl ⟨success, head2, rl1.thisrr :: es, rest, by simp [appended], has, ?_, over2⟩
            rw [stream, map_cons, same, holds]
            rfl
          · rw [success] at off
            rcases off.asks with asks | asks <;> contradiction
      · rw [if_neg again]
        refine ⟨_, _, _, _, rfl, length, align, fun has => kept (later_ has),
          .inl ⟨rfl, head, [rl1.thisrr], later, rfl, by simp, ?_, over_⟩⟩
        rw [← holds]
        rfl
    · refine ⟨ret, [], rl1, bio1, ?_, length, align, fun has => kept (later_ has), .inr ⟨rfl, off⟩⟩
      rcases off.asks with rfl | rfl <;> rfl

/- One call of tls_get_more_records: what the transport does meanwhile, whether read ahead is on, and
   the memory that a new read buffer would get. -/
structure ReadCall where
  answers : List BioAnswer
  readAhead : Bool
  buf : List UInt8
  align : Nat

/- The records that the calls have handed out so far are taken down as they stand in the buffer. -/
structure ReadWorld where
  rl : ReadLayer
  rest : List UInt8
  out : List PlainRecord
  ret : RecordReturn

def newReadLayer (server releaseBuffers pipelines : Bool) (maxPipelines : Nat) : ReadLayer where
  released := true
  buf := []
  align := 0
  offset := 0
  left := 0
  packet := 0
  packetLength := 0
  inBody := false
  thisrr := ⟨0, 0, 0, 0⟩
  readAhead := false
  releaseBuffers := releaseBuffers
  server := server
  isFirstRecord := true
  pipelines := pipelines
  maxPipelines := maxPipelines

def readStart (rl : ReadLayer) (stream : List UInt8) : ReadWorld := ⟨rl, stream, [], .success⟩

def readStep (validate : UInt8 → Nat → Nat → Bool) (w : ReadWorld) (call : ReadCall) : ReadWorld :=
  match tlsGetMoreRecords validate call.buf call.align { w.rl with readAhead := call.readAhead }
      ⟨w.rest, call.answers⟩ with
  | (ret, rr, rl, bio) => ⟨rl, bio.rest, w.out ++ rr.map (delivered rl.buf), ret⟩

def Adequate (recs : List PlainRecord) (call : ReadCall) : Prop :=
  call.align + ssl3RtHeaderLength ≤ call.buf.length ∧
    ∀ r ∈ recs, RoomFor call.align call.buf.length r

/- The records not handed out yet are those of the buffer and of the transport. -/
structure Framed (recs : List PlainRecord) (w : ReadWorld) : Prop where
  split : ∃ later, recs = w.out ++ later ∧ (w.ret ≠ .success → w.rest = [] → later = []) ∧
    (Looking later w.rl w.rest ∧ Roomy later w.rl ∨
      w.rl.inBody = false ∧ LetGo w.rl w.rest (streamOf later))
  asks : w.ret = .success ∨ w.ret = .retry ∨ w.ret = .eof

/-- A buffer that was let go is replaced, and else the buffer stays. -/
theorem tlsSetupReadBuffer_looking {call : ReadCall} (adequate : Adequate recs call)
    (part : ∀ r ∈ later, r ∈ recs)
    (state : Looking later rl rest ∧ Roomy later rl ∨ rl.inBody = false ∧ LetGo rl rest (streamOf later)) :
    Looking later (tlsSetupReadBuffer call.buf call.align rl) rest ∧
      Roomy later (tlsSetupReadBuffer call.buf call.align rl) := by
  rcases state with ⟨looking, roomy⟩ | ⟨head, gone⟩
  · have live : rl.released = false := by
      rcases looking with ⟨_, over_⟩ | ⟨r, later, _, ready, _⟩
      · exact over_.live
      · exact ready.held.live
    have stays : tlsSetupReadBuffer call.buf call.align rl = rl := by
      apply if_neg
      rw [live]
      decide
    rw [stays]
    exact ⟨looking, roomy⟩
  · have new : tlsSetupReadBuffer call.buf call.align rl =
        { rl with released := false, buf := call.buf, align := call.align } := if_pos gone.gone
    have start := adequate.1
    rw [ssl3RtHeaderLength] at start
    rw [new]
    refine ⟨.inl ⟨head, rfl, by dsimp only; omega, .inl gone.left, ?_⟩, start,
      fun r at_ => adequate.2 r (part r at_)⟩
    rw [gone.left]
    exact gone.rest

theorem readStep_framed (good : ∀ r ∈ recs, WellFormed validate r) (w : ReadWorld)
    (call : ReadCall) (framed : Framed recs w) (adequate : Adequate recs call) :
    Framed recs (readStep validate w call) ∧
      ((readStep validate w call).ret = .success →
        w.out.length < (readStep validate w call).out.length) := by
  obtain ⟨later, is, _, state⟩ := framed.split
  have part : ∀ r ∈ later, r ∈ recs := by
    intro r at_
    rw [is]
    exact mem_append_right _ at_
  have ahead : Looking later { w.rl with readAhead := call.readAhead } w.rest ∧ Roomy later w.rl ∨
      w.rl.inBody = false ∧
        LetGo { w.rl with readAhead := call.readAhead } w.rest (streamOf later) := by
    rcases state with ⟨looking, roomy⟩ | ⟨head, gone⟩
    · refine .inl ⟨?_, roomy⟩
      rcases looking with ⟨head, over_⟩ | ⟨r, rs, starts, ready, at_⟩
      · exact .inl ⟨head, over_.live, over_.start, over_.placed, over_.bytes⟩
      · have held := ready.held
        exact .inr ⟨r, rs, starts, { ready with held := { held with } }, at_⟩
    · exact .inr ⟨head, gone.gone, gone.left, gone.packetLength, gone.rest⟩
  obtain ⟨looking, roomy⟩ := tlsSetupReadBuffer_looking adequate part ahead
  generalize before : tlsSetupReadBuffer call.buf call.align
    { w.rl with readAhead := call.readAhead } = rl at looking roomy
  have here : Looking later rl (TransportBio.mk w.rest call.answers).rest := looking
  obtain ⟨ret, all, rl1, bio1, got, length, align, _, result⟩ :=
    getRecords_spec (if w.rl.maxPipelines = 0 then 1 else w.rl.maxPipelines)
      (fun r at_ => good r (part r at_)) [] here roomy
      (.inl ⟨rfl, by split <;> omega⟩)
  have step : readStep validate w call =
      ⟨rl1, bio1.rest, w.out ++ all.map (delivered rl1.buf), ret⟩ := by
    rw [readStep, tlsGetMoreRecords, before]
    rw [got]
  rw [step]
  rcases result with ⟨rfl, head, es, rest, rfl, some_, stream, over_⟩ | ⟨rfl, off⟩
  · refine ⟨⟨⟨rest, ?_, fun no => absurd rfl no, .inl ⟨.inl ⟨head, over_⟩, ?_⟩⟩, .inl rfl⟩, ?_⟩
    · rw [is, stream, append_assoc]
    · rw [Roomy, length, align]
      refine ⟨roomy.1, fun r at_ => roomy.2 r ?_⟩
      rw [stream]
      exact mem_append_right _ at_
    · intro _
      have := length_pos_iff.mpr some_
      rw [length_append, length_map]
      omega
  · refine ⟨⟨⟨later, ?_, fun _ => off.drained, ?_⟩, .inr off.asks⟩, ?_⟩
    · rw [map_nil, append_nil]
      exact is
    · rcases off.state with looking1 | ⟨head, gone⟩
      · refine .inl ⟨looking1, ?_⟩
        rw [Roomy, length, align]
        exact roomy
      · exact .inr ⟨head, gone⟩
    · intro success
      have asks := off.asks
      dsimp only at success
      rw [success] at asks
      rcases asks with asks | asks <;> contradiction

/- Nothing but records of the stream comes out, in order; if the transport has nothing more, they all
   came out. -/
def Extracted (recs : List PlainRecord) (w : ReadWorld) : Prop :=
  w.out <+: recs ∧ (w.ret = .success ∨ w.ret = .retry ∨ w.ret = .eof) ∧
    (w.ret ≠ .success → w.rest = [] → w.out = recs)

theorem framed_extracted {w : ReadWorld} (framed : Framed recs w) : Extracted recs w := by
  obtain ⟨later, is, drained, _⟩ := framed.split
  refine ⟨⟨later, is.symm⟩, framed.asks, ?_⟩
  intro asked all
  rw [is, drained asked all, append_nil]

/- A call that succeeds brings a record, one that is to be repeated was told so or took bytes, and the
   end of the stream is seen only where there is nothing more. -/
structure Progress (w : ReadWorld) (call : ReadCall) (w' : ReadWorld) : Prop where
  success : w'.ret = .success → w.out.length < w'.out.length
  retry : w'.ret = .retry → asksRetry call.answers = true ∨ w'.rest.length < w.rest.length
  eof : w'.ret = .eof → w'.rest = []
  kept : w.out.length ≤ w'.out.length ∧ w'.rest.length ≤ w.rest.length

theorem readStep_progress (good : ∀ r ∈ recs, WellFormed validate r) (w : ReadWorld)
    (call : ReadCall) (framed : Framed recs w) (adequate : Adequate recs call) :
    Progress w call (readStep validate w call) := by
  have success := (readStep_framed good w call framed adequate).2
  have paced := getRecords_paced validate
    (if w.rl.maxPipelines = 0 then 1 else w.rl.maxPipelines) []
    (tlsSetupReadBuffer call.buf call.align { w.rl with readAhead := call.readAhead })
    ⟨w.rest, call.answers⟩
  revert success
  rw [readStep, tlsGetMoreRecords]
  generalize getRecords validate (if w.rl.maxPipelines = 0 then 1 else w.rl.maxPipelines) []
    (tlsSetupReadBuffer call.buf call.align { w.rl with readAhead := call.readAhead })
    ⟨w.rest, call.answers⟩ = got at paced
  intro success
  exact ⟨success, paced.retry, paced.eof, by rw [length_append]; omega, paced.fewer⟩

/- The calls in which the transport does not begin by asking for another one. -/
def givingCalls (calls : List ReadCall) : Nat := calls.countP fun call => !asksRetry call.answers

/-- The records not handed out and the bytes not taken count the giving calls that may still come. -/
theorem readSteps_finish (good : ∀ r ∈ recs, WellFormed validate r) {calls : List ReadCall}
    (adequate : ∀ call ∈ calls, Adequate recs call) {w : ReadWorld} (framed : Framed recs w)
    (enough : w.out = recs ∨
      (recs.length - w.out.length) + w.rest.length ≤ givingCalls calls) :
    (run (readStep validate) w calls).out = recs := by
  have ends {w : ReadWorld} (framed : Framed recs w) (long : recs.length ≤ w.out.length) :
      w.out = recs := (framed_extracted framed).1.eq_of_length_le long
  induction calls generalizing w with
  | nil =>
    rw [run_nil]
    rcases enough with all | none_
    · exact all
    · exact ends framed (by rw [givingCalls, countP_nil] at none_; omega)
  | cons call calls ih =>
    have here := adequate call (by simp)
    have framed1 := (readStep_framed good w call framed here).1
    have progress := readStep_progress good w call framed here
    obtain ⟨longer, fewer⟩ := progress.kept
    rw [run_cons]
    refine ih (fun c member => adequate c (mem_cons_of_mem _ member)) framed1 ?_
    rcases enough with all | enough
    · exact .inl (ends framed1 (by rw [← all]; exact longer))
    by_cases asks : asksRetry call.answers = true
    · have same : givingCalls (call :: calls) = givingCalls calls := by
        simp [givingCalls, asks]
      rw [same] at enough
      exact .inr (by omega)
    · have one : givingCalls (call :: calls) = givingCalls calls + 1 := by
        simp [givingCalls, asks]
      by_cases all : recs.length ≤ w.out.length
      · exact .inl (ends framed1 (by omega))
      apply or_iff_not_imp_left.mpr
      intro more
      rcases framed1.asks with is | is | is
      · have := progress.success is
        omega
      · have := (progress.retry is).resolve_left asks
        omega
      · refine absurd ((framed_extracted framed1).2.2 ?_ (progress.eof is)) more
        rw [is]
        decide

theorem readSteps_framed (good : ∀ r ∈ recs, WellFormed validate r)
    (server releaseBuffers pipelines : Bool) (maxPipelines : Nat) {calls : List ReadCall}
    (adequate : ∀ call ∈ calls, Adequate recs call) :
    (∀ w ∈ visited (readStep validate)
        (readStart (newReadLayer server releaseBuffers pipelines maxPipelines) (streamOf recs)) calls,
      Framed recs w) ∧
      ((streamOf recs).length + recs.length ≤ givingCalls calls →
        (run (readStep validate)
          (readStart (newReadLayer server releaseBuffers pipelines maxPipelines) (streamOf recs))
          calls).out = recs) := by
  have start : Framed recs
      (readStart (newReadLayer server releaseBuffers pipelines maxPipelines) (streamOf recs)) :=
    { split := ⟨recs, rfl, fun no => absurd rfl no, .inr ⟨rfl, rfl, rfl, rfl, rfl⟩⟩
      asks := .inl rfl }
  have keeps (w : ReadWorld) (call : ReadCall) (framed : Framed recs w)
      (enough : Adequate recs call) : Framed recs (readStep validate w call) :=
    (readStep_framed good w call framed enough).1
  refine ⟨visited_invariant keeps start (admissible_of_forall adequate), fun enough => ?_⟩
  apply readSteps_finish good adequate start
  apply Or.inr
  simp only [readStart, length_nil]
  omega

/-- However the transport cuts the stream, and whatever is read ahead, the records of the stream come
    out one after the other, and with them all once the transport has given often enough. -/
theorem tls_records_framed {recs : List PlainRecord} (good : ∀ r ∈ recs, WellFormed validate r)
    (server releaseBuffers pipelines : Bool) (maxPipelines : Nat) {calls : List ReadCall}
    (adequate : ∀ call ∈ calls, Adequate recs call) :
    (∀ w ∈ visited (readStep validate)
        (readStart (newReadLayer server releaseBuffers pipelines maxPipelines) (streamOf recs)) calls,
      Extracted recs w ∧
        ∀ call, Adequate recs call → Progress w call (readStep validate w call)) ∧
      ((streamOf recs).length + recs.length ≤ givingCalls calls →
        (run (readStep validate)
          (readStart (newReadLayer server releaseBuffers pipelines maxPipelines) (streamOf recs))
          calls).out = recs) := by
  obtain ⟨framed, finish⟩ :=
    readSteps_framed good server releaseBuffers pipelines maxPipelines adequate
  refine ⟨fun w at_ => ⟨framed_extracted (framed w at_), fun call enough => ?_⟩, finish⟩
  exact readStep_progress good w call (framed w at_) enough

def twoRecords : List PlainRecord := [⟨22, 0x0303, [1, 2, 3]⟩, ⟨23, 0x0303, [4]⟩]

def sixteenBytes (answers : List BioAnswer) (readAhead : Bool) : ReadCall :=
  ⟨answers, readAhead, replicate 16 0, 3⟩

/- The first header comes in two parts, and with the first body come bytes of the second record. -/
def shortReads : List ReadCall :=
  [sixteenBytes [.give 3, .shouldRetry] true, sixteenBytes [.give 8] true,
    sixteenBytes [.give 2, .give 1] false, sixteenBytes [.give 1] false]

theorem tls_records_framed_two :
    (run (readStep fun _ _ _ => true) (readStart (newReadLayer true true false 0)
        (streamOf twoRecords)) shortReads).out = twoRecords ∧
      ∀ w ∈ visited (readStep fun _ _ _ => true)
          (readStart (newReadLayer true true false 0) (streamOf twoRecords)) shortReads,
        Extracted twoRecords w := by
  have good : ∀ r ∈ twoRecords, WellFormed (fun _ _ _ => true) r := by
    intro r at_
    rcases mem_pair.mp at_ with rfl | rfl
    · exact ⟨by decide, by decide, by decide, by decide, rfl⟩
    · exact ⟨by decide, by decide, by decide, by decide, rfl⟩
  have adequate : ∀ call ∈ shortReads, Adequate twoRecords call := by
    intro call at_
    have same : call.align = 3 ∧ call.buf.length = 16 := by
      simp only [shortReads, mem_cons, not_mem_nil, or_false] at at_
      rcases at_ with rfl | rfl | rfl | rfl <;> exact ⟨rfl, rfl⟩
    rw [Adequate, same.1, same.2]
    refine ⟨by decide, ?_⟩
    intro r has
    rcases mem_pair.mp has with rfl | rfl
    · exact le_of_ble_eq_true rfl
    · exact le_of_ble_eq_true rfl
  refine ⟨by decide +kernel, ?_⟩
  intro w at_
  exact ((tls_records_framed good true true false 0 adequate).1 w at_).1

end Records

end Ossl
