import OpenSSL.Ssl.StatemDtlsWrite
import OpenSSL.Ssl.Tls13Meth

/- How ssl/record/methods/tls_common.c cuts records out of what the transport delivers. -/
namespace Ossl
open List BigEndian

inductive RecordReturn where
  | success
  | retry
  | nonFatalErr
  | fatal
  | eof
  deriving DecidableEq

/- What one BIO_read comes to: at most so many bytes, nothing for now, or the BIO of the previous
   epoch is drained and gives way to the transport. -/
inductive BioAnswer where
  | give (k : Nat)
  | shouldRetry
  | prevDrained

/- The bytes that are still to be delivered, and how BIO_read will deliver them. -/
structure TransportBio where
  rest : List UInt8
  answers : List BioAnswer

/- A record of rl->rrec, before it is decrypted: its input is a position in the read buffer. -/
structure RrecEntry where
  type : UInt8
  recVersion : Nat
  length : Nat
  input : Nat

structure ReadLayer where
  released : Bool
  buf : List UInt8
  align : Nat
  offset : Nat
  left : Nat
  packet : Nat
  packetLength : Nat
  inBody : Bool
  thisrr : RrecEntry
  readAhead : Bool
  releaseBuffers : Bool
  server : Bool
  isFirstRecord : Bool
  pipelines : Bool
  maxPipelines : Nat

def ssl3RtHeaderLength : Nat := 5
def ssl2RtHeaderLength : Nat := 2
def ssl2Version : Nat := 0x0002
def ssl2MtClientHello : UInt8 := 1

def slice (buf : List UInt8) (pos n : Nat) : List UInt8 := (buf.drop pos).take n

def readLoop (n most start : Nat) :
    List BioAnswer → List UInt8 → Nat → List UInt8 → RecordReturn × List UInt8 × Nat × TransportBio
  | [], buf, left, rest => (if n ≤ left then .success else .retry, buf, left, ⟨rest, []⟩)
  | answer :: answers, buf, left, rest =>
    if n ≤ left then (.success, buf, left, ⟨rest, answer :: answers⟩)
    else
      match answer with
      | .shouldRetry => (.retry, buf, left, ⟨rest, answers⟩)
      | .prevDrained => readLoop n most start answers buf left rest
      | .give k =>
        if rest = [] then (.eof, buf, left, ⟨rest, answers⟩)
        else
          let bioread := min (max 1 k) (min (most - left) rest.length)
          readLoop n most start answers (writeAt buf (start + left) (rest.take bioread))
            (left + bioread) (rest.drop bioread)

def startPacket (rl : ReadLayer) : ReadLayer :=
  let offset := if rl.left = 0 then rl.align else rl.offset
  { rl with offset := offset, packet := offset, packetLength := 0 }

def moveToFront (rl : ReadLayer) : ReadLayer :=
  if rl.packet ≠ rl.align then
    { rl with
      buf := writeAt rl.buf rl.align (slice rl.buf rl.packet (rl.packetLength + rl.left))
      packet := rl.align
      offset := rl.packetLength + rl.align }
  else rl

def takeOrRead (n most : Nat) (rl : ReadLayer) (bio : TransportBio) :
    RecordReturn × ReadLayer × TransportBio :=
  if n ≤ rl.left then
    (.success, { rl with packetLength := rl.packetLength + n, left := rl.left - n
                         offset := rl.offset + n }, bio)
  else if rl.buf.length - rl.offset < n then (.fatal, rl, bio)
  else
    let most := if rl.readAhead then min (max most n) (rl.buf.length - rl.offset) else n
    match readLoop n most (rl.align + rl.packetLength) bio.answers rl.buf rl.left bio.rest with
    | (.success, buf, left, bio) =>
      (.success, { rl with buf := buf, offset := rl.offset + n, left := left - n
                           packetLength := rl.packetLength + n }, bio)
    | (ret, buf, left, bio) =>
      if rl.releaseBuffers ∧ rl.packetLength + left = 0 then
        (ret, { rl with buf := buf, left := left, released := true, packetLength := 0 }, bio)
      else (ret, { rl with buf := buf, left := left }, bio)

def tlsDefaultReadN (n most : Nat) (extend clearold : Bool) (rl : ReadLayer) (bio : TransportBio) :
    RecordReturn × ReadLayer × TransportBio :=
  if n = 0 then (.nonFatalErr, rl, bio)
  else
    let rl := if extend then rl else startPacket rl
    let rl := if clearold then moveToFront rl else rl
    takeOrRead n most rl bio

def tlsRecordHeader (validate : UInt8 → Nat → Nat → Bool) (rl : ReadLayer) :
    RecordReturn × ReadLayer :=
  let p := slice rl.buf rl.packet rl.packetLength
  let sslv2len := netValue (p.take 2)
  if rl.server ∧ rl.isFirstRecord ∧ sslv2len &&& 0x8000 ≠ 0 ∧ p.getD 2 0 = ssl2MtClientHello then
    let length := sslv2len &&& 0x7fff
    if length > rl.buf.length - ssl2RtHeaderLength then (.fatal, rl)
    else if validate ssl3RtHandshake ssl2Version length then
      (.success, { rl with thisrr := ⟨ssl3RtHandshake, ssl2Version, length, 0⟩ })
    else (.fatal, rl)
  else
    let type := p.getD 0 0
    let version := netValue ((p.drop 1).take 2)
    let length := netValue ((p.drop 3).take 2)
    if version = ssl2Version then (.fatal, rl)
    else if length > rl.buf.length - ssl3RtHeaderLength then (.fatal, rl)
    else if validate type version length then
      (.success, { rl with thisrr := ⟨type, version, length, 0⟩ })
    else (.fatal, rl)

def getHeader (validate : UInt8 → Nat → Nat → Bool) (first : Bool) (rl : ReadLayer)
    (bio : TransportBio) : RecordReturn × ReadLayer × TransportBio :=
  if rl.inBody = false ∨ rl.packetLength < ssl3RtHeaderLength then
    match tlsDefaultReadN ssl3RtHeaderLength rl.buf.length false first rl bio with
    | (.success, rl, bio) =>
      match tlsRecordHeader validate { rl with inBody := true } with
      | (ret, rl) => (ret, rl, bio)
    | failed => failed
  else (.success, rl, bio)

def bodyLength (rr : RrecEntry) : Nat :=
  if rr.recVersion = ssl2Version then
    (rr.length + ssl2RtHeaderLength + 2 ^ 64 - ssl3RtHeaderLength) % 2 ^ 64
  else rr.length

def getBody (rl : ReadLayer) (bio : TransportBio) : RecordReturn × ReadLayer × TransportBio :=
  let more := bodyLength rl.thisrr
  if more > 0 then tlsDefaultReadN more more true false rl bio else (.success, rl, bio)

def pulledIn (rl : ReadLayer) : ReadLayer :=
  let headerLength :=
    if rl.thisrr.recVersion = ssl2Version then ssl2RtHeaderLength else ssl3RtHeaderLength
  { rl with inBody := false, packetLength := 0, isFirstRecord := false
            thisrr := { rl.thisrr with input := rl.packet + headerLength } }

def getRecord (validate : UInt8 → Nat → Nat → Bool) (first : Bool) (rl : ReadLayer)
    (bio : TransportBio) : RecordReturn × ReadLayer × TransportBio :=
  match getHeader validate first rl bio with
  | (.success, rl, bio) =>
    match getBody rl bio with
    | (.success, rl, bio) => (.success, pulledIn rl, bio)
    | failed => failed
  | failed => failed

def tlsRecordAppDataWaiting (rl : ReadLayer) : Bool :=
  let p := rl.buf.drop rl.offset
  if rl.left < ssl3RtHeaderLength then false
  else if p.getD 0 0 ≠ ssl3RtApplicationData then false
  else if rl.left < ssl3RtHeaderLength + netValue ((p.drop 3).take 2) then false
  else true

def getRecords (validate : UInt8 → Nat → Nat → Bool) :
    Nat → List RrecEntry → ReadLayer → TransportBio →
      RecordReturn × List RrecEntry × ReadLayer × TransportBio
  | 0, rr, rl, bio => (.success, rr, rl, bio)
  | more + 1, rr, rl, bio =>
    match getRecord validate (rr.length = 0) rl bio with
    | (.success, rl, bio) =>
      if rl.thisrr.type = ssl3RtApplicationData ∧ rl.pipelines ∧ tlsRecordAppDataWaiting rl then
        getRecords validate more (rr ++ [rl.thisrr]) rl bio
      else (.success, rr ++ [rl.thisrr], rl, bio)
    | (ret, rl, bio) => (ret, [], rl, bio)

def tlsSetupReadBuffer (buf : List UInt8) (align : Nat) (rl : ReadLayer) : ReadLayer :=
  if rl.released then { rl with released := false, buf := buf, align := align } else rl

def tlsGetMoreRecords (validate : UInt8 → Nat → Nat → Bool) (buf : List UInt8) (align : Nat)
    (rl : ReadLayer) (bio : TransportBio) :
    RecordReturn × List RrecEntry × ReadLayer × TransportBio :=
  getRecords validate (if rl.maxPipelines = 0 then 1 else rl.maxPipelines) []
    (tlsSetupReadBuffer buf align rl) bio

section Slices

theorem slice_add (buf : List UInt8) (pos a b : Nat) :
    slice buf pos (a + b) = slice buf pos a ++ slice buf (pos + a) b := by
  rw [slice, slice, slice, take_add, drop_drop]

theorem slice_length (buf : List UInt8) (pos n : Nat) (within : pos + n ≤ buf.length) :
    (slice buf pos n).length = n := by
  rw [slice, length_take, length_drop]
  omega

theorem slice_writeAt_same {buf bytes : List UInt8} {pos : Nat}
    (room : pos + bytes.length ≤ buf.length) :
    slice (writeAt buf pos bytes) pos bytes.length = bytes := by
  rw [slice, (writeAt_read room).1, take_left]

theorem slice_writeAt_before {buf bytes : List UInt8} {pos p n : Nat} (before : p + n ≤ pos)
    (room : pos + bytes.length ≤ buf.length) : slice (writeAt buf pos bytes) p n = slice buf p n := by
  have front : (buf.take pos).length = pos := by
    rw [length_take]
    omega
  rw [slice, slice, writeAt, append_assoc, drop_append_of_le_length (by omega),
    take_append_of_le_length (by rw [length_drop]; omega), drop_take, take_take]
  congr 1
  omega

end Slices

/-- The loop moves bytes from the transport behind those that are there, and loses none. -/
theorem readLoop_spec {n most p : Nat} (start : Nat) (enough : n ≤ most) (after_ : p ≤ start)
    (answers : List BioAnswer) (buf : List UInt8) (left : Nat) (rest : List UInt8)
    (room : start + most ≤ buf.length) (fewer : left ≤ most) :
    ∃ ret buf' left' bio', readLoop n most start answers buf left rest = (ret, buf', left', bio') ∧
      buf'.length = buf.length ∧ left' ≤ most ∧
      slice buf' p (start - p + left') ++ bio'.rest = slice buf p (start - p + left) ++ rest ∧
      (ret = .success → n ≤ left') ∧
      (ret ≠ .success → left' < n ∧ (ret = .retry ∨ ret = .eof)) := by
  fun_induction readLoop n most start answers buf left rest with
  | case1 buf left rest =>
    refine ⟨_, _, _, _, rfl, rfl, fewer, rfl, ?_, ?_⟩
    · intro done
      by_contra short
      rw [if_neg short] at done
      contradiction
    · intro more
      by_cases done : n ≤ left
      · rw [if_pos done] at more
        exact absurd rfl more
      · rw [if_neg done]
        exact ⟨by omega, .inl rfl⟩
  | case2 answer answers buf left rest done =>
    exact ⟨_, _, _, _, rfl, rfl, fewer, rfl, fun _ => done, fun more => absurd rfl more⟩
  | case3 answers buf left rest short =>
    exact ⟨_, _, _, _, rfl, rfl, fewer, rfl, fun is => absurd is (by decide),
      fun _ => ⟨by omega, .inl rfl⟩⟩
  | case4 answers buf left rest short ih => exact ih room fewer
  | case5 answers buf left short k =>
    exact ⟨_, _, _, _, rfl, rfl, fewer, rfl, fun is => absurd is (by decide),
      fun _ => ⟨by omega, .inr rfl⟩⟩
  | case6 answers buf left rest short k some_ bioread ih =>
    have pending : 0 < rest.length := length_pos_iff.mpr some_
    have bytes : (rest.take bioread).length = bioread := by
      rw [length_take]
      omega
    have fits : start + left + (rest.take bioread).length ≤ buf.length := by
      rw [bytes]
      omega
    have same := writeAt_same_length fits
    obtain ⟨ret, buf', left', bio', is, length, less, kept, success, failure⟩ :=
      ih (by rw [same]; exact room) (by omega)
    refine ⟨ret, buf', left', bio', is, length.trans same, less, ?_, success, failure⟩
    have old := slice_writeAt_before (p := p) (n := start - p + left) (by omega) fits
    have new := slice_writeAt_same fits
    rw [bytes] at new
    rw [kept, ← add_assoc, slice_add, old,
      show p + (start - p + left) = start + left by omega, new, append_assoc,
      take_append_drop]

structure Held (rl : ReadLayer) (rest stream : List UInt8) : Prop where
  live : rl.released = false
  front : rl.align ≤ rl.packet
  next : rl.offset = rl.packet + rl.packetLength
  room : rl.offset + rl.left ≤ rl.buf.length
  bytes : slice rl.buf rl.packet (rl.packetLength + rl.left) ++ rest = stream

structure Leftover (rl : ReadLayer) (rest stream : List UInt8) : Prop where
  live : rl.released = false
  start : rl.align ≤ rl.buf.length
  placed : rl.left = 0 ∨ rl.align ≤ rl.offset ∧ rl.offset + rl.left ≤ rl.buf.length
  bytes : slice rl.buf rl.offset rl.left ++ rest = stream

variable {rl : ReadLayer} {rest stream : List UInt8}

theorem Leftover.length (over_ : Leftover rl rest stream) :
    (slice rl.buf rl.offset rl.left).length = rl.left := by
  rcases over_.placed with none_ | ⟨_, room⟩
  · rw [none_]
    rfl
  · exact slice_length _ _ _ room

def SameSetting (rl rl' : ReadLayer) : Prop :=
  rl'.buf.length = rl.buf.length ∧ rl'.align = rl.align ∧ rl'.inBody = rl.inBody ∧
    rl'.thisrr = rl.thisrr ∧ rl'.maxPipelines = rl.maxPipelines

theorem SameSetting.trans {a b c : ReadLayer} (first : SameSetting a b) (second : SameSetting b c) :
    SameSetting a c := by
  obtain ⟨a1, a2, a3, a4, a5⟩ := first
  obtain ⟨b1, b2, b3, b4, b5⟩ := second
  exact ⟨b1.trans a1, b2.trans a2, b3.trans a3, b4.trans a4, b5.trans a5⟩

def Unfilled (n : Nat) (ret : RecordReturn) (rl : ReadLayer) : Prop :=
  (ret = .retry ∨ ret = .eof) ∧ rl.left < n

/- Nothing is held at all, so that the buffer could be let go. -/
structure LetGo (rl : ReadLayer) (rest stream : List UInt8) : Prop where
  gone : rl.released = true
  left : rl.left = 0
  packetLength : rl.packetLength = 0
  rest : rest = stream

/-- Taking n bytes into the packet: they come, or the transport has to be asked again. -/
theorem takeOrRead_spec (n most : Nat) {bio : TransportBio} (held : Held rl bio.rest stream)
    (placed : rl.packet = rl.align ∨ n ≤ rl.left) (fits : rl.offset + n ≤ rl.buf.length) :
    ∃ ret rl' bio', takeOrRead n most rl bio = (ret, rl', bio') ∧ SameSetting rl rl' ∧
      rl'.packet = rl.packet ∧ (n ≤ rl.left → ret = .success ∧ rl'.buf = rl.buf ∧ rl'.left = rl.left - n) ∧
      ((ret = .success ∧ Held rl' bio'.rest stream ∧ rl'.packetLength = rl.packetLength + n) ∨
        (Unfilled n ret rl' ∧ rl'.packetLength = rl.packetLength ∧
          (Held rl' bio'.rest stream ∨ LetGo rl' bio'.rest stream))) := by
  have next := held.next
  have room := held.room
  have bytes := held.bytes
  rw [takeOrRead]
  by_cases there : n ≤ rl.left
  · rw [if_pos there]
    refine ⟨_, _, _, rfl, ⟨rfl, rfl, rfl, rfl, rfl⟩, rfl, fun _ => ⟨rfl, rfl, rfl⟩,
      .inl ⟨rfl, ?_, rfl⟩⟩
    exact
      { live := held.live
        front := held.front
        next := by dsimp only; omega
        room := by dsimp only; omega
        bytes := by
          rw [show rl.packetLength + n + (rl.left - n) = rl.packetLength + rl.left by omega]
          exact bytes }
  · rw [if_neg there, if_neg (by omega)]
    generalize limit : (if rl.readAhead then min (max most n) (rl.buf.length - rl.offset) else n) = top
    have bounds : n ≤ top ∧ top ≤ rl.buf.length - rl.offset := by
      rw [← limit]
      split <;> omega
    obtain ⟨ret, buf', left', bio', is, length, less, kept, success, failure⟩ :=
      readLoop_spec (p := rl.packet) (rl.align + rl.packetLength) bounds.1 (by omega)
        bio.answers rl.buf rl.left bio.rest (by omega) (by omega)
    rw [show rl.align + rl.packetLength - rl.packet = rl.packetLength by omega, bytes] at kept
    dsimp only
    rw [is]
    by_cases done : ret = .success
    · subst done
      have enough := success rfl
      refine ⟨_, _, _, rfl, ⟨length, rfl, rfl, rfl, rfl⟩, rfl, fun already => absurd already there,
        .inl ⟨rfl, ?_, rfl⟩⟩
      exact
        { live := held.live
          front := held.front
          next := by dsimp only; omega
          room := by dsimp only; omega
          bytes := by
            rw [show rl.packetLength + n + (left' - n) = rl.packetLength + left' by omega]
            exact kept }
    · obtain ⟨short, why⟩ := failure done
      by_cases free : rl.releaseBuffers = true ∧ rl.packetLength + left' = 0
      · refine ⟨ret, { rl with buf := buf', left := left', released := true, packetLength := 0 }, bio',
          ?_, ⟨length, rfl, rfl, rfl, rfl⟩, rfl, fun already => absurd already there,
          .inr ⟨⟨why, short⟩, by dsimp only; omega, .inr ?_⟩⟩
        · rcases why with rfl | rfl
          · exact if_pos free
          · exact if_pos free
        · refine ⟨rfl, by dsimp only; omega, rfl, ?_⟩
          rw [free.2] at kept
          simpa [slice] using kept
      · refine ⟨ret, { rl with buf := buf', left := left' }, bio', ?_,
          ⟨length, rfl, rfl, rfl, rfl⟩, rfl, fun already => absurd already there,
          .inr ⟨⟨why, short⟩, rfl, .inl ?_⟩⟩
        · rcases why with rfl | rfl
          · exact if_neg free
          · exact if_neg free
        · exact ⟨held.live, held.front, next, by dsimp only; omega, kept⟩

theorem startPacket_held (over_ : Leftover rl rest stream) :
    Held (startPacket rl) rest stream ∧ (startPacket rl).packetLength = 0 ∧
      (startPacket rl).left = rl.left ∧ (startPacket rl).buf = rl.buf := by
  have bytes := over_.bytes
  have start := over_.start
  refine ⟨?_, rfl, rfl, rfl⟩
  rw [startPacket]
  by_cases none_ : rl.left = 0
  · rw [none_] at bytes
    constructor
    · exact over_.live
    · rw [if_pos none_]
    · rfl
    · dsimp only
      rw [if_pos none_]
      omega
    · rw [none_]
      simpa [slice] using bytes
  · obtain ⟨front, room⟩ := over_.placed.resolve_left none_
    constructor
    · exact over_.live
    · rw [if_neg none_]
      exact front
    · rfl
    · rw [if_neg none_]
      exact room
    · rw [if_neg none_, zero_add]
      exact bytes

theorem moveToFront_held (held : Held rl rest stream) :
    Held (moveToFront rl) rest stream ∧ (moveToFront rl).packet = rl.align ∧
      SameSetting rl (moveToFront rl) ∧ (moveToFront rl).packetLength = rl.packetLength ∧
      (moveToFront rl).left = rl.left := by
  have next := held.next
  have room := held.room
  have front := held.front
  rw [moveToFront]
  by_cases moves : rl.packet ≠ rl.align
  · rw [if_pos moves]
    have length := slice_length rl.buf rl.packet (rl.packetLength + rl.left) (by omega)
    have fits : rl.align + (slice rl.buf rl.packet (rl.packetLength + rl.left)).length ≤
        rl.buf.length := by omega
    have same := writeAt_same_length fits
    have moved := slice_writeAt_same fits
    rw [length] at moved
    refine ⟨?_, rfl, ⟨same, rfl, rfl, rfl, rfl⟩, rfl, rfl⟩
    constructor
    · exact held.live
    · exact le_refl _
    · exact add_comm _ _
    · dsimp only
      rw [same]
      omega
    · rw [moved]
      exact held.bytes
  · rw [if_neg moves]
    exact ⟨held, not_not.mp moves, ⟨rfl, rfl, rfl, rfl, rfl⟩, rfl, rfl⟩

theorem readHeader_spec (n most : Nat) {bio : TransportBio} (some_ : 0 < n) (first : Bool)
    (over_ : Leftover rl bio.rest stream) (placed : first = true ∨ n ≤ rl.left)
    (fits : rl.align + n ≤ rl.buf.length) :
    ∃ ret rl' bio', tlsDefaultReadN n most false first rl bio = (ret, rl', bio') ∧
      SameSetting rl rl' ∧ (first = true → rl'.packet = rl.align) ∧
      (first = false → ret = .success ∧ rl'.buf = rl.buf ∧ rl'.left = rl.left - n) ∧
      ((ret = .success ∧ Held rl' bio'.rest stream ∧ rl'.packetLength = n) ∨
        (Unfilled n ret rl' ∧ (Leftover rl' bio'.rest stream ∨ LetGo rl' bio'.rest stream))) := by
  obtain ⟨held, empty, left, buf⟩ := startPacket_held over_
  have setting : SameSetting rl (startPacket rl) := ⟨rfl, rfl, rfl, rfl, rfl⟩
  have whole : tlsDefaultReadN n most false first rl bio =
      takeOrRead n most (if first then moveToFront (startPacket rl) else startPacket rl) bio :=
    if_neg (by omega)
  rw [whole]
  have finish {rl1 : ReadLayer} (held1 : Held rl1 bio.rest stream) (setting1 : SameSetting rl rl1)
      (empty1 : rl1.packetLength = 0) (left1 : rl1.left = rl.left)
      (at_ : first = true → rl1.packet = rl.align) (kept : first = false → rl1.buf = rl.buf) :
      ∃ ret rl' bio', takeOrRead n most rl1 bio = (ret, rl', bio') ∧
        SameSetting rl rl' ∧ (first = true → rl'.packet = rl.align) ∧
        (first = false → ret = .success ∧ rl'.buf = rl.buf ∧ rl'.left = rl.left - n) ∧
        ((ret = .success ∧ Held rl' bio'.rest stream ∧ rl'.packetLength = n) ∨
          (Unfilled n ret rl' ∧ (Leftover rl' bio'.rest stream ∨ LetGo rl' bio'.rest stream))) := by
    have next := held1.next
    have room := held1.room
    have ⟨length, align, _⟩ := setting1
    have place : rl1.packet = rl1.align ∨ n ≤ rl1.left := by
      rcases placed with is | more
      · exact .inl ((at_ is).trans align.symm)
      · exact .inr (by omega)
    obtain ⟨ret, rl', bio', is, same, packet, already, result⟩ := takeOrRead_spec n most held1 place
      (by rcases place with is | more <;> omega)
    refine ⟨ret, rl', bio', is, setting1.trans same, ?_, ?_, ?_⟩
    · intro yes
      rw [packet]
      exact at_ yes
    · intro no
      have more : n ≤ rl1.left := by
        rcases placed with yes | more
        · rw [no] at yes
          nomatch yes
        · omega
      obtain ⟨success, buf', left'⟩ := already more
      exact ⟨success, buf'.trans (kept no), by rw [left', left1]⟩
    · rcases result with ⟨success, held', length'⟩ | ⟨unfilled, length', held' | gone⟩
      · exact .inl ⟨success, held', by omega⟩
      · have next' := held'.next
        have bytes' := held'.bytes
        rw [show rl'.packetLength + rl'.left = rl'.left by omega,
          show rl'.packet = rl'.offset by omega] at bytes'
        have front' := held'.front
        have room' := held'.room
        exact .inr ⟨unfilled, .inl ⟨held'.live, by omega, .inr ⟨by omega, held'.room⟩, bytes'⟩⟩
      · exact .inr ⟨unfilled, .inr gone⟩
  cases first with
  | false => exact finish held setting empty left (by intro no; nomatch no) (fun _ => buf)
  | true =>
    obtain ⟨held1, at_, same, length, left1⟩ := moveToFront_held held
    exact finish held1 (setting.trans same) (length.trans empty) (left1.trans left) (fun _ => at_)
      (by intro no; nomatch no)

/- The transport has nothing for this call: it asks to be asked again before it gives anything. -/
def asksRetry : List BioAnswer → Bool
  | [] => true
  | .shouldRetry :: _ => true
  | .prevDrained :: answers => asksRetry answers
  | .give _ :: _ => false

/- What may be answered after what was taken from the transport. -/
structure Paced (bio : TransportBio) (ret : RecordReturn) (bio' : TransportBio) : Prop where
  fewer : bio'.rest.length ≤ bio.rest.length
  retry : ret = .retry → asksRetry bio.answers = true ∨ bio'.rest.length < bio.rest.length
  eof : ret = .eof → bio'.rest = []
  success : ret = .success → bio' = bio ∨ bio'.rest.length < bio.rest.length

variable {bio bio1 bio2 : TransportBio} {ret : RecordReturn}

theorem paced_success (bio : TransportBio) : Paced bio .success bio :=
  ⟨le_refl _, fun is => absurd is (by decide), fun is => absurd is (by decide), fun _ => .inl rfl⟩

theorem paced_refuses (fewer : bio1.rest.length ≤ bio.rest.length)
    (other : ret ≠ .success ∧ ret ≠ .retry ∧ ret ≠ .eof) : Paced bio ret bio1 :=
  ⟨fewer, fun is => absurd is other.2.1, fun is => absurd is other.2.2,
    fun is => absurd is other.1⟩

theorem paced_retry (fewer : bio1.rest.length ≤ bio.rest.length)
    (asks : asksRetry bio.answers = true) : Paced bio .retry bio1 :=
  ⟨fewer, fun _ => .inl asks, fun is => absurd is (by decide), fun is => absurd is (by decide)⟩

theorem Paced.trans (first : Paced bio .success bio1) (second : Paced bio1 ret bio2) :
    Paced bio ret bio2 := by
  rcases first.success rfl with rfl | less
  · exact second
  · have fewer := second.fewer
    exact ⟨by omega, fun _ => .inr (by omega), second.eof, fun _ => .inr (by omega)⟩

/-- Where the loop has to read at all, it cannot succeed and take nothing. -/
theorem readLoop_paced {n most : Nat} (start : Nat) (enough : n ≤ most) (answers : List BioAnswer)
    (buf : List UInt8) (left : Nat) (rest : List UInt8) :
    Paced ⟨rest, answers⟩ (readLoop n most start answers buf left rest).1
        (readLoop n most start answers buf left rest).2.2.2 ∧
      ((readLoop n most start answers buf left rest).1 = .success → n ≤ left ∨
        (readLoop n most start answers buf left rest).2.2.2.rest.length < rest.length) := by
  fun_induction readLoop n most start answers buf left rest with
  | case1 buf left rest =>
    by_cases done : n ≤ left
    · rw [if_pos done]
      exact ⟨paced_success _, fun _ => .inl done⟩
    · rw [if_neg done]
      exact ⟨paced_retry (le_refl _) rfl, fun is => absurd is (by dsimp only; decide)⟩
  | case2 answer answers buf left rest done => exact ⟨paced_success _, fun _ => .inl done⟩
  | case3 answers buf left rest short =>
    exact ⟨paced_retry (le_refl _) rfl, fun is => absurd is (by dsimp only; decide)⟩
  | case4 answers buf left rest short ih =>
    obtain ⟨later, takes⟩ := ih
    exact ⟨⟨later.fewer, later.retry, later.eof,
      fun success => .inr ((takes success).resolve_left short)⟩, takes⟩
  | case5 answers buf left short k =>
    refine ⟨⟨le_refl _, fun is => ?_, fun _ => rfl, fun is => ?_⟩, fun is => ?_⟩
    all_goals contradiction
  | case6 answers buf left rest short k some_ bioread ih =>
    have pending : 0 < rest.length := length_pos_iff.mpr some_
    have later := ih.1
    have fewer := later.fewer
    rw [length_drop] at fewer
    have less := lt_of_le_of_lt fewer (by omega : rest.length - bioread < rest.length)
    exact ⟨⟨less.le, fun _ => .inr less, later.eof, fun _ => .inr less⟩, fun _ => .inr less⟩

theorem takeOrRead_paced (n most : Nat) (rl : ReadLayer) (bio : TransportBio) :
    Paced bio (takeOrRead n most rl bio).1 (takeOrRead n most rl bio).2.2 := by
  rw [takeOrRead]
  by_cases there : n ≤ rl.left
  · rw [if_pos there]
    exact paced_success bio
  rw [if_neg there]
  by_cases full : rl.buf.length - rl.offset < n
  · rw [if_pos full]
    dsimp only
    exact paced_refuses (le_refl _) (by decide)
  rw [if_neg full]
  generalize limit : (if rl.readAhead then min (max most n) (rl.buf.length - rl.offset) else n) = top
  have enough : n ≤ top := by
    rw [← limit]
    split <;> omega
  have paced := (readLoop_paced (rl.align + rl.packetLength) enough bio.answers rl.buf rl.left
    bio.rest).1
  dsimp only
  generalize readLoop n top (rl.align + rl.packetLength) bio.answers rl.buf rl.left bio.rest = read
    at paced
  obtain ⟨ret, buf, left, bio'⟩ := read
  cases ret with
  | success => exact paced
  | _ =>
    dsimp only
    by_cases free : rl.releaseBuffers = true ∧ rl.packetLength + left = 0
    · rw [if_pos free]
      exact paced
    · rw [if_neg free]
      exact paced

theorem tlsDefaultReadN_paced (n most : Nat) (extend clearold : Bool) (rl : ReadLayer)
    (bio : TransportBio) : Paced bio (tlsDefaultReadN n most extend clearold rl bio).1
      (tlsDefaultReadN n most extend clearold rl bio).2.2 := by
  rw [tlsDefaultReadN]
  by_cases nothing : n = 0
  · rw [if_pos nothing]
    dsimp only
    exact paced_refuses (le_refl _) (by decide)
  · rw [if_neg nothing]
    exact takeOrRead_paced n most _ bio

section Pace
variable (validate : UInt8 → Nat → Nat → Bool)

theorem tlsRecordHeader_ret (rl : ReadLayer) :
    (tlsRecordHeader validate rl).1 = .success ∨ (tlsRecordHeader validate rl).1 = .fatal := by
  rw [tlsRecordHeader]
  dsimp only
  split_ifs <;> first | exact .inl rfl | exact .inr rfl

theorem getRecord_paced (first : Bool) (rl : ReadLayer) (bio : TransportBio) :
    Paced bio (getRecord validate first rl bio).1 (getRecord validate first rl bio).2.2 := by
  have header : Paced bio (getHeader validate first rl bio).1
      (getHeader validate first rl bio).2.2 := by
    rw [getHeader]
    by_cases reads : rl.inBody = false ∨ rl.packetLength < ssl3RtHeaderLength
    · rw [if_pos reads]
      have paced := tlsDefaultReadN_paced ssl3RtHeaderLength rl.buf.length false first rl bio
      generalize tlsDefaultReadN ssl3RtHeaderLength rl.buf.length false first rl bio = read at paced
      obtain ⟨ret, rl1, bio1⟩ := read
      cases ret with
      | success =>
        dsimp only
        have through := tlsRecordHeader_ret validate { rl1 with inBody := true }
        generalize tlsRecordHeader validate { rl1 with inBody := true } = checked at through
        obtain ⟨ret, rl2⟩ := checked
        rcases through with is | is
        · dsimp only at is
          rw [is]
          exact paced
        · dsimp only at is
          rw [is]
          dsimp only
          exact paced_refuses paced.fewer (by decide)
      | _ => exact paced
    · rw [if_neg reads]
      exact paced_success bio
  rw [getRecord]
  generalize getHeader validate first rl bio = read at header
  obtain ⟨ret, rl1, bio1⟩ := read
  cases ret with
  | success =>
    have body : Paced bio1 (getBody rl1 bio1).1 (getBody rl1 bio1).2.2 := by
      rw [getBody]
      by_cases some_ : bodyLength rl1.thisrr > 0
      · rw [if_pos some_]
        exact tlsDefaultReadN_paced _ _ _ _ rl1 bio1
      · rw [if_neg some_]
        exact paced_success bio1
    dsimp only
    generalize getBody rl1 bio1 = read at body
    obtain ⟨ret, rl2, bio2⟩ := read
    cases ret with
    | _ => exact header.trans body
  | _ => exact header

/-- A call answers that it is to be repeated only where the transport says so or has given bytes. -/
theorem getRecords_paced (more : Nat) (rr : List RrecEntry) (rl : ReadLayer) (bio : TransportBio) :
    Paced bio (getRecords validate more rr rl bio).1
      (getRecords validate more rr rl bio).2.2.2 := by
  induction more generalizing rr rl bio with
  | zero => exact paced_success bio
  | succ more ih =>
    have record := getRecord_paced validate (rr.length = 0) rl bio
    rw [getRecords]
    generalize getRecord validate (rr.length = 0) rl bio = read at record
    obtain ⟨ret, rl1, bio1⟩ := read
    cases ret with
    | success =>
      dsimp only
      split
      · exact record.trans (ih _ rl1 bio1)
      · exact record
    | _ => exact record

end Pace

end Ossl
