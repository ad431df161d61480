import OpenSSL.Ssl.StatemDtlsInput
import Mathlib.Data.List.TakeWhile

/- What one fragment does to the messages that are put together. -/
namespace Ossl
open List Option ByteMask

section Queue
variable {msgs : List HsMessage} {arrived : List HsFragment}

/-- An octet of a message has come in some fragment. -/
def Received (arrived : List HsFragment) (k i : Nat) : Prop :=
  ∃ f ∈ arrived, f.seq = k ∧ f.off ≤ i ∧ i < f.off + f.len

structure PartOk (arrived : List HsFragment) (m : HsMessage) (k : Nat)
    (fragment bitmask : List UInt8) : Prop where
  size : bitmask.length = rsmblyBitmaskSize m.body.length
  marked : ∀ i, bit bitmask i = true →
    i < m.body.length ∧ Received arrived k i ∧ fragment[i]? = m.body[i]?

/-- A buffered message: all of it, or the octets that are marked. -/
structure FragmentOk (arrived : List HsFragment) (m : HsMessage) (k : Nat) (frag : HmFragment) :
    Prop where
  header : frag.msgHeader = ⟨m.type, m.body.length, k, 0, m.body.length⟩
  length : frag.fragment.length = m.body.length
  whole : frag.reassembly = none →
    frag.fragment = m.body ∧ ∀ i < m.body.length, Received arrived k i
  part : ∀ bitmask, frag.reassembly = some bitmask → PartOk arrived m k frag.fragment bitmask

structure QueueOk (msgs : List HsMessage) (arrived : List HsFragment) (queue : List Pitem) :
    Prop where
  sorted : queue.Pairwise fun a b => a.priority < b.priority
  items : ∀ item ∈ queue, ∃ m, msgs[item.priority]? = some m ∧
    FragmentOk arrived m item.priority item.data

variable {buf : List UInt8} {i off : Nat} {f : HsFragment} {frag : HmFragment}

theorem writeAt_length {bytes : List UInt8} (within : off + bytes.length ≤ buf.length) :
    (writeAt buf off bytes).length = buf.length := by
  rw [writeAt, length_append, length_append, length_take, length_drop]
  omega

theorem writeAt_get {bytes : List UInt8} (within : off + bytes.length ≤ buf.length) (i : Nat) :
    (writeAt buf off bytes)[i]? =
      if off ≤ i ∧ i < off + bytes.length then bytes[i - off]? else buf[i]? := by
  have front : (buf.take off).length = off := length_take_of_le (by omega)
  rw [writeAt]
  by_cases before : i < off
  · rw [if_neg (by omega), append_assoc, getElem?_append_left (by omega),
      getElem?_take_of_lt before]
  · by_cases inside : i < off + bytes.length
    · rw [if_pos ⟨not_lt.mp before, inside⟩, append_assoc,
        getElem?_append_right (by omega), front, getElem?_append_left (by omega)]
    · rw [if_neg (by omega), getElem?_append_right (by rw [length_append]; omega),
        length_append, front, getElem?_drop]
      congr 1
      omega

variable {m : HsMessage} {item : Pitem} {queue queue' : List Pitem} {k : Nat}

theorem part_get (low : f.off ≤ i) (high : i < f.off + f.len) :
    (f.part m)[i - f.off]? = m.body[i]? := by
  rw [HsFragment.part, getElem?_take_of_lt (by omega), getElem?_drop]
  congr 1
  omega

/-- One more part is added to what has come of a message. -/
theorem addPart_ok {bitmask : List UInt8} (among : f ∈ arrived)
    (inside : f.off + f.len ≤ m.body.length) (some_ : 0 < f.len)
    (header : frag.msgHeader = ⟨m.type, m.body.length, f.seq, 0, m.body.length⟩)
    (length : frag.fragment.length = m.body.length)
    (part : PartOk arrived m f.seq frag.fragment bitmask) :
    FragmentOk arrived m f.seq (addPart (f.header m) frag bitmask (f.part m)) := by
  have size := part_length inside
  have within : f.off + (f.part m).length ≤ frag.fragment.length := by
    rw [size, length]
    exact inside
  have room : f.off + f.len ≤ 8 * bitmask.length := by
    rw [part.size, rsmblyBitmaskSize]
    omega
  have bits := mark_bit (Nat.lt_add_of_pos_right some_) room
  have marked : PartOk arrived m f.seq (writeAt frag.fragment f.off (f.part m))
      (rsmblyBitmaskMark bitmask f.off (f.off + f.len)) := by
    constructor
    · rw [mark_length, part.size]
    · intro i is
      rw [writeAt_get within, size]
      by_cases new : f.off ≤ i ∧ i < f.off + f.len
      · rw [if_pos new, part_get new.1 new.2]
        exact ⟨lt_of_lt_of_le new.2 inside, ⟨f, among, rfl, new.1, new.2⟩, rfl⟩
      · rw [if_neg new]
        rw [bits, decide_eq_false new, Bool.or_false] at is
        exact part.marked i is
  have complete := isComplete_bits (lt_of_lt_of_le (Nat.add_pos_right f.off some_) inside)
    fun i is => (marked.marked i is).1
  have is : addPart (f.header m) frag bitmask (f.part m) = { frag with
      fragment := writeAt frag.fragment f.off (f.part m)
      reassembly :=
        if rsmblyBitmaskIsComplete (rsmblyBitmaskMark bitmask f.off (f.off + f.len))
            m.body.length = true then none
        else some (rsmblyBitmaskMark bitmask f.off (f.off + f.len)) } := rfl
  rw [is]
  constructor
  · exact header
  · exact (writeAt_length within).trans length
  · intro done
    by_cases all : rsmblyBitmaskIsComplete (rsmblyBitmaskMark bitmask f.off (f.off + f.len))
        m.body.length = true
    · have every := complete.mp all
      constructor
      · apply ext_getElem?
        intro i
        by_cases low : i < m.body.length
        · exact (marked.marked i (every i low)).2.2
        · rw [List.getElem?_eq_none (not_lt.mp low), List.getElem?_eq_none]
          rw [writeAt_length within, length]
          exact not_lt.mp low
      · exact fun i low => (marked.marked i (every i low)).2.1
    · rw [if_neg all] at done
      contradiction
  · intro bitmask' is
    by_cases all : rsmblyBitmaskIsComplete (rsmblyBitmaskMark bitmask f.off (f.off + f.len))
        m.body.length = true
    · rw [if_pos all] at is
      contradiction
    · rw [if_neg all] at is
      rw [← some.inj is]
      exact marked

theorem pqueueInsert_mem {other : Pitem} (run : pqueueInsert item queue = some queue')
    (member : other ∈ queue') : other = item ∨ other ∈ queue := by
  induction queue generalizing queue' with
  | nil =>
    rw [← some.inj run] at member
    exact .inl (mem_singleton.mp member)
  | cons next rest ih =>
    rw [pqueueInsert] at run
    by_cases before : item.priority < next.priority
    · rw [if_pos before] at run
      rw [← some.inj run] at member
      exact mem_cons.mp member
    · rw [if_neg before] at run
      by_cases same : next.priority = item.priority
      · rw [if_pos same] at run
        contradiction
      · rw [if_neg same] at run
        obtain ⟨tail, later, is⟩ := map_eq_some_iff.mp run
        rw [← is] at member
        cases mem_cons.mp member with
        | inl here =>
          rw [here]
          exact .inr mem_cons_self
        | inr there =>
          cases ih later there with
          | inl new => exact .inl new
          | inr old => exact .inr (mem_cons_of_mem next old)

theorem pqueueInsert_sorted (sorted : queue.Pairwise fun a b => a.priority < b.priority)
    (run : pqueueInsert item queue = some queue') :
    queue'.Pairwise fun a b => a.priority < b.priority := by
  induction queue generalizing queue' with
  | nil =>
    rw [← some.inj run]
    exact pairwise_singleton _ _
  | cons next rest ih =>
    obtain ⟨first, others⟩ := pairwise_cons.mp sorted
    rw [pqueueInsert] at run
    by_cases before : item.priority < next.priority
    · rw [if_pos before] at run
      rw [← some.inj run, pairwise_cons]
      refine ⟨?_, sorted⟩
      intro other member
      cases mem_cons.mp member with
      | inl here =>
        rw [here]
        exact before
      | inr there => exact lt_trans before (first other there)
    · rw [if_neg before] at run
      by_cases same : next.priority = item.priority
      · rw [if_pos same] at run
        contradiction
      · rw [if_neg same] at run
        obtain ⟨tail, later, is⟩ := map_eq_some_iff.mp run
        rw [← is, pairwise_cons]
        refine ⟨?_, ih others later⟩
        intro other member
        cases pqueueInsert_mem later member with
        | inl new =>
          rw [new]
          omega
        | inr old => exact first other old

theorem queue_insert (ok : QueueOk msgs arrived queue) (found : msgs[item.priority]? = some m)
    (good : FragmentOk arrived m item.priority item.data)
    (run : pqueueInsert item queue = some queue') : QueueOk msgs arrived queue' := by
  constructor
  · exact pqueueInsert_sorted ok.sorted run
  · intro other member
    cases pqueueInsert_mem run member with
    | inl new =>
      rw [new]
      exact ⟨m, found, good⟩
    | inr old => exact ok.items other old

theorem queue_update (ok : QueueOk msgs arrived queue) (found : msgs[k]? = some m)
    (good : FragmentOk arrived m k frag) : QueueOk msgs arrived (pqueueUpdate k frag queue) := by
  have stays : ∀ item : Pitem,
      (if item.priority = k then (⟨k, frag⟩ : Pitem) else item).priority = item.priority := by
    intro item
    by_cases same : item.priority = k
    · rw [if_pos same, same]
    · rw [if_neg same]
  constructor
  · rw [pqueueUpdate, pairwise_map]
    apply ok.sorted.imp
    intro a b less
    rw [stays, stays]
    exact less
  · intro item member
    obtain ⟨old, among, is⟩ := mem_map.mp member
    by_cases same : old.priority = k
    · rw [if_pos same] at is
      rw [← is]
      exact ⟨m, found, good⟩
    · rw [if_neg same] at is
      rw [← is]
      exact ok.items old among

theorem pqueueFind_some (found : pqueueFind k queue = some item) :
    item ∈ queue ∧ item.priority = k := by
  rw [pqueueFind] at found
  have same := find?_some found
  exact ⟨mem_of_find?_eq_some found, of_decide_eq_true same⟩

theorem received_more {more : List HsFragment} (sub : arrived ⊆ more)
    (received : Received arrived k i) : Received more k i := by
  obtain ⟨f, among, rest⟩ := received
  exact ⟨f, sub among, rest⟩

theorem queue_more {more : List HsFragment} (sub : arrived ⊆ more)
    (ok : QueueOk msgs arrived queue) : QueueOk msgs more queue := by
  constructor
  · exact ok.sorted
  · intro item member
    obtain ⟨m, found, header, length, whole, part⟩ := ok.items item member
    refine ⟨m, found, header, length, ?_, ?_⟩
    · intro done
      exact ⟨(whole done).1, fun i low => received_more sub ((whole done).2 i low)⟩
    · intro bitmask is
      obtain ⟨size, marked⟩ := part bitmask is
      refine ⟨size, ?_⟩
      intro i on
      obtain ⟨low, received, there⟩ := marked i on
      exact ⟨low, received_more sub received, there⟩

end Queue

section Session
variable {msgs : List HsMessage} {arrived : List HsFragment}

/-- The next message has the number of those that were delivered. -/
structure SessionOk (msgs : List HsMessage) (arrived : List HsFragment) (count : Nat)
    (s : DtlsConn) : Prop where
  seq : s.handshakeReadSeq = count
  queue : QueueOk msgs arrived s.bufferedMessages
  first : s.rMsgHdr.fragOff = 0

/-- The message is in the buffer, behind the place of its header. -/
structure Loaded (m : HsMessage) (k : Nat) (s : DtlsConn) : Prop where
  body : (s.initBuf.drop dtls1HmHeaderLength).take m.body.length = m.body
  type : s.messageType = m.type.toNat
  seq : s.rMsgHdr.seq = k

/-- All of the message that is expected next has been buffered. -/
def Ready (s : DtlsConn) : Prop :=
  ∃ item ∈ s.bufferedMessages, item.priority = s.handshakeReadSeq ∧ item.data.reassembly = none

variable {count : Nat} {hand : HandState}

theorem firstHelloAgain_false (later : hand ≠ .swHelloVerifyRequest) (seq : Nat) (s : DtlsConn) :
    firstHelloAgain hand seq s = false :=
  decide_eq_false fun bad => later bad.2.2.2

def isStale (s : DtlsConn) (item : Pitem) : Bool :=
  decide (item.data.msgHeader.seq < s.handshakeReadSeq)

theorem nextBuffered_drops (later : hand ≠ .swHelloVerifyRequest) (s : DtlsConn)
    (queue : List Pitem) : nextBuffered hand s queue = (queue.dropWhile (isStale s), false) := by
  induction queue with
  | nil => rfl
  | cons item rest ih =>
    rw [nextBuffered.eq_def]
    dsimp only
    by_cases stale : item.data.msgHeader.seq < s.handshakeReadSeq
    · rw [if_pos stale, if_pos (firstHelloAgain_false later _ s), ih, dropWhile_cons,
        if_pos (show isStale s item = true from decide_eq_true stale)]
    · rw [if_neg stale, dropWhile_cons,
        if_neg (show ¬ isStale s item = true from mt of_decide_eq_true stale)]

theorem queue_sublist {queue queue' : List Pitem} (ok : QueueOk msgs arrived queue)
    (sub : queue'.Sublist queue) : QueueOk msgs arrived queue' :=
  ⟨ok.sorted.sublist sub, fun item member => ok.items item (sub.subset member)⟩

theorem bufMemGrowClean_length (buf : List UInt8) (len : Nat) :
    (bufMemGrowClean buf len).length = len := by
  rw [bufMemGrowClean, length_append, length_take, length_replicate]
  omega

theorem written_body (buf body : List UInt8) :
    ((writeAt (bufMemGrowClean buf (body.length + dtls1HmHeaderLength))
      (dtls1HmHeaderLength + 0) body).drop dtls1HmHeaderLength).take body.length = body := by
  have size := bufMemGrowClean_length buf (body.length + dtls1HmHeaderLength)
  generalize bufMemGrowClean buf (body.length + dtls1HmHeaderLength) = grown at size
  have front : (grown.take dtls1HmHeaderLength).length = dtls1HmHeaderLength :=
    length_take_of_le (by omega)
  rw [writeAt, add_zero, append_assoc, drop_left' front, take_left]

variable {s : DtlsConn}

theorem preprocess_spec {hdr : HmHeader} {s' : DtlsConn} (first : s.rMsgHdr.fragOff = 0)
    (run : dtls1PreprocessFragment hdr s = some s') : hdr.msgLen ≤ dtls1MaxHandshakeMessageLen s ∧
      s' = { s with
        initBuf := bufMemGrowClean s.initBuf (hdr.msgLen + dtls1HmHeaderLength)
        messageSize := hdr.msgLen
        messageType := hdr.type.toNat
        rMsgHdr := { s.rMsgHdr with msgLen := hdr.msgLen, type := hdr.type, seq := hdr.seq } } := by
  rw [dtls1PreprocessFragment] at run
  by_cases bad : hdr.msgLen < hdr.fragOff + hdr.fragLen ∨ dtls1MaxHandshakeMessageLen s < hdr.msgLen
  · rw [if_pos bad] at run
    contradiction
  · rw [if_neg bad, if_pos first] at run
    exact ⟨not_lt.mp (mt .inr bad), (some.inj run).symm⟩

theorem retrieve_spec (ok : SessionOk msgs arrived count s) (later : hand ≠ .swHelloVerifyRequest) :
    (dtls1RetrieveBufferedFragment hand s = (.absent, { s with
        bufferedMessages := s.bufferedMessages.dropWhile (isStale s) }) ∧ ¬ Ready s) ∨
      (∃ s', dtls1RetrieveBufferedFragment hand s = (.fatal, s')) ∨
      ∃ m s', dtls1RetrieveBufferedFragment hand s = (.message m.body.length, s') ∧
        msgs[count]? = some m ∧ (∀ i < m.body.length, Received arrived count i) ∧
        Loaded m count s' ∧ SessionOk msgs arrived count s' ∧ s'.record = s.record ∧
        s'.records = s.records := by
  have seqs : ∀ item ∈ s.bufferedMessages, item.data.msgHeader.seq = item.priority := by
    intro item member
    obtain ⟨m, _, good⟩ := ok.queue.items item member
    rw [good.header]
  -- an entry for the expected message can only be the first that is not stale
  have kept : ∀ item ∈ s.bufferedMessages, item.priority = s.handshakeReadSeq →
      item ∈ s.bufferedMessages.dropWhile (isStale s) := by
    intro item member is
    have split := takeWhile_append_dropWhile (p := isStale s) (l := s.bufferedMessages)
    rw [← split] at member
    cases mem_append.mp member with
    | inr rest => exact rest
    | inl front =>
      have stale := mem_takeWhile_imp front
      rw [isStale, decide_eq_true_iff, seqs item ((takeWhile_sublist _).subset front)] at stale
      omega
  rw [dtls1RetrieveBufferedFragment, nextBuffered_drops later]
  have sub := dropWhile_sublist (l := s.bufferedMessages) (isStale s)
  have fresh := head?_dropWhile_not (isStale s) s.bufferedMessages
  generalize s.bufferedMessages.dropWhile (isStale s) = queue at kept sub fresh
  have ok' := queue_sublist ok.queue sub
  cases queue with
  | nil =>
    refine .inl ⟨rfl, ?_⟩
    intro ready
    obtain ⟨item, member, expected, _⟩ := ready
    exact nomatch kept item member expected
  | cons item rest =>
    have member := sub.subset (mem_cons_self (a := item) (l := rest))
    have seq := seqs item member
    have notStale : s.handshakeReadSeq ≤ item.priority := by
      rw [head?_cons] at fresh
      dsimp only at fresh
      rw [isStale, decide_eq_false_iff_not, seq] at fresh
      exact not_lt.mp fresh
    have onlyFirst : ∀ other ∈ s.bufferedMessages, other.priority = s.handshakeReadSeq →
        other = item := by
      intro other among expected
      cases mem_cons.mp (kept other among expected) with
      | inl here => exact here
      | inr there =>
        have behind := (pairwise_cons.mp ok'.sorted).1 other there
        omega
    dsimp only
    by_cases going : item.data.reassembly.isSome = true
    · rw [if_pos going]
      refine .inl ⟨rfl, ?_⟩
      intro ready
      obtain ⟨other, among, expected, done⟩ := ready
      rw [onlyFirst other among expected] at done
      rw [done] at going
      contradiction
    · rw [if_neg going]
      by_cases expected : s.handshakeReadSeq = item.data.msgHeader.seq ∨ false = true
      · rw [if_pos expected]
        have now : item.priority = s.handshakeReadSeq :=
          seq.symm.trans (expected.resolve_right Bool.false_ne_true).symm
        obtain ⟨m, found, good⟩ := ok.queue.items item member
        have done : item.data.reassembly = none := by
          rw [Bool.not_eq_true, isSome_eq_false_iff, isNone_iff_eq_none] at going
          exact going
        obtain ⟨whole, all⟩ := good.whole done
        rw [now, ok.seq] at found all
        cases run : dtls1PreprocessFragment item.data.msgHeader
            { s with bufferedMessages := rest } with
        | none => exact .inr (.inl ⟨_, rfl⟩)
        | some s1 =>
          have first : ({ s with bufferedMessages := rest } : DtlsConn).rMsgHdr.fragOff = 0 :=
            ok.first
          obtain ⟨_, made⟩ := preprocess_spec first run
          have tail : QueueOk msgs arrived rest := queue_sublist ok' (sublist_cons_self _ _)
          rw [made, whole, good.header, take_length]
          refine .inr (.inr ⟨m, _, rfl, found, all, ?_, ?_, rfl, rfl⟩)
          · exact ⟨written_body _ _, rfl, now.trans ok.seq⟩
          · exact ⟨ok.seq, tail, ok.first⟩
      · rw [if_neg expected]
        refine .inl ⟨rfl, ?_⟩
        intro ready
        obtain ⟨other, among, now, _⟩ := ready
        rw [onlyFirst other among now] at now
        exact expected (.inl (now.symm.trans seq.symm))

end Session

section Pass
variable {msgs : List HsMessage} {arrived : List HsFragment} {count : Nat} {hand : HandState}

/-- After a fragment the session goes on with what comes behind it. -/
def GoesOn (msgs : List HsMessage) (arrived : List HsFragment) (count : Nat) (s : DtlsConn) : Prop :=
  SessionOk msgs arrived count s ∧ InputOk msgs arrived s

def BodyLeft (hdr : HmHeader) (s : DtlsConn) : Prop :=
  dtls1MaxHandshakeMessageLen s < hdr.msgLen ∧ 0 < hdr.fragLen ∧
    if hdr.seq = s.handshakeReadSeq then hdr.fragLen < hdr.msgLen
    else outOfSeqDropped hdr s = false

def EmptyTaken (hand : HandState) (hdr : HmHeader) (s : DtlsConn) : Prop :=
  hdr.seq = s.handshakeReadSeq ∧ hdr.fragLen = 0 ∧ 0 < hdr.msgLen ∧
    hdr.msgLen ≤ dtls1MaxHandshakeMessageLen s ∧ ignoredHelloRequest hand hdr s = false

variable {s : DtlsConn} {m : HsMessage} {f : HsFragment}

theorem session_record (ok : SessionOk msgs arrived count s) (record : Option TlsRecord) :
    SessionOk msgs arrived count { s with record := record } :=
  { ok with }

theorem empty_part (none_ : f.len = 0) : f.part m = [] := by
  rw [HsFragment.part, none_, take_zero]

theorem fragmentNew_length (s : DtlsConn) (hdr : HmHeader) (n : Nat) (reassembly : Bool) :
    (dtls1HmFragmentNew s hdr n reassembly).fragment.length = n := by
  rw [dtls1HmFragmentNew, length_map, length_range]

theorem discard_ok (ok : SessionOk msgs arrived count s) (at_ : AtBody msgs arrived (f.part m) s)
    (inside : f.off + f.len ≤ m.body.length) :
    ∃ s', discardBody f.len s = (true, s') ∧ GoesOn msgs arrived count s' := by
  have size := part_length inside
  obtain ⟨record, run, done⟩ := body_discarded at_
    (show (f.part m).length < f.len + s.records.length + 2 by omega)
  rw [size] at run
  exact ⟨_, run, session_record ok record, atBody_done done⟩

theorem fragment_read (ok : SessionOk msgs arrived count s)
    (at_ : AtBody msgs arrived (f.part m) s) (inside : f.off + f.len ≤ m.body.length)
    (some_ : 0 < f.len) : ∃ record, sslReadBytes f.len false s =
        some (.handshake, f.part m, { s with record := record }) ∧
      GoesOn msgs arrived count { s with record := record } := by
  have size := part_length inside
  obtain ⟨rr, _, read, next⟩ := body_read at_ some_ (le_of_eq size.symm)
  rw [take_of_length_le (le_of_eq size)] at read
  rw [drop_eq_nil_of_le (le_of_eq size)] at next
  exact ⟨_, read, session_record ok _, atBody_done next⟩

theorem goesOn_queue {queue : List Pitem} (on : GoesOn msgs arrived count s)
    (ok : QueueOk msgs arrived queue) :
    GoesOn msgs arrived count { s with bufferedMessages := queue } :=
  ⟨⟨on.1.seq, ok, on.1.first⟩, on.2.record, on.2.records⟩

theorem insert_ok {k : Nat} {frag : HmFragment} {fails : Int} (on : GoesOn msgs arrived count s)
    (found : msgs[k]? = some m) (good : FragmentOk arrived m k frag) : GoesOn msgs arrived count
      (match pqueueInsert ⟨k, frag⟩ s.bufferedMessages with
        | none => (fails, s)
        | some queue => (dtls1HmFragmentRetry, { s with bufferedMessages := queue })).2 := by
  cases run : pqueueInsert ⟨k, frag⟩ s.bufferedMessages with
  | none => exact on
  | some queue => exact goesOn_queue on (queue_insert on.1.queue found good run)

/-- A fragment is put together with the others of its message. -/
theorem reassemble_ok (ok : SessionOk msgs arrived count s)
    (at_ : AtBody msgs arrived (f.part m) s) (among : f ∈ arrived) (found : msgs[f.seq]? = some m)
    (inside : f.off + f.len ≤ m.body.length)
    (fits : 0 < f.len → m.body.length ≤ dtls1MaxHandshakeMessageLen s) :
    GoesOn msgs arrived count (dtls1ReassembleFragment (f.header m) s).2 := by
  have size := part_length inside
  rw [dtls1ReassembleFragment]
  by_cases none_ : f.len = 0
  · rw [empty_part none_] at at_
    have on : GoesOn msgs arrived count s := ⟨ok, atBody_done at_⟩
    split
    · exact on
    · rw [if_pos (show (f.header m).fragLen = 0 from none_)]
      exact on
  · have some_ : 0 < f.len := Nat.pos_of_ne_zero none_
    have bounds : ¬ ((f.header m).msgLen < (f.header m).fragOff + (f.header m).fragLen ∨
        dtls1MaxHandshakeMessageLen s < (f.header m).msgLen) := by
      dsimp only [HsFragment.header]
      omega
    obtain ⟨record, read, on⟩ := fragment_read ok at_ inside some_
    rw [if_neg bounds, if_neg (show ¬ (f.header m).fragLen = 0 from none_)]
    cases queued : pqueueFind (f.header m).seq s.bufferedMessages with
    | none =>
      have read' : sslReadBytes (f.header m).fragLen false s =
          some (.handshake, f.part m, { s with record := record }) := read
      rw [read']
      dsimp only
      rw [if_neg (not_not.mpr (show (f.part m).length = (f.header m).fragLen from size))]
      apply insert_ok on found
      apply addPart_ok among inside some_
      · rfl
      · exact fragmentNew_length _ _ _ _
      · constructor
        · exact length_replicate
        · intro i bad
          rw [dtls1HmFragmentNew, if_pos rfl, getD_some, bit_zeros] at bad
          contradiction
    | some item =>
      obtain ⟨member, priority⟩ := pqueueFind_some queued
      obtain ⟨m', found', good⟩ := ok.queue.items item member
      have key : item.priority = f.seq := priority
      rw [key] at found' good
      rw [found] at found'
      obtain rfl := some.inj found'
      have sameLen : item.data.msgHeader.msgLen = (f.header m).msgLen := by
        rw [good.header]
        rfl
      dsimp only
      rw [if_neg (not_not.mpr sameLen)]
      cases going : item.data.reassembly with
      | none =>
        obtain ⟨s', run, on'⟩ := discard_ok ok at_ inside
        have run' : discardBody (f.header m).fragLen s = (true, s') := run
        rw [run']
        exact on'
      | some bitmask =>
        have read' : sslReadBytes (f.header m).fragLen false s =
            some (.handshake, f.part m, { s with record := record }) := read
        rw [read']
        dsimp only
        rw [if_neg (not_not.mpr (show (f.part m).length = (f.header m).fragLen from size))]
        apply goesOn_queue on
        exact queue_update on.1.queue found
          (addPart_ok among inside some_ good.header good.length (good.part bitmask going))

/-- A message out of sequence is kept or thrown away. -/
theorem outOfSeq_ok (ok : SessionOk msgs arrived count s) (at_ : AtBody msgs arrived (f.part m) s)
    (among : f ∈ arrived) (found : msgs[f.seq]? = some m) (inside : f.off + f.len ≤ m.body.length)
    (seq : f.seq ≠ s.handshakeReadSeq) (taken : ¬ BodyLeft (f.header m) s) :
    GoesOn msgs arrived count (dtls1ProcessOutOfSeqMessage (f.header m) s).2 := by
  have size := part_length inside
  have bounds : ¬ (f.header m).msgLen < (f.header m).fragOff + (f.header m).fragLen :=
    not_lt.mpr inside
  rw [dtls1ProcessOutOfSeqMessage, if_neg bounds]
  by_cases dropped : outOfSeqDropped (f.header m) s = true
  · obtain ⟨s', run, on⟩ := discard_ok ok at_ inside
    have run' : discardBody (f.header m).fragLen s = (true, s') := run
    rw [if_pos dropped, run']
    exact on
  · have fits : 0 < f.len → m.body.length ≤ dtls1MaxHandshakeMessageLen s := by
      intro some_
      by_contra long
      apply taken
      refine ⟨not_le.mp long, some_, ?_⟩
      rw [if_neg (show ¬ (f.header m).seq = s.handshakeReadSeq from seq)]
      exact Bool.not_eq_true _ ▸ dropped
    rw [if_neg dropped]
    by_cases partial_ : (f.header m).fragLen ≠ (f.header m).msgLen
    · rw [if_pos partial_]
      exact reassemble_ok ok at_ among found inside fits
    · rw [if_neg partial_]
      have whole : f.len = m.body.length := not_not.mp partial_
      have start : f.off = 0 := by omega
      have header : f.header m = ⟨m.type, m.body.length, f.seq, 0, m.body.length⟩ := by
        rw [HsFragment.header, whole, start]
      have part : f.part m = m.body := by
        rw [HsFragment.part, whole, start, drop_zero, take_length]
      by_cases none_ : f.len = 0
      · rw [empty_part none_] at at_
        have on : GoesOn msgs arrived count s := ⟨ok, atBody_done at_⟩
        rw [if_neg (show ¬ dtls1MaxHandshakeMessageLen s < (f.header m).fragLen by
          have : (f.header m).fragLen = 0 := none_
          omega)]
        rw [if_pos (show (f.header m).fragLen = 0 from none_)]
        apply insert_ok on found
        have empty : m.body = [] := length_eq_zero_iff.mp (whole.symm.trans none_)
        constructor
        · exact header
        · exact (fragmentNew_length _ _ _ _).trans whole
        · intro _
          refine ⟨?_, ?_⟩
          · rw [empty]
            exact length_eq_zero_iff.mp ((fragmentNew_length _ _ _ _).trans none_)
          · rw [empty]
            exact fun i bad => absurd bad (Nat.not_lt_zero i)
        · intros
          contradiction
      · have some_ : 0 < f.len := Nat.pos_of_ne_zero none_
        obtain ⟨record, read, on⟩ := fragment_read ok at_ inside some_
        have read' : sslReadBytes (f.header m).fragLen false s =
            some (.handshake, f.part m, { s with record := record }) := read
        rw [if_neg (show ¬ dtls1MaxHandshakeMessageLen s < (f.header m).fragLen by
          have short := fits some_
          rw [← whole] at short
          exact not_lt.mpr short)]
        rw [if_neg (show ¬ (f.header m).fragLen = 0 from none_), read']
        dsimp only
        rw [if_neg (not_not.mpr (show (f.part m).length = (f.header m).fragLen from size))]
        apply insert_ok on found
        constructor
        · exact header
        · exact size.trans whole
        · intro _
          refine ⟨part, ?_⟩
          intro i low
          exact ⟨f, among, rfl, by omega, by omega⟩
        · intros
          contradiction

/-- What a way through the code may end with. -/
def Good (msgs : List HsMessage) (arrived : List HsFragment) (count : Nat) :
    Reassembled × DtlsConn → Prop
  | (.fatal, _) => True
  | (.message _, s) => ∃ m, msgs[count]? = some m ∧
      (∀ i < m.body.length, Received arrived count i) ∧ Loaded m count s ∧
      s.initNum = m.body.length ∧ GoesOn msgs arrived count s
  | (_, s) => GoesOn msgs arrived count s

theorem whole_ok (ok : SessionOk msgs arrived count s) (at_ : AtBody msgs arrived (f.part m) s)
    (among : f ∈ arrived) (found : msgs[f.seq]? = some m) (inside : f.off + f.len ≤ m.body.length)
    (seq : f.seq = s.handshakeReadSeq) (all : f.len ≠ 0 → m.body.length ≤ f.len)
    (shown : ignoredHelloRequest hand (f.header m) s = false)
    (taken : ¬ EmptyTaken hand (f.header m) s) :
    Good msgs arrived count (readWholeMessage (f.header m) false s) := by
  have now : f.seq = count := seq.trans ok.seq
  rw [readWholeMessage]
  cases run : dtls1PreprocessFragment (f.header m) s with
  | none => trivial
  | some s1 =>
    obtain ⟨fits, made⟩ := preprocess_spec ok.first run
    have ok1 : SessionOk msgs arrived count s1 := by
      rw [made]
      exact { ok with }
    have at1 : AtBody msgs arrived (f.part m) s1 := by
      rw [made]
      exact { at_ with }
    rw [now] at found
    have whole : f.len = m.body.length := by
      by_cases none_ : f.len = 0
      · have empty : ¬ 0 < m.body.length := fun some_ => taken ⟨seq, none_, some_, fits, shown⟩
        omega
      · have := all none_
        omega
    have start : f.off = 0 := by omega
    have part : f.part m = m.body := by
      rw [HsFragment.part, whole, start, drop_zero, take_length]
    have received : ∀ i < m.body.length, Received arrived count i := by
      intro i low
      exact ⟨f, among, now, by omega, by omega⟩
    dsimp only
    by_cases none_ : f.len = 0
    · rw [if_pos (show (f.header m).fragLen = 0 from none_)]
      have empty : m.body = [] := length_eq_zero_iff.mp (whole.symm.trans none_)
      rw [empty_part none_] at at1
      have input := atBody_done at1
      refine ⟨m, found, received, ?_, ?_, { ok1 with }, input.record,
        input.records⟩
      · constructor
        · rw [empty]
          exact take_zero
        · rw [made]
          rfl
        · rw [made]
          exact now
      · rw [empty]
        rfl
    · obtain ⟨record, read, on⟩ := fragment_read ok1 at1 inside (Nat.pos_of_ne_zero none_)
      have read' : sslReadBytes (f.header m).fragLen false s1 =
          some (.handshake, f.part m, { s1 with record := record }) := read
      rw [if_neg (show ¬ (f.header m).fragLen = 0 from none_), read']
      dsimp only
      rw [if_neg (not_not.mpr (show (f.part m).length = (f.header m).fragLen from
        part_length inside))]
      refine ⟨m, found, received, ?_, whole, ⟨on.1.seq, on.1.queue, on.1.first⟩, on.2.record,
        on.2.records⟩
      constructor
      · have offset : (f.header m).fragOff = 0 := start
        have buffer : s1.initBuf =
            bufMemGrowClean s.initBuf (m.body.length + dtls1HmHeaderLength) := by
          rw [made]
          rfl
        rw [offset, buffer, part]
        exact written_body _ _
      · rw [made]
        rfl
      · rw [made]
        exact now

/-- The code behind the header of a fragment. -/
theorem readFragment_ok (ok : SessionOk msgs arrived count s)
    (at_ : AtBody msgs arrived (f.part m) s) (among : f ∈ arrived) (found : msgs[f.seq]? = some m)
    (inside : f.off + f.len ≤ m.body.length) (later : hand ≠ .swHelloVerifyRequest)
    (left : ¬ BodyLeft (f.header m) s) (taken : ¬ EmptyTaken hand (f.header m) s) :
    Good msgs arrived count (readFragment hand (f.header m) s) := by
  rw [readFragment, firstHelloAgain_false later, Bool.false_and]
  by_cases short : recordLength s < (f.header m).fragLen
  · rw [if_pos short]
    trivial
  · rw [if_neg short]
    by_cases seq : f.seq = s.handshakeReadSeq
    · rw [if_neg fun bad => bad.1 seq]
      by_cases partial_ : (f.header m).fragLen ≠ 0 ∧ (f.header m).fragLen < (f.header m).msgLen
      · rw [if_pos partial_]
        apply reassemble_ok ok at_ among found inside
        intro some_
        by_contra long
        apply left
        refine ⟨not_le.mp long, some_, ?_⟩
        rw [if_pos (show (f.header m).seq = s.handshakeReadSeq from seq)]
        exact partial_.2
      · rw [if_neg partial_]
        have all : f.len ≠ 0 → m.body.length ≤ f.len := fun some_ =>
          not_lt.mp fun bad => partial_ ⟨some_, bad⟩
        by_cases ignored : ignoredHelloRequest hand (f.header m) s = true
        · rw [if_pos ignored]
          by_cases none_ : (f.header m).msgLen = 0
          · rw [if_pos none_]
            have empty : f.len = 0 := by
              have : m.body.length = 0 := none_
              omega
            rw [empty_part empty] at at_
            have input := atBody_done at_
            exact ⟨{ ok with }, input.record, input.records⟩
          · rw [if_neg none_]
            trivial
        · rw [if_neg ignored, decide_eq_false (not_not.mpr
            (show (f.header m).seq = s.handshakeReadSeq from seq))]
          exact whole_ok ok at_ among found inside seq all (Bool.not_eq_true _ ▸ ignored) taken
    · rw [if_pos ⟨seq, rfl⟩]
      exact outOfSeq_ok ok at_ among found inside seq left

end Pass

end Ossl
