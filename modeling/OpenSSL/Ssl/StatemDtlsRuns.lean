import OpenSSL.Ssl.StatemDtlsParts

/- No message is delivered before all of it has come, in any order of its fragments. -/
namespace Ossl
open List ByteMask Runs

section Way
variable {msgs : List HsMessage} {arrived : List HsFragment} {count : Nat} {hand : HandState}

def nextHeader (s : DtlsConn) : Option HmHeader :=
  match sslReadBytes dtls1HmHeaderLength true s with
  | some (.handshake, p, _) => some (dtls1GetMessageHeader p)
  | _ => none

/-- Where a header is read, it is neither of an empty fragment that is taken for a message nor
    of a body that is left in the record. -/
def NoSlip (hand : HandState) (s : DtlsConn) : Prop :=
  ¬ Ready s → ∀ hdr, nextHeader s = some hdr → ¬ EmptyTaken hand hdr s ∧ ¬ BodyLeft hdr s

variable {s : DtlsConn}

theorem sslReadBytes_shape {s' : DtlsConn} {n : Nat} {recvdType : Bool} {type : RecordType}
    {p : List UInt8} (read : sslReadBytes n recvdType s = some (type, p, s')) :
    ∃ record records, s' = { s with record := record, records := records } := by
  rw [sslReadBytes] at read
  cases opened : openRecord recvdType (s.record.toList ++ s.records) with
  | none =>
    rw [opened] at read
    contradiction
  | some next =>
    rw [opened] at read
    exact ⟨_, _, (Prod.mk.inj (Prod.mk.inj (Option.some.inj read)).2).2.symm⟩

theorem nextHeader_queue (s : DtlsConn) (queue : List Pitem) :
    nextHeader { s with bufferedMessages := queue } = nextHeader s := by
  rw [nextHeader, nextHeader, sslReadBytes, sslReadBytes]
  cases openRecord true (s.record.toList ++ s.records) with
  | none => rfl
  | some next =>
    obtain ⟨rr, rest⟩ := next
    dsimp only
    cases rr.type with
    | handshake => rfl
    | changeCipherSpec => rfl

theorem find_fresh {k : Nat} (fresh : s.handshakeReadSeq ≤ k) {queue : List Pitem}
    (seqs : ∀ item ∈ queue, item.data.msgHeader.seq = item.priority) :
    pqueueFind k (queue.dropWhile (isStale s)) = pqueueFind k queue := by
  induction queue with
  | nil => rfl
  | cons item rest ih =>
    rw [dropWhile_cons]
    by_cases stale : isStale s item = true
    · have differs : decide (item.priority = k) = false := by
        rw [isStale, decide_eq_true_iff, seqs item mem_cons_self] at stale
        rw [decide_eq_false_iff_not]
        omega
      rw [if_pos stale, ih fun other member => seqs other (mem_cons_of_mem item member),
        pqueueFind, pqueueFind, find?_cons, differs]
    · rw [if_neg stale]

theorem dropped_fresh (ok : SessionOk msgs arrived count s) (hdr : HmHeader) :
    outOfSeqDropped hdr { s with bufferedMessages := s.bufferedMessages.dropWhile (isStale s) } =
      outOfSeqDropped hdr s := by
  rw [outOfSeqDropped, outOfSeqDropped]
  apply decide_eq_decide.mpr
  by_cases old : hdr.seq ≤ s.handshakeReadSeq
  · exact iff_of_true (.inl old) (.inl old)
  · rw [find_fresh (le_of_lt (not_le.mp old))]
    intro item member
    obtain ⟨m, _, good⟩ := ok.queue.items item member
    rw [good.header]

/-- One way through the code leaves a session that goes on, and hands out only the message
    that comes next, whole. -/
theorem reassembled_ok (on : GoesOn msgs arrived count s) (later : hand ≠ .swHelloVerifyRequest)
    (fine : NoSlip hand s) :
    Good msgs arrived count (dtlsGetReassembledMessage hand s) := by
  obtain ⟨ok, input⟩ := on
  rw [dtlsGetReassembledMessage]
  cases retrieve_spec ok later with
  | inr others =>
    cases others with
    | inl fatal =>
      obtain ⟨s', run⟩ := fatal
      rw [run]
      trivial
    | inr message =>
      obtain ⟨m, s', run, found, received, loaded, ok', record, records⟩ := message
      rw [run]
      refine ⟨m, found, received, { loaded with }, rfl,
        { ok' with }, ?_, ?_⟩
      · intro rr is
        exact input.record rr (record.symm.trans is)
      · intro rr member
        rw [records] at member
        exact input.records rr member
  | inl absent =>
    obtain ⟨run, notReady⟩ := absent
    rw [run]
    dsimp only
    have same := nextHeader_queue s (s.bufferedMessages.dropWhile (isStale s))
    have drops := dropped_fresh ok
    have ok1 : SessionOk msgs arrived count
        { s with bufferedMessages := s.bufferedMessages.dropWhile (isStale s) } :=
      ⟨ok.seq, queue_sublist ok.queue (dropWhile_sublist _), ok.first⟩
    have input1 : InputOk msgs arrived
        { s with bufferedMessages := s.bufferedMessages.dropWhile (isStale s) } :=
      ⟨input.record, input.records⟩
    generalize s.bufferedMessages.dropWhile (isStale s) = queue at same drops ok1 input1
    cases read : sslReadBytes dtls1HmHeaderLength true { s with bufferedMessages := queue } with
    | none => exact ⟨ok1, input1⟩
    | some next =>
      obtain ⟨type, p, s2⟩ := next
      obtain ⟨record, records, shape⟩ := sslReadBytes_shape read
      have ok2 : SessionOk msgs arrived count s2 := by
        rw [shape]
        exact { ok1 with }
      cases type with
      | changeCipherSpec =>
        have input2 := read_input input1 read
        dsimp only
        split
        · trivial
        · exact ⟨{ ok2 with }, input2.record, input2.records⟩
      | handshake =>
        dsimp only
        by_cases whole : p.length = dtls1HmHeaderLength
        · rw [if_neg (not_not.mpr whole)]
          obtain ⟨f, m, among, found, inside, header, at_⟩ := header_next input1 read whole
          rw [nextHeader, read] at same
          dsimp only at same
          rw [header] at same ⊢
          obtain ⟨taken, left⟩ := fine notReady (f.header m) same.symm
          have ok3 : SessionOk msgs arrived count
              { s2 with initBuf := writeAt s2.initBuf 0 p } := { ok2 with }
          have at3 : AtBody msgs arrived (f.part m)
              { s2 with initBuf := writeAt s2.initBuf 0 p } := { at_ with }
          apply readFragment_ok ok3 at3 among found inside later
          · intro bad
            apply left
            rw [shape] at bad
            obtain ⟨long, some_, rest⟩ := bad
            refine ⟨long, some_, ?_⟩
            rw [← drops (f.header m)]
            exact rest
          · intro bad
            apply taken
            rw [shape] at bad
            exact bad
        · rw [if_pos whole]
          trivial

end Way

section World

/- The connection, the fragments that have come, what was delivered, and whether there was a
   fatal alert. -/
structure DtlsWorld where
  conn : DtlsConn
  arrived : List HsFragment
  delivered : List Delivery
  failed : Bool

/- A record comes, with fragments or a change cipher spec, or the state machine asks for a
   message. -/
inductive DtlsEvent where
  | fragments (frags : List HsFragment)
  | changeCipherSpec
  | ask (hand : HandState)

def addRecord (rr : TlsRecord) (s : DtlsConn) : DtlsConn := { s with records := s.records ++ [rr] }

def dtlsStep (msgs : List HsMessage) (w : DtlsWorld) : DtlsEvent → DtlsWorld
  | .fragments frags =>
    { w with
      conn := addRecord ⟨.handshake, frags.flatMap (·.encode msgs)⟩ w.conn
      arrived := w.arrived ++ frags }
  | .changeCipherSpec => { w with conn := addRecord ⟨.changeCipherSpec, [ssl3MtCcs]⟩ w.conn }
  | .ask hand =>
    if w.failed then w
    else
      match dtlsGetMessage hand w.conn with
      | (.fatal, s) => { w with conn := s, failed := true }
      | (.message d, s) => { w with conn := s, delivered := w.delivered ++ [d] }
      | (_, s) => { w with conn := s }

def dtlsStart (server : Bool) (maxCertList : Nat) (heap : Nat → UInt8) (initBuf : List UInt8) :
    DtlsWorld :=
  ⟨⟨server, maxCertList, heap, 0, 0, [], blankHeader, initBuf, 0, 0, 0, none, []⟩, [], [], false⟩

/-- Fragments are of messages that there are, and no hello verify request is being sent. -/
def EventOk (msgs : List HsMessage) : DtlsEvent → Prop
  | .fragments frags => ∀ f ∈ frags, f.Valid msgs
  | .changeCipherSpec => True
  | .ask hand => hand ≠ .swHelloVerifyRequest

/-- A message is asked for only while the numbers of the messages last, and then no header slips. -/
def StepFine (msgs : List HsMessage) (w : DtlsWorld) (e : DtlsEvent) : Prop :=
  EventOk msgs e ∧ ∀ hand, e = .ask hand → w.failed = false →
    w.delivered.length < 2 ^ 16 ∧ NoSlip hand w.conn

/-- The k-th delivery is message k, all of which has come. -/
def DeliveredInOrder (msgs : List HsMessage) (w : DtlsWorld) : Prop :=
  ∀ k d, w.delivered[k]? = some d → ∃ m, msgs[k]? = some m ∧ d = ⟨k, m.type.toNat, m.body⟩ ∧
    ∀ i < m.body.length, Received w.arrived k i

structure WorldOk (msgs : List HsMessage) (w : DtlsWorld) : Prop where
  delivered : DeliveredInOrder msgs w
  session : w.failed = false → w.delivered.length < 2 ^ 16 →
    GoesOn msgs w.arrived w.delivered.length w.conn

variable {msgs : List HsMessage} {arrived : List HsFragment} {count : Nat} {hand : HandState}

theorem pending_more {more : List HsFragment} (sub : arrived ⊆ more) {data : List UInt8}
    (pending : Pending msgs arrived data) : Pending msgs more data := by
  obtain ⟨frags, is, each⟩ := pending
  exact ⟨frags, is, fun f member => ⟨sub (each f member).1, (each f member).2⟩⟩

variable {s : DtlsConn}

theorem goesOn_more {more : List HsFragment} (sub : arrived ⊆ more)
    (on : GoesOn msgs arrived count s) : GoesOn msgs more count s := by
  have records : ∀ rr, TlsRecordOk msgs arrived rr → TlsRecordOk msgs more rr := by
    intro rr ok
    exact ok.imp id (pending_more sub)
  exact ⟨⟨on.1.seq, queue_more sub on.1.queue, on.1.first⟩,
    fun rr is => records rr (on.2.record rr is), fun rr member => records rr (on.2.records rr member)⟩

theorem goesOn_record {rr : TlsRecord} (on : GoesOn msgs arrived count s)
    (ok : TlsRecordOk msgs arrived rr) : GoesOn msgs arrived count (addRecord rr s) := by
  refine ⟨⟨on.1.seq, on.1.queue, on.1.first⟩, on.2.record, ?_⟩
  intro r member
  cases mem_append.mp member with
  | inl old => exact on.2.records r old
  | inr new =>
    rw [mem_singleton.mp new]
    exact ok

/-- The message that is handed out is the one that comes next, and then the next one is
    expected. -/
theorem message_ok (on : GoesOn msgs arrived count s) (later : hand ≠ .swHelloVerifyRequest)
    (fine : NoSlip hand s) : match dtlsGetMessage hand s with
    | (.fatal, _) => True
    | (.message d, s') => ∃ m, msgs[count]? = some m ∧ d = ⟨count, m.type.toNat, m.body⟩ ∧
        (∀ i < m.body.length, Received arrived count i) ∧
        (count + 1 < 2 ^ 16 → GoesOn msgs arrived (count + 1) s')
    | (_, s') => GoesOn msgs arrived count s' := by
  have good := reassembled_ok on later fine
  rw [dtlsGetMessage]
  cases run : dtlsGetReassembledMessage hand s with
  | mk result s' =>
    rw [run] at good
    cases result with
    | redo => exact good
    | fatal => trivial
    | changeCipherSpec => exact good
    | error errtype =>
      dsimp only
      by_cases retry : errtype = dtls1HmBadFragment ∨ errtype = dtls1HmFragmentRetry
      · rw [if_pos retry]
        exact good
      · rw [if_neg retry]
        exact good
    | message len =>
      obtain ⟨m, found, received, loaded, size, ok, input⟩ := good
      have header : (messageHeader s'.rMsgHdr).length = dtls1HmHeaderLength := by
        simp [messageHeader, dtls1HmHeaderLength]
      have behind : (writeAt s'.initBuf 0 (messageHeader s'.rMsgHdr)).drop dtls1HmHeaderLength =
          s'.initBuf.drop dtls1HmHeaderLength := by
        rw [writeAt, take_zero, nil_append, drop_left' header, header, zero_add]
      refine ⟨m, found, ?_, received,
        fun number => ⟨⟨?_, ok.queue, rfl⟩, input.record, input.records⟩⟩
      · rw [behind, size, loaded.body, loaded.type, loaded.seq]
      · rw [ok.seq, Nat.mod_eq_of_lt number]

theorem dtlsStep_ok {w : DtlsWorld} {e : DtlsEvent} (ok : WorldOk msgs w) (fine : StepFine msgs w e) :
    WorldOk msgs (dtlsStep msgs w e) := by
  cases e with
  | fragments frags =>
    have sub : w.arrived ⊆ w.arrived ++ frags := subset_append_left _ _
    constructor
    · intro k d is
      obtain ⟨m, found, same, received⟩ := ok.delivered k d is
      exact ⟨m, found, same, fun i low => received_more sub (received i low)⟩
    · intro goes few
      apply goesOn_record (goesOn_more sub (ok.session goes few))
      exact .inr ⟨frags, rfl, fun f member => ⟨mem_append_right _ member, fine.1 f member⟩⟩
  | changeCipherSpec =>
    exact ⟨ok.delivered, fun goes few => goesOn_record (ok.session goes few) (.inl rfl)⟩
  | ask hand =>
    rw [dtlsStep]
    by_cases failed : w.failed = true
    · rw [if_pos failed]
      exact ok
    · rw [if_neg failed]
      rw [Bool.not_eq_true] at failed
      obtain ⟨few, safe⟩ := fine.2 hand rfl failed
      have result := message_ok (ok.session failed few) fine.1 safe
      cases run : dtlsGetMessage hand w.conn with
      | mk got s =>
        rw [run] at result
        cases got with
        | fatal => exact ⟨ok.delivered, nofun⟩
        | again => exact ⟨ok.delivered, fun _ _ => result⟩
        | stop => exact ⟨ok.delivered, fun _ _ => result⟩
        | changeCipherSpec => exact ⟨ok.delivered, fun _ _ => result⟩
        | message d =>
          obtain ⟨m, found, same, received, on⟩ := result
          constructor
          · intro k d' is
            by_cases before : k < w.delivered.length
            · rw [getElem?_append_left before] at is
              exact ok.delivered k d' is
            · rw [getElem?_append_right (not_lt.mp before), getElem?_singleton] at is
              by_cases last : k - w.delivered.length = 0
              · have here : k = w.delivered.length := by omega
                rw [if_pos last] at is
                obtain rfl := Option.some.inj is
                rw [here]
                exact ⟨m, found, same, received⟩
              · rw [if_neg last] at is
                contradiction
          · intro _ fewer
            rw [length_append] at fewer ⊢
            exact on fewer

theorem dtlsStart_ok (server : Bool) (maxCertList : Nat) (heap : Nat → UInt8)
    (initBuf : List UInt8) : WorldOk msgs (dtlsStart server maxCertList heap initBuf) := by
  constructor
  · exact nofun
  · exact fun _ _ => ⟨⟨rfl, ⟨.nil, nofun⟩, rfl⟩, nofun, nofun⟩

end World

section Macros

def markAll (msgLen : Nat) (frags : List (Nat × Nat)) : List UInt8 :=
  frags.foldl (fun bitmask f => rsmblyBitmaskMark bitmask f.1 f.2)
    (replicate (rsmblyBitmaskSize msgLen) 0)

variable {msgLen : Nat} {frags : List (Nat × Nat)}

theorem marks_bits {bitmask : List UInt8} (inside : ∀ f ∈ frags, f.1 < f.2 ∧ f.2 ≤ msgLen)
    (size : bitmask.length = rsmblyBitmaskSize msgLen) (i : Nat) :
    bit (frags.foldl (fun bitmask f => rsmblyBitmaskMark bitmask f.1 f.2) bitmask) i = true ↔
      bit bitmask i = true ∨ ∃ f ∈ frags, f.1 ≤ i ∧ i < f.2 := by
  induction frags generalizing bitmask with
  | nil =>
    constructor
    · exact .inl
    · intro either
      exact either.resolve_right fun bad => nomatch bad
  | cons f frags ih =>
    obtain ⟨some_, within⟩ := inside f mem_cons_self
    have room : f.2 ≤ 8 * bitmask.length := by
      rw [size, rsmblyBitmaskSize]
      omega
    rw [foldl_cons, ih (fun g member => inside g (mem_cons_of_mem f member))
      ((mark_length _ _ _).trans size), mark_bit some_ room, Bool.or_eq_true, decide_eq_true_iff,
      exists_mem_cons_iff, or_assoc]

/-- The macros mark the octets of the fragments and tell when there is no other one. -/
theorem markAll_spec (some_ : 0 < msgLen) (inside : ∀ f ∈ frags, f.1 < f.2 ∧ f.2 ≤ msgLen) :
    (∀ i, bit (markAll msgLen frags) i = true ↔ ∃ f ∈ frags, f.1 ≤ i ∧ i < f.2) ∧
      (rsmblyBitmaskIsComplete (markAll msgLen frags) msgLen = true ↔
        ∀ i < msgLen, bit (markAll msgLen frags) i = true) := by
  have bits : ∀ i, bit (markAll msgLen frags) i = true ↔ ∃ f ∈ frags, f.1 ≤ i ∧ i < f.2 := by
    intro i
    rw [markAll, marks_bits inside length_replicate, bit_zeros]
    constructor
    · exact fun either => either.resolve_left Bool.false_ne_true
    · exact .inr
  refine ⟨bits, isComplete_bits some_ ?_⟩
  intro i is
  obtain ⟨f, member, _, high⟩ := (bits i).mp is
  exact lt_of_lt_of_le high (inside f member).2

end Macros

/-- As long as the numbers last and no step slips, messages are delivered in order, each once and with
    all of its octets, which have come before. -/
theorem dtls_delivered_in_order {msgs : List HsMessage} (server : Bool) (maxCertList : Nat)
    (heap : Nat → UInt8) (initBuf : List UInt8) (events : List DtlsEvent)
    (fine : Admissible (dtlsStep msgs) (StepFine msgs)
      (dtlsStart server maxCertList heap initBuf) events) :
    (∀ w ∈ visited (dtlsStep msgs) (dtlsStart server maxCertList heap initBuf) events,
      DeliveredInOrder msgs w) ∧
    ∀ msgLen frags, 0 < msgLen → (∀ f ∈ frags, f.1 < f.2 ∧ f.2 ≤ msgLen) →
      (∀ i, bit (markAll msgLen frags) i = true ↔ ∃ f ∈ frags, f.1 ≤ i ∧ i < f.2) ∧
        (rsmblyBitmaskIsComplete (markAll msgLen frags) msgLen = true ↔
          ∀ i < msgLen, bit (markAll msgLen frags) i = true) := by
  constructor
  · intro w member
    exact (visited_invariant (fun w e ok good => dtlsStep_ok ok good)
      (dtlsStart_ok server maxCertList heap initBuf) fine w member).delivered
  · exact fun _ _ some_ inside => markAll_spec some_ inside

def emptySample : List HsMessage := [⟨ssl3MtClientHello, [7, 7], by decide⟩]

def emptyEvents : List DtlsEvent := [.fragments [⟨0, 0, 0⟩], .ask .other]

def sampleStart : DtlsWorld := dtlsStart true 0 (fun _ => 0) []

/-- The empty fragment is delivered as the whole message. -/
theorem empty_fragment_delivered :
    (∀ e ∈ emptyEvents, EventOk emptySample e) ∧
      ¬ DeliveredInOrder emptySample (run (dtlsStep emptySample) sampleStart emptyEvents) := by
  constructor
  · intro e member
    cases member with
    | head =>
      intro f among
      rw [mem_singleton.mp among]
      exact ⟨by decide, ⟨ssl3MtClientHello, [7, 7], by decide⟩, rfl, Nat.zero_le 2⟩
    | tail _ member =>
      rw [mem_singleton.mp member]
      exact nofun
  · intro ordered
    have delivered : (run (dtlsStep emptySample) sampleStart emptyEvents).delivered =
        [⟨0, 1, []⟩] := by decide +kernel
    obtain ⟨m, found, same, _⟩ := ordered 0 ⟨0, 1, []⟩ (by rw [delivered]; rfl)
    have body := congrArg Delivery.body same
    rw [← Option.some.inj found] at body
    exact nomatch body

/- The fragments are read one by one, and then the message is there. -/
def halvesEvents : List DtlsEvent :=
  [.fragments [⟨0, 1, 1⟩, ⟨0, 0, 1⟩], .ask .other, .ask .other, .ask .other]

theorem dtls_delivered_in_order_halves :
    (run (dtlsStep emptySample) sampleStart halvesEvents).delivered = [⟨0, 1, [7, 7]⟩] ∧
      DeliveredInOrder emptySample (run (dtlsStep emptySample) sampleStart halvesEvents) := by
  refine ⟨by decide +kernel, (dtls_delivered_in_order true 0 (fun _ => 0) [] halvesEvents ?_).1 _
    (run_mem_visited _ _ _)⟩
  have slips {hand : HandState} {s : DtlsConn} (hdr : HmHeader) (header : nextHeader s = some hdr)
      (some_ : hdr.fragLen ≠ 0) (small : hdr.msgLen ≤ dtls1MaxHandshakeMessageLen s) :
      NoSlip hand s := by
    intro _ read next
    obtain rfl := Option.some.inj (header.symm.trans next)
    exact ⟨fun bad => some_ bad.2.1, fun bad => absurd bad.1 (not_lt.mpr small)⟩
  refine ⟨⟨?_, nofun⟩, ⟨nofun, fun hand is _ => ⟨by decide, ?_⟩⟩,
    ⟨nofun, fun hand is _ => ⟨by decide +kernel, ?_⟩⟩,
    ⟨nofun, fun hand is _ => ⟨by decide +kernel, ?_⟩⟩, trivial⟩
  · intro f among
    have inside : f.seq = 0 ∧ f.off + f.len ≤ 2 := by
      cases among with
      | head => decide
      | tail _ among =>
        rw [mem_singleton.mp among]
        decide
    refine ⟨by omega, ⟨ssl3MtClientHello, [7, 7], by decide⟩, ?_, inside.2⟩
    rw [inside.1]
    rfl
  · exact slips ⟨1, 2, 0, 1, 1⟩ (by decide +kernel) (by decide) (by decide +kernel)
  · exact slips ⟨1, 2, 0, 0, 1⟩ (by decide +kernel) (by decide) (by decide +kernel)
  · intro _ hdr next
    -- nothing is left to read
    have done : nextHeader (run (dtlsStep emptySample) sampleStart
        [.fragments [⟨0, 1, 1⟩, ⟨0, 0, 1⟩], .ask .other, .ask .other]).conn = none := by
      decide +kernel
    exact nomatch done.symm.trans next

end Ossl
