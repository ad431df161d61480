import OpenSSL.Ssl.StatemDtlsMask
import OpenSSL.Lib.Runs

/- The messages of a handshake as the peer sends them, and how their fragments are read. -/
namespace Ossl
open Prod Nat List Option BigEndian ByteMask

structure HsMessage where
  type : UInt8
  body : List UInt8
  fits : body.length < 2 ^ 24

structure HsFragment where
  seq : Nat
  off : Nat
  len : Nat
  deriving DecidableEq

section Messages
variable (msgs : List HsMessage)

def HsFragment.header (m : HsMessage) (f : HsFragment) : HmHeader :=
  ⟨m.type, m.body.length, f.seq, f.off, f.len⟩

def HsFragment.part (m : HsMessage) (f : HsFragment) : List UInt8 := (m.body.drop f.off).take f.len

def encodeHeader (hdr : HmHeader) : List UInt8 :=
  hdr.type :: (netBytes 3 hdr.msgLen ++ netBytes 2 hdr.seq ++ netBytes 3 hdr.fragOff ++
    netBytes 3 hdr.fragLen)

def HsFragment.encode (f : HsFragment) : List UInt8 :=
  match msgs[f.seq]? with
  | none => []
  | some m => encodeHeader (f.header m) ++ f.part m

/- The number of its message fits the header. -/
def HsFragment.Valid (f : HsFragment) : Prop :=
  f.seq < 2 ^ 16 ∧ ∃ m, msgs[f.seq]? = some m ∧ f.off + f.len ≤ m.body.length

/-- Octets that are fragments which have arrived, one after the other. -/
def Pending (arrived : List HsFragment) (data : List UInt8) : Prop :=
  ∃ frags : List HsFragment, data = frags.flatMap (·.encode msgs) ∧
    ∀ f ∈ frags, f ∈ arrived ∧ f.Valid msgs

def TlsRecordOk (arrived : List HsFragment) (rr : TlsRecord) : Prop :=
  rr.type = .changeCipherSpec ∨ Pending msgs arrived rr.data

structure InputOk (arrived : List HsFragment) (s : DtlsConn) : Prop where
  record : ∀ rr, s.record = some rr → TlsRecordOk msgs arrived rr
  records : ∀ rr ∈ s.records, TlsRecordOk msgs arrived rr

def recordLeft (s : DtlsConn) : List UInt8 := (s.record.map TlsRecord.data).getD []

/-- The body of the fragment is what comes next. -/
structure AtBody (arrived : List HsFragment) (part : List UInt8) (s : DtlsConn) : Prop where
  left : ∃ rest, recordLeft s = part ++ rest ∧ Pending msgs arrived rest
  type : ∀ rr, s.record = some rr → rr.type = .handshake
  records : ∀ rr ∈ s.records, TlsRecordOk msgs arrived rr

end Messages

section Reading
variable {msgs : List HsMessage} {arrived : List HsFragment}

theorem encodeHeader_length (hdr : HmHeader) : (encodeHeader hdr).length = dtls1HmHeaderLength := by
  simp [encodeHeader, dtls1HmHeaderLength]

theorem header_read {hdr : HmHeader} (msgLen : hdr.msgLen < 2 ^ 24) (seq : hdr.seq < 2 ^ 16)
    (fragOff : hdr.fragOff < 2 ^ 24) (fragLen : hdr.fragLen < 2 ^ 24) :
    dtls1GetMessageHeader (encodeHeader hdr) = hdr := by
  have one : ∀ a b c d : List UInt8, a.length = 3 → b.length = 2 → c.length = 3 → d.length = 3 →
      (a ++ b ++ c ++ d).take 3 = a ∧ ((a ++ b ++ c ++ d).drop 3).take 2 = b ∧
        ((a ++ b ++ c ++ d).drop 5).take 3 = c ∧ ((a ++ b ++ c ++ d).drop 8).take 3 = d := by
    intro a b c d isA isB isC isD
    refine ⟨?_, ?_, ?_, ?_⟩
    · rw [append_assoc, append_assoc, take_left' isA]
    · rw [append_assoc, append_assoc, drop_left' isA, take_left' isB]
    · rw [append_assoc, drop_left' (by rw [length_append, isA, isB]), take_left' isC]
    · rw [drop_left' (by rw [length_append, length_append, isA, isB, isC]), ← isD, take_length]
  obtain ⟨first, second, third, fourth⟩ := one (netBytes 3 hdr.msgLen) (netBytes 2 hdr.seq)
    (netBytes 3 hdr.fragOff) (netBytes 3 hdr.fragLen) (netBytes_length _ _) (netBytes_length _ _)
    (netBytes_length _ _) (netBytes_length _ _)
  rw [dtls1GetMessageHeader, encodeHeader]
  simp only [getD_cons_zero, drop_succ_cons, drop_zero]
  rw [first, second, third, fourth, netValue_netBytes, netValue_netBytes, netValue_netBytes,
    netValue_netBytes, mod_eq_of_lt msgLen, mod_eq_of_lt seq, mod_eq_of_lt fragOff,
    mod_eq_of_lt fragLen]

theorem part_length {m : HsMessage} {f : HsFragment} (inside : f.off + f.len ≤ m.body.length) :
    (f.part m).length = f.len := by
  rw [HsFragment.part, length_take, length_drop]
  omega

def leftover (rr : TlsRecord) (n : Nat) : Option TlsRecord :=
  if n < rr.data.length then some ⟨rr.type, rr.data.drop n⟩ else none

theorem leftover_data (rr : TlsRecord) (n : Nat) :
    ((leftover rr n).map TlsRecord.data).getD [] = rr.data.drop n := by
  rw [leftover]
  by_cases more : n < rr.data.length
  · rw [if_pos more]
    rfl
  · rw [if_neg more, drop_eq_nil_of_le (not_lt.mp more)]
    rfl

variable {rr : TlsRecord} {n : Nat} {s : DtlsConn}

theorem leftover_type {r : TlsRecord} (is : leftover rr n = some r) : r.type = rr.type := by
  rw [leftover] at is
  by_cases more : n < rr.data.length
  · rw [if_pos more] at is
    rw [← some.inj is]
  · rw [if_neg more] at is
    contradiction

variable {recvdType : Bool} {s' : DtlsConn} {p : List UInt8}

theorem openRecord_mem {l rest : List TlsRecord} (run : openRecord recvdType l = some (rr, rest)) :
    rr ∈ l ∧ rest ⊆ l := by
  induction l with
  | nil => contradiction
  | cons r l ih =>
    rw [openRecord] at run
    by_cases takes : recvdType = true ∨ r.type = .handshake
    · rw [if_pos takes] at run
      obtain ⟨rfl, rfl⟩ := mk.inj (some.inj run)
      exact ⟨mem_cons_self, subset_cons_self _ _⟩
    · rw [if_neg takes] at run
      obtain ⟨member, sub⟩ := ih run
      exact ⟨mem_cons_of_mem r member, fun x inside => mem_cons_of_mem r (sub inside)⟩

theorem sslReadBytes_record (current : s.record = some rr)
    (takes : recvdType = true ∨ rr.type = .handshake) : sslReadBytes n recvdType s =
      some (rr.type, rr.data.take n, { s with record := leftover rr n }) := by
  have opened : openRecord recvdType (s.record.toList ++ s.records) = some (rr, s.records) := by
    rw [current, toList_some, singleton_append, openRecord, if_pos takes]
  rw [sslReadBytes, opened]
  rfl

theorem body_read {part : List UInt8} (at_ : AtBody msgs arrived part s) (some_ : 0 < n)
    (within : n ≤ part.length) : ∃ rr, s.record = some rr ∧
      sslReadBytes n false s = some (.handshake, part.take n, { s with record := leftover rr n }) ∧
      AtBody msgs arrived (part.drop n) { s with record := leftover rr n } := by
  obtain ⟨rest, left, pending⟩ := at_.left
  cases current : s.record with
  | none =>
    rw [recordLeft, current] at left
    have empty := congrArg length left
    rw [length_append] at empty
    exact absurd (le_trans some_ within) (by
      have : (0 : Nat) = part.length + rest.length := empty
      omega)
  | some rr =>
    have type := at_.type rr current
    have data : rr.data = part ++ rest := by
      rw [recordLeft, current] at left
      exact left
    apply Exists.intro rr
    refine ⟨rfl, ?_, ?_⟩
    · rw [sslReadBytes_record current (.inr type), type, data, take_append_of_le_length within]
    · constructor
      · refine ⟨rest, ?_, pending⟩
        rw [recordLeft, leftover_data, data, drop_append_of_le_length within]
      · intro r is
        exact (leftover_type is).trans type
      · exact at_.records

/-- The whole body is thrown away, and nothing more. -/
theorem body_discarded {rounds : Nat} {part : List UInt8} (at_ : AtBody msgs arrived part s)
    (enough : part.length < rounds) :
    ∃ record, discardRounds rounds part.length s = (true, { s with record := record }) ∧
      AtBody msgs arrived [] { s with record := record } := by
  induction rounds generalizing part s with
  | zero => exact absurd enough (not_lt_zero _)
  | succ rounds ih =>
    rw [discardRounds]
    by_cases empty : part.length = 0
    · rw [if_pos empty]
      rw [length_eq_zero_iff.mp empty] at at_
      exact ⟨s.record, rfl, at_⟩
    · rw [if_neg empty]
      generalize chunk : (if 256 < part.length then 256 else part.length) = n
      have bounds : 0 < n ∧ n ≤ part.length := by
        rw [← chunk]
        split <;> omega
      obtain ⟨rr, _, read, next⟩ := body_read at_ bounds.1 bounds.2
      rw [read]
      dsimp only
      have size : part.length - (part.take n).length = (part.drop n).length := by
        rw [length_take_of_le bounds.2, length_drop]
      rw [size]
      exact ih next (by rw [length_drop]; omega)

theorem atBody_done (at_ : AtBody msgs arrived [] s) : InputOk msgs arrived s := by
  obtain ⟨rest, left, pending⟩ := at_.left
  constructor
  · intro rr current
    apply Or.inr
    rw [recordLeft, current, nil_append] at left
    have data : rr.data = rest := left
    rw [data]
    exact pending
  · exact at_.records

theorem header_next (input : InputOk msgs arrived s)
    (read : sslReadBytes dtls1HmHeaderLength true s = some (.handshake, p, s'))
    (whole : p.length = dtls1HmHeaderLength) :
    ∃ f m, f ∈ arrived ∧ msgs[f.seq]? = some m ∧ f.off + f.len ≤ m.body.length ∧
      dtls1GetMessageHeader p = f.header m ∧ AtBody msgs arrived (f.part m) s' := by
  rw [sslReadBytes] at read
  cases opened : openRecord true (s.record.toList ++ s.records) with
  | none =>
    rw [opened] at read
    contradiction
  | some next =>
    obtain ⟨rr, rest⟩ := next
    rw [opened] at read
    obtain ⟨type, isP, isS⟩ : rr.type = .handshake ∧ rr.data.take dtls1HmHeaderLength = p ∧
        { s with record := leftover rr dtls1HmHeaderLength, records := rest } = s' := by
      have parts := some.inj read
      obtain ⟨one, others⟩ := mk.inj parts
      obtain ⟨two, three⟩ := mk.inj others
      exact ⟨one, two, three⟩
    obtain ⟨member, sub⟩ := openRecord_mem opened
    have all : ∀ r ∈ s.record.toList ++ s.records, TlsRecordOk msgs arrived r := by
      intro r inside
      cases mem_append.mp inside with
      | inl current => exact input.record r (mem_toList.mp current)
      | inr later => exact input.records r later
    have pending : Pending msgs arrived rr.data := by
      cases all rr member with
      | inl bad =>
        rw [type] at bad
        contradiction
      | inr pending => exact pending
    obtain ⟨frags, data, each⟩ := pending
    cases frags with
    | nil =>
      rw [data, flatMap_nil, take_nil] at isP
      rw [← isP] at whole
      exact nomatch whole
    | cons f frags =>
      obtain ⟨among, number, m, found, inside⟩ := each f mem_cons_self
      have encoded : rr.data = encodeHeader (f.header m) ++
          (f.part m ++ frags.flatMap (·.encode msgs)) := by
        rw [data, flatMap_cons, HsFragment.encode, found, append_assoc]
      have size := encodeHeader_length (f.header m)
      have fits := m.fits
      rw [encoded, take_left' size] at isP
      refine ⟨f, m, among, found, inside, ?_, ?_⟩
      · rw [← isP]
        exact header_read fits number (by
          change f.off < 2 ^ 24
          omega) (by
          change f.len < 2 ^ 24
          omega)
      · rw [← isS]
        constructor
        · refine ⟨frags.flatMap (·.encode msgs), ?_, frags, rfl,
            fun g later => each g (mem_cons_of_mem f later)⟩
          rw [recordLeft, leftover_data, encoded, drop_left' size]
        · intro r is
          exact (leftover_type is).trans type
        · exact fun r later => all r (sub later)

theorem read_input (input : InputOk msgs arrived s)
    (read : sslReadBytes n true s = some (.changeCipherSpec, p, s')) : InputOk msgs arrived s' := by
  rw [sslReadBytes] at read
  cases opened : openRecord true (s.record.toList ++ s.records) with
  | none =>
    rw [opened] at read
    contradiction
  | some next =>
    obtain ⟨rr, rest⟩ := next
    rw [opened] at read
    obtain ⟨type, others⟩ := mk.inj (some.inj read)
    obtain ⟨_, isS⟩ := mk.inj others
    obtain ⟨_, sub⟩ := openRecord_mem opened
    have all : ∀ r ∈ s.record.toList ++ s.records, TlsRecordOk msgs arrived r := by
      intro r inside
      cases mem_append.mp inside with
      | inl current => exact input.record r (mem_toList.mp current)
      | inr later => exact input.records r later
    rw [← isS]
    constructor
    · intro r is
      have same : r.type = rr.type := leftover_type is
      exact .inl (same.trans type)
    · exact fun r later => all r (sub later)

end Reading

end Ossl
