import OpenSSL.Lib.BigEndian
import OpenSSL.Lib.ByteMask

/- Receiving the messages of a DTLS handshake: ssl/statem/statem_dtls.c, over the records
   that dtls1_read_bytes (ssl/record/rec_layer_d1.c) reads from and the queue of
   ssl/pqueue.c. -/
namespace Ossl
open BigEndian ByteMask

inductive HandState where
  | swHelloVerifyRequest
  | ok
  | other
  deriving DecidableEq

inductive RecordType where
  | handshake
  | changeCipherSpec
  deriving DecidableEq

structure TlsRecord where
  type : RecordType
  data : List UInt8

structure HmHeader where
  type : UInt8
  msgLen : Nat
  seq : Nat
  fragOff : Nat
  fragLen : Nat
  deriving DecidableEq

structure HmFragment where
  msgHeader : HmHeader
  fragment : List UInt8
  reassembly : Option (List UInt8)

/- The priority is the sequence number, as eight octets. -/
structure Pitem where
  priority : Nat
  data : HmFragment

/- record is the record that is being read, if it is not read to its end; heap says what new
   memory holds. -/
structure DtlsConn where
  server : Bool
  maxCertList : Nat
  heap : Nat → UInt8
  handshakeReadSeq : Nat
  nextHandshakeWriteSeq : Nat
  bufferedMessages : List Pitem
  rMsgHdr : HmHeader
  initBuf : List UInt8
  initNum : Nat
  messageType : Nat
  messageSize : Nat
  record : Option TlsRecord
  records : List TlsRecord

def dtls1HmHeaderLength : Nat := 12
def ssl3MtHelloRequest : UInt8 := 0
def ssl3MtClientHello : UInt8 := 1
def ssl3MtFinished : UInt8 := 20
def ssl3MtCcs : UInt8 := 1
def ssl3MtChangeCipherSpec : Nat := 0x0101
def dtls1HmBadFragment : Int := -2
def dtls1HmFragmentRetry : Int := -3

def ssl3RtMaxEncryptedLength : Nat := 256 + 64 + 16384

def bitmaskStartValues : List UInt8 := [0xff, 0xfe, 0xfc, 0xf8, 0xf0, 0xe0, 0xc0, 0x80]
def bitmaskEndValues : List UInt8 := [0xff, 0x01, 0x03, 0x07, 0x0f, 0x1f, 0x3f, 0x7f]

def rsmblyBitmaskSize (msgLen : Nat) : Nat := (msgLen + 7) / 8

def markRounds : Nat → Nat → List UInt8 → List UInt8
  | 0, _, bitmask => bitmask
  | rounds + 1, ii, bitmask =>
    markRounds rounds (ii + 1) (orAt bitmask (ii >>> 3) (1 <<< UInt8.ofNat (ii &&& 7)))

def fillRounds : Nat → Nat → List UInt8 → List UInt8
  | 0, _, bitmask => bitmask
  | rounds + 1, ii, bitmask => fillRounds rounds (ii + 1) (bitmask.set ii 0xff)

def rsmblyBitmaskMark (bitmask : List UInt8) (start stop : Nat) : List UInt8 :=
  if stop - start ≤ 8 then markRounds (stop - start) start bitmask
  else
    let bitmask := orAt bitmask (start >>> 3) (bitmaskStartValues.getD (start &&& 7) 0)
    let first := (start >>> 3) + 1
    let bitmask := fillRounds ((stop - 1) >>> 3 - first) first bitmask
    orAt bitmask ((stop - 1) >>> 3) (bitmaskEndValues.getD (stop &&& 7) 0)

def octetsFull (bitmask : List UInt8) : Nat → Bool
  | 0 => true
  | ii + 1 => if bitmask.getD ii 0 ≠ 0xff then false else octetsFull bitmask ii

def rsmblyBitmaskIsComplete (bitmask : List UInt8) (msgLen : Nat) : Bool :=
  if bitmask.getD ((msgLen - 1) >>> 3) 0 ≠ bitmaskEndValues.getD (msgLen &&& 7) 0 then false
  else octetsFull bitmask ((msgLen - 1) >>> 3)

def writeAt (buf : List UInt8) (off : Nat) (bytes : List UInt8) : List UInt8 :=
  buf.take off ++ bytes ++ buf.drop (off + bytes.length)

def bufMemGrowClean (buf : List UInt8) (len : Nat) : List UInt8 :=
  buf.take len ++ List.replicate (len - buf.length) 0

def pqueueInsert (item : Pitem) : List Pitem → Option (List Pitem)
  | [] => some [item]
  | next :: rest =>
    if item.priority < next.priority then some (item :: next :: rest)
    else if next.priority = item.priority then none
    else (pqueueInsert item rest).map (next :: ·)

def pqueueFind (priority : Nat) (queue : List Pitem) : Option Pitem :=
  queue.find? fun item => decide (item.priority = priority)

def pqueueUpdate (priority : Nat) (frag : HmFragment) (queue : List Pitem) : List Pitem :=
  queue.map fun item => if item.priority = priority then ⟨priority, frag⟩ else item

/- The next record to read from: without a place for its type, a change cipher spec is
   dropped. -/
def openRecord (recvdType : Bool) : List TlsRecord → Option (TlsRecord × List TlsRecord)
  | [] => none
  | rr :: rest =>
    if recvdType = true ∨ rr.type = .handshake then some (rr, rest) else openRecord recvdType rest

def sslReadBytes (len : Nat) (recvdType : Bool) (s : DtlsConn) :
    Option (RecordType × List UInt8 × DtlsConn) :=
  match openRecord recvdType (s.record.toList ++ s.records) with
  | none => none
  | some (rr, rest) =>
    let left := if len < rr.data.length then some ⟨rr.type, rr.data.drop len⟩ else none
    some (rr.type, rr.data.take len, { s with record := left, records := rest })

def recordLength (s : DtlsConn) : Nat := (s.record.map fun rr => rr.data.length).getD 0

/- The body is read into a small buffer again and again. Each round takes an octet or ends
   an empty record. -/
def discardRounds : Nat → Nat → DtlsConn → Bool × DtlsConn
  | 0, _, s => (false, s)
  | rounds + 1, fragLen, s =>
    if fragLen = 0 then (true, s)
    else
      match sslReadBytes (if 256 < fragLen then 256 else fragLen) false s with
      | none => (false, s)
      | some (_, bytes, s) => discardRounds rounds (fragLen - bytes.length) s

def discardBody (fragLen : Nat) (s : DtlsConn) : Bool × DtlsConn :=
  discardRounds (fragLen + s.records.length + 2) fragLen s

def dtls1MaxHandshakeMessageLen (s : DtlsConn) : Nat :=
  let maxLen := dtls1HmHeaderLength + ssl3RtMaxEncryptedLength
  if maxLen < s.maxCertList then s.maxCertList else maxLen

def dtls1HmFragmentNew (s : DtlsConn) (hdr : HmHeader) (fragLen : Nat) (reassembly : Bool) :
    HmFragment :=
  ⟨hdr, (List.range fragLen).map s.heap,
    if reassembly then some (List.replicate (rsmblyBitmaskSize fragLen) 0) else none⟩

def dtls1PreprocessFragment (hdr : HmHeader) (s : DtlsConn) : Option DtlsConn :=
  if hdr.msgLen < hdr.fragOff + hdr.fragLen ∨ dtls1MaxHandshakeMessageLen s < hdr.msgLen then none
  else if s.rMsgHdr.fragOff = 0 then
    some { s with
      initBuf := bufMemGrowClean s.initBuf (hdr.msgLen + dtls1HmHeaderLength)
      messageSize := hdr.msgLen
      messageType := hdr.type.toNat
      rMsgHdr := { s.rMsgHdr with msgLen := hdr.msgLen, type := hdr.type, seq := hdr.seq } }
  else if hdr.msgLen ≠ s.rMsgHdr.msgLen then none
  else some s

def firstHelloAgain (hand : HandState) (seq : Nat) (s : DtlsConn) : Bool :=
  decide (s.server = true ∧ seq = 0 ∧ s.handshakeReadSeq = 1 ∧ hand = .swHelloVerifyRequest)

def nextBuffered (hand : HandState) (s : DtlsConn) : List Pitem → List Pitem × Bool
  | [] => ([], false)
  | item :: rest =>
    if item.data.msgHeader.seq < s.handshakeReadSeq then
      if firstHelloAgain hand item.data.msgHeader.seq s = false then nextBuffered hand s rest
      else
        match rest with
        | [] => ([item], true)
        | next :: more =>
          if next.data.msgHeader.seq = s.handshakeReadSeq then (next :: more, false)
          else (item :: next :: more, true)
    else (item :: rest, false)

inductive Retrieved where
  | absent
  | fatal
  | message (len : Nat)

def resetSequences (chretran : Bool) (s : DtlsConn) : DtlsConn :=
  if chretran then { s with handshakeReadSeq := 0, nextHandshakeWriteSeq := 0 } else s

def dtls1RetrieveBufferedFragment (hand : HandState) (s : DtlsConn) : Retrieved × DtlsConn :=
  let (queue, chretran) := nextBuffered hand s s.bufferedMessages
  let s := { s with bufferedMessages := queue }
  match queue with
  | [] => (.absent, s)
  | item :: rest =>
    let frag := item.data
    if frag.reassembly.isSome then (.absent, s)
    else if s.handshakeReadSeq = frag.msgHeader.seq ∨ chretran = true then
      let s := { s with bufferedMessages := rest }
      match dtls1PreprocessFragment frag.msgHeader s with
      | none => (.fatal, { s with initNum := 0 })
      | some s =>
        let body := frag.fragment.take frag.msgHeader.fragLen
        let s := { s with
          initBuf := writeAt s.initBuf (dtls1HmHeaderLength + frag.msgHeader.fragOff) body }
        (.message frag.msgHeader.fragLen, resetSequences chretran s)
    else (.absent, s)

def addPart (hdr : HmHeader) (frag : HmFragment) (bitmask bytes : List UInt8) : HmFragment :=
  let bitmask := rsmblyBitmaskMark bitmask hdr.fragOff (hdr.fragOff + hdr.fragLen)
  { frag with
    fragment := writeAt frag.fragment hdr.fragOff bytes
    reassembly := if rsmblyBitmaskIsComplete bitmask hdr.msgLen then none else some bitmask }

def dtls1ReassembleFragment (hdr : HmHeader) (s : DtlsConn) : Int × DtlsConn :=
  if hdr.msgLen < hdr.fragOff + hdr.fragLen ∨ dtls1MaxHandshakeMessageLen s < hdr.msgLen then (-1, s)
  else if hdr.fragLen = 0 then (dtls1HmFragmentRetry, s)
  else
    match pqueueFind hdr.seq s.bufferedMessages with
    | none =>
      match sslReadBytes hdr.fragLen false s with
      | none => (-1, s)
      | some (_, bytes, s) =>
        if bytes.length ≠ hdr.fragLen then (-1, s)
        else
          let whole := { hdr with fragLen := hdr.msgLen, fragOff := 0 }
          let frag := dtls1HmFragmentNew s whole hdr.msgLen true
          let frag := addPart hdr frag (frag.reassembly.getD []) bytes
          match pqueueInsert ⟨hdr.seq, frag⟩ s.bufferedMessages with
          | none => (-1, s)
          | some queue => (dtls1HmFragmentRetry, { s with bufferedMessages := queue })
    | some item =>
      if item.data.msgHeader.msgLen ≠ hdr.msgLen then (-1, s)
      else
        match item.data.reassembly with
        | none =>
          -- the message is complete: what came is a retransmission
          match discardBody hdr.fragLen s with
          | (false, s) => (-1, s)
          | (true, s) => (dtls1HmFragmentRetry, s)
        | some bitmask =>
          match sslReadBytes hdr.fragLen false s with
          | none => (-1, s)
          | some (_, bytes, s) =>
            if bytes.length ≠ hdr.fragLen then
              let frag := { item.data with
                fragment := writeAt item.data.fragment hdr.fragOff bytes }
              (-1, { s with bufferedMessages := pqueueUpdate hdr.seq frag s.bufferedMessages })
            else
              let frag := addPart hdr item.data bitmask bytes
              (dtls1HmFragmentRetry,
                { s with bufferedMessages := pqueueUpdate hdr.seq frag s.bufferedMessages })

def outOfSeqDropped (hdr : HmHeader) (s : DtlsConn) : Bool :=
  decide (hdr.seq ≤ s.handshakeReadSeq ∨ s.handshakeReadSeq + 10 < hdr.seq ∨
    (hdr.fragLen = hdr.msgLen ∧ (pqueueFind hdr.seq s.bufferedMessages).isSome = true) ∨
    (s.handshakeReadSeq = 0 ∧ hdr.type = ssl3MtFinished))

def dtls1ProcessOutOfSeqMessage (hdr : HmHeader) (s : DtlsConn) : Int × DtlsConn :=
  if hdr.msgLen < hdr.fragOff + hdr.fragLen then (0, s)
  else if outOfSeqDropped hdr s then
    match discardBody hdr.fragLen s with
    | (false, s) => (0, s)
    | (true, s) => (dtls1HmFragmentRetry, s)
  else if hdr.fragLen ≠ hdr.msgLen then dtls1ReassembleFragment hdr s
  else if dtls1MaxHandshakeMessageLen s < hdr.fragLen then (0, s)
  else
    let frag := dtls1HmFragmentNew s hdr hdr.fragLen false
    if hdr.fragLen = 0 then
      match pqueueInsert ⟨hdr.seq, frag⟩ s.bufferedMessages with
      | none => (0, s)
      | some queue => (dtls1HmFragmentRetry, { s with bufferedMessages := queue })
    else
      match sslReadBytes hdr.fragLen false s with
      | none => (0, s)
      | some (_, bytes, s) =>
        if bytes.length ≠ hdr.fragLen then (0, s)
        else
          match pqueueInsert ⟨hdr.seq, { frag with fragment := bytes }⟩ s.bufferedMessages with
          | none => (0, s)
          | some queue => (dtls1HmFragmentRetry, { s with bufferedMessages := queue })

def dtls1GetMessageHeader (data : List UInt8) : HmHeader where
  type := data.getD 0 0
  msgLen := netValue ((data.drop 1).take 3)
  seq := netValue ((data.drop 4).take 2)
  fragOff := netValue ((data.drop 6).take 3)
  fragLen := netValue ((data.drop 9).take 3)

/- redo goes back to the label; an error is no alert yet. -/
inductive Reassembled where
  | redo
  | error (errtype : Int)
  | fatal
  | changeCipherSpec
  | message (len : Nat)

def readWholeMessage (hdr : HmHeader) (chretran : Bool) (s : DtlsConn) : Reassembled × DtlsConn :=
  match dtls1PreprocessFragment hdr s with
  | none => (.fatal, { s with initNum := 0 })
  | some s =>
    if hdr.fragLen = 0 then (.message 0, { resetSequences chretran s with initNum := 0 })
    else
      match sslReadBytes hdr.fragLen false s with
      | none => (.error 0, s)
      | some (_, bytes, s) =>
        let s := { s with initBuf := writeAt s.initBuf (dtls1HmHeaderLength + hdr.fragOff) bytes }
        if bytes.length ≠ hdr.fragLen then (.fatal, { s with initNum := 0 })
        else (.message hdr.fragLen, { resetSequences chretran s with initNum := hdr.fragLen })

def ignoredHelloRequest (hand : HandState) (hdr : HmHeader) (s : DtlsConn) : Bool :=
  decide (s.server = false ∧ s.rMsgHdr.fragOff = 0 ∧ hand ≠ .ok ∧ hdr.type = ssl3MtHelloRequest)

def readFragment (hand : HandState) (hdr : HmHeader) (s : DtlsConn) : Reassembled × DtlsConn :=
  if recordLength s < hdr.fragLen then (.fatal, { s with initNum := 0 })
  else
    let chretran := firstHelloAgain hand hdr.seq s && decide (hdr.type = ssl3MtClientHello)
    if hdr.seq ≠ s.handshakeReadSeq ∧ chretran = false then
      let (errtype, s) := dtls1ProcessOutOfSeqMessage hdr s
      (.error errtype, s)
    else if hdr.fragLen ≠ 0 ∧ hdr.fragLen < hdr.msgLen then
      let (errtype, s) := dtls1ReassembleFragment hdr s
      (.error errtype, s)
    else if ignoredHelloRequest hand hdr s then
      if hdr.msgLen = 0 then (.redo, { s with initNum := 0 }) else (.fatal, { s with initNum := 0 })
    else readWholeMessage hdr (decide (hdr.seq ≠ s.handshakeReadSeq)) s

def dtlsGetReassembledMessage (hand : HandState) (s : DtlsConn) : Reassembled × DtlsConn :=
  match dtls1RetrieveBufferedFragment hand s with
  | (.fatal, s) => (.fatal, s)
  | (.message fragLen, s) => (.message fragLen, { s with initNum := fragLen })
  | (.absent, s) =>
    match sslReadBytes dtls1HmHeaderLength true s with
    | none => (.error 0, s)
    | some (recvdType, p, s) =>
      let s := { s with initBuf := writeAt s.initBuf 0 p }
      match recvdType with
      | .changeCipherSpec =>
        if s.initBuf.getD 0 0 ≠ ssl3MtCcs then (.fatal, { s with initNum := 0 })
        else
          (.changeCipherSpec, { s with
            initNum := p.length - 1
            messageType := ssl3MtChangeCipherSpec
            messageSize := p.length - 1 })
      | .handshake =>
        if p.length ≠ dtls1HmHeaderLength then (.fatal, { s with initNum := 0 })
        else readFragment hand (dtls1GetMessageHeader p) s

structure Delivery where
  seq : Nat
  type : Nat
  body : List UInt8
  deriving DecidableEq

/- again goes back to a label, here or in the function that is called; stop returns 0. -/
inductive GotMessage where
  | again
  | stop
  | fatal
  | changeCipherSpec
  | message (d : Delivery)

def blankHeader : HmHeader := ⟨0, 0, 0, 0, 0⟩

def messageHeader (hdr : HmHeader) : List UInt8 :=
  hdr.type :: (netBytes 3 hdr.msgLen ++ netBytes 2 hdr.seq ++ netBytes 3 0 ++ netBytes 3 hdr.msgLen)

def dtlsGetMessage (hand : HandState) (s : DtlsConn) : GotMessage × DtlsConn :=
  match dtlsGetReassembledMessage hand s with
  | (.redo, s) => (.again, s)
  | (.error errtype, s) =>
    (if errtype = dtls1HmBadFragment ∨ errtype = dtls1HmFragmentRetry then .again else .stop, s)
  | (.fatal, s) => (.fatal, s)
  | (.changeCipherSpec, s) => (.changeCipherSpec, s)
  | (.message _, s) =>
    let s' := { s with
      initBuf := writeAt s.initBuf 0 (messageHeader s.rMsgHdr)
      rMsgHdr := blankHeader
      handshakeReadSeq := (s.handshakeReadSeq + 1) % 2 ^ 16 }
    (.message ⟨s.rMsgHdr.seq, s.messageType,
      (s'.initBuf.drop dtls1HmHeaderLength).take s'.initNum⟩, s')

end Ossl
