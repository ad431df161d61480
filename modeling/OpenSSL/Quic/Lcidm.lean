import OpenSSL.Lhash
import OpenSSL.Quic.Rcidm

/- The local connection ID manager of ssl/quic/quic_lcidm.c. LCID objects and connection records are
   named by numbers, each used once; objs and connObjs are the heap, none once freed. A table of
   CIDs is keyed by the bytes of the CID, at most 20. Allocations succeed, and sequence numbers are
   unbounded. -/
namespace Ossl

inductive LcidType where
  | odcid
  | initial
  | ncid
  deriving DecidableEq

structure QuicLcid where
  cid : QuicConnId
  seqNum : Nat
  conn : Nat
  type : LcidType
  deriving DecidableEq

structure QuicLcidmConn where
  numActiveLcid : Nat
  lcids : Lhash (List UInt8) Nat
  opaquePtr : Nat
  odcidLcidObj : Option Nat
  nextSeqNum : Nat
  doneOdcid : Bool

structure QuicLcidm where
  objs : Nat → Option QuicLcid
  connObjs : Nat → Option QuicLcidmConn
  fresh : Nat
  lcids : Lhash (List UInt8) Nat
  conns : Lhash Nat Nat
  lcidLen : Nat

def quicMinOdcidLen : Nat := 8
def lcidmOdcidSeqNum : Nat := maxU64
def maxRetries : Nat := 8

def zeroLcid : QuicLcid where
  cid := connIdOf []
  seqNum := 0
  conn := 0
  type := .odcid

def zeroLcidmConn : QuicLcidmConn where
  numActiveLcid := 0
  lcids := lhNew
  opaquePtr := 0
  odcidLcidObj := none
  nextSeqNum := 0
  doneOdcid := false

def derefLcid (m : QuicLcidm) (lcidObj : Nat) : QuicLcid := (m.objs lcidObj).getD zeroLcid

def derefConn (m : QuicLcidm) (conn : Nat) : QuicLcidmConn := (m.connObjs conn).getD zeroLcidmConn

def setLcid (lcidObj : Nat) (obj : QuicLcid) (m : QuicLcidm) : QuicLcidm :=
  { m with objs := Function.update m.objs lcidObj (some obj) }

def setConn (conn : Nat) (obj : QuicLcidmConn) (m : QuicLcidm) : QuicLcidm :=
  { m with connObjs := Function.update m.connObjs conn (some obj) }

def quicLcidmNew (lcidLen : Nat) : Option QuicLcidm :=
  if quicMaxConnIdLen < lcidLen then none
  else some
    { objs := fun _ => none, connObjs := fun _ => none, fresh := 0, lcids := lhNew,
      conns := lhNew, lcidLen }

def lcidmGet0Lcid (lcid : QuicConnId) (m : QuicLcidm) : Option Nat :=
  if quicMaxConnIdLen < lcid.idLen then none else lhRetrieve lcid.bytes m.lcids

def lcidmGet0Conn (opaquePtr : Nat) (m : QuicLcidm) : Option Nat := lhRetrieve opaquePtr m.conns

def lcidmUpsertConn (opaquePtr : Nat) (m : QuicLcidm) : Nat × QuicLcidm :=
  match lcidmGet0Conn opaquePtr m with
  | some conn => (conn, m)
  | none =>
    let conn := m.fresh
    let allocated := setConn conn { zeroLcidmConn with opaquePtr } { m with fresh := conn + 1 }
    (conn, { allocated with conns := lhInsert opaquePtr conn allocated.conns })

def lcidmDeleteConnLcid (lcidObj : Nat) (m : QuicLcidm) : QuicLcidm :=
  let obj := derefLcid m lcidObj
  let conn := derefConn m obj.conn
  let unlinked := setConn obj.conn
    { conn with
      lcids := lhDelete obj.cid.bytes conn.lcids, numActiveLcid := conn.numActiveLcid - 1 }
    { m with lcids := lhDelete obj.cid.bytes m.lcids }
  { unlinked with objs := Function.update unlinked.objs lcidObj none }

def lcidmDeleteConn (conn : Nat) (m : QuicLcidm) : QuicLcidm :=
  let emptied :=
    (lhItems (derefConn m conn).lcids).foldl (fun m lcidObj => lcidmDeleteConnLcid lcidObj m) m
  { emptied with
    conns := lhDelete (derefConn emptied conn).opaquePtr emptied.conns
    connObjs := Function.update emptied.connObjs conn none }

def lcidmConnNewLcid (conn : Nat) (lcid : QuicConnId) (m : QuicLcidm) : Option Nat × QuicLcidm :=
  if quicMaxConnIdLen < lcid.idLen then (none, m)
  else
    let lcidObj := m.fresh
    let allocated := setLcid lcidObj { zeroLcid with cid := lcid, conn } { m with fresh := lcidObj + 1 }
    let obj := derefConn allocated conn
    let linked := setConn conn
      { obj with
        lcids := lhInsert lcid.bytes lcidObj obj.lcids, numActiveLcid := obj.numActiveLcid + 1 }
      allocated
    (some lcidObj, { linked with lcids := lhInsert lcid.bytes lcidObj linked.lcids })

def quicGenRandConnId (len : Nat) (rand : Option (Nat → UInt8)) : Option QuicConnId :=
  if quicMaxConnIdLen < len then none
  else
    match rand with
    | none => none
    | some bytes => some (connIdOf ((List.range len).map bytes))

def lcidmCandidate (rand : Nat → Option (Nat → UInt8)) (m : QuicLcidm) :
    Nat → Nat → Option QuicConnId
  | 0, _ => none
  | retries + 1, i =>
    match quicGenRandConnId m.lcidLen (rand i) with
    | none => none
    | some cid =>
      if lhRetrieve cid.bytes m.lcids ≠ none then lcidmCandidate rand m retries (i + 1)
      else some cid

def lcidmNumber (conn lcidObj : Nat) (type : LcidType) (m : QuicLcidm) : QuicLcidm :=
  let obj := derefConn m conn
  setConn conn { obj with nextSeqNum := obj.nextSeqNum + 1 }
    (setLcid lcidObj { derefLcid m lcidObj with seqNum := obj.nextSeqNum, type } m)

def lcidmGenerate (opaquePtr : Nat) (type : LcidType) (rand : Nat → Option (Nat → UInt8))
    (m : QuicLcidm) : Option (QuicConnId × Nat) × QuicLcidm :=
  let upserted := lcidmUpsertConn opaquePtr m
  let conn := upserted.1
  let m := upserted.2
  let seqNum := (derefConn m conn).nextSeqNum
  if type = .initial ∧ 0 < seqNum ∨ vlintMax < seqNum then (none, m)
  else
    match lcidmCandidate rand m maxRetries 0 with
    | none => (none, m)
    | some lcid =>
      match lcidmConnNewLcid conn lcid m with
      | (none, m) => (none, m)
      | (some lcidObj, m) => (some (lcid, seqNum), lcidmNumber conn lcidObj type m)

def quicLcidmEnrolOdcid (opaquePtr : Nat) (initialOdcid : Option QuicConnId) (m : QuicLcidm) :
    Bool × QuicLcidm :=
  match initialOdcid with
  | none => (false, m)
  | some initialOdcid =>
    if initialOdcid.idLen < quicMinOdcidLen ∨ quicMaxConnIdLen < initialOdcid.idLen then (false, m)
    else
      let upserted := lcidmUpsertConn opaquePtr m
      let conn := upserted.1
      let m := upserted.2
      if (derefConn m conn).doneOdcid then (false, m)
      else if lhRetrieve initialOdcid.bytes m.lcids ≠ none then (false, m)
      else
        match lcidmConnNewLcid conn initialOdcid m with
        | (none, m) => (false, m)
        | (some lcidObj, m) =>
          let m := setLcid lcidObj
            { derefLcid m lcidObj with seqNum := lcidmOdcidSeqNum, type := .odcid } m
          (true, setConn conn
            { derefConn m conn with odcidLcidObj := some lcidObj, doneOdcid := true } m)

def quicLcidmGenerateInitial (opaquePtr : Nat) (rand : Nat → Option (Nat → UInt8))
    (m : QuicLcidm) : Option QuicConnId × QuicLcidm :=
  let r := lcidmGenerate opaquePtr .initial rand m
  (r.1.map Prod.fst, r.2)

def quicLcidmLookup (lcid : Option QuicConnId) (m : QuicLcidm) : Option (Nat × Nat) :=
  match lcid with
  | none => none
  | some lcid =>
    match lcidmGet0Lcid lcid m with
    | none => none
    | some lcidObj =>
      some ((derefConn m (derefLcid m lcidObj).conn).opaquePtr, (derefLcid m lcidObj).seqNum)

def quicLcidmBindChannel (opaquePtr : Nat) (lcid : QuicConnId) (m : QuicLcidm) :
    Bool × QuicLcidm :=
  if quicLcidmLookup (some lcid) m ≠ none then (false, m)
  else
    let upserted := lcidmUpsertConn opaquePtr m
    let conn := upserted.1
    match lcidmConnNewLcid conn lcid upserted.2 with
    | (none, m) => (false, lcidmDeleteConn conn m)
    | (some lcidObj, m) => (true, lcidmNumber conn lcidObj .initial m)

def quicLcidmGenerate (opaquePtr : Nat) (rand : Nat → Option (Nat → UInt8))
    (ncidFrame : FrameNewConnId) (m : QuicLcidm) : Option FrameNewConnId × QuicLcidm :=
  let r := lcidmGenerate opaquePtr .ncid rand m
  (r.1.map (fun made =>
    { ncidFrame with seqNum := made.2, retirePriorTo := 0, connId := made.1 }), r.2)

def quicLcidmRetireOdcid (opaquePtr : Nat) (m : QuicLcidm) : Bool × QuicLcidm :=
  let upserted := lcidmUpsertConn opaquePtr m
  let conn := upserted.1
  let m := upserted.2
  match (derefConn m conn).odcidLcidObj with
  | none => (false, m)
  | some lcidObj =>
    let m := lcidmDeleteConnLcid lcidObj m
    (true, setConn conn { derefConn m conn with odcidLcidObj := none } m)

def retireForConn (m : QuicLcidm) (retirePriorTo : Nat) (args : Option Nat × Nat) (lcidObj : Nat) :
    Option Nat × Nat :=
  let obj := derefLcid m lcidObj
  if obj.type = .odcid ∨ retirePriorTo ≤ obj.seqNum then args
  else if obj.seqNum < args.2 then (some lcidObj, obj.seqNum)
  else args

structure RetireResult where
  ret : Bool
  /- Set when did_retire is. -/
  retired : Option (QuicConnId × Nat)
  lcidm : QuicLcidm

def quicLcidmRetire (opaquePtr retirePriorTo : Nat) (containingPktDcid : Option QuicConnId)
    (m : QuicLcidm) : RetireResult :=
  match lcidmGet0Conn opaquePtr m with
  | none => ⟨true, none, m⟩
  | some conn =>
    let args :=
      (lhItems (derefConn m conn).lcids).foldl (retireForConn m retirePriorTo) (none, maxU64)
    match args.1 with
    | none => ⟨true, none, m⟩
    | some lcidObj =>
      let obj := derefLcid m lcidObj
      if containingPktDcid.any (quicConnIdEq obj.cid) then ⟨false, none, m⟩
      else ⟨true, some (obj.cid, obj.seqNum), lcidmDeleteConnLcid lcidObj m⟩

def quicLcidmCull (opaquePtr : Nat) (m : QuicLcidm) : Bool × QuicLcidm :=
  match lcidmGet0Conn opaquePtr m with
  | none => (false, m)
  | some conn => (true, lcidmDeleteConn conn m)

end Ossl
