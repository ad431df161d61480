import OpenSSL.PqueueLaws
import OpenSSL.Quic.WirePkt

/- The remote connection ID manager of ssl/quic/quic_rcidm.c. RCID objects are named by numbers,
   each used once; objs is the heap, none once freed. mem is whether the allocator delivers. -/
namespace Ossl
open BinHeap

inductive RcidState where
  | pending
  | cur
  | retiring
  deriving DecidableEq

inductive RcidType where
  | initial
  | prefAddr
  | ncid
  deriving DecidableEq

structure Rcid where
  cid : QuicConnId
  seqNum : Nat
  pqIdx : Nat
  state : RcidState
  type : RcidType
  deriving DecidableEq

structure QuicRcidm where
  objs : Nat → Option Rcid
  fresh : Nat
  preferredRcid : QuicConnId
  initialOdcid : QuicConnId
  retryOdcid : QuicConnId
  packetsSent : Nat
  numChanges : Nat
  retirePriorTo : Nat
  rcids : OsslPqueue Nat
  curRcid : Option Nat
  retiringList : List Nat
  numRetiring : Nat
  preferredRcidChanged : Bool
  havePreferredRcid : Bool
  handshakeComplete : Bool
  addedInitialOdcid : Bool
  addedRetryOdcid : Bool
  addedInitialRcid : Bool
  rollRequested : Bool

def packetsPerRcid : Nat := 10000
def initialSeqNum : Nat := 0
def maxNumberedRcids : Nat := maxU64 / 2

def zeroRcid : Rcid where
  cid := connIdOf []
  seqNum := 0
  pqIdx := 0
  state := .pending
  type := .initial

def derefRcid (objs : Nat → Option Rcid) (rcid : Nat) : Rcid := (objs rcid).getD zeroRcid

def rcidCmp (a b : Rcid) : Int :=
  if a.seqNum < b.seqNum then -1 else if b.seqNum < a.seqNum then 1 else 0

def rcidCompare (objs : Nat → Option Rcid) (a b : Nat) : Int :=
  rcidCmp (derefRcid objs a) (derefRcid objs b)

def quicConnIdEq (a b : QuicConnId) : Bool :=
  if a.idLen ≠ b.idLen ∨ quicMaxConnIdLen < a.idLen then false else a.bytes = b.bytes

def rcidmSetPreferredRcid (rcid : Option QuicConnId) (rcidm : QuicRcidm) : QuicRcidm :=
  match rcid with
  | none => { rcidm with preferredRcidChanged := true, havePreferredRcid := false }
  | some rcid =>
    if quicConnIdEq rcidm.preferredRcid rcid then rcidm
    else
      { rcidm with
        preferredRcid := rcid, preferredRcidChanged := true, havePreferredRcid := true }

def rcidmWriteRcid (rcid : Nat) (obj : Rcid) (rcidm : QuicRcidm) : QuicRcidm :=
  { rcidm with objs := Function.update rcidm.objs rcid (some obj) }

def rcidmMoveRcid (rcid : Nat) (oldState state : RcidState) (rcidm : QuicRcidm) : QuicRcidm :=
  let obj := derefRcid rcidm.objs rcid
  let rcidm :=
    if oldState = .pending then
      rcidmWriteRcid rcid { obj with pqIdx := maxU64, state }
        { rcidm with rcids := (pqueueRemove (rcidCompare rcidm.objs) obj.pqIdx rcidm.rcids).2 }
    else rcidmWriteRcid rcid { obj with state } rcidm
  match state with
  | .pending => rcidm
  | .cur => { rcidm with curRcid := some rcid }
  | .retiring =>
    { rcidm with
      curRcid := if oldState = .cur then none else rcidm.curRcid
      retiringList := rcidm.retiringList ++ [rcid]
      numRetiring := rcidm.numRetiring + 1 }

def rcidmRetireRcid (rcid : Nat) (rcidm : QuicRcidm) : QuicRcidm :=
  let oldState := (derefRcid rcidm.objs rcid).state
  if oldState = .retiring then rcidm else rcidmMoveRcid rcid oldState .retiring rcidm

def rcidmTransitionRcid (rcid : Nat) (state : RcidState) (rcidm : QuicRcidm) : QuicRcidm :=
  let oldState := (derefRcid rcidm.objs rcid).state
  if state = oldState then rcidm
  else
    match rcidm.curRcid with
    | none => rcidmMoveRcid rcid oldState state rcidm
    | some current =>
      rcidmMoveRcid rcid oldState state
        (if state = .cur then rcidmRetireRcid current rcidm else rcidm)

def rcidmCreateRcid (mem : Bool) (seqNum : Nat) (cid : QuicConnId) (type : RcidType)
    (rcidm : QuicRcidm) : Option (Nat × QuicRcidm) :=
  if cid.idLen < 1 ∨ quicMaxConnIdLen < cid.idLen ∨ vlintMax < seqNum ∨
      maxNumberedRcids < pqueueNum rcidm.rcids + rcidm.numRetiring then none
  else if ¬ mem then none
  else
    let rcid := rcidm.fresh
    let obj : Rcid := { cid, seqNum, pqIdx := 0, state := .pending, type }
    let allocated := rcidmWriteRcid rcid obj { rcidm with fresh := rcid + 1 }
    if rcidm.retirePriorTo ≤ seqNum then
      match pqueuePush (rcidCompare allocated.objs) mem rcid rcidm.rcids with
      | none => none
      | some (rcids, pqIdx) =>
        some (rcid, rcidmWriteRcid rcid { obj with pqIdx } { allocated with rcids })
    else
      -- retired immediately upon creation
      some (rcid, rcidmWriteRcid rcid { obj with state := .retiring, pqIdx := maxU64 }
        { allocated with
          retiringList := rcidm.retiringList ++ [rcid], numRetiring := rcidm.numRetiring + 1 })

def rcidmFreeRcid (rcid : Nat) (rcidm : QuicRcidm) : QuicRcidm :=
  let rcidm :=
    match (derefRcid rcidm.objs rcid).state with
    | .pending =>
      { rcidm with
        rcids := (pqueueRemove (rcidCompare rcidm.objs) (derefRcid rcidm.objs rcid).pqIdx
          rcidm.rcids).2 }
    | .cur => { rcidm with curRcid := none }
    | .retiring =>
      { rcidm with
        retiringList := rcidm.retiringList.erase rcid, numRetiring := rcidm.numRetiring - 1 }
  { rcidm with objs := Function.update rcidm.objs rcid none }

def rcidmRetireHeads (retirePriorTo : Nat) : Nat → QuicRcidm → QuicRcidm
  | 0, rcidm => rcidm
  | fuel + 1, rcidm =>
    match pqueuePeek rcidm.rcids with
    | none => rcidm
    | some rcid =>
      if (derefRcid rcidm.objs rcid).seqNum < retirePriorTo then
        rcidmRetireHeads retirePriorTo fuel (rcidmTransitionRcid rcid .retiring rcidm)
      else rcidm

def rcidmRetireLowCurrent (retirePriorTo : Nat) (rcidm : QuicRcidm) : QuicRcidm :=
  match rcidm.curRcid with
  | none => rcidm
  | some current =>
    if (derefRcid rcidm.objs current).seqNum < retirePriorTo then
      rcidmTransitionRcid current .retiring rcidm
    else rcidm

def rcidmHandleRetirePriorTo (retirePriorTo : Nat) (rcidm : QuicRcidm) : QuicRcidm :=
  if retirePriorTo ≤ rcidm.retirePriorTo then rcidm
  else
    let rcidm := rcidmRetireLowCurrent retirePriorTo rcidm
    { rcidmRetireHeads retirePriorTo (pqueueNum rcidm.rcids) rcidm with retirePriorTo }

def rcidmRoll (rcidm : QuicRcidm) : QuicRcidm :=
  match pqueuePeek rcidm.rcids with
  | none => rcidm
  | some rcid =>
    let rcidm := rcidmTransitionRcid rcid .cur rcidm
    { rcidm with
      numChanges := addU64 rcidm.numChanges 1
      rollRequested := false
      packetsSent :=
        if packetsPerRcid ≤ rcidm.packetsSent then rcidm.packetsSent % packetsPerRcid else 0 }

def rcidmUseHead (rcidm : QuicRcidm) : QuicRcidm :=
  match rcidm.curRcid, pqueuePeek rcidm.rcids with
  | none, some rcid => rcidmTransitionRcid rcid .cur rcidm
  | _, _ => rcidm

def rcidmUpdate (rcidm : QuicRcidm) : QuicRcidm :=
  let rcidm := rcidmUseHead rcidm
  match rcidm.curRcid with
  | some current => rcidmSetPreferredRcid (some (derefRcid rcidm.objs current).cid) rcidm
  | none =>
    if rcidm.addedRetryOdcid ∧ ¬ rcidm.handshakeComplete then
      rcidmSetPreferredRcid (some rcidm.retryOdcid) rcidm
    else if rcidm.addedInitialOdcid ∧ ¬ rcidm.handshakeComplete then
      rcidmSetPreferredRcid (some rcidm.initialOdcid) rcidm
    else rcidmSetPreferredRcid none rcidm

def rcidmShouldRoll (rcidm : QuicRcidm) : Bool :=
  rcidm.handshakeComplete &&
    (rcidm.numChanges = 0 || packetsPerRcid ≤ rcidm.packetsSent || rcidm.rollRequested)

def rcidmTick (rcidm : QuicRcidm) : QuicRcidm :=
  rcidmUpdate (if rcidmShouldRoll rcidm then rcidmRoll rcidm else rcidm)

def emptyRcidm (initialOdcid : Option QuicConnId) : QuicRcidm where
  objs := fun _ => none
  fresh := 0
  preferredRcid := connIdOf []
  initialOdcid := initialOdcid.getD (connIdOf [])
  retryOdcid := connIdOf []
  packetsSent := 0
  numChanges := 0
  retirePriorTo := 0
  rcids := pqueueNew
  curRcid := none
  retiringList := []
  numRetiring := 0
  preferredRcidChanged := false
  havePreferredRcid := false
  handshakeComplete := false
  addedInitialOdcid := initialOdcid.isSome
  addedRetryOdcid := false
  addedInitialRcid := false
  rollRequested := false

def quicRcidmNew (initialOdcid : Option QuicConnId) : QuicRcidm :=
  rcidmUpdate (emptyRcidm initialOdcid)

/- Events. -/

def quicRcidmOnHandshakeComplete (rcidm : QuicRcidm) : QuicRcidm :=
  if rcidm.handshakeComplete then rcidm else rcidmTick { rcidm with handshakeComplete := true }

def quicRcidmOnPacketSent (numPackets : Nat) (rcidm : QuicRcidm) : QuicRcidm :=
  if numPackets = 0 then rcidm
  else rcidmTick { rcidm with packetsSent := addU64 rcidm.packetsSent numPackets }

def quicRcidmRequestRoll (rcidm : QuicRcidm) : QuicRcidm :=
  rcidmTick { rcidm with rollRequested := true }

/- Mutation operations, with what they return. -/

def quicRcidmAddFromInitial (mem : Bool) (rcid : QuicConnId) (rcidm : QuicRcidm) :
    Bool × QuicRcidm :=
  if rcidm.addedInitialRcid ∨ rcidm.handshakeComplete then (false, rcidm)
  else
    match rcidmCreateRcid mem initialSeqNum rcid .initial rcidm with
    | none => (false, rcidm)
    | some (_, rcidm) => (true, rcidmTick { rcidm with addedInitialRcid := true })

def quicRcidmAddFromServerRetry (retryOdcid : QuicConnId) (rcidm : QuicRcidm) :
    Bool × QuicRcidm :=
  if rcidm.addedRetryOdcid ∨ rcidm.handshakeComplete then (false, rcidm)
  else (true, rcidmTick { rcidm with retryOdcid, addedRetryOdcid := true })

def quicRcidmAddFromNcid (mem : Bool) (ncid : FrameNewConnId) (rcidm : QuicRcidm) :
    Bool × QuicRcidm :=
  match rcidmCreateRcid mem ncid.seqNum ncid.connId .ncid rcidm with
  | none => (false, rcidm)
  | some (_, rcidm) => (true, rcidmTick (rcidmHandleRetirePriorTo ncid.retirePriorTo rcidm))

/- Queries. -/

def rcidmGetRetire (peek : Bool) (rcidm : QuicRcidm) : Option Nat × QuicRcidm :=
  match rcidm.retiringList with
  | [] => (none, rcidm)
  | rcid :: _ =>
    (some (derefRcid rcidm.objs rcid).seqNum, if peek then rcidm else rcidmFreeRcid rcid rcidm)

def quicRcidmPopRetireSeqNum (rcidm : QuicRcidm) : Option Nat × QuicRcidm :=
  rcidmGetRetire false rcidm

def quicRcidmGetPreferredTxDcid (rcidm : QuicRcidm) : Option QuicConnId :=
  if rcidm.havePreferredRcid then some rcidm.preferredRcid else none

end Ossl
