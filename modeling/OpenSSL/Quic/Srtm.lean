import OpenSSL.Lhash
import OpenSSL.Quic.Wire

/- The stateless reset token manager of ssl/quic/quic_srtm.c. Items are named by numbers, each used
   once; objs is the heap, none once freed. blind is the AES-128-ECB permutation under the key of
   blind_ctx. Allocations succeed, so alloc_failed stays as it is. -/
namespace Ossl

abbrev StatelessResetToken : Type := Vector UInt8 quicStatelessResetTokenLen

structure SrtmItem where
  nextBySrtBlinded : Option Nat
  nextBySeqNum : Option Nat
  opaquePtr : Nat
  seqNum : Nat
  srt : StatelessResetToken
  srtBlinded : StatelessResetToken
  deriving DecidableEq

structure QuicSrtm where
  objs : Nat → Option SrtmItem
  fresh : Nat
  itemsFwd : Lhash Nat Nat
  itemsRev : Lhash StatelessResetToken Nat
  allocFailed : Bool

def zeroToken : StatelessResetToken := Vector.replicate _ 0

def zeroSrtmItem : SrtmItem where
  nextBySrtBlinded := none
  nextBySeqNum := none
  opaquePtr := 0
  seqNum := 0
  srt := zeroToken
  srtBlinded := zeroToken

def derefItem (objs : Nat → Option SrtmItem) (item : Nat) : SrtmItem :=
  (objs item).getD zeroSrtmItem

/- The two lists an item is on: by blinded token, sorted by opaque, and by opaque,
   sorted by sequence number, both descending. -/
inductive SrtmLink where
  | bySrtBlinded
  | bySeqNum
  deriving DecidableEq

def SrtmItem.next (link : SrtmLink) (item : SrtmItem) : Option Nat :=
  match link with
  | .bySrtBlinded => item.nextBySrtBlinded
  | .bySeqNum => item.nextBySeqNum

def SrtmItem.setNext (link : SrtmLink) (next : Option Nat) (item : SrtmItem) : SrtmItem :=
  match link with
  | .bySrtBlinded => { item with nextBySrtBlinded := next }
  | .bySeqNum => { item with nextBySeqNum := next }

def SrtmItem.rank (link : SrtmLink) (item : SrtmItem) : Nat :=
  match link with
  | .bySrtBlinded => item.opaquePtr
  | .bySeqNum => item.seqNum

def srtmSetNext (link : SrtmLink) (item : Nat) (next : Option Nat) (srtm : QuicSrtm) : QuicSrtm :=
  { srtm with
    objs := Function.update srtm.objs item (some ((derefItem srtm.objs item).setNext link next)) }

/- No list is longer than the number of items ever allocated, which bounds the rounds
   of the loops. The result is the item found and the one before. -/
def srtmFindRounds (objs : Nat → Option SrtmItem) (seqNum : Nat) :
    Nat → Option Nat → Option Nat → Option Nat × Option Nat
  | 0, prev, _ => (none, prev)
  | _ + 1, prev, none => (none, prev)
  | fuel + 1, prev, some item =>
    if (derefItem objs item).seqNum = seqNum then (some item, prev)
    else if (derefItem objs item).seqNum < seqNum then (none, prev)
    else srtmFindRounds objs seqNum fuel (some item) (derefItem objs item).nextBySeqNum

def srtmFind (opaquePtr seqNum : Nat) (srtm : QuicSrtm) : Option Nat × Option Nat × Option Nat :=
  let head := lhRetrieve opaquePtr srtm.itemsFwd
  let found := srtmFindRounds srtm.objs seqNum (srtm.fresh + 1) none head
  (found.1, head, found.2)

def sortedInsertRounds (link : SrtmLink) (objs : Nat → Option SrtmItem) (rank : Nat) :
    Nat → Option Nat → Option Nat → Option Nat
  | 0, fixup, _ => fixup
  | _ + 1, fixup, none => fixup
  | fuel + 1, fixup, some cur =>
    if rank < (derefItem objs cur).rank link then
      sortedInsertRounds link objs rank fuel (some cur) ((derefItem objs cur).next link)
    else fixup

def sortedInsert (link : SrtmLink) (head item : Nat) (srtm : QuicSrtm) : Nat × QuicSrtm :=
  match sortedInsertRounds link srtm.objs ((derefItem srtm.objs item).rank link) (srtm.fresh + 1)
    none (some head) with
  | none => (item, srtmSetNext link item (some head) srtm)
  | some fixup =>
    (head, srtmSetNext link fixup (some item)
      (srtmSetNext link item ((derefItem srtm.objs fixup).next link) srtm))

def sortedInsertSeqNum (head item : Nat) (srtm : QuicSrtm) : Nat × QuicSrtm :=
  sortedInsert .bySeqNum head item srtm

def sortedInsertSrt (head item : Nat) (srtm : QuicSrtm) : Nat × QuicSrtm :=
  sortedInsert .bySrtBlinded head item srtm

def srtmAddFwd (head : Option Nat) (item : Nat) (srtm : QuicSrtm) : QuicSrtm :=
  match head with
  | none =>
    { srtm with itemsFwd := lhInsert (derefItem srtm.objs item).opaquePtr item srtm.itemsFwd }
  | some head =>
    let inserted := sortedInsertSeqNum head item srtm
    let newHead := inserted.1
    let srtm := inserted.2
    if newHead ≠ head then
      { srtm with
        itemsFwd := lhInsert (derefItem srtm.objs newHead).opaquePtr newHead srtm.itemsFwd }
    else srtm

def srtmAddRev (item : Nat) (srtm : QuicSrtm) : QuicSrtm :=
  match lhRetrieve (derefItem srtm.objs item).srtBlinded srtm.itemsRev with
  | none =>
    { srtm with itemsRev := lhInsert (derefItem srtm.objs item).srtBlinded item srtm.itemsRev }
  | some head =>
    let inserted := sortedInsertSrt head item srtm
    let newHead := inserted.1
    let srtm := inserted.2
    if newHead ≠ head then
      { srtm with
        itemsRev := lhInsert (derefItem srtm.objs newHead).srtBlinded newHead srtm.itemsRev }
    else srtm

def quicSrtmAdd (blind : StatelessResetToken → StatelessResetToken) (opaquePtr seqNum : Nat)
    (token : StatelessResetToken) (srtm : QuicSrtm) : Bool × QuicSrtm :=
  if srtm.allocFailed then (false, srtm)
  else
    let found := srtmFind opaquePtr seqNum srtm
    if found.1 ≠ none then (false, srtm)
    else
      let item := srtm.fresh
      let obj := { zeroSrtmItem with opaquePtr, seqNum, srt := token, srtBlinded := blind token }
      let allocated :=
        { srtm with fresh := item + 1, objs := Function.update srtm.objs item (some obj) }
      (true, srtmAddRev item (srtmAddFwd found.2.1 item allocated))

def srtmBeforeRounds (objs : Nat → Option SrtmItem) (item : Nat) : Nat → Nat → Nat
  | 0, cur => cur
  | fuel + 1, cur =>
    if (derefItem objs cur).nextBySrtBlinded ≠ some item then
      match (derefItem objs cur).nextBySrtBlinded with
      | none => cur
      | some next => srtmBeforeRounds objs item fuel next
    else cur

def srtmRemoveFromRev (item : Nat) (srtm : QuicSrtm) : QuicSrtm :=
  let obj := derefItem srtm.objs item
  match lhRetrieve obj.srtBlinded srtm.itemsRev with
  | none => srtm
  | some head =>
    if head = item then
      match obj.nextBySrtBlinded with
      | some next =>
        { srtm with
          itemsRev := lhInsert (derefItem srtm.objs next).srtBlinded next srtm.itemsRev }
      | none => { srtm with itemsRev := lhDelete obj.srtBlinded srtm.itemsRev }
    else
      srtmSetNext .bySrtBlinded (srtmBeforeRounds srtm.objs item (srtm.fresh + 1) head)
        obj.nextBySrtBlinded srtm

def srtmFreeItem (item : Nat) (srtm : QuicSrtm) : QuicSrtm :=
  { srtm with objs := Function.update srtm.objs item none }

def srtmRemoveFromFwd (item : Nat) (prev : Option Nat) (srtm : QuicSrtm) : QuicSrtm :=
  let obj := derefItem srtm.objs item
  match prev with
  | none =>
    match obj.nextBySeqNum with
    | some next =>
      { srtm with
        itemsFwd := lhInsert (derefItem srtm.objs next).opaquePtr next srtm.itemsFwd }
    | none => { srtm with itemsFwd := lhDelete obj.opaquePtr srtm.itemsFwd }
  | some prev => srtmSetNext .bySeqNum prev obj.nextBySeqNum srtm

def quicSrtmRemove (opaquePtr seqNum : Nat) (srtm : QuicSrtm) : Bool × QuicSrtm :=
  if srtm.allocFailed then (false, srtm)
  else
    match srtmFind opaquePtr seqNum srtm with
    | (none, _, _) => (false, srtm)
    | (some item, _, prev) =>
      (true, srtmFreeItem item (srtmRemoveFromRev item (srtmRemoveFromFwd item prev srtm)))

def srtmCullRounds (head : Nat) : Nat → Option Nat → QuicSrtm → QuicSrtm
  | 0, _, srtm => srtm
  | _ + 1, none, srtm => srtm
  | fuel + 1, some item, srtm =>
    let next := (derefItem srtm.objs item).nextBySeqNum
    srtmCullRounds head fuel next
      (if item ≠ head then srtmFreeItem item (srtmRemoveFromRev item srtm) else srtm)

def quicSrtmCull (opaquePtr : Nat) (srtm : QuicSrtm) : Bool × QuicSrtm :=
  if srtm.allocFailed then (false, srtm)
  else
    match lhRetrieve opaquePtr srtm.itemsFwd with
    | none => (true, srtm)
    | some head =>
      let culled := srtmCullRounds head (srtm.fresh + 1) (some head) srtm
      let unlinked :=
        { culled with
          itemsFwd := lhDelete (derefItem culled.objs head).opaquePtr culled.itemsFwd }
      (true, srtmFreeItem head (srtmRemoveFromRev head unlinked))

def srtmNth (objs : Nat → Option SrtmItem) : Nat → Option Nat → Option Nat
  | 0, item => item
  | _ + 1, none => none
  | idx + 1, some item => srtmNth objs idx (derefItem objs item).nextBySrtBlinded

def quicSrtmLookup (blind : StatelessResetToken → StatelessResetToken)
    (token : StatelessResetToken) (idx : Nat) (srtm : QuicSrtm) : Option (Nat × Nat) :=
  if srtm.allocFailed then none
  else
    match srtmNth srtm.objs idx (lhRetrieve (blind token) srtm.itemsRev) with
    | none => none
    | some item =>
      some ((derefItem srtm.objs item).opaquePtr, (derefItem srtm.objs item).seqNum)

def quicSrtmNew : QuicSrtm where
  objs := fun _ => none
  fresh := 0
  itemsFwd := lhNew
  itemsRev := lhNew
  allocFailed := false

end Ossl
