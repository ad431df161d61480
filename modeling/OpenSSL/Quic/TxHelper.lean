import OpenSSL.Quic.Wire

/- The TX helper of ssl/quic/quic_txp.c, which generates the frames of a packet one after the other,
   and the choice of the length of a frame that is cut to fit. The scratch buffer and the IO vectors
   of the encryption level are part of it here. -/
namespace Ossl

structure TxHelper where
  maxPpl : Nat
  bytesAppended : Nat
  scratchLen : Nat
  scratchBytes : Nat
  reserve : Nat
  iovec : List (List UInt8)
  allocIovec : Nat
  reserveAllowed : Bool
  doneImplicit : Bool
  allocs : List Bool
  deriving DecidableEq

def txHelperAlloc (h : TxHelper) : Bool × TxHelper :=
  match h.allocs with
  | [] => (false, h)
  | ok :: later => (ok, { h with allocs := later })

def txHelperUnrestrict (h : TxHelper) : TxHelper := { h with reserveAllowed := true }

def txElEnsureIovec (num : Nat) (h : TxHelper) : Bool × TxHelper :=
  if num ≤ h.allocIovec then (true, h)
  else
    let grown := txHelperAlloc h
    if grown.1 = false then grown
    else (true, { grown.2 with allocIovec := if h.allocIovec ≠ 0 then h.allocIovec * 2 else 8 })

def txHelperAppendIovec (buf : List UInt8) (h : TxHelper) : Bool × TxHelper :=
  if buf.length = 0 then (true, h)
  else if h.doneImplicit then (false, h)
  else
    let ensured := txElEnsureIovec (h.iovec.length + 1) h
    if ensured.1 = false then ensured
    else
      (true,
        { ensured.2 with
          iovec := h.iovec ++ [buf], bytesAppended := addU64 h.bytesAppended buf.length })

def txHelperGetSpaceLeft (h : TxHelper) : Nat :=
  subU64 (subU64 h.maxPpl (if h.reserveAllowed then 0 else h.reserve)) h.bytesAppended

/- The caller holds the writer until it commits or rolls back. -/
def txHelperBegin (h : TxHelper) : Option Wpacket × TxHelper :=
  let len := subU64 h.scratchLen h.scratchBytes
  let spaceLeft := txHelperGetSpaceLeft h
  if h.doneImplicit then (none, h)
  else if len < spaceLeft then (none, h)
  else
    let sub := txHelperAlloc h
    match wpacketInitStaticLen sub.1 (fun _ => 0) len 0 with
    | none => (none, sub.2)
    | some wpkt => (wpacketSetMaxSize wpkt spaceLeft, sub.2)

def txHelperCommit (wpkt : Wpacket) (h : TxHelper) : Bool × TxHelper :=
  let appended := txHelperAppendIovec (wpacketOut wpkt) h
  if appended.1 = false then appended
  else
    (true, { appended.2 with scratchBytes := addU64 appended.2.scratchBytes wpkt.written })

inductive FrameWritten where
  | written
  | noRoom
  | failed
  deriving DecidableEq

def txHelperFrame (encode : WpacketM Unit) (h : TxHelper) : FrameWritten × TxHelper :=
  let begun := txHelperBegin h
  match begun.1 with
  | none => (.failed, begun.2)
  | some wpkt =>
    match encode wpkt with
    | none => (.noRoom, begun.2)
    | some (_, wpkt) =>
      let committed := txHelperCommit wpkt begun.2
      (if committed.1 then .written else .failed, committed.2)

/- The length of the frame's header and of its payload for one size of the length field. -/
structure FrameFit where
  valid : Bool
  hdrLen : Nat
  payloadLen : Nat
  deriving DecidableEq

def tryLen (spaceLeft origLen baseHdrLen lenbytes maxn : Nat) : FrameFit :=
  let hdrLen := addU64 baseHdrLen lenbytes
  if origLen = 0 ∧ hdrLen ≤ spaceLeft then ⟨true, hdrLen, 0⟩
  else
    let n := if maxn < origLen then maxn else origLen
    let n := if spaceLeft < addU64 n hdrLen then
      (if hdrLen ≤ spaceLeft then spaceLeft - hdrLen else 0) else n
    ⟨decide (0 < n), hdrLen, n⟩

def lengthFields : List (Nat × Nat) :=
  [(1, 2 ^ 6 - 1), (2, 2 ^ 14 - 1), (4, 2 ^ 30 - 1), (8, 2 ^ 62 - 1)]

def determineLen (spaceLeft origLen baseHdrLen : Nat) : FrameFit :=
  lengthFields.foldr
    (fun field chosen =>
      let fit := tryLen spaceLeft origLen baseHdrLen field.1 field.2
      if fit.valid ∧ chosen.payloadLen ≤ fit.payloadLen then fit else chosen)
    ⟨false, 0, 0⟩

end Ossl
