import Mathlib.Data.List.Sort
import OpenSSL.Quic.Fifd
import OpenSSL.Quic.TxHelper

/- A packet that is built in ssl/quic/quic_txp.c, and the steps that put frames into it.
   The fields txp_* of the streams in a packet are kept with the packet. -/
namespace Ossl

/- The fields that a stream in the packet's list has for this packet. -/
structure TxpStream where
  id : Nat
  sentFc : Bool
  sentStopSending : Bool
  sentResetStream : Bool
  txfcNewCreditConsumed : Nat
  deriving DecidableEq

structure TxpPkt where
  h : TxHelper
  tpkt : QuicTxpimPkt
  forcePad : Bool
  haveAckEliciting : Bool
  streamHead : List TxpStream
  frames : List FrameStream

def txHelperAppendPayload (iov : List (List UInt8)) (h : TxHelper) : TxHelper :=
  iov.foldl (fun h buf => (txHelperAppendIovec buf h).2) h

def txpimPktAppendChunk (chunk : QuicTxpimChunk) (pkt : TxpPkt) : Bool × TxpPkt :=
  let mem := txHelperAlloc pkt.h
  let pkt := { pkt with h := mem.2 }
  if mem.1 = false then (false, pkt)
  else (true, { pkt with tpkt := { pkt.tpkt with chunks := pkt.tpkt.chunks ++ [chunk] } })

/- going: the stream's next frame; full: the packet ends here; fatal: it is given up. -/
inductive TxpStatus where
  | going
  | full
  | fatal
  deriving DecidableEq

structure TxpStep where
  status : TxpStatus
  pkt : TxpPkt
  stream : TxpStream
  connConsumed : Nat

def TxpStep.then (r : TxpStep) (next : TxpStep → TxpStep) : TxpStep :=
  match r.status with
  | .going => next r
  | _ => r

/- Commit. -/

end Ossl
