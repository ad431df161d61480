import OpenSSL.Word

/- The transmit flow controller of ssl/quic/quic_fc.c. A stream's controller has the connection's as
   its parent, which is given beside it and returned. -/
namespace Ossl

structure QuicTxfc where
  swm : Nat
  cwm : Nat
  hasBecomeBlocked : Bool
  deriving DecidableEq

def txfcInit : QuicTxfc where
  swm := 0
  cwm := 0
  hasBecomeBlocked := false

def txfcGetCreditLocal (txfc : QuicTxfc) (consumed : Nat) : Nat :=
  subU64 txfc.cwm (addU64 consumed txfc.swm)

def txfcGetCredit (txfc : QuicTxfc) (parent : Option QuicTxfc) (consumed : Nat) : Nat :=
  let r := txfcGetCreditLocal txfc 0
  match parent with
  | none => r
  | some parent =>
    let connR := txfcGetCreditLocal parent consumed
    if connR < r then connR else r

end Ossl
