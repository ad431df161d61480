import OpenSSL.Time

/- The congestion control interface of include/internal/quic_cc.h, as far as the ACK manager calls
   it, and the NewReno controller of ssl/quic/cc_newreno.c. A reading of the clock is an argument.
   The diagnostic outputs are left out. -/
namespace Ossl

structure CcAckInfo where
  txTime : OsslTime
  txSize : Nat

structure CcLossInfo where
  txTime : OsslTime
  txSize : Nat

structure CcEcnInfo where
  largestAckedTime : OsslTime

def ccLostFlagPersistentCongestion : Nat := 1

structure CcMethod (δ : Type*) where
  onDataSent : δ → Nat → Bool × δ
  onDataAcked : δ → CcAckInfo → Bool × δ
  onDataLost : δ → CcLossInfo → Bool × δ
  onDataLostFinished : OsslTime → δ → Nat → Bool × δ
  onDataInvalidated : δ → Nat → Bool × δ
  onEcn : OsslTime → δ → CcEcnInfo → Bool × δ

structure NewReno where
  kInitWnd : Nat
  kMinWnd : Nat
  kLossReductionFactorNum : Nat
  kLossReductionFactorDen : Nat
  persistentCongThresh : Nat
  maxDgramSize : Nat
  bytesInFlight : Nat
  congWnd : Nat
  slowStartThresh : Nat
  bytesAcked : Nat
  congRecoveryStartTime : OsslTime
  processingLoss : Bool
  txTimeOfLastLoss : OsslTime
  inCongestionRecovery : Bool
  deriving DecidableEq

def minMaxInitWndSize : Nat := 14720
def quicMinInitialDgramLen : Nat := 1200

def newrenoSetMaxDgramSize (nr : NewReno) (maxDgramSize : Nat) : NewReno :=
  let isReduced := maxDgramSize < nr.maxDgramSize
  let maxInitWnd := max (mulU64 2 maxDgramSize) minMaxInitWndSize
  let kInitWnd := min (mulU64 10 maxDgramSize) maxInitWnd
  { nr with
    maxDgramSize, kInitWnd, kMinWnd := mulU64 2 maxDgramSize
    congWnd := if isReduced then kInitWnd else nr.congWnd }

def newrenoReset (nr : NewReno) : NewReno :=
  { nr with
    kLossReductionFactorNum := 1, kLossReductionFactorDen := 2, persistentCongThresh := 3
    congWnd := nr.kInitWnd, bytesInFlight := 0, bytesAcked := 0, slowStartThresh := maxU64
    congRecoveryStartTime := osslTimeZero, processingLoss := false
    txTimeOfLastLoss := osslTimeZero, inCongestionRecovery := false }

def newrenoZalloc : NewReno where
  kInitWnd := 0
  kMinWnd := 0
  kLossReductionFactorNum := 0
  kLossReductionFactorDen := 0
  persistentCongThresh := 0
  maxDgramSize := 0
  bytesInFlight := 0
  congWnd := 0
  slowStartThresh := 0
  bytesAcked := 0
  congRecoveryStartTime := 0
  processingLoss := false
  txTimeOfLastLoss := 0
  inCongestionRecovery := false

def newrenoNew : NewReno :=
  newrenoReset (newrenoSetMaxDgramSize newrenoZalloc quicMinInitialDgramLen)

def newrenoInCongRecovery (nr : NewReno) (txTime : OsslTime) : Bool :=
  decide (txTime ≤ nr.congRecoveryStartTime)

def newrenoCong (now : OsslTime) (nr : NewReno) (txTime : OsslTime) : NewReno :=
  if newrenoInCongRecovery nr txTime then nr
  else
    let r := safeMuldivU64 nr.congWnd nr.kLossReductionFactorNum nr.kLossReductionFactorDen
    let slowStartThresh := if r.2 then maxU64 else r.1
    { nr with
      inCongestionRecovery := true, congRecoveryStartTime := now, slowStartThresh
      congWnd := if slowStartThresh < nr.kMinWnd then nr.kMinWnd else slowStartThresh }

def newrenoFlush (now : OsslTime) (nr : NewReno) (flags : Nat) : NewReno :=
  if nr.processingLoss = false then nr
  else
    let nr := newrenoCong now nr nr.txTimeOfLastLoss
    let nr :=
      if flags &&& ccLostFlagPersistentCongestion ≠ 0 then
        { nr with congWnd := nr.kMinWnd, congRecoveryStartTime := osslTimeZero }
      else nr
    { nr with processingLoss := false }

def newrenoOnDataSent (nr : NewReno) (numBytes : Nat) : Bool × NewReno :=
  (true, { nr with bytesInFlight := addU64 nr.bytesInFlight numBytes })

def newrenoIsCongLimited (nr : NewReno) : Bool :=
  if nr.congWnd ≤ nr.bytesInFlight then true
  else
    let wndRem := nr.congWnd - nr.bytesInFlight
    decide ((nr.congWnd < nr.slowStartThresh ∧ wndRem ≤ nr.congWnd / 2) ∨
      wndRem ≤ mulU64 3 nr.maxDgramSize)

/- The window's answer to an acknowledged packet: nothing in recovery, else the
   scale of slow start or that of congestion avoidance. -/
def newrenoGrow (nr : NewReno) (info : CcAckInfo) : NewReno :=
  if newrenoInCongRecovery nr info.txTime then nr
  else if nr.congWnd < nr.slowStartThresh then
    { nr with congWnd := addU64 nr.congWnd info.txSize, inCongestionRecovery := false }
  else
    let bytesAcked := addU64 nr.bytesAcked info.txSize
    if nr.congWnd ≤ bytesAcked then
      { nr with
        bytesAcked := bytesAcked - nr.congWnd, congWnd := addU64 nr.congWnd nr.maxDgramSize
        inCongestionRecovery := false }
    else { nr with bytesAcked, inCongestionRecovery := false }

def newrenoOnDataAcked (nr : NewReno) (info : CcAckInfo) : Bool × NewReno :=
  let nr := { nr with bytesInFlight := subU64 nr.bytesInFlight info.txSize }
  (true, if newrenoIsCongLimited nr then newrenoGrow nr info else nr)

def newrenoOnDataLost (nr : NewReno) (info : CcLossInfo) : Bool × NewReno :=
  if nr.bytesInFlight < info.txSize then (false, nr)
  else
    let nr := { nr with bytesInFlight := nr.bytesInFlight - info.txSize }
    if nr.processingLoss = false ∧ info.txTime ≤ nr.txTimeOfLastLoss then (true, nr)
    else
      let nr :=
        if nr.processingLoss = false then { nr with processingLoss := true, bytesAcked := 0 } else nr
      (true, { nr with txTimeOfLastLoss := osslTimeMax nr.txTimeOfLastLoss info.txTime })

def newrenoOnDataLostFinished (now : OsslTime) (nr : NewReno) (flags : Nat) : Bool × NewReno :=
  (true, newrenoFlush now nr flags)

def newrenoOnDataInvalidated (nr : NewReno) (numBytes : Nat) : Bool × NewReno :=
  (true, { nr with bytesInFlight := subU64 nr.bytesInFlight numBytes })

def newrenoOnEcn (now : OsslTime) (nr : NewReno) (info : CcEcnInfo) : Bool × NewReno :=
  (true, newrenoFlush now
    { nr with
      processingLoss := true, bytesAcked := 0, txTimeOfLastLoss := info.largestAckedTime } 0)

def newrenoMethod : CcMethod NewReno where
  onDataSent := newrenoOnDataSent
  onDataAcked := newrenoOnDataAcked
  onDataLost := newrenoOnDataLost
  onDataLostFinished := newrenoOnDataLostFinished
  onDataInvalidated := newrenoOnDataInvalidated
  onEcn := newrenoOnEcn

theorem newrenoCong_bytesInFlight (now : OsslTime) (nr : NewReno) (txTime : OsslTime) :
    (newrenoCong now nr txTime).bytesInFlight = nr.bytesInFlight := by
  unfold newrenoCong
  split <;> rfl

theorem newrenoFlush_bytesInFlight (now : OsslTime) (nr : NewReno) (flags : Nat) :
    (newrenoFlush now nr flags).bytesInFlight = nr.bytesInFlight := by
  unfold newrenoFlush
  split
  · rfl
  · split <;> exact newrenoCong_bytesInFlight now nr nr.txTimeOfLastLoss

theorem newrenoGrow_bytesInFlight (nr : NewReno) (info : CcAckInfo) :
    (newrenoGrow nr info).bytesInFlight = nr.bytesInFlight := by
  unfold newrenoGrow
  dsimp only
  split
  · rfl
  · split
    · rfl
    · split <;> rfl

theorem newrenoOnDataAcked_bytesInFlight (nr : NewReno) (info : CcAckInfo) :
    (newrenoOnDataAcked nr info).2.bytesInFlight = subU64 nr.bytesInFlight info.txSize := by
  unfold newrenoOnDataAcked
  dsimp only
  split
  · exact newrenoGrow_bytesInFlight _ info
  · rfl

theorem newrenoOnDataLost_bytesInFlight (nr : NewReno) (info : CcLossInfo) :
    (newrenoOnDataLost nr info).2.bytesInFlight =
      if nr.bytesInFlight < info.txSize then nr.bytesInFlight
      else nr.bytesInFlight - info.txSize := by
  unfold newrenoOnDataLost
  dsimp only
  split
  · rfl
  · split
    · rfl
    · split <;> rfl

theorem newrenoOnDataLostFinished_bytesInFlight (now : OsslTime) (nr : NewReno) (flags : Nat) :
    (newrenoOnDataLostFinished now nr flags).2.bytesInFlight = nr.bytesInFlight :=
  newrenoFlush_bytesInFlight now nr flags

theorem newrenoOnEcn_bytesInFlight (now : OsslTime) (nr : NewReno) (info : CcEcnInfo) :
    (newrenoOnEcn now nr info).2.bytesInFlight = nr.bytesInFlight :=
  newrenoFlush_bytesInFlight now _ 0

end Ossl
