import OpenSSL.Time

/- The RTT statistics of ssl/quic/quic_statm.c. -/
namespace Ossl

structure Statm where
  smoothedRtt : OsslTime
  latestRtt : OsslTime
  minRtt : OsslTime
  rttVariance : OsslTime
  haveFirstSample : Bool
  deriving DecidableEq

structure RttInfo where
  smoothedRtt : OsslTime
  latestRtt : OsslTime
  rttVariance : OsslTime
  minRtt : OsslTime
  deriving DecidableEq

def kInitialRtt : OsslTime := osslMs2time 333

def statmInit : Statm where
  smoothedRtt := kInitialRtt
  latestRtt := osslTimeZero
  minRtt := osslTimeInfinite
  rttVariance := osslTimeDivide kInitialRtt 2
  haveFirstSample := false

def statmGetRttInfo (statm : Statm) : RttInfo where
  smoothedRtt := statm.smoothedRtt
  latestRtt := statm.latestRtt
  rttVariance := statm.rttVariance
  minRtt := statm.minRtt

def statmUpdateRtt (statm : Statm) (ackDelay overrideLatestRtt : OsslTime) : Statm :=
  let latestRtt := if osslTimeIsZero overrideLatestRtt then statm.latestRtt else overrideLatestRtt
  if statm.haveFirstSample = false then
    { latestRtt, minRtt := latestRtt, smoothedRtt := latestRtt
      rttVariance := osslTimeDivide latestRtt 2, haveFirstSample := true }
  else
    let minRtt := if latestRtt < statm.minRtt then latestRtt else statm.minRtt
    let adjustedRtt :=
      if osslTimeAdd minRtt ackDelay ≤ latestRtt then osslTimeSubtract latestRtt ackDelay
      else latestRtt
    let rttVariance :=
      osslTimeDivide (osslTimeAdd (osslTimeMultiply statm.rttVariance 3)
        (osslTimeAbsDifference statm.smoothedRtt adjustedRtt)) 4
    let smoothedRtt :=
      osslTimeDivide (osslTimeAdd (osslTimeMultiply statm.smoothedRtt 7) adjustedRtt) 8
    { statm with latestRtt, minRtt, rttVariance, smoothedRtt }

end Ossl
