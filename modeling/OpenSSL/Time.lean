import OpenSSL.Word

/- The saturating 64-bit nanosecond times of include/internal/time.h. -/
namespace Ossl

abbrev OsslTime := Nat

def timeSecond : OsslTime := 1000000000
def timeMs : OsslTime := timeSecond / 1000
def timeUs : OsslTime := timeMs / 1000

def osslMs2time (ms : Nat) : OsslTime := mulU64 ms timeMs

def osslTimeZero : OsslTime := 0
def osslTimeInfinite : OsslTime := maxU64

def osslTimeIsZero (t : OsslTime) : Bool := decide (t = osslTimeZero)
def osslTimeIsInfinite (t : OsslTime) : Bool := decide (t = osslTimeInfinite)

def osslTimeAdd (a b : OsslTime) : OsslTime :=
  let r := safeAddU64 a b
  if r.2 then osslTimeInfinite else r.1

def osslTimeSubtract (a b : OsslTime) : OsslTime :=
  let r := safeSubU64 a b
  if r.2 then osslTimeZero else r.1

def osslTimeAbsDifference (a b : OsslTime) : OsslTime :=
  if b < a then osslTimeSubtract a b else osslTimeSubtract b a

def osslTimeMultiply (a : OsslTime) (b : Nat) : OsslTime :=
  let r := safeMulU64 a b
  if r.2 then osslTimeInfinite else r.1

def osslTimeDivide (a : OsslTime) (b : Nat) : OsslTime :=
  let r := safeDivU64 a b
  if r.2 then osslTimeZero else r.1

def osslTimeMuldiv (a : OsslTime) (b c : Nat) : OsslTime :=
  let r := safeMuldivU64 a b c
  if r.2 then osslTimeZero else r.1

def osslTimeMax (a b : OsslTime) : OsslTime := if b < a then a else b
def osslTimeMin (a b : OsslTime) : OsslTime := if a < b then a else b

end Ossl
