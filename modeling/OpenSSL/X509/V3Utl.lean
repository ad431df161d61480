import Mathlib.Data.List.Basic
import Mathlib.Tactic.Common

/- The comparison of host names of crypto/x509/v3_utl.c. -/
namespace Ossl

structure X509CheckFlags where
  noPartialWildcards : Bool
  multiLabelWildcards : Bool
  singleLabelSubdomains : Bool
  dotSubdomains : Bool

def dotChar : UInt8 := 46
def starChar : UInt8 := 42
def hyphenChar : UInt8 := 45

def toLower (c : UInt8) : UInt8 := if 65 ≤ c.toNat ∧ c.toNat ≤ 90 then c - 65 + 97 else c

def alnum (c : UInt8) : Bool :=
  decide (97 ≤ c.toNat ∧ c.toNat ≤ 122 ∨ 65 ≤ c.toNat ∧ c.toNat ≤ 90 ∨ 48 ≤ c.toNat ∧ c.toNat ≤ 57)

/- Whether a name begins with "xn--", which is looked at in four octets only. -/
def hasIdnaPrefix (p : List UInt8) : Bool :=
  decide (4 ≤ p.length) && (p.take 4).map toLower == [120, 110, 45, 45]

def skipRounds (flags : X509CheckFlags) (subjectLen : Nat) : List UInt8 → List UInt8
  | [] => []
  | c :: rest =>
    if subjectLen < (c :: rest).length ∧ c ≠ 0 then
      if flags.singleLabelSubdomains = true ∧ c = dotChar then c :: rest
      else skipRounds flags subjectLen rest
    else c :: rest

def skipPrefix (pattern : List UInt8) (subjectLen : Nat) (flags : X509CheckFlags) : List UInt8 :=
  if flags.dotSubdomains = false then pattern
  else
    let pattern' := skipRounds flags subjectLen pattern
    if pattern'.length = subjectLen then pattern' else pattern

def nocaseRounds : List UInt8 → List UInt8 → Bool
  | [], _ => true
  | _ :: _, [] => false
  | l :: pattern, r :: subject =>
    if l = 0 then false
    else if l ≠ r ∧ toLower l ≠ toLower r then false
    else nocaseRounds pattern subject

def equalNocase (pattern subject : List UInt8) (flags : X509CheckFlags) : Bool :=
  let pattern := skipPrefix pattern subject.length flags
  if pattern.length ≠ subject.length then false else nocaseRounds pattern subject

def wildcardMatch (front back subject : List UInt8) (flags : X509CheckFlags) : Bool :=
  if subject.length < front.length + back.length then false
  else if equalNocase front (subject.take front.length) flags = false then false
  else
    let wildcard := (subject.drop front.length).take (subject.length - back.length - front.length)
    let wildcardEnd := subject.drop (subject.length - back.length)
    if equalNocase wildcardEnd back flags = false then false
    else
      let whole := decide (front.length = 0) && back.headD 0 == dotChar
      if whole = true ∧ wildcard = [] then false
      else if whole = false ∧ hasIdnaPrefix subject = true then false
      else if wildcard = [starChar] then true
      else
        let allowMulti := whole && flags.multiLabelWildcards
        wildcard.all fun p => alnum p || p == hyphenChar || (allowMulti && p == dotChar)

structure StarState where
  start : Bool
  hyphen : Bool
  idna : Bool
  dots : Nat
  star : Option Nat

def validStarRounds (flags : X509CheckFlags) : List UInt8 → Nat → StarState → Option StarState
  | [], _, s => some s
  | c :: rest, i, s =>
    if c = starChar then
      let atstart := s.start
      let atend := decide (rest = []) || rest.headD 0 == dotChar
      if s.star.isSome = true ∨ s.idna = true ∨ s.dots ≠ 0 then none
      else if flags.noPartialWildcards = true ∧ (atstart = false ∨ atend = false) then none
      else if atstart = false ∧ atend = false then none
      else validStarRounds flags rest (i + 1) { s with star := some i, start := false }
    else if alnum c then
      let idna := s.idna || s.start && hasIdnaPrefix (c :: rest)
      validStarRounds flags rest (i + 1) { s with idna := idna, hyphen := false, start := false }
    else if c = dotChar then
      if s.hyphen = true ∨ s.start = true then none
      else validStarRounds flags rest (i + 1) ⟨true, false, false, s.dots + 1, s.star⟩
    else if c = hyphenChar then
      if s.start = true then none
      else validStarRounds flags rest (i + 1) { s with hyphen := true }
    else none

def validStar (p : List UInt8) (flags : X509CheckFlags) : Option Nat :=
  match validStarRounds flags p 0 ⟨true, false, false, 0, none⟩ with
  | none => none
  | some s => if s.start = true ∨ s.hyphen = true ∨ s.dots < 2 then none else s.star

def equalWildcard (pattern subject : List UInt8) (flags : X509CheckFlags) : Bool :=
  let star :=
    if 1 < subject.length ∧ subject.headD 0 = dotChar then none else validStar pattern flags
  match star with
  | none => equalNocase pattern subject flags
  | some star => wildcardMatch (pattern.take star) (pattern.drop (star + 1)) subject flags

def checkDnsFlags (chk : List UInt8) (flags : X509CheckFlags) : X509CheckFlags :=
  { flags with dotSubdomains := decide (1 < chk.length ∧ chk.headD 0 = dotChar) }

end Ossl
