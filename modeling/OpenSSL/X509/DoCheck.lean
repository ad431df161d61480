import OpenSSL.Asn1.Strex
import OpenSSL.X509.V3Utl

/- The comparison of a name with the names of a certificate. -/
namespace Ossl

def atChar : UInt8 := 64

def noFlags : X509CheckFlags := ⟨false, false, false, false⟩

def equalCase (pattern subject : List UInt8) (flags : X509CheckFlags) : Bool :=
  let pattern := skipPrefix pattern subject.length flags
  if pattern.length ≠ subject.length then false else pattern == subject

def searchAt (a b : List UInt8) : Nat → Nat
  | 0 => 0
  | i + 1 => if a.getD i 0 = atChar ∨ b.getD i 0 = atChar then i else searchAt a b i

def hasAt (a b : List UInt8) : Bool := a.contains atChar || b.contains atChar

def equalEmail (a b : List UInt8) (_flags : X509CheckFlags) : Bool :=
  if a.length ≠ b.length then false
  else
    let i := searchAt a b a.length
    if hasAt a b = true ∧ equalNocase (a.drop i) (b.drop i) noFlags = false then false
    else
      let i := if i = 0 then a.length else i
      equalCase (a.take i) (b.take i) noFlags

abbrev EqualFn := List UInt8 → List UInt8 → X509CheckFlags → Bool

abbrev CheckResult := Except Unit (Option (List UInt8))

def doCheckString (a : Asn1Text) (cmpType : Int) (equal : EqualFn) (flags : X509CheckFlags)
    (b : List UInt8) : CheckResult :=
  if a.data = [] then .ok none
  else if 0 < cmpType then
    if cmpType ≠ a.type then .ok none
    else
      let same := if cmpType = vIa5String then equal a.data b flags else a.data == b
      .ok (if same then some a.data else none)
  else
    match asn1StringToUtf8 a with
    | none => .error ()
    | some astr => .ok (if equal astr b flags then some astr else none)

inductive GenType
  | email
  | dns
  | ipadd
  | other
  deriving DecidableEq

/- For an otherName, whether its type is id-on-SmtpUTF8Mailbox. -/
inductive SanEntry
  | otherName (smtpUtf8Mailbox : Bool) (value : Asn1Text)
  | email (rfc822Name : Asn1Text)
  | dns (dNSName : Asn1Text)
  | ipadd (iPAddress : Asn1Text)
  | unused
  deriving DecidableEq

inductive NameAttribute
  | emailAddress
  | commonName
  | unused
  deriving DecidableEq

structure X509Names where
  subjectAltName : Option (List SanEntry)
  subject : List (NameAttribute × Asn1Text)

structure DoCheckFlags extends X509CheckFlags where
  noWildcards : Bool
  alwaysCheckSubject : Bool
  neverCheckSubject : Bool

def candidate (checkType : GenType) (altType : Int) : SanEntry → Option (Asn1Text × Int)
  | .otherName smtp value =>
    if smtp = true ∧ checkType = .email ∧ value.type = vUtf8String then some (value, 0)
    else none
  | .email s => if checkType = .email then some (s, altType) else none
  | .dns s => if checkType = .dns then some (s, altType) else none
  | .ipadd s => if checkType = .ipadd then some (s, altType) else none
  | .unused => none

def sanRounds (checkType : GenType) (equal : EqualFn) (flags : X509CheckFlags) (chk : List UInt8) :
    List SanEntry → Int → Bool → CheckResult × Bool
  | [], _, present => (.ok none, present)
  | gen :: rest, altType, present =>
    match candidate checkType altType gen with
    | none => sanRounds checkType equal flags chk rest altType present
    | some (cstr, altType) =>
      match doCheckString cstr altType equal flags chk with
      | .ok none => sanRounds checkType equal flags chk rest altType true
      | found => (found, true)

def subjectRounds (equal : EqualFn) (flags : X509CheckFlags) (chk : List UInt8) :
    List Asn1Text → CheckResult
  | [] => .ok none
  | str :: rest =>
    match doCheckString str (-1) equal flags chk with
    | .ok none => subjectRounds equal flags chk rest
    | found => found

def checkEqual (checkType : GenType) (flags : DoCheckFlags) : EqualFn :=
  match checkType with
  | .email => equalEmail
  | .dns => if flags.noWildcards then equalNocase else equalWildcard
  | _ => equalCase

def checkAltType : GenType → Int
  | .email | .dns => vIa5String
  | _ => vOctetString

def checkAttribute : GenType → Option NameAttribute
  | .email => some .emailAddress
  | .dns => some .commonName
  | _ => none

def checkFlags (checkType : GenType) (chk : List UInt8) (chklen : Nat) (flags : DoCheckFlags) :
    X509CheckFlags :=
  { flags.toX509CheckFlags with
    dotSubdomains := decide (checkType = .dns ∧ 1 < chklen ∧ chk.headD 0 = dotChar) }

/- A length of zero stands for a text that ends before the first zero octet. -/
def checkName (chk : List UInt8) (chklen : Nat) : List UInt8 :=
  if chklen = 0 then chk.takeWhile (· ≠ 0) else chk.take chklen

def checkSubject (x : X509Names) (name : List UInt8) (flags : DoCheckFlags)
    (nameFlags : X509CheckFlags) (checkType : GenType) (present : Bool) : CheckResult :=
  if present = true ∧ flags.alwaysCheckSubject = false then .ok none
  else
    match checkAttribute checkType with
    | none => .ok none
    | some cnid =>
      if flags.neverCheckSubject then .ok none
      else
        subjectRounds (checkEqual checkType flags) nameFlags name
          ((x.subject.filter fun ne => ne.1 = cnid).map (·.2))

def doX509Check (x : X509Names) (chk : List UInt8) (chklen : Nat) (flags : DoCheckFlags)
    (checkType : GenType) : CheckResult :=
  let nameFlags := checkFlags checkType chk chklen flags
  let name := checkName chk chklen
  let gens := x.subjectAltName.getD []
  match sanRounds checkType (checkEqual checkType flags) nameFlags name gens
      (checkAltType checkType) false with
  | (.ok none, present) => checkSubject x name flags nameFlags checkType present
  | (found, _) => found

def checkAnswer : CheckResult → Int
  | .error _ => -1
  | .ok none => 0
  | .ok (some _) => 1

end Ossl
