import OpenSSL.Asn1.Integer
import OpenSSL.Asn1.ObjectReuse
import OpenSSL.X509.V3Ncons
import Mathlib.Data.List.Perm.Basic

/- Matching a name against the name constraints of a certificate, nc_match of
   crypto/x509/v3_ncons.c, with the forms of names it compares. -/
namespace Ossl
open List

inductive NcResult where
  | ok
  | permittedViolation
  | excludedViolation
  | subtreeMinmax
  | unsupportedConstraintType
  | unsupportedNameSyntax
  | outOfMem
  | unspecified
  deriving DecidableEq

def NcVerdict.result : NcVerdict → NcResult
  | .ok => .ok
  | .permittedViolation => .permittedViolation
  | .unsupportedNameSyntax => .unsupportedNameSyntax
  | .unspecified => .unspecified

/- A distinguished name by its canonical encoding, if it can be brought up to date. -/
structure X509Name where
  canonEnc : Option (List UInt8)
  deriving DecidableEq

structure OtherName where
  typeId : Asn1ObjectSt
  value : Asn1Type

inductive GeneralName where
  | otherName (other : OtherName)
  | email (rfc822Name : List UInt8)
  | dns (dNSName : List UInt8)
  | x400
  | dirName (directoryName : X509Name)
  | ediParty
  | uri (uniformResourceIdentifier : List UInt8)
  | ipadd (iPAddress : List UInt8)
  | rid (registeredID : Asn1ObjectSt)

def GeneralName.type : GeneralName → Nat
  | .otherName _ => 0
  | .email _ => 1
  | .dns _ => 2
  | .x400 => 3
  | .dirName _ => 4
  | .ediParty => 5
  | .uri _ => 6
  | .ipadd _ => 7
  | .rid _ => 8

def genOthername : Nat := 0
def genEmail : Nat := 1
def nidIdOnSmtpUtf8Mailbox : Nat := 1208

structure GeneralSubtree where
  base : GeneralName
  minimum : Option Asn1String
  maximum : Option Asn1String

structure NameConstraints where
  permittedSubtrees : List GeneralSubtree
  excludedSubtrees : List GeneralSubtree

def asn1IntegerToBn (ai : Asn1String) : Option Int :=
  if ai.type &&& ~~~ vAsn1Neg ≠ vAsn1Integer then none
  else
    let magnitude := BigEndian.netValue (ai.data.getD [])
    some (if ai.neg then -magnitude else magnitude)

def ncMinmaxValid (sub : GeneralSubtree) : Bool :=
  let ok := sub.maximum.isNone
  match sub.minimum with
  | none => ok
  | some minimum => ok && asn1IntegerToBn minimum == some 0

def ncDn (nm base : X509Name) : NcResult :=
  match nm.canonEnc with
  | none => .outOfMem
  | some name =>
    match base.canonEnc with
    | none => .outOfMem
    | some base =>
      if name.length < base.length then .permittedViolation
      else if base ≠ name.take base.length then .permittedViolation
      else .ok

def ncDns (dns base : List UInt8) : NcResult :=
  if base.length = 0 then .ok
  else if dns.length < base.length then .permittedViolation
  else
    let dnsptr := dns.drop (dns.length - base.length)
    if base.length < dns.length ∧ base.headD 0 ≠ labelDot ∧
        dns.getD (dns.length - base.length - 1) 0 ≠ labelDot then .permittedViolation
    else if ia5ncasecmp base dnsptr base.length ≠ 0 then .permittedViolation
    else .ok

def urlSpan (stop : UInt8 → Bool) (s : List UInt8) : List UInt8 × List UInt8 := s.span (!stop ·)

def urlScheme : List UInt8 → Option (List UInt8 × List UInt8)
  | [] => none
  | c :: s =>
    if (c :: s).take 3 = [58, 47, 47] then some ([], s.drop 2)
    else (urlScheme s).map fun (scheme, rest) => (c :: scheme, rest)

def isSpace (c : UInt8) : Bool := c = 32 || (9 ≤ c && c ≤ 13)

/- sscanf with the format %u: an unsigned long, saturated, of which an unsigned int is kept. -/
def scanUnsigned (s : List UInt8) : Option Nat :=
  let s := s.dropWhile isSpace
  let (neg, s) := match s with
    | 43 :: s => (false, s)
    | 45 :: s => (true, s)
    | s => (false, s)
  let digits := s.takeWhile osslIsdigit
  if digits = [] then none
  else
    let value := digits.foldl (fun value c => value * 10 + (c.toNat - 48)) 0
    if 2 ^ 64 ≤ value then some ((2 ^ 64 - 1) % 2 ^ 32)
    else some ((if neg then (2 ^ 64 - value) % 2 ^ 64 else value) % 2 ^ 32)

def urlPathOk (p : List UInt8) : Bool :=
  match p with
  | [] => true
  | c :: _ => c = 47 || c = 63 || c = 35

def urlPortOk (p : List UInt8) : Bool :=
  match p with
  | 58 :: port =>
    match scanUnsigned port with
    | none => false
    | some portnum => decide (portnum ≤ 65535) && urlPathOk (port.dropWhile osslIsdigit)
  | p => urlPathOk p

def osslParseUrl (url : List UInt8) : Option (List UInt8 × List UInt8) :=
  let (scheme, p) := match urlScheme url with
    | none => (some [], url)
    | some (scheme, p) => (if scheme = [] then none else some scheme, p)
  match scheme with
  | none => none
  | some scheme =>
    let host := if atSign ∈ p then (urlSpan (· = atSign) p).2.tail else p
    match host with
    | 91 :: literal =>
      if 93 ∈ literal then
        let (inside, rest) := urlSpan (· = 93) literal
        if urlPortOk rest.tail then some (scheme, 91 :: inside ++ [93]) else none
      else none
    | host =>
      let (name, rest) := urlSpan (fun c => c = 58 || c = 47 || c = 63 || c = 35) host
      if urlPortOk rest then some (scheme, name) else none

def ncUri (uri base : List UInt8) : NcResult :=
  match osslParseUrl (cString uri) with
  | none => .unsupportedNameSyntax
  | some (scheme, host) =>
    if scheme = [] then .unsupportedNameSyntax
    else if 0 < base.length ∧ base.headD 0 = labelDot then
      if base.length < host.length ∧
          ia5ncasecmp (host.drop (host.length - base.length)) base base.length = 0 then .ok
      else .permittedViolation
    else if base.length ≠ host.length ∨ ia5ncasecmp host base host.length ≠ 0 then
      .permittedViolation
    else .ok

def ncIp (ip base : List UInt8) : NcResult :=
  if ¬ (ip.length = 4 ∨ ip.length = 16) then .unsupportedNameSyntax
  else if ¬ (base.length = 8 ∨ base.length = 32) then .unsupportedNameSyntax
  else if ip.length * 2 ≠ base.length then .permittedViolation
  else
    let mask := base.drop ip.length
    if zipWith (· &&& ·) ip mask ≠ zipWith (· &&& ·) (base.take ip.length) mask then
      .permittedViolation
    else .ok

def effectiveType (table : ObjTable) (gen : GeneralName) : Nat :=
  match gen with
  | .otherName other =>
    if osslObjObj2nid table other.typeId = nidIdOnSmtpUtf8Mailbox then genEmail else genOthername
  | gen => gen.type

def ncMatchSingle (ulabel : Nat → UInt8) (effective : Nat) (gen base : GeneralName) : NcResult :=
  match gen, base with
  | .otherName other, .email base =>
    if effective = genEmail then (ncEmailEai ulabel other.value base).result
    else .unsupportedConstraintType
  | .dirName nm, .dirName base => ncDn nm base
  | .dns dns, .dns base => ncDns dns base
  | .email eml, .email base => (ncEmail eml base).result
  | .uri uri, .uri base => ncUri uri base
  | .ipadd ip, .ipadd base => ncIp ip base
  | _, _ => .unsupportedConstraintType

def objCmp (a b : Asn1ObjectSt) : Bool := a.length == b.length && a.contents == b.contents

def ncApplies (effective : Nat) (gen : GeneralName) (sub : GeneralSubtree) : Bool :=
  effective == sub.base.type &&
    match gen, sub.base with
    | .otherName other, .otherName base =>
      effective != genOthername || objCmp other.typeId base.typeId
    | _, _ => true

inductive NcMatched where
  | notSeen
  | seen
  | matched
  deriving DecidableEq

section
variable (single : GeneralName → NcResult) (applies : GeneralSubtree → Bool)

def ncPermittedRounds : List GeneralSubtree → NcMatched → Except NcResult NcMatched
  | [], found => .ok found
  | sub :: rest, found =>
    if applies sub = false then ncPermittedRounds rest found
    else if ncMinmaxValid sub = false then .error .subtreeMinmax
    else if found = .matched then ncPermittedRounds rest found
    else
      match single sub.base with
      | .ok => ncPermittedRounds rest .matched
      | .permittedViolation => ncPermittedRounds rest .seen
      | r => .error r

def ncExcludedRounds : List GeneralSubtree → NcResult
  | [] => .ok
  | sub :: rest =>
    if applies sub = false then ncExcludedRounds rest
    else if ncMinmaxValid sub = false then .subtreeMinmax
    else
      match single sub.base with
      | .ok => .excludedViolation
      | .permittedViolation => ncExcludedRounds rest
      | r => r

def ncMatchLists (permitted excluded : List GeneralSubtree) : NcResult :=
  match ncPermittedRounds single applies permitted .notSeen with
  | .error r => r
  | .ok .seen => .permittedViolation
  | .ok _ => ncExcludedRounds single applies excluded

end

def ncMatch (table : ObjTable) (ulabel : Nat → UInt8) (gen : GeneralName) (nc : NameConstraints) :
    NcResult :=
  let effective := effectiveType table gen
  ncMatchLists (ncMatchSingle ulabel effective gen) (ncApplies effective gen)
    nc.permittedSubtrees nc.excludedSubtrees

def FirstMatch (single : GeneralName → NcResult) (applies : GeneralSubtree → Bool)
    (subs : List GeneralSubtree) : Prop :=
  ∃ before sub after, subs = before ++ sub :: after ∧ applies sub = true ∧
    single sub.base = .ok ∧ ∀ other ∈ before, applies other = true →
      single other.base = .permittedViolation

def MinmaxValid (applies : GeneralSubtree → Bool) (subs : List GeneralSubtree) : Prop :=
  ∀ sub ∈ subs, applies sub = true → ncMinmaxValid sub = true

section
variable {single : GeneralName → NcResult} {applies : GeneralSubtree → Bool}

variable {sub : GeneralSubtree} {excluded permitted rest : List GeneralSubtree}

theorem minmaxValid_cons : MinmaxValid applies (sub :: rest) ↔
      (applies sub = true → ncMinmaxValid sub = true) ∧ MinmaxValid applies rest := by
  simp [MinmaxValid]

theorem firstMatch_cons : FirstMatch single applies (sub :: rest) ↔
      (applies sub = true ∧ single sub.base = .ok) ∨
        ((applies sub = true → single sub.base = .permittedViolation) ∧
          FirstMatch single applies rest) := by
  constructor
  · rintro ⟨before, found, after, split, applied, matched, unmatched⟩
    cases before with
    | nil =>
      obtain ⟨rfl, rfl⟩ := cons.inj split
      exact .inl ⟨applied, matched⟩
    | cons first before =>
      obtain ⟨rfl, rfl⟩ := cons.inj split
      exact .inr ⟨unmatched sub mem_cons_self, before, found, after, rfl, applied, matched,
        fun other member => unmatched other (mem_cons_of_mem sub member)⟩
  · rintro (⟨applied, matched⟩ | ⟨first, before, found, after, rfl, applied, matched, unmatched⟩)
    · exact ⟨[], sub, rest, rfl, applied, matched, fun _ never => by simp at never⟩
    · refine ⟨sub :: before, found, after, rfl, applied, matched, fun other member => ?_⟩
      rcases mem_cons.mp member with rfl | later
      · exact first
      · exact unmatched other later

/-- After a match only the minimum and maximum are looked at. -/
theorem ncPermittedRounds_matched (subs : List GeneralSubtree) (found : NcMatched) :
    ncPermittedRounds single applies subs .matched = .ok found ↔
      found = .matched ∧ MinmaxValid applies subs := by
  induction subs with
  | nil =>
    constructor
    · rintro ⟨⟩
      exact ⟨rfl, by simp [MinmaxValid]⟩
    · rintro ⟨rfl, _⟩
      rfl
  | cons sub rest ih =>
    rw [minmaxValid_cons]
    by_cases skipped : applies sub = false
    · simp [ncPermittedRounds, skipped, ih]
    · cases valid : ncMinmaxValid sub <;> simp_all [ncPermittedRounds]

/-- Before a match, the outcome is that of the first subtree that matches, or has a fault. -/
theorem ncPermittedRounds_ok (subs : List GeneralSubtree) (found : NcMatched)
    (unmatched : found ≠ .matched) (after : NcMatched) :
    ncPermittedRounds single applies subs found = .ok after ↔
      MinmaxValid applies subs ∧
        (after = .matched ∧ FirstMatch single applies subs ∨
          after = (if ∃ sub ∈ subs, applies sub = true then .seen else found) ∧
            ∀ sub ∈ subs, applies sub = true → single sub.base = .permittedViolation) := by
  induction subs generalizing found with
  | nil =>
    constructor
    · rintro ⟨⟩
      exact ⟨by simp [MinmaxValid], .inr ⟨by simp, by simp⟩⟩
    · rintro ⟨_, ⟨_, never⟩ | ⟨same, _⟩⟩
      · simp [FirstMatch] at never
      · rw [same]
        rfl
  | cons sub rest ih =>
    rw [minmaxValid_cons, firstMatch_cons]
    by_cases skipped : applies sub = false
    · simp [ncPermittedRounds, skipped, ih found unmatched]
    · rw [Bool.not_eq_false] at skipped
      cases valid : ncMinmaxValid sub with
      | false => simp [ncPermittedRounds, skipped, valid]
      | true =>
        rw [ncPermittedRounds, if_neg (by simp [skipped]), if_neg (by simp [valid]),
          if_neg unmatched]
        cases outcome : single sub.base with
        | ok => simp [ncPermittedRounds_matched, skipped, outcome, and_comm]
        | permittedViolation =>
          simp [ih .seen (by decide), skipped, outcome]
        | _ => simp [skipped, outcome]

theorem ncExcludedRounds_ok (subs : List GeneralSubtree) :
    ncExcludedRounds single applies subs = .ok ↔
      MinmaxValid applies subs ∧
        ∀ sub ∈ subs, applies sub = true → single sub.base = .permittedViolation := by
  induction subs with
  | nil => simp [ncExcludedRounds, MinmaxValid]
  | cons sub rest ih =>
    rw [minmaxValid_cons]
    by_cases skipped : applies sub = false
    · simp [ncExcludedRounds, skipped, ih]
    · rw [Bool.not_eq_false] at skipped
      cases valid : ncMinmaxValid sub with
      | false => simp [ncExcludedRounds, skipped, valid]
      | true =>
        rw [ncExcludedRounds, if_neg (by simp [skipped]), if_neg (by simp [valid])]
        cases outcome : single sub.base <;> simp [skipped, outcome, ih]

theorem minmaxValid_append : MinmaxValid applies (permitted ++ excluded) ↔
      MinmaxValid applies permitted ∧ MinmaxValid applies excluded := by
  simp [MinmaxValid, or_imp, forall_and]

variable {subs : List GeneralSubtree}

theorem ncPermittedRounds_error {found : NcMatched} {r : NcResult}
    (fails : ncPermittedRounds single applies subs found = .error r) : r ≠ .ok := by
  induction subs generalizing found with
  | nil => simp [ncPermittedRounds] at fails
  | cons sub rest ih =>
    rw [ncPermittedRounds] at fails
    split_ifs at fails
    · exact ih fails
    · cases fails
      simp
    · exact ih fails
    · cases outcome : single sub.base <;> rw [outcome] at fails
      · exact ih fails
      · exact ih fails
      all_goals
        cases fails
        simp

theorem firstMatch_mem (first : FirstMatch single applies subs) :
    ∃ sub ∈ subs, applies sub = true ∧ single sub.base = .ok := by
  obtain ⟨before, sub, after, rfl, applied, matched, _⟩ := first
  exact ⟨sub, by simp, applied, matched⟩

theorem ncMatchLists_ok (permitted excluded : List GeneralSubtree) :
    ncMatchLists single applies permitted excluded = .ok ↔
      MinmaxValid applies (permitted ++ excluded) ∧
        ((∀ sub ∈ permitted, applies sub = false) ∨ FirstMatch single applies permitted) ∧
        ∀ sub ∈ excluded, applies sub = true → single sub.base = .permittedViolation := by
  have rounds := @ncPermittedRounds_ok single applies permitted .notSeen (by decide)
  unfold ncMatchLists
  rw [minmaxValid_append]
  cases outcome : ncPermittedRounds single applies permitted .notSeen with
  | error r =>
    refine ⟨fun never => absurd never (ncPermittedRounds_error outcome), ?_⟩
    rintro ⟨⟨valid, _⟩, none_ | first, _⟩
    · have passes := (rounds .notSeen).mpr ⟨valid, Or.inr ⟨by
        rw [if_neg (by simpa using none_)], fun sub member applied => by
          simp [none_ sub member] at applied⟩⟩
      rw [outcome] at passes
      contradiction
    · have passes := (rounds .matched).mpr ⟨valid, Or.inl ⟨rfl, first⟩⟩
      rw [outcome] at passes
      contradiction
  | ok found =>
    obtain ⟨valid, ⟨rfl, first⟩ | ⟨counted, unmatched⟩⟩ := (rounds found).mp outcome
    · simp [ncExcludedRounds_ok, valid, first]
    · by_cases any : ∃ sub ∈ permitted, applies sub = true
      · rw [if_pos any] at counted
        subst counted
        refine ⟨fun never => by simp at never, ?_⟩
        rintro ⟨_, none_ | first, _⟩
        · obtain ⟨sub, member, applied⟩ := any
          simp [none_ sub member] at applied
        · obtain ⟨sub, member, applied, matched⟩ := firstMatch_mem first
          rw [unmatched sub member applied] at matched
          contradiction
      · rw [if_neg any] at counted
        subst counted
        have none_ : ∀ sub ∈ permitted, applies sub = false := by simpa using any
        simp [ncExcludedRounds_ok, valid, Or.inl none_]

/-- A first match is any match, where every syntax is supported. -/
theorem firstMatch_iff
    (supported : ∀ sub ∈ subs, applies sub = true →
      single sub.base = .ok ∨ single sub.base = .permittedViolation) :
    FirstMatch single applies subs ↔ ∃ sub ∈ subs, applies sub = true ∧ single sub.base = .ok := by
  induction subs with
  | nil => simp [FirstMatch]
  | cons sub rest ih =>
    rw [firstMatch_cons, ih fun other member => supported other (mem_cons_of_mem sub member)]
    have here := supported sub mem_cons_self
    simp only [exists_mem_cons_iff]
    by_cases matched : applies sub = true ∧ single sub.base = .ok
    · simp [matched]
    · simp only [matched, false_or, and_iff_right_iff_imp]
      rintro _ applied
      rcases here applied with same | same
      · exact absurd ⟨applied, same⟩ matched
      · exact same

theorem minmaxValid_perm {other : List GeneralSubtree} (same : subs.Perm other) :
    MinmaxValid applies subs ↔ MinmaxValid applies other := by
  simp only [MinmaxValid, same.mem_iff]

/-- The order of the excluded subtrees does not count, nor that of permitted subtrees of supported
    syntax. -/
theorem ncMatchLists_perm {permitted' excluded' : List GeneralSubtree}
    (same : permitted.Perm permitted') (same' : excluded.Perm excluded')
    (ordered : permitted = permitted' ∨ ∀ sub ∈ permitted, applies sub = true →
      single sub.base = .ok ∨ single sub.base = .permittedViolation) :
    ncMatchLists single applies permitted excluded = .ok ↔
      ncMatchLists single applies permitted' excluded' = .ok := by
  have first : FirstMatch single applies permitted ↔ FirstMatch single applies permitted' := by
    rcases ordered with rfl | supported
    · exact Iff.rfl
    · rw [firstMatch_iff supported, firstMatch_iff fun sub member =>
        supported sub (same.mem_iff.mpr member)]
      simp only [same.mem_iff]
  rw [ncMatchLists_ok, ncMatchLists_ok, minmaxValid_perm (same.append same'), first]
  simp only [same.mem_iff, same'.mem_iff]

end

/-- A name is acceptable if all subtrees of its type have a valid minimum and maximum, there is no
    permitted one or one matches with none of unsupported syntax before it, and the excluded ones
    are of supported syntax and do not match. -/
theorem ncMatch_verdict (table : ObjTable) (ulabel : Nat → UInt8) (gen : GeneralName)
    (nc : NameConstraints) :
    (ncMatch table ulabel gen nc = .ok ↔ MinmaxValid (ncApplies (effectiveType table gen) gen)
          (nc.permittedSubtrees ++ nc.excludedSubtrees) ∧
        ((∀ sub ∈ nc.permittedSubtrees, ncApplies (effectiveType table gen) gen sub = false) ∨
          FirstMatch (ncMatchSingle ulabel (effectiveType table gen) gen)
            (ncApplies (effectiveType table gen) gen) nc.permittedSubtrees) ∧
        ∀ sub ∈ nc.excludedSubtrees, ncApplies (effectiveType table gen) gen sub = true →
          ncMatchSingle ulabel (effectiveType table gen) gen sub.base = .permittedViolation) ∧
    ∀ other : NameConstraints, nc.permittedSubtrees.Perm other.permittedSubtrees →
      nc.excludedSubtrees.Perm other.excludedSubtrees →
      (nc.permittedSubtrees = other.permittedSubtrees ∨
        ∀ sub ∈ nc.permittedSubtrees, ncApplies (effectiveType table gen) gen sub = true →
          ncMatchSingle ulabel (effectiveType table gen) gen sub.base = .ok ∨
          ncMatchSingle ulabel (effectiveType table gen) gen sub.base = .permittedViolation) →
      (ncMatch table ulabel gen nc = .ok ↔ ncMatch table ulabel gen other = .ok) :=
  ⟨ncMatchLists_ok _ _, fun _ same same' ordered => ncMatchLists_perm same same' ordered⟩

def networkTen : GeneralSubtree := ⟨.ipadd [10, 0, 0, 0, 255, 0, 0, 0], none, none⟩
def networkEleven : GeneralSubtree := ⟨.ipadd [11, 0, 0, 0, 255, 0, 0, 0], none, none⟩
def noNetwork : GeneralSubtree := ⟨.ipadd [10, 0], none, none⟩

theorem ncMatch_verdict_ten :
    ncMatch noObjects (fun _ => 0) (.ipadd [10, 1, 2, 3])
        ⟨[networkTen, networkEleven], [networkEleven, noNetwork]⟩ = .ok ↔
      ncMatch noObjects (fun _ => 0) (.ipadd [10, 1, 2, 3])
        ⟨[networkEleven, networkTen], [noNetwork, networkEleven]⟩ = .ok :=
  (ncMatch_verdict noObjects (fun _ => 0) (.ipadd [10, 1, 2, 3])
    ⟨[networkTen, networkEleven], [networkEleven, noNetwork]⟩).2
    ⟨[networkEleven, networkTen], [noNetwork, networkEleven]⟩
    (List.Perm.swap _ _ _) (List.Perm.swap _ _ _) (.inr (by decide +kernel))

/-- A permitted base without syntax is passed after a match, and refused before it. -/
theorem ncMatch_order :
    ¬ ∀ (table : ObjTable) (ulabel : Nat → UInt8) (gen : GeneralName) (nc : NameConstraints),
      (∀ other : NameConstraints, nc.permittedSubtrees.Perm other.permittedSubtrees →
        nc.excludedSubtrees.Perm other.excludedSubtrees →
        (ncMatch table ulabel gen nc = .ok ↔ ncMatch table ulabel gen other = .ok)) ∧
      (ncMatch table ulabel gen nc = .ok ↔ (∀ sub ∈ nc.permittedSubtrees ++ nc.excludedSubtrees,
          ncApplies (effectiveType table gen) gen sub = true → ncMinmaxValid sub = true ∧
            (ncMatchSingle ulabel (effectiveType table gen) gen sub.base = .ok ∨
              ncMatchSingle ulabel (effectiveType table gen) gen sub.base = .permittedViolation)) ∧
        ((∀ sub ∈ nc.permittedSubtrees, ncApplies (effectiveType table gen) gen sub = false) ∨
          ∃ sub ∈ nc.permittedSubtrees, ncApplies (effectiveType table gen) gen sub = true ∧
            ncMatchSingle ulabel (effectiveType table gen) gen sub.base = .ok) ∧
        ∀ sub ∈ nc.excludedSubtrees, ncApplies (effectiveType table gen) gen sub = true →
          ncMatchSingle ulabel (effectiveType table gen) gen sub.base ≠ .ok) := by
  intro claim
  have permuted := (claim noObjects (fun _ => 0) (.ipadd [10, 1, 2, 3])
    ⟨[networkTen, noNetwork], []⟩).1 ⟨[noNetwork, networkTen], []⟩ (List.Perm.swap _ _ _)
    (List.Perm.refl _)
  exact absurd (permuted.mp (by decide +kernel)) (by decide +kernel)

end Ossl
