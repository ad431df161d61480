import OpenSSL.Lib.StickyScan
import OpenSSL.X509.DoCheck

/- Whether the answer of do_x509_check depends on the order of the entries. -/
namespace Ossl
open Prod List Option StickyScan

def SanEntry.WellFormed : SanEntry → Prop
  | .otherName smtp value =>
    smtp = true → value.type = vUtf8String → (asn1StringToUtf8 value).isSome = true
  | .email s => s.type = vIa5String
  | .dns s => s.type = vIa5String
  | .ipadd s => s.type = vOctetString
  | .unused => True

def isMailbox (checkType : GenType) : SanEntry → Bool
  | .otherName smtp value => smtp && decide (checkType = .email ∧ value.type = vUtf8String)
  | _ => false

def looked (checkType : GenType) (g : SanEntry) : Bool := (candidate checkType 0 g).isSome

def CheckResult.found : CheckResult → Bool
  | .ok (some _) => true
  | _ => false

def entryHits (checkType : GenType) (equal : EqualFn) (flags : X509CheckFlags) (name : List UInt8)
    (altType : Int) (g : SanEntry) : Bool :=
  match candidate checkType altType g with
  | none => false
  | some (cstr, altType) => CheckResult.found (doCheckString cstr altType equal flags name)

section Entries
variable {checkType : GenType} (equal : EqualFn) (flags : X509CheckFlags) (name : List UInt8)

variable {g : SanEntry} {s : Asn1Text}

theorem mailbox_candidate (mailbox : isMailbox checkType g = true) (altType : Int) :
    ∃ s, candidate checkType altType g = some (s, 0) := by
  cases g with
  | otherName smtp value =>
    simp only [isMailbox, Bool.and_eq_true, decide_eq_true_eq] at mailbox
    exact ⟨value, by simp [candidate, mailbox]⟩
  | email s => contradiction
  | dns s => contradiction
  | ipadd s => contradiction
  | unused => contradiction

theorem plain_candidate (plain : isMailbox checkType g = false) {altType : Int} {next : Int}
    (found : candidate checkType altType g = some (s, next)) : next = altType := by
  cases g with
  | otherName smtp value =>
    simp only [isMailbox, candidate] at plain found
    split at found
    · rename_i is
      simp [is] at plain
    · contradiction
  | email t =>
    simp only [candidate, ite_none_right_eq_some, some.injEq, mk.injEq] at found
    exact found.2.2.symm
  | dns t =>
    simp only [candidate, ite_none_right_eq_some, some.injEq, mk.injEq] at found
    exact found.2.2.symm
  | ipadd t =>
    simp only [candidate, ite_none_right_eq_some, some.injEq, mk.injEq] at found
    exact found.2.2.symm
  | unused => contradiction

theorem looked_eq (altType : Int) (g : SanEntry) :
    looked checkType g = (candidate checkType altType g).isSome := by
  cases g <;> simp [looked, candidate] <;> split <;> rfl

theorem mailbox_looked (mailbox : isMailbox checkType g = true) : looked checkType g = true := by
  obtain ⟨s, found⟩ := mailbox_candidate mailbox 0
  rw [looked, found]
  rfl

theorem mailbox_hits (mailbox : isMailbox checkType g = true) (a b : Int) :
    entryHits checkType equal flags name a g = entryHits checkType equal flags name b g := by
  cases g with
  | otherName smtp value =>
    simp [entryHits, candidate]
  | email s => contradiction
  | dns s => contradiction
  | ipadd s => contradiction
  | unused => contradiction

theorem doCheckString_typed {cmpType : Int} (typed : 0 < cmpType) :
    ∃ r, doCheckString s cmpType equal flags name = .ok r := by
  unfold doCheckString
  split
  · exact ⟨_, rfl⟩
  · split
    · exact ⟨_, rfl⟩
    · exact ⟨_, rfl⟩

theorem doCheckString_converted (utf8 : (asn1StringToUtf8 s).isSome = true) :
    ∃ r, doCheckString s 0 equal flags name = .ok r := by
  obtain ⟨out, conv⟩ := isSome_iff_exists.mp utf8
  unfold doCheckString
  split
  · exact ⟨_, rfl⟩
  · simp only [Int.lt_irrefl, if_false, conv]
    exact ⟨_, rfl⟩

theorem altType_pos (checkType : GenType) : 0 < checkAltType checkType := by
  cases checkType <;> decide

variable {leaked : Bool}

/-- A well-formed entry never fails to be compared. -/
theorem candidate_checked (good : g.WellFormed) (email : leaked = true → checkType = .email)
    {next : Int}
    (found : candidate checkType (if leaked then 0 else checkAltType checkType) g =
      some (s, next)) : ∃ r, doCheckString s next equal flags name = .ok r := by
  cases mailbox : isMailbox checkType g with
  | true =>
    cases g with
    | otherName smtp value =>
      simp only [isMailbox, Bool.and_eq_true, decide_eq_true_eq] at mailbox
      simp only [candidate, mailbox, and_self, if_true, Option.some.injEq, mk.injEq] at found
      obtain ⟨rfl, rfl⟩ := found
      exact doCheckString_converted equal flags name (good mailbox.1 mailbox.2.2)
    | email s => contradiction
    | dns s => contradiction
    | ipadd s => contradiction
    | unused => contradiction
  | false =>
    have same := plain_candidate mailbox found
    cases leaked with
    | false => exact doCheckString_typed equal flags name (same ▸ altType_pos checkType)
    | true =>
      have mail := email rfl
      subst mail same
      cases g with
      | otherName smtp value =>
        simp only [candidate] at found
        split at found
        · rename_i is
          simp [isMailbox, is] at mailbox
        · contradiction
      | email t =>
        obtain ⟨rfl, -⟩ := found
        obtain ⟨out, conv⟩ := ia5_to_utf8 good
        exact doCheckString_converted equal flags name (by rw [conv]; rfl)
      | dns t => contradiction
      | ipadd t => contradiction
      | unused => contradiction

theorem entry_test (leaked : Bool) (g : SanEntry) :
    (if leaked || isMailbox checkType g then entryHits checkType equal flags name 0 g
      else entryHits checkType equal flags name (checkAltType checkType) g) =
      entryHits checkType equal flags name (if leaked then 0 else checkAltType checkType) g := by
  cases leaked with
  | true => rfl
  | false =>
    cases mailbox : isMailbox checkType g with
    | true => exact mailbox_hits equal flags name mailbox _ _
    | false => rfl

theorem candidate_next {next : Int}
    (found : candidate checkType (if leaked then 0 else checkAltType checkType) g =
      some (s, next)) :
    next = if leaked || isMailbox checkType g then 0 else checkAltType checkType := by
  cases mailbox : isMailbox checkType g with
  | true =>
    obtain ⟨t, candidate_⟩ :=
      mailbox_candidate mailbox (if leaked then 0 else checkAltType checkType)
    rw [candidate_, some.injEq, mk.injEq] at found
    simp [← found.2]
  | false => simpa using plain_candidate mailbox found

theorem mailbox_email (mailbox : isMailbox checkType g = true) : checkType = .email := by
  cases g with
  | otherName smtp value =>
    simp only [isMailbox, Bool.and_eq_true, decide_eq_true_eq] at mailbox
    exact mailbox.2.1
  | email s => contradiction
  | dns s => contradiction
  | ipadd s => contradiction
  | unused => contradiction

/-- The entries are a search whose test changes at the first mailbox. -/
theorem sanRounds_spec {gens : List SanEntry} (good : ∀ g ∈ gens, g.WellFormed) {leaked : Bool}
    (email : leaked = true → checkType = .email) (present : Bool) :
    let rounds := sanRounds checkType equal flags name gens
      (if leaked then 0 else checkAltType checkType) present
    let hit := stickyAny (isMailbox checkType)
      (entryHits checkType equal flags name (checkAltType checkType))
      (entryHits checkType equal flags name 0) leaked gens
    (hit = true → ∃ t, rounds.1 = .ok (some t)) ∧
      (hit = false → rounds = (.ok none, present || gens.any (looked checkType))) := by
  induction gens generalizing leaked present with
  | nil => simp [sanRounds, stickyAny]
  | cons g rest ih =>
    have others := fun h mem => good h (mem_cons_of_mem g mem)
    have first := good g mem_cons_self
    have test := @entry_test checkType equal flags name leaked g
    simp only [stickyAny, test]
    cases found : candidate checkType (if leaked then 0 else checkAltType checkType) g with
    | none =>
      have unlooked : looked checkType g = false := by rw [looked_eq _ g, found]; rfl
      have plain : isMailbox checkType g = false := by
        cases mailbox : isMailbox checkType g with
        | true => rw [mailbox_looked mailbox] at unlooked; contradiction
        | false => rfl
      simpa [sanRounds, entryHits, found, unlooked, plain] using ih others email present
    | some c =>
      have seen : looked checkType g = true := by rw [looked_eq _ g, found]; rfl
      obtain ⟨r, checked⟩ := candidate_checked equal flags name first email found
      have next_ := candidate_next found
      cases r with
      | some t => simp [sanRounds, entryHits, found, checked, CheckResult.found]
      | none =>
        have still : (leaked || isMailbox checkType g) = true → checkType = .email := by
          intro some_
          cases mailbox : isMailbox checkType g with
          | true => exact mailbox_email mailbox
          | false => exact email (by simpa [mailbox] using some_)
        have tail := ih others still true
        rw [← next_] at tail
        simpa [sanRounds, entryHits, found, checked, CheckResult.found, seen] using tail

def SubjectMatches (equal : EqualFn) (flags : X509CheckFlags) (name : List UInt8)
    (names : List Asn1Text) : Prop :=
  ∃ front s back t, names = front ++ s :: back ∧
    (∀ f ∈ front, doCheckString f (-1) equal flags name = .ok none) ∧
    doCheckString s (-1) equal flags name = .ok (some t)

theorem subjectRounds_iff (names : List Asn1Text) :
    checkAnswer (subjectRounds equal flags name names) = 1 ↔
      SubjectMatches equal flags name names := by
  constructor
  · intro answer
    induction names with
    | nil => simp [subjectRounds, checkAnswer] at answer
    | cons s rest ih =>
      simp only [subjectRounds] at answer
      cases checked : doCheckString s (-1) equal flags name with
      | error e =>
        rw [checked] at answer
        contradiction
      | ok r =>
        cases r with
        | none =>
          rw [checked] at answer
          obtain ⟨front, s', back, t, split_, none_, hit⟩ := ih answer
          refine ⟨s :: front, s', back, t, by simp [split_], ?_, hit⟩
          simpa [checked] using none_
        | some t => exact ⟨[], s, rest, t, rfl, by simp, checked⟩
  · rintro ⟨front, s, back, t, rfl, none_, hit⟩
    induction front with
    | nil => simp [subjectRounds, hit, checkAnswer]
    | cons f front ih =>
      have first := none_ f mem_cons_self
      simpa [subjectRounds, first] using ih fun g mem => none_ g (mem_cons_of_mem f mem)

end Entries

def SubjectDecides (x : X509Names) (chk : List UInt8) (chklen : Nat) (flags : DoCheckFlags)
    (checkType : GenType) : Prop :=
  flags.alwaysCheckSubject = true ∧ flags.neverCheckSubject = false ∧
    ∃ cnid, checkAttribute checkType = some cnid ∧
      SubjectMatches (checkEqual checkType flags) (checkFlags checkType chk chklen flags)
        (checkName chk chklen) ((x.subject.filter fun ne => ne.1 = cnid).map (·.2))

theorem checkSubject_iff (x : X509Names) (chk : List UInt8) (chklen : Nat) (flags : DoCheckFlags)
    (checkType : GenType) :
    checkAnswer (checkSubject x (checkName chk chklen) flags
        (checkFlags checkType chk chklen flags) checkType true) = 1 ↔
      SubjectDecides x chk chklen flags checkType := by
  unfold checkSubject SubjectDecides
  cases always : flags.alwaysCheckSubject with
  | false => simp [checkAnswer]
  | true =>
    cases attribute_ : checkAttribute checkType with
    | none => simp [checkAnswer]
    | some cnid =>
      cases never : flags.neverCheckSubject with
      | true => simp [checkAnswer]
      | false => simpa using subjectRounds_iff _ _ _ _

def nameHits (chk : List UInt8) (chklen : Nat) (flags : DoCheckFlags) (checkType : GenType)
    (altType : Int) (g : SanEntry) : Bool :=
  entryHits checkType (checkEqual checkType flags) (checkFlags checkType chk chklen flags)
    (checkName chk chklen) altType g

/- A mailbox makes the entries after it compared in another way, and the answer
   hangs on it. -/
structure MailboxDecides (x : X509Names) (gens : List SanEntry) (chk : List UInt8) (chklen : Nat)
    (flags : DoCheckFlags) (checkType : GenType) : Prop where
  unstable : Unstable (isMailbox checkType)
    (nameHits chk chklen flags checkType (checkAltType checkType))
    (nameHits chk chklen flags checkType 0) gens
  subject : ¬ SubjectDecides x chk chklen flags checkType

section Answers
variable (x : X509Names) (chk : List UInt8) (chklen : Nat) (flags : DoCheckFlags)
  (checkType : GenType)

def sanFound (gens : List SanEntry) : Bool :=
  stickyAny (isMailbox checkType) (nameHits chk chklen flags checkType (checkAltType checkType))
    (nameHits chk chklen flags checkType 0) false gens

/-- The answer is one if the entries give a match, and else that of the subject. -/
theorem doX509Check_answer {gens : List SanEntry} (good : ∀ g ∈ gens, g.WellFormed) :
    checkAnswer (doX509Check { x with subjectAltName := some gens } chk chklen flags checkType) =
      if sanFound chk chklen flags checkType gens then 1
      else
        checkAnswer (checkSubject x (checkName chk chklen) flags
          (checkFlags checkType chk chklen flags) checkType (gens.any (looked checkType))) := by
  have rounds := @sanRounds_spec checkType (checkEqual checkType flags)
    (checkFlags checkType chk chklen flags) (checkName chk chklen) gens good false
    (by simp) false
  simp only [Bool.false_eq_true, if_false, Bool.false_or] at rounds
  simp only [doX509Check, getD_some]
  cases hit : sanFound chk chklen flags checkType gens with
  | true =>
    obtain ⟨t, found⟩ := rounds.1 hit
    rcases pair : sanRounds checkType (checkEqual checkType flags)
      (checkFlags checkType chk chklen flags) (checkName chk chklen) gens
      (checkAltType checkType) false with ⟨r, present⟩
    rw [pair] at found
    simp only at found
    simp [found, checkAnswer]
  | false =>
    rw [rounds.2 hit]
    rfl

/-- The answer for well-formed entries is the same in every order of them,
    unless a mailbox among them decides it. -/
theorem san_order_iff (gens : List SanEntry) (good : ∀ g ∈ gens, g.WellFormed) :
    (∀ gens', gens'.Perm gens →
        checkAnswer (doX509Check { x with subjectAltName := some gens' } chk chklen flags
          checkType) =
        checkAnswer (doX509Check { x with subjectAltName := some gens } chk chklen flags
          checkType)) ↔
      ¬ MailboxDecides x gens chk chklen flags checkType := by
  have same : ∀ g, isMailbox checkType g = true →
      nameHits chk chklen flags checkType (checkAltType checkType) g =
        nameHits chk chklen flags checkType 0 g :=
    fun g mailbox => mailbox_hits _ _ _ mailbox _ _
  constructor
  · intro stays decides
    obtain ⟨m, found_perm, found⟩ := unstable_found decides.unstable
    obtain ⟨n, missed_perm, missed⟩ := unstable_missed decides.unstable
    obtain ⟨s, mem, mailbox⟩ := decides.unstable.switched
    have yes := doX509Check_answer x chk chklen flags checkType fun g mem =>
      good g (found_perm.mem_iff.mp mem)
    have no := doX509Check_answer x chk chklen flags checkType fun g mem =>
      good g (missed_perm.mem_iff.mp mem)
    have present : n.any (looked checkType) = true :=
      List.any_eq_true.mpr ⟨s, missed_perm.mem_iff.mpr mem, mailbox_looked mailbox⟩
    rw [stays m found_perm, ← stays n missed_perm, no, present, sanFound, missed, sanFound, found,
      if_neg Bool.false_ne_true, if_pos rfl] at yes
    exact decides.subject ((checkSubject_iff x chk chklen flags checkType).mp yes)
  · intro free gens' perm
    have present : gens'.any (looked checkType) = gens.any (looked checkType) := perm.any_eq
    rw [doX509Check_answer x chk chklen flags checkType good,
      doX509Check_answer x chk chklen flags checkType fun g mem =>
        good g (perm.mem_iff.mp mem), present]
    by_cases unstable : Unstable (isMailbox checkType)
        (nameHits chk chklen flags checkType (checkAltType checkType))
        (nameHits chk chklen flags checkType 0) gens
    · have decides : SubjectDecides x chk chklen flags checkType := by
        by_contra not_
        exact free ⟨unstable, not_⟩
      obtain ⟨s, mem, mailbox⟩ := unstable.switched
      have some_ : gens.any (looked checkType) = true :=
        List.any_eq_true.mpr ⟨s, mem, mailbox_looked mailbox⟩
      rw [some_, (checkSubject_iff x chk chklen flags checkType).mpr decides, ite_self, ite_self]
    · have stable : sanFound chk chklen flags checkType gens' =
          sanFound chk chklen flags checkType gens := stickyAny_perm same perm unstable
      rw [stable]

end Answers

def plainFlags : DoCheckFlags := ⟨noFlags, false, false, false⟩

/- A mailbox "a", and an rfc822Name with the octet 0xE9, whose UTF-8 is asked for. -/
def latinEntries : List SanEntry :=
  [.otherName true ⟨vUtf8String, [97]⟩, .email ⟨vIa5String, [0xe9]⟩]

theorem latin_entries_good : ∀ g ∈ latinEntries, g.WellFormed := by
  intro g mem
  simp only [latinEntries, mem_cons, not_mem_nil, or_false] at mem
  cases mem with
  | inl mailbox =>
    subst mailbox
    exact fun _ _ => by decide
  | inr email =>
    subst email
    rfl

theorem san_order_iff_latin :
    (∀ gens', gens'.Perm latinEntries →
        checkAnswer (doX509Check ⟨some gens', []⟩ [0xc3, 0xa9] 2 plainFlags .email) =
        checkAnswer (doX509Check ⟨some latinEntries, []⟩ [0xc3, 0xa9] 2 plainFlags .email)) ↔
      ¬ MailboxDecides ⟨none, []⟩ latinEntries [0xc3, 0xa9] 2 plainFlags .email :=
  san_order_iff ⟨none, []⟩ [0xc3, 0xa9] 2 plainFlags .email latinEntries latin_entries_good

theorem san_order_matters :
    ¬ ∀ (x : X509Names) (gens gens' : List SanEntry), (∀ g ∈ gens, g.WellFormed) →
      gens'.Perm gens → ∀ chk chklen flags checkType,
        checkAnswer (doX509Check { x with subjectAltName := some gens' } chk chklen flags
          checkType) =
        checkAnswer (doX509Check { x with subjectAltName := some gens } chk chklen flags
          checkType) := by
  intro all
  have same := all ⟨none, []⟩ latinEntries latinEntries.reverse latin_entries_good
    (reverse_perm _) [0xc3, 0xa9] 2 plainFlags .email
  exact absurd same (by decide)

end Ossl
