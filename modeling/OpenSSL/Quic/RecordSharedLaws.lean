import OpenSSL.Quic.RecordShared
import Mathlib.Logic.Function.Basic

/- Which failed key operations of ssl/quic/quic_record_shared.c leave an encryption level as it
   was: its state, key epoch and next secret, and which keyslots hold a key. -/
namespace Ossl
open Function
variable {Md : Type*}

structure LevelKept (el el' : QrlEncLevel Md) : Prop where
  state : el'.state = el.state
  keyEpoch : el'.keyEpoch = el.keyEpoch
  ku : el'.ku = el.ku
  slots : ∀ keyslot, (el'.cctx keyslot).isSome = (el.cctx keyslot).isSome

theorem LevelKept.refl (el : QrlEncLevel Md) : LevelKept el el := ⟨rfl, rfl, rfl, fun _ => rfl⟩

def SetKept (els els' : QrlEncLevelSet Md) : Prop := ∀ level, LevelKept (els level) (els' level)

def slotSetUp (crypto : QrlCrypto Md) (fails : QrlCall → Bool) (suiteId : Nat) (keyslot : Fin 2)
    (secretLen : Nat) : Bool :=
  match getSuite suiteId with
  | none => false
  | some suite =>
    decide (secretLen = suite.secretLen ∧ secretLen ≤ evpMaxKeyLength ∧
      suite.cipherIvLen = crypto.ivLength suite.cipherName ∧
      suite.cipherKeyLen = crypto.keyLength suite.cipherName) &&
    !fails (.slotIv keyslot) && !fails (.slotKey keyslot) && !fails (.slotFetch keyslot) &&
    !fails (.slotCtxNew keyslot) && !fails (.slotInit keyslot)

def hdrProtSetUp (crypto : QrlCrypto Md) (fails : QrlCall → Bool) (suiteId : Nat) : Bool :=
  decide (qrlGetSuiteHdrProtCipherId suiteId ≠ 0 ∧
    qrlGetSuiteHdrProtCipherId suiteId ≤ 3 ∧ qrlGetSuiteHdrProtKeyLen suiteId =
      crypto.hpKeyLength (qrlGetSuiteHdrProtCipherId suiteId)) &&
  !fails .hpCtxNew && !fails .hpFetch && !fails .hpInit

def firstSlotSetUp (crypto : QrlCrypto Md) (fails : QrlCall → Bool) (args : QrlSecret Md) : Bool :=
  !fails .hpKey && slotSetUp crypto fails args.suiteId (qrlInitKeyslot args) args.secret.length

def secondSlotSetUp (crypto : QrlCrypto Md) (fails : QrlCall → Bool) (encLevel : Nat)
    (args : QrlSecret Md) : Bool :=
  firstSlotSetUp crypto fails args &&
    (decide (encLevel = quicEncLevel1rtt ∧ args.isTx = 0) && !fails .ku &&
      slotSetUp crypto fails args.suiteId (otherKeyslot (qrlInitKeyslot args)) args.secret.length)

def secretProvided (crypto : QrlCrypto Md) (fails : QrlCall → Bool) (encLevel : Nat)
    (args : QrlSecret Md) : Bool :=
  firstSlotSetUp crypto fails args &&
    (decide (encLevel ≠ quicEncLevel1rtt) || (!fails .ku && (decide (args.isTx ≠ 0) ||
      (slotSetUp crypto fails args.suiteId (otherKeyslot (qrlInitKeyslot args))
        args.secret.length && !fails .nextKu)))) &&
    hdrProtSetUp crypto fails args.suiteId

def mdFound (fails : QrlCall → Bool) (args : QrlSecret Md) : Bool :=
  args.md.isSome || !fails .mdFetch

def SecretAccepted (encLevel : Nat) (args : QrlSecret Md) : Prop :=
  (getSuite args.suiteId).isSome ∧ args.initKeyPhaseBit ≤ 1 ∧ 0 ≤ args.isTx ∧ args.isTx ≤ 1 ∧
    (0 < args.initKeyPhaseBit → encLevel = quicEncLevel1rtt)

def ProvideKeeps (crypto : QrlCrypto Md) (fails : QrlCall → Bool) (encLevel : Nat)
    (args : QrlSecret Md) (el : QrlEncLevel Md) : Prop :=
  SecretAccepted encLevel args →
    (encLevel = quicEncLevelInitial → el.state = .provNormal →
      mdFound fails args = true ∧ secretProvided crypto fails encLevel args = true) ∧
    (el.state = .unprov → mdFound fails args = true →
      secretProvided crypto fails encLevel args = false →
      el.keyEpoch = args.initKeyPhaseBit ∧ el.ku = cleansedKey ∧
      (firstSlotSetUp crypto fails args = true → (el.cctx (qrlInitKeyslot args)).isSome = true) ∧
      (secondSlotSetUp crypto fails encLevel args = true →
        (el.cctx (otherKeyslot (qrlInitKeyslot args))).isSome = true))

def KeyUpdateKeeps (crypto : QrlCrypto Md) (fails : QrlCall → Bool) (encLevel : Nat)
    (el : QrlEncLevel Md) : Prop :=
  encLevel = quicEncLevel1rtt → el.state = .provNormal → el.isTx = true → fails .ku = false →
    slotSetUp crypto fails el.suiteId 0 (qrlGetSuiteSecretLen el.suiteId) = false →
    (el.cctx 0).isSome = false

/- A level that leaves the update gets its next key; in the cooldown, its keyslot is not set up, or
   the next secret is derived too, or the keyslot held a key. -/
def CooldownKeeps (crypto : QrlCrypto Md) (fails : QrlCall → Bool) (encLevel : Nat)
    (el : QrlEncLevel Md) : Prop :=
  encLevel = quicEncLevel1rtt →
    (el.state = .provUpdating → slotSetUp crypto fails el.suiteId (otherKeyslot (currentKeyslot el))
        (qrlGetSuiteSecretLen el.suiteId) = true ∧ fails .ku = false) ∧
    (el.state = .provCooldown → slotSetUp crypto fails el.suiteId (otherKeyslot (currentKeyslot el))
        (qrlGetSuiteSecretLen el.suiteId) = true →
      fails .ku = true → (el.cctx (otherKeyslot (currentKeyslot el))).isSome = true)

theorem hasKeyslot_1rtt (el : QrlEncLevel Md) (keyslot : Fin 2) :
    qrlEncLevelHasKeyslot el quicEncLevel1rtt .provNormal keyslot = true := by
  simp [qrlEncLevelHasKeyslot]

variable {encLevel : Nat} {args : QrlSecret Md} {el : QrlEncLevel Md} {suite : SuiteInfo}

theorem hasKeyslot_init (accepted : SecretAccepted encLevel args) (el : QrlEncLevel Md) :
    qrlEncLevelHasKeyslot el encLevel .provNormal (qrlInitKeyslot args) = true := by
  obtain ⟨_, _, _, _, phase⟩ := accepted
  by_cases zero : args.initKeyPhaseBit = 0
  · simp [qrlEncLevelHasKeyslot, qrlInitKeyslot, zero]
  · simp [qrlEncLevelHasKeyslot, phase (by omega)]

variable (crypto : QrlCrypto Md) (fails : QrlCall → Bool)

variable {suiteId : Nat}

/-- A keyslot is set up where no step fails, and then it holds a key. -/
theorem elSetupKeyslot_spec (same_ : el.suiteId = suiteId) {tgtState : QrlElState}
    {keyslot : Fin 2} (has : qrlEncLevelHasKeyslot el encLevel tgtState keyslot = true)
    (secret : List UInt8) (secretLen : Nat) :
    ∃ cctx iv, elSetupKeyslot crypto fails encLevel el tgtState keyslot secret secretLen =
        (slotSetUp crypto fails suiteId keyslot secretLen, { el with cctx, iv }) ∧
      ∀ other, (cctx other).isSome =
        ((slotSetUp crypto fails suiteId keyslot secretLen && decide (other = keyslot)) ||
          (el.cctx other).isSome) := by
  subst same_
  unfold elSetupKeyslot slotSetUp
  rw [if_neg (by simp [has])]
  cases getSuite el.suiteId with
  | none => exact ⟨el.cctx, el.iv, rfl, by simp⟩
  | some suite =>
    dsimp only
    by_cases refused : secretLen ≠ suite.secretLen ∨ evpMaxKeyLength < secretLen
    · rw [if_pos refused]
      have none_ : ¬ (secretLen = suite.secretLen ∧ secretLen ≤ evpMaxKeyLength ∧
          suite.cipherIvLen = crypto.ivLength suite.cipherName ∧
          suite.cipherKeyLen = crypto.keyLength suite.cipherName) := by
        rintro ⟨same, small, _⟩
        rcases refused with different | large
        · exact different same
        · exact absurd small (by omega)
      exact ⟨el.cctx, el.iv, by simp [none_], by simp [none_]⟩
    · rw [if_neg refused]
      obtain ⟨same, small⟩ : secretLen = suite.secretLen ∧ secretLen ≤ evpMaxKeyLength := by
        constructor <;> by_contra no
        · exact refused (.inl no)
        · exact refused (.inr (by omega))
      unfold elSetupCctx
      split_ifs with slotIv slotKey slotFetch slotCtxNew lengths slotInit
      · exact ⟨el.cctx, _, Prod.ext (by simp [slotIv]) rfl, by simp [slotIv]⟩
      · exact ⟨el.cctx, _, Prod.ext (by simp [slotKey]) rfl, by simp [slotKey]⟩
      · exact ⟨el.cctx, _, Prod.ext (by simp [slotFetch]) rfl, by simp [slotFetch]⟩
      · exact ⟨el.cctx, _, Prod.ext (by simp [slotCtxNew]) rfl, by simp [slotCtxNew]⟩
      · have none_ : ¬ (secretLen = suite.secretLen ∧ secretLen ≤ evpMaxKeyLength ∧
            suite.cipherIvLen = crypto.ivLength suite.cipherName ∧
            suite.cipherKeyLen = crypto.keyLength suite.cipherName) := by
          rintro ⟨_, _, ivLen, keyLen⟩
          rcases lengths with different | different
          · exact different ivLen
          · exact different keyLen
        exact ⟨el.cctx, _, Prod.ext (by simp [none_]) rfl, by simp [none_]⟩
      · exact ⟨el.cctx, _, Prod.ext (by simp [slotInit]) rfl, by simp [slotInit]⟩
      · rw [not_or, not_not, not_not] at lengths
        refine ⟨_, _, Prod.ext (by simp [slotIv, slotKey, slotFetch, slotCtxNew, slotInit, lengths,
          same, same ▸ small]) rfl, fun other => ?_⟩
        by_cases own : other = keyslot
        · simp [own, slotIv, slotKey, slotFetch, slotCtxNew, slotInit, lengths, same, same ▸ small]
        · simp [own]

theorem quicHdrProtectorInit_isSome (suiteId : Nat) (key : List UInt8) :
    (quicHdrProtectorInit crypto fails (qrlGetSuiteHdrProtCipherId suiteId) key
      (qrlGetSuiteHdrProtKeyLen suiteId)).isSome = hdrProtSetUp crypto fails suiteId := by
  unfold quicHdrProtectorInit hdrProtSetUp
  split_ifs with unknown ctxNew fetch init
  · rcases unknown with zero | large
    · simp [zero]
    · simp [show ¬ qrlGetSuiteHdrProtCipherId suiteId ≤ 3 by omega]
  · simp [ctxNew]
  · rcases fetch with fetch | length
    · simp [fetch]
    · simp [length]
  · simp [init]
  · rw [not_or] at unknown fetch
    rw [not_not] at fetch
    simp [unknown.1, Nat.le_of_not_lt unknown.2, ctxNew, fetch, init]

theorem qrlProvideHdrProt_spec (haveKs1 : Bool) (el : QrlEncLevel Md) (suiteId : Nat)
    (hprKey : List UInt8) : ∃ hpr, qrlProvideHdrProt crypto fails haveKs1 el suiteId hprKey =
      ⟨hdrProtSetUp crypto fails suiteId, true, haveKs1, { el with hpr }⟩ :=
  ⟨quicHdrProtectorInit crypto fails (qrlGetSuiteHdrProtCipherId suiteId) hprKey
    (qrlGetSuiteHdrProtKeyLen suiteId), by simp [qrlProvideHdrProt, quicHdrProtectorInit_isSome]⟩

/-- The next keyslot of a receiving level, and what follows it. -/
theorem qrlProvideNext_spec (suite : el.suiteId = args.suiteId) (md : Md)
    (hprKey kuKey : List UInt8) :
    ∃ hpr cctx iv ku, qrlProvideNext crypto fails quicEncLevel1rtt el md args hprKey kuKey =
        ⟨slotSetUp crypto fails args.suiteId (otherKeyslot (qrlInitKeyslot args))
            args.secret.length && !fails .nextKu && hdrProtSetUp crypto fails args.suiteId, true,
          slotSetUp crypto fails args.suiteId (otherKeyslot (qrlInitKeyslot args))
            args.secret.length, { el with hpr, cctx, iv, ku }⟩ ∧
      ∀ other, (cctx other).isSome =
        ((slotSetUp crypto fails args.suiteId (otherKeyslot (qrlInitKeyslot args))
          args.secret.length && decide (other = otherKeyslot (qrlInitKeyslot args))) ||
          (el.cctx other).isSome) := by
  obtain ⟨cctx, iv, setup, holds⟩ := elSetupKeyslot_spec crypto fails suite
    (hasKeyslot_1rtt el (otherKeyslot (qrlInitKeyslot args))) kuKey args.secret.length
  unfold qrlProvideNext
  rw [setup]
  cases second : slotSetUp crypto fails args.suiteId (otherKeyslot (qrlInitKeyslot args))
      args.secret.length with
  | false => exact ⟨el.hpr, cctx, iv, el.ku, by simp, second ▸ holds⟩
  | true =>
    rw [second] at holds
    by_cases nextKu : fails .nextKu = true
    · exact ⟨el.hpr, cctx, iv, el.ku, by simp [nextKu], holds⟩
    · obtain ⟨hpr, done⟩ := qrlProvideHdrProt_spec crypto fails true
        { el with
          cctx, iv
          ku := writtenStart (crypto.hkdfExpand (some md) kuKey quicV1KuLabel args.secret.length)
            el.ku } args.suiteId hprKey
      exact ⟨hpr, cctx, iv, writtenStart (crypto.hkdfExpand (some md) kuKey quicV1KuLabel
        args.secret.length) el.ku, by simp [nextKu, done], holds⟩

/-- How far a secret gets, and the keyslots that it leaves with a key on the way. -/
theorem qrlProvideKeys_spec (accepted : SecretAccepted encLevel args)
    (suite : el.suiteId = args.suiteId) (md : Md) :
    ∃ hpr cctx iv ku, qrlProvideKeys crypto fails encLevel el md args =
        ⟨secretProvided crypto fails encLevel args, firstSlotSetUp crypto fails args,
          secondSlotSetUp crypto fails encLevel args, { el with hpr, cctx, iv, ku }⟩ ∧
      ∀ other, (cctx other).isSome =
        ((firstSlotSetUp crypto fails args && decide (other = qrlInitKeyslot args)) ||
          (secondSlotSetUp crypto fails encLevel args &&
            decide (other = otherKeyslot (qrlInitKeyslot args))) || (el.cctx other).isSome) := by
  obtain ⟨cctx, iv, setup, holds⟩ := elSetupKeyslot_spec crypto fails suite
    (hasKeyslot_init accepted el) args.secret args.secret.length
  unfold qrlProvideKeys secretProvided secondSlotSetUp firstSlotSetUp
  by_cases hpKey : fails .hpKey = true
  · exact ⟨el.hpr, el.cctx, el.iv, el.ku, by simp [hpKey], by simp [hpKey]⟩
  · rw [if_neg hpKey, setup]
    cases first : slotSetUp crypto fails args.suiteId (qrlInitKeyslot args) args.secret.length with
    | false =>
      rw [first] at holds
      exact ⟨el.hpr, cctx, iv, el.ku, by simp, fun other => by simp [holds other]⟩
    | true =>
      rw [first] at holds
      by_cases level : encLevel = quicEncLevel1rtt
      · by_cases kuFails : fails .ku = true
        · exact ⟨el.hpr, cctx, iv, el.ku, by simp [hpKey, level, kuFails],
            fun other => by simp [holds other, hpKey, kuFails]⟩
        · by_cases isTx : args.isTx = 0
          · obtain ⟨hpr, cctx', iv', ku, next, holds'⟩ := qrlProvideNext_spec crypto fails
              (show ({ el with cctx, iv } : QrlEncLevel Md).suiteId = args.suiteId from suite) md
              (crypto.hkdfExpand (some md) args.secret quicV1HpLabel
                (qrlGetSuiteHdrProtKeyLen args.suiteId))
              (crypto.hkdfExpand (some md) args.secret quicV1KuLabel args.secret.length)
            refine ⟨hpr, cctx', iv', ku, by simp [hpKey, level, kuFails, isTx, next],
              fun other => ?_⟩
            rw [holds' other]
            rw [holds other]
            simp [hpKey, level, kuFails, isTx, Bool.or_left_comm, Bool.or_assoc]
          · obtain ⟨hpr, done⟩ := qrlProvideHdrProt_spec crypto fails false
              { el with
                cctx, iv
                ku := writtenStart
                  (crypto.hkdfExpand (some md) args.secret quicV1KuLabel args.secret.length) el.ku }
              args.suiteId (crypto.hkdfExpand (some md) args.secret quicV1HpLabel
                (qrlGetSuiteHdrProtKeyLen args.suiteId))
            exact ⟨hpr, cctx, iv, writtenStart
              (crypto.hkdfExpand (some md) args.secret quicV1KuLabel args.secret.length) el.ku,
              by simp [hpKey, level, kuFails, isTx, done],
              fun other => by simp [holds other, hpKey, isTx]⟩
      · obtain ⟨hpr, done⟩ := qrlProvideHdrProt_spec crypto fails false { el with cctx, iv }
          args.suiteId (crypto.hkdfExpand (some md) args.secret quicV1HpLabel
            (qrlGetSuiteHdrProtKeyLen args.suiteId))
        exact ⟨hpr, cctx, iv, el.ku, by simp [hpKey, level, done],
          fun other => by simp [holds other, hpKey, level]⟩

theorem elTeardownKeyslot_unprov (encLevel : Nat) (unprov : el.state = .unprov) (keyslot : Fin 2) :
    elTeardownKeyslot encLevel el keyslot = el := by
  simp [elTeardownKeyslot, qrlEncLevelHasKeyslot, unprov]

theorem elTeardownKeyslots_unprov (encLevel : Nat) (unprov : el.state = .unprov)
    (haveKs0 haveKs1 : Bool) (keyslot other : Fin 2) :
    (let el := if haveKs0 then elTeardownKeyslot encLevel el keyslot else el
      if haveKs1 then elTeardownKeyslot encLevel el other else el) = el := by
  cases haveKs0 <;> cases haveKs1 <;> simp [elTeardownKeyslot_unprov encLevel unprov]

theorem qrlProvideErr_unprov (encLevel : Nat) (args : QrlSecret Md) {tried : QrlProvision Md}
    (unprov : tried.el.state = .unprov) :
    qrlProvideErr encLevel args tried =
      { tried.el with suiteId := 0, md := none, ku := cleansedKey } := by
  refine elTeardownKeyslots_unprov encLevel ?_ tried.haveKs0 tried.haveKs1 _ _
  exact unprov

theorem qrlGetSuiteHdrProtKeyLen_pos (known : getSuite suiteId = some suite) :
    qrlGetSuiteHdrProtKeyLen suiteId ≠ 0 := by
  have some_ : (getSuite suiteId).isSome := by simp [known]
  unfold qrlGetSuiteHdrProtKeyLen
  unfold getSuite at some_ ⊢
  split_ifs at some_ ⊢
  · simp [suiteAes128gcm]
  · simp [suiteAes256gcm]
  · simp [suiteChacha20poly1305]
  · simp at some_

theorem qrlProvideUnprov_spec (accepted : SecretAccepted encLevel args)
    (known : getSuite args.suiteId = some suite) (unprov : el.state = .unprov) :
    (qrlProvideUnprov crypto fails encLevel suite args el).1 =
      (mdFound fails args && secretProvided crypto fails encLevel args) ∧
    (mdFound fails args = false → (qrlProvideUnprov crypto fails encLevel suite args el).2 = el) ∧
    (mdFound fails args = true → secretProvided crypto fails encLevel args = false →
      (qrlProvideUnprov crypto fails encLevel suite args el).2.state = .unprov ∧
      (qrlProvideUnprov crypto fails encLevel suite args el).2.keyEpoch = args.initKeyPhaseBit ∧
      (qrlProvideUnprov crypto fails encLevel suite args el).2.ku = cleansedKey ∧
      ∀ other, ((qrlProvideUnprov crypto fails encLevel suite args el).2.cctx other).isSome =
        ((firstSlotSetUp crypto fails args && decide (other = qrlInitKeyslot args)) ||
          (secondSlotSetUp crypto fails encLevel args &&
            decide (other = otherKeyslot (qrlInitKeyslot args))) || (el.cctx other).isSome)) := by
  unfold qrlProvideUnprov
  rw [if_neg (qrlGetSuiteHdrProtKeyLen_pos known)]
  by_cases lost : args.md.isNone ∧ fails .mdFetch
  · have none_ : mdFound fails args = false := by
      rw [Option.isNone_iff_eq_none] at lost
      simp [mdFound, lost]
    simp [lost, none_]
  · have found : mdFound fails args = true := by
      cases given : args.md with
      | none => simpa [given, mdFound] using lost
      | some md => simp [mdFound, given]
    rw [if_neg lost]
    dsimp only
    generalize started : ({ el with
      md := some (args.md.getD (crypto.mdFetch suite.mdName)), suiteId := args.suiteId
      tagLen := qrlGetSuiteCipherTagLen args.suiteId, opCount := 0
      keyEpoch := args.initKeyPhaseBit, isTx := decide (args.isTx ≠ 0) } : QrlEncLevel Md) = begun
    have suiteId : begun.suiteId = args.suiteId := by rw [← started]
    have keyEpoch : begun.keyEpoch = args.initKeyPhaseBit := by rw [← started]
    have begunUnprov : begun.state = .unprov := by rw [← started, ← unprov]
    have slots : begun.cctx = el.cctx := by rw [← started]
    obtain ⟨hpr, cctx, iv, ku, tried, holds⟩ := qrlProvideKeys_spec crypto fails accepted suiteId
      (args.md.getD (crypto.mdFetch suite.mdName))
    rw [slots] at holds
    rw [tried]
    cases secretProvided crypto fails encLevel args with
    | true => simp [found]
    | false =>
      rw [if_neg (by simp), qrlProvideErr_unprov encLevel args begunUnprov]
      exact ⟨by simp, by simp [found], fun _ _ => ⟨begunUnprov, keyEpoch, rfl, holds⟩⟩

theorem qrlProvideUnprov_state {crypto : QrlCrypto Md} {fails : QrlCall → Bool}
    (accepted : SecretAccepted encLevel args) (known : getSuite args.suiteId = some suite)
    (unprov : el.state = .unprov)
    (fails_ : (qrlProvideUnprov crypto fails encLevel suite args el).1 = false) :
    (qrlProvideUnprov crypto fails encLevel suite args el).2.state = .unprov := by
  obtain ⟨returns, lost, failed⟩ := qrlProvideUnprov_spec crypto fails accepted known unprov
  cases found : mdFound fails args with
  | false => rw [lost found, unprov]
  | true =>
    rw [returns, found, Bool.true_and] at fails_
    exact (failed found fails_).1

theorem qrlProvideSecret_kept (encLevel : Nat) (args : QrlSecret Md) (el : QrlEncLevel Md) :
    ((qrlProvideSecret crypto fails encLevel args el).1 = false →
      LevelKept el (qrlProvideSecret crypto fails encLevel args el).2) ↔
    ProvideKeeps crypto fails encLevel args el := by
  unfold qrlProvideSecret ProvideKeeps
  cases known : getSuite args.suiteId with
  | none =>
    have refused : ¬ SecretAccepted encLevel args := fun accepted =>
      absurd accepted.1 (by simp [known])
    exact ⟨fun _ accepted => absurd accepted refused, fun _ _ => LevelKept.refl el⟩
  | some suite =>
    dsimp only
    by_cases refused : 1 < args.initKeyPhaseBit ∨ args.isTx < 0 ∨ 1 < args.isTx ∨
        (0 < args.initKeyPhaseBit ∧ encLevel ≠ quicEncLevel1rtt)
    · rw [if_pos refused]
      refine ⟨fun _ accepted => ?_, fun _ _ => LevelKept.refl el⟩
      obtain ⟨_, phase, low, high, level⟩ := accepted
      rcases refused with large | negative | large | ⟨some_, other⟩
      · omega
      · omega
      · omega
      · exact absurd (level some_) other
    · have accepted : SecretAccepted encLevel args := by
        simp only [not_or, not_and, not_not] at refused
        exact ⟨by simp [known], by omega, by omega, by omega, refused.2.2.2⟩
      rw [if_neg refused]
      simp only [accepted, forall_const]
      by_cases again : encLevel = quicEncLevelInitial ∧ el.state = .provNormal
      · -- the level is torn down first, so only success is no failure
        rw [if_pos again]
        generalize fresh : ({ qrlEncLevelDiscard encLevel el with state := .unprov } :
          QrlEncLevel Md) = emptied
        have unprov : emptied.state = .unprov := by rw [← fresh]
        have returns := (qrlProvideUnprov_spec crypto fails accepted known unprov).1
        rw [if_neg (by simp [unprov])]
        constructor
        · intro kept
          have done : (qrlProvideUnprov crypto fails encLevel suite args emptied).1 = true := by
            by_contra fails_
            have lost := Bool.eq_false_of_not_eq_true fails_
            have same := (kept lost).state
            rw [qrlProvideUnprov_state accepted known unprov lost, again.2] at same
            contradiction
          rw [returns, Bool.and_eq_true] at done
          exact ⟨fun _ _ => done, fun never => by simp [again.2] at never⟩
        · intro keeps fails_
          rw [returns, (keeps.1 again.1 again.2).1, (keeps.1 again.1 again.2).2] at fails_
          contradiction
      · rw [if_neg again]
        by_cases unprov : el.state = .unprov
        · rw [if_neg (by simp [unprov])]
          obtain ⟨returns, lost, failed⟩ := qrlProvideUnprov_spec crypto fails accepted known unprov
          rw [returns]
          cases found : mdFound fails args with
          | false =>
            rw [lost found]
            exact ⟨fun _ => ⟨fun initial normal => absurd ⟨initial, normal⟩ again,
              fun _ never => nomatch never⟩, fun _ _ => LevelKept.refl el⟩
          | true =>
            cases done : secretProvided crypto fails encLevel args with
            | true =>
              exact ⟨fun _ => ⟨fun initial normal => absurd ⟨initial, normal⟩ again,
                fun _ _ never => nomatch never⟩, fun _ never => nomatch never⟩
            | false =>
              obtain ⟨state, keyEpoch, ku, slots⟩ := failed found done
              constructor
              · intro kept
                have kept := kept rfl
                refine ⟨fun initial normal => absurd ⟨initial, normal⟩ again, fun _ _ _ =>
                  ⟨kept.keyEpoch.symm.trans keyEpoch, kept.ku.symm.trans ku, fun first => ?_,
                    fun second => ?_⟩⟩
                · rw [← kept.slots, slots, first]
                  simp
                · rw [← kept.slots, slots, second]
                  simp
              · rintro ⟨_, keeps⟩ _
                obtain ⟨sameEpoch, cleansed, first, second⟩ := keeps unprov rfl rfl
                refine ⟨state.trans unprov.symm, keyEpoch.trans sameEpoch.symm,
                  ku.trans cleansed.symm, fun other => ?_⟩
                rw [slots]
                cases held : (el.cctx other).isSome with
                | true => simp
                | false =>
                  -- a keyslot that was empty is not among those set up
                  have notFirst : ¬ (firstSlotSetUp crypto fails args = true ∧
                      other = qrlInitKeyslot args) := by
                    rintro ⟨set, rfl⟩
                    simp [first set] at held
                  have notSecond : ¬ (secondSlotSetUp crypto fails encLevel args = true ∧
                      other = otherKeyslot (qrlInitKeyslot args)) := by
                    rintro ⟨set, rfl⟩
                    simp [second set] at held
                  simpa using ⟨not_and.mp notFirst, not_and.mp notSecond⟩
        · rw [if_pos unprov]
          exact ⟨fun _ => ⟨fun initial normal => absurd ⟨initial, normal⟩ again,
            fun other => absurd other unprov⟩, fun _ _ => LevelKept.refl el⟩

theorem qrlKeyUpdate_kept (encLevel : Nat) (el : QrlEncLevel Md) :
    ((qrlKeyUpdate crypto fails encLevel el).1 = false →
      LevelKept el (qrlKeyUpdate crypto fails encLevel el).2) ↔
    KeyUpdateKeeps crypto fails encLevel el := by
  unfold qrlKeyUpdate KeyUpdateKeeps
  by_cases level : encLevel = quicEncLevel1rtt
  · subst level
    rw [if_neg (by simp)]
    by_cases normal : el.state = .provNormal
    · rw [if_neg (by simp [normal])]
      cases isTx : el.isTx with
      | false => simp
      | true =>
        rw [if_neg (by simp)]
        unfold qrlKeyUpdateTx
        cases derived : fails .ku with
        | true => simpa using LevelKept.refl el
        | false =>
          -- the keyslot is emptied before it is set up again
          have torn : elTeardownKeyslot quicEncLevel1rtt el 0 = { el with
              cctx := update el.cctx 0 none
              iv := update el.iv 0 cleansedIv } := by
            simp [elTeardownKeyslot, qrlEncLevelHasKeyslot, normal]
          obtain ⟨cctx, iv, setup, holds⟩ := elSetupKeyslot_spec crypto fails
            (show (elTeardownKeyslot quicEncLevel1rtt el 0).suiteId = el.suiteId by rw [torn])
            (hasKeyslot_1rtt (elTeardownKeyslot quicEncLevel1rtt el 0) 0) el.ku
            (qrlGetSuiteSecretLen el.suiteId)
          rw [if_neg (by simp)]
          rw [setup, torn]
          rw [torn] at holds
          cases set : slotSetUp crypto fails el.suiteId 0 (qrlGetSuiteSecretLen el.suiteId) with
          | true => simp
          | false =>
            rw [if_pos rfl]
            have first : (cctx 0).isSome = false := by
              rw [holds, set]
              simp
            have second : (cctx 1).isSome = (el.cctx 1).isSome := by
              rw [holds, set]
              simp
            constructor
            · intro kept _ _ _ _ _
              exact ((kept rfl).slots 0).symm.trans first
            · intro empty _
              refine ⟨rfl, rfl, rfl, Fin.forall_fin_two.mpr ⟨?_, second⟩⟩
              exact first.trans (empty rfl normal rfl rfl rfl).symm
    · rw [if_pos normal]
      exact ⟨fun _ _ other => absurd other normal, fun _ _ => LevelKept.refl el⟩
  · rw [if_pos level]
    exact ⟨fun _ other => absurd other level, fun _ _ => LevelKept.refl el⟩

theorem otherKeyslot_current (keyslot : Fin 2) :
    qrlEncLevelHasKeyslot el quicEncLevel1rtt .provCooldown keyslot =
      decide (keyslot ≠ otherKeyslot (currentKeyslot el)) := by
  unfold qrlEncLevelHasKeyslot currentKeyslot otherKeyslot
  rcases Nat.mod_two_eq_zero_or_one el.keyEpoch with even | odd
  · match keyslot with
    | 0 => simp [even]
    | 1 => simp [even]
  · match keyslot with
    | 0 => simp [odd]
    | 1 => simp [odd]

/-- The level in cooldown: the next keyslot is not torn down where the next secret is missing. -/
theorem qrlCooldownKeys_spec (cooldown : el.state = .provCooldown) :
    (qrlCooldownKeys crypto fails quicEncLevel1rtt el).1 =
      (slotSetUp crypto fails el.suiteId (otherKeyslot (currentKeyslot el))
        (qrlGetSuiteSecretLen el.suiteId) && !fails .ku) ∧
    ((qrlCooldownKeys crypto fails quicEncLevel1rtt el).1 = false →
      (qrlCooldownKeys crypto fails quicEncLevel1rtt el).2.state = .provCooldown ∧
      (qrlCooldownKeys crypto fails quicEncLevel1rtt el).2.keyEpoch = el.keyEpoch ∧
      (qrlCooldownKeys crypto fails quicEncLevel1rtt el).2.ku = el.ku ∧
      ∀ other, ((qrlCooldownKeys crypto fails quicEncLevel1rtt el).2.cctx other).isSome =
        ((slotSetUp crypto fails el.suiteId (otherKeyslot (currentKeyslot el))
          (qrlGetSuiteSecretLen el.suiteId) &&
            decide (other = otherKeyslot (currentKeyslot el))) || (el.cctx other).isSome)) := by
  obtain ⟨cctx, iv, setup, holds⟩ := elSetupKeyslot_spec crypto fails
    (show el.suiteId = el.suiteId from rfl)
    (hasKeyslot_1rtt el (otherKeyslot (currentKeyslot el))) el.ku (qrlGetSuiteSecretLen el.suiteId)
  unfold qrlCooldownKeys
  dsimp only
  rw [setup]
  cases set : slotSetUp crypto fails el.suiteId (otherKeyslot (currentKeyslot el))
      (qrlGetSuiteSecretLen el.suiteId) with
  | false =>
    rw [if_pos rfl]
    exact ⟨by simp, fun _ => ⟨cooldown, rfl, rfl, set ▸ holds⟩⟩
  | true =>
    rw [set] at holds
    rw [if_neg (by simp)]
    cases derived : fails .ku with
    | false => simp
    | true =>
      have kept : elTeardownKeyslot quicEncLevel1rtt { el with cctx, iv }
          (otherKeyslot (currentKeyslot el)) = { el with cctx, iv } := by
        unfold elTeardownKeyslot
        rw [cooldown, otherKeyslot_current]
        exact if_pos (by simp [currentKeyslot])
      have same : currentKeyslot { el with cctx, iv } = currentKeyslot el := rfl
      rw [if_pos rfl, same, kept]
      exact ⟨by simp, fun _ => ⟨cooldown, rfl, rfl, holds⟩⟩

theorem qrlKeyCooldownDone_kept (encLevel : Nat) (el : QrlEncLevel Md) :
    ((qrlKeyCooldownDone crypto fails encLevel el).1 = false →
      LevelKept el (qrlKeyCooldownDone crypto fails encLevel el).2) ↔
    CooldownKeeps crypto fails encLevel el := by
  unfold qrlKeyCooldownDone CooldownKeeps
  by_cases level : encLevel = quicEncLevel1rtt
  · subst level
    rw [if_neg (by simp)]
    simp only [forall_const]
    by_cases updating : el.state = .provUpdating
    · -- the update is left first, so only success is no failure
      have torn : elTeardownKeyslot quicEncLevel1rtt el (otherKeyslot (currentKeyslot el)) =
          { el with
            cctx := update el.cctx (otherKeyslot (currentKeyslot el)) none
            iv := update el.iv (otherKeyslot (currentKeyslot el)) cleansedIv } := by
        simp [elTeardownKeyslot, qrlEncLevelHasKeyslot, updating]
      have left : qrlKeyUpdateDone quicEncLevel1rtt el = (true, { el with
          cctx := update el.cctx (otherKeyslot (currentKeyslot el)) none
          iv := update el.iv (otherKeyslot (currentKeyslot el)) cleansedIv
          state := .provCooldown }) := by
        unfold qrlKeyUpdateDone
        rw [if_neg (by simp), torn]
      rw [if_pos updating, left]
      generalize resting : ({ el with
          cctx := update el.cctx (otherKeyslot (currentKeyslot el)) none
          iv := update el.iv (otherKeyslot (currentKeyslot el)) cleansedIv
          state := .provCooldown } : QrlEncLevel Md) = rest
      have cooldown : rest.state = .provCooldown := by rw [← resting]
      have current : currentKeyslot rest = currentKeyslot el := by rw [← resting]; rfl
      have suiteId : rest.suiteId = el.suiteId := by rw [← resting]
      obtain ⟨returns, failed⟩ := qrlCooldownKeys_spec crypto fails cooldown
      rw [current, suiteId] at returns
      simp only [cooldown, Bool.true_eq_false, ↓reduceIte, ne_eq, not_true_eq_false]
      constructor
      · intro kept
        have done : (qrlCooldownKeys crypto fails quicEncLevel1rtt rest).1 = true := by
          by_contra fails_
          have lost := Bool.eq_false_of_not_eq_true fails_
          have same := (kept lost).state
          rw [(failed lost).1, updating] at same
          contradiction
        rw [returns, Bool.and_eq_true, Bool.not_eq_true'] at done
        exact ⟨fun _ => done, fun never => by simp [updating] at never⟩
      · intro keeps fails_
        rw [returns, (keeps.1 updating).1, (keeps.1 updating).2] at fails_
        contradiction
    · rw [if_neg updating]
      by_cases cooldown : el.state = .provCooldown
      · obtain ⟨returns, failed⟩ := qrlCooldownKeys_spec crypto fails cooldown
        simp only [cooldown, Bool.true_eq_false, ↓reduceIte, ne_eq, not_true_eq_false]
        constructor
        · intro kept
          refine ⟨fun never => by simp at never, fun _ set derived => ?_⟩
          have lost : (qrlCooldownKeys crypto fails quicEncLevel1rtt el).1 = false := by
            simp [returns, derived]
          rw [← (kept lost).slots, (failed lost).2.2.2, set]
          simp
        · rintro ⟨_, keeps⟩ lost
          obtain ⟨state, keyEpoch, ku, slots⟩ := failed lost
          refine ⟨state.trans cooldown.symm, keyEpoch, ku, fun other => ?_⟩
          rw [slots]
          cases held : (el.cctx other).isSome with
          | true => simp
          | false =>
            rw [Bool.or_false, Bool.and_eq_false_iff, decide_eq_false_iff_not]
            by_contra neither
            simp only [not_or, Bool.not_eq_false, not_not] at neither
            have derived : fails .ku = true := by
              rw [returns, neither.1, Bool.true_and, Bool.not_eq_false'] at lost
              exact lost
            have some_ := keeps trivial neither.1 derived
            rw [← neither.2, held] at some_
            contradiction
      · simp only [Bool.true_eq_false, ↓reduceIte, ne_eq, cooldown, not_false_eq_true]
        exact ⟨fun _ => ⟨fun other => absurd other updating, fun other => absurd other id⟩,
          fun _ _ => LevelKept.refl el⟩
  · rw [if_pos level]
    exact ⟨fun _ other => absurd other level, fun _ _ => LevelKept.refl el⟩

theorem qrlOnLevel_kept (els : QrlEncLevelSet Md) (encLevel : Nat)
    (op : QrlEncLevel Md → Bool × QrlEncLevel Md) :
    ((qrlOnLevel els encLevel op).1 = false → SetKept els (qrlOnLevel els encLevel op).2) ↔
    ∀ valid : encLevel < 4, (op (els ⟨encLevel, valid⟩)).1 = false →
      LevelKept (els ⟨encLevel, valid⟩) (op (els ⟨encLevel, valid⟩)).2 := by
  unfold qrlOnLevel
  by_cases valid : encLevel < 4
  · rw [dif_pos valid]
    constructor
    · intro kept _ lost
      simpa using kept lost ⟨encLevel, valid⟩
    · intro kept lost level
      by_cases own : level = ⟨encLevel, valid⟩
      · subst own
        simpa using kept valid lost
      · simpa [update_of_ne own] using LevelKept.refl (els level)
  · rw [dif_neg valid]
    exact ⟨fun _ other => absurd other valid, fun _ _ level => LevelKept.refl (els level)⟩

/-- The failed operations on a level that leave it as it was are those that fail before they change
    it, or on a level that already was as the failure leaves it. -/
theorem qrlEncLevelSet_kept (crypto : QrlCrypto Md) (fails : QrlCall → Bool)
    (els : QrlEncLevelSet Md) (encLevel : Nat) (args : QrlSecret Md) :
    (((qrlEncLevelSetProvideSecret crypto fails els encLevel args).1 = false →
        SetKept els (qrlEncLevelSetProvideSecret crypto fails els encLevel args).2) ↔
      ∀ valid : encLevel < 4, ProvideKeeps crypto fails encLevel args (els ⟨encLevel, valid⟩)) ∧
    (((qrlEncLevelSetKeyUpdate crypto fails els encLevel).1 = false →
        SetKept els (qrlEncLevelSetKeyUpdate crypto fails els encLevel).2) ↔
      ∀ valid : encLevel < 4, KeyUpdateKeeps crypto fails encLevel (els ⟨encLevel, valid⟩)) ∧
    (((qrlEncLevelSetKeyCooldownDone crypto fails els encLevel).1 = false →
        SetKept els (qrlEncLevelSetKeyCooldownDone crypto fails els encLevel).2) ↔
      ∀ valid : encLevel < 4, CooldownKeeps crypto fails encLevel (els ⟨encLevel, valid⟩)) := by
  refine ⟨(qrlOnLevel_kept els encLevel _).trans (forall_congr' fun valid => ?_),
    (qrlOnLevel_kept els encLevel _).trans (forall_congr' fun valid => ?_),
    (qrlOnLevel_kept els encLevel _).trans (forall_congr' fun valid => ?_)⟩
  · exact qrlProvideSecret_kept crypto fails encLevel args _
  · exact qrlKeyUpdate_kept crypto fails encLevel _
  · exact qrlKeyCooldownDone_kept crypto fails encLevel _

def suiteCrypto : QrlCrypto Unit where
  mdFetch _ := ()
  hkdfExpand _ _ _ len := List.replicate len 1
  ivLength _ := 12
  keyLength cipherName := if cipherName = "AES-128-GCM" then 16 else 32
  hpKeyLength cipherId := if cipherId = 1 then 16 else 32

def suiteLevel (state : QrlElState) (isTx : Bool) : QrlEncLevel Unit where
  hpr := some ⟨1, List.replicate 16 1⟩
  md := some ()
  cctx keyslot :=
    if keyslot = 0 then some ⟨"AES-128-GCM", List.replicate 16 1, cleansedIv⟩ else none
  keyEpoch := 2
  opCount := 0
  suiteId := 1
  tagLen := 16
  state
  isTx
  iv _ := cleansedIv
  ku := List.replicate 64 7

/-- A sending level loses its key to an update whose cipher cannot be fetched; a receiving level in
    cooldown keeps a key for the next epoch without the secret after it. -/
theorem qrlEncLevelSet_notKept :
    ¬ ((qrlEncLevelSetKeyUpdate suiteCrypto (fun call => call == .slotFetch 0)
          (fun _ => suiteLevel .provNormal true) 3).1 = false →
      SetKept (fun _ => suiteLevel .provNormal true)
        (qrlEncLevelSetKeyUpdate suiteCrypto (fun call => call == .slotFetch 0)
          (fun _ => suiteLevel .provNormal true) 3).2) ∧
    ¬ ((qrlEncLevelSetKeyCooldownDone suiteCrypto (fun call => call == .ku)
          (fun _ => suiteLevel .provCooldown false) 3).1 = false →
      SetKept (fun _ => suiteLevel .provCooldown false)
        (qrlEncLevelSetKeyCooldownDone suiteCrypto (fun call => call == .ku)
          (fun _ => suiteLevel .provCooldown false) 3).2) := by
  constructor
  · intro kept
    exact absurd ((kept (by decide +kernel) 3).slots 0) (by decide +kernel)
  · intro kept
    exact absurd ((kept (by decide +kernel) 3).slots 1) (by decide +kernel)

end Ossl
