import OpenSSL.Quic.RecordSharedLaws

/- Which keys a receiving 1-RTT level of ssl/quic/quic_record_shared.c holds over key updates, and
   which of them ssl/quic/quic_record_rx.c selects for a packet. -/
namespace Ossl
open Prod Option Nat List
variable {Md : Type*}

/-- A library that derives as many octets as it is asked for, from as many of the secret as its
    hash has. -/
structure QrlDerives (crypto : QrlCrypto Md) (hashLen : Option Md → Nat) : Prop where
  sized : ∀ md secret label len, (crypto.hkdfExpand md secret label len).length = len
  reads : ∀ md secret secret' label len, secret.take (hashLen md) = secret'.take (hashLen md) →
    crypto.hkdfExpand md secret label len = crypto.hkdfExpand md secret' label len

def qrlChain (crypto : QrlCrypto Md) (md : Md) (secretLen : Nat) (secret : List UInt8) :
    Nat → List UInt8
  | 0 => secret
  | n + 1 =>
    crypto.hkdfExpand (some md) (qrlChain crypto md secretLen secret n) quicV1KuLabel secretLen

inductive QrlOp (Md : Type*) where
  | provideSecret (args : QrlSecret Md)
  | keyUpdate
  | keyUpdateDone
  | keyCooldownDone

def qrlStep (crypto : QrlCrypto Md) (fails : QrlCall → Bool) (op : QrlOp Md)
    (el : QrlEncLevel Md) : Bool × QrlEncLevel Md :=
  match op with
  | .provideSecret args => qrlProvideSecret crypto fails quicEncLevel1rtt args el
  | .keyUpdate => qrlKeyUpdate crypto fails quicEncLevel1rtt el
  | .keyUpdateDone => qrlKeyUpdateDone quicEncLevel1rtt el
  | .keyCooldownDone => qrlKeyCooldownDone crypto fails quicEncLevel1rtt el

def qrlRun (crypto : QrlCrypto Md) :
    List (QrlOp Md × (QrlCall → Bool)) → QrlEncLevel Md → Option (QrlEncLevel Md)
  | [], el => some el
  | (op, fails) :: ops, el =>
    let done := qrlStep crypto fails op el
    if done.1 then qrlRun crypto ops done.2 else none

def qrlUpdates : List (QrlOp Md × (QrlCall → Bool)) → Nat
  | [] => 0
  | (.keyUpdate, _) :: ops => qrlUpdates ops + 1
  | _ :: ops => qrlUpdates ops

def epochKeyslot (epoch : Nat) : Fin 2 := if epoch % 2 = 0 then 0 else 1

def qrxGetCipherCtxIdx (el : QrlEncLevel Md) (encLevel keyPhaseBit rxKeyEpoch : Nat) :
    Option Nat × Nat × Bool :=
  if encLevel ≠ quicEncLevel1rtt then (some 0, 0, false)
  else if 1 < keyPhaseBit then (none, rxKeyEpoch, false)
  else
    let idx := if el.state = .provCooldown then el.keyEpoch % 2 else keyPhaseBit
    let other := (el.keyEpoch % 2) ^^^ keyPhaseBit
    match el.state with
    | .provNormal => (some idx, addU64 el.keyEpoch other, false)
    | .provUpdating => (some idx, subU64 el.keyEpoch other, decide (other ≠ 0))
    | .provCooldown => (some idx, el.keyEpoch, false)
    | _ => (some idx, rxKeyEpoch, false)

def SlotHolds (crypto : QrlCrypto Md) (md : Md) (suite : SuiteInfo) (el : QrlEncLevel Md)
    (keyslot : Fin 2) (secret : List UInt8) : Prop :=
  ∃ iv old, iv = writtenStart
      (crypto.hkdfExpand (some md) secret quicV1IvLabel suite.cipherIvLen) old ∧
    el.iv keyslot = iv ∧ el.cctx keyslot = some ⟨suite.cipherName,
      crypto.hkdfExpand (some md) secret quicV1KeyLabel suite.cipherKeyLen, iv⟩

/-- The level after a secret and n key updates: which keyslot has the key of which epoch, and
    which secret the next key is made of. -/
structure QrlKeys (crypto : QrlCrypto Md) (args : QrlSecret Md) (md : Md) (suite : SuiteInfo)
    (n : Nat) (el : QrlEncLevel Md) : Prop where
  suiteId : el.suiteId = args.suiteId
  hash : el.md = some md
  isTx : el.isTx = false
  keyEpoch : el.keyEpoch = (args.initKeyPhaseBit + n) % 2 ^ 64
  provided : el.state = .provNormal ∨ el.state = .provUpdating ∨ el.state = .provCooldown
  current : SlotHolds crypto md suite el (epochKeyslot (args.initKeyPhaseBit + n))
    (qrlChain crypto md suite.secretLen args.secret n)
  normal : el.state = .provNormal →
    SlotHolds crypto md suite el (epochKeyslot (args.initKeyPhaseBit + n + 1))
      (qrlChain crypto md suite.secretLen args.secret (n + 1)) ∧
    el.ku.take suite.secretLen = qrlChain crypto md suite.secretLen args.secret (n + 2)
  updating : el.state = .provUpdating → ∃ m, n = m + 1 ∧
    SlotHolds crypto md suite el (epochKeyslot (args.initKeyPhaseBit + n + 1))
      (qrlChain crypto md suite.secretLen args.secret m) ∧
    el.ku.take suite.secretLen = qrlChain crypto md suite.secretLen args.secret (n + 1)
  cooldown : el.state = .provCooldown →
    el.cctx (epochKeyslot (args.initKeyPhaseBit + n + 1)) = none ∧
    el.ku.take suite.secretLen = qrlChain crypto md suite.secretLen args.secret (n + 1)

def QrxPicks (crypto : QrlCrypto Md) (args : QrlSecret Md) (md : Md) (suite : SuiteInfo)
    (el : QrlEncLevel Md) : Prop :=
  ∀ keyPhaseBit ≤ 1, ∀ rxKeyEpoch, el.state = .provNormal ∨ el.state = .provUpdating →
    ∃ idx m, (qrxGetCipherCtxIdx el quicEncLevel1rtt keyPhaseBit rxKeyEpoch).1 = some idx ∧
      idx ≤ 1 ∧ SlotHolds crypto md suite el (epochKeyslot idx)
        (qrlChain crypto md suite.secretLen args.secret m) ∧
      (qrxGetCipherCtxIdx el quicEncLevel1rtt keyPhaseBit rxKeyEpoch).2.1 =
        (args.initKeyPhaseBit + m) % 2 ^ 64

/-- An update is only said to be done in the course of one or after it, and the secret is one for
    receiving, under the hash of its suite. -/
def QrlReceives (crypto : QrlCrypto Md) (hashLen : Option Md → Nat) :
    List (QrlOp Md × (QrlCall → Bool)) → QrlEncLevel Md → Prop
  | [], _ => True
  | (op, fails) :: ops, el =>
    (op = .keyUpdateDone → el.state = .provUpdating ∨ el.state = .provCooldown) ∧
    (∀ args, op = .provideSecret args → args.isTx = 0 ∧
      ∀ suite, getSuite args.suiteId = some suite →
        hashLen (some (args.md.getD (crypto.mdFetch suite.mdName))) = suite.secretLen) ∧
    QrlReceives crypto hashLen ops (qrlStep crypto fails op el).2

section Slots
variable {crypto : QrlCrypto Md} {hashLen : Option Md → Nat} {md : Md} {suite : SuiteInfo}

theorem epochKeyslot_parity {a b : Nat} (same : a % 2 = b % 2) :
    epochKeyslot a = epochKeyslot b := by
  rw [epochKeyslot, epochKeyslot, same]

theorem epochKeyslot_next (epoch : Nat) : epochKeyslot (epoch + 1) ≠ epochKeyslot epoch := by
  rw [epochKeyslot, epochKeyslot]
  rcases mod_two_eq_zero_or_one epoch with even | odd
  · rw [if_neg (by omega), if_pos even]
    decide
  · rw [if_pos (by omega), if_neg (by omega)]
    decide

variable {el : QrlEncLevel Md} {secret : List UInt8}

theorem otherKeyslot_epoch {epoch : Nat} (keyEpoch : el.keyEpoch = epoch % 2 ^ 64) :
    currentKeyslot el = epochKeyslot epoch ∧
      otherKeyslot (currentKeyslot el) = epochKeyslot (epoch + 1) := by
  have parity : el.keyEpoch % 2 = epoch % 2 := by omega
  rcases mod_two_eq_zero_or_one epoch with even | odd
  · have next : (epoch + 1) % 2 = 1 := by omega
    simp [currentKeyslot, otherKeyslot, epochKeyslot, parity, even, next]
  · have next : (epoch + 1) % 2 = 0 := by omega
    simp [currentKeyslot, otherKeyslot, epochKeyslot, parity, odd, next]

/-- A keyslot that is set up holds the key of the secret, and the rest of the level stays. -/
theorem elSetupKeyslot_holds {fails : QrlCall → Bool} {encLevel : Nat} {el : QrlEncLevel Md}
    {tgtState : QrlElState} {keyslot : Fin 2} {secret : List UInt8} {secretLen : Nat}
    (suited : getSuite el.suiteId = some suite) (hash : el.md = some md)
    (done : (elSetupKeyslot crypto fails encLevel el tgtState keyslot secret secretLen).1 = true) :
    secretLen = suite.secretLen ∧ ∃ cctx iv,
      (elSetupKeyslot crypto fails encLevel el tgtState keyslot secret secretLen).2 =
        { el with cctx, iv } ∧
      SlotHolds crypto md suite { el with cctx, iv } keyslot secret ∧
      ∀ other, other ≠ keyslot → cctx other = el.cctx other ∧ iv other = el.iv other := by
  unfold elSetupKeyslot at done ⊢
  rw [suited] at done ⊢
  split_ifs at done ⊢ with has
  dsimp only at done ⊢
  split_ifs at done ⊢ with refused
  unfold elSetupCctx at done ⊢
  split_ifs at done ⊢
  rw [not_or, not_not] at refused
  refine ⟨refused.1, _, _, rfl, ⟨_, el.iv keyslot, rfl, ?_, ?_⟩, ?_⟩
  · simp [hash]
  · simp [hash]
  · intro other differs
    simp [differs]

variable {keyslot : Fin 2}

theorem slotHolds_same {el' : QrlEncLevel Md} (cctx : el'.cctx keyslot = el.cctx keyslot)
    (iv : el'.iv keyslot = el.iv keyslot) (holds : SlotHolds crypto md suite el keyslot secret) :
    SlotHolds crypto md suite el' keyslot secret := by
  obtain ⟨iv', old, is, inIv, inCctx⟩ := holds
  exact ⟨iv', old, is, iv.trans inIv, cctx.trans inCctx⟩

theorem slotHolds_reads (derives : QrlDerives crypto hashLen)
    (hash : hashLen (some md) = suite.secretLen) {secret' : List UInt8}
    (same : secret.take suite.secretLen = secret'.take suite.secretLen)
    (holds : SlotHolds crypto md suite el keyslot secret) :
    SlotHolds crypto md suite el keyslot secret' := by
  rw [← hash] at same
  obtain ⟨iv, old, is, inIv, inCctx⟩ := holds
  rw [derives.reads _ secret secret' _ _ same] at is inCctx
  exact ⟨iv, old, is, inIv, inCctx⟩

theorem writtenStart_take (bytes old : List UInt8) :
    (writtenStart bytes old).take bytes.length = bytes := by
  rw [writtenStart, take_left]

theorem qrlChain_length (derives : QrlDerives crypto hashLen) {secretLen : Nat}
    (sized : secret.length = secretLen) (n : Nat) :
    (qrlChain crypto md secretLen secret n).length = secretLen := by
  cases n with
  | zero => exact sized
  | succ n => exact derives.sized _ _ _ _

theorem ku_next (derives : QrlDerives crypto hashLen) (hash : hashLen (some md) = suite.secretLen)
    {ku old : List UInt8} (sized : secret.length = suite.secretLen) {n : Nat}
    (is : ku.take suite.secretLen = qrlChain crypto md suite.secretLen secret n) :
    (writtenStart (crypto.hkdfExpand (some md) ku quicV1KuLabel suite.secretLen) old).take
      suite.secretLen = qrlChain crypto md suite.secretLen secret (n + 1) := by
  have same : ku.take (hashLen (some md)) =
      (qrlChain crypto md suite.secretLen secret n).take (hashLen (some md)) := by
    rw [hash, is, take_of_length_le (le_of_eq (qrlChain_length derives sized n))]
  rw [derives.reads _ _ _ _ _ same]
  have take := writtenStart_take (crypto.hkdfExpand (some md)
    (qrlChain crypto md suite.secretLen secret n) quicV1KuLabel suite.secretLen) old
  rw [derives.sized] at take
  exact take

end Slots

theorem guard_passed {α : Type*} (ok : α → Bool) {refused : Prop} [Decidable refused] {x y : α}
    (bad : ok x = false) (done : ok (if refused then x else y) = true) : ¬ refused ∧ ok y = true := by
  by_cases is : refused
  · rw [if_pos is, bad] at done
    contradiction
  · rw [if_neg is] at done
    exact ⟨is, done⟩

section Steps
variable {crypto : QrlCrypto Md} {hashLen : Option Md → Nat} {args : QrlSecret Md} {md : Md}
  {suite : SuiteInfo} {n : Nat} {el : QrlEncLevel Md} {fails : QrlCall → Bool}

theorem keyUpdate_keys (keys : QrlKeys crypto args md suite n el)
    (done : (qrlKeyUpdate crypto fails quicEncLevel1rtt el).1 = true) :
    QrlKeys crypto args md suite (n + 1) (qrlKeyUpdate crypto fails quicEncLevel1rtt el).2 := by
  have update : el.state = .provNormal := by
    by_contra other
    rw [qrlKeyUpdate, if_neg (not_not.mpr rfl), if_pos other] at done
    contradiction
  rw [qrlKeyUpdate, if_neg (not_not.mpr rfl), if_neg (not_not.mpr update), if_pos keys.isTx]
  obtain ⟨next, ku⟩ := keys.normal update
  refine ⟨keys.suiteId, keys.hash, keys.isTx, ?_, .inr (.inl rfl), ?_, nofun, ?_, nofun⟩
  · rw [keys.keyEpoch, addU64_mod, add_assoc]
  · exact slotHolds_same rfl rfl next
  · intro _
    refine ⟨n, rfl, ?_, ku⟩
    rw [epochKeyslot_parity (show (args.initKeyPhaseBit + (n + 1) + 1) % 2 =
      (args.initKeyPhaseBit + n) % 2 by omega)]
    exact slotHolds_same rfl rfl keys.current

/-- The key of the epoch before is erased. -/
theorem keyUpdateDone_keys (keys : QrlKeys crypto args md suite n el)
    (due : el.state = .provUpdating ∨ el.state = .provCooldown) :
    QrlKeys crypto args md suite n (qrlKeyUpdateDone quicEncLevel1rtt el).2 := by
  obtain ⟨is, other⟩ := otherKeyslot_epoch keys.keyEpoch
  have ku : el.ku.take suite.secretLen =
      qrlChain crypto md suite.secretLen args.secret (n + 1) := by
    cases due with
    | inl updating =>
      obtain ⟨_, _, _, ku⟩ := keys.updating updating
      exact ku
    | inr cooldown => exact (keys.cooldown cooldown).2
  have torn : ∃ cctx iv,
      elTeardownKeyslot quicEncLevel1rtt el (otherKeyslot (currentKeyslot el)) =
        { el with cctx, iv } ∧ cctx (otherKeyslot (currentKeyslot el)) = none ∧
      ∀ keyslot, keyslot ≠ otherKeyslot (currentKeyslot el) →
        cctx keyslot = el.cctx keyslot ∧ iv keyslot = el.iv keyslot := by
    cases due with
    | inl updating =>
      have has : qrlEncLevelHasKeyslot el quicEncLevel1rtt el.state
          (otherKeyslot (currentKeyslot el)) = true := by
        simp [qrlEncLevelHasKeyslot, updating]
      rw [elTeardownKeyslot, if_neg (by simp [has])]
      refine ⟨_, _, rfl, by simp, ?_⟩
      intro keyslot differs
      simp [differs]
    | inr cooldown =>
      have has : qrlEncLevelHasKeyslot el quicEncLevel1rtt el.state
          (otherKeyslot (currentKeyslot el)) = false := by
        rw [cooldown, otherKeyslot_current]
        simp
      rw [elTeardownKeyslot, if_pos has]
      refine ⟨el.cctx, el.iv, rfl, ?_, fun _ _ => ⟨rfl, rfl⟩⟩
      rw [other]
      exact (keys.cooldown cooldown).1
  obtain ⟨cctx, iv, level, empty, rest⟩ := torn
  have kept := rest _ (other ▸ (epochKeyslot_next (args.initKeyPhaseBit + n)).symm)
  rw [qrlKeyUpdateDone, if_neg (not_not.mpr rfl), level]
  refine ⟨keys.suiteId, keys.hash, keys.isTx, keys.keyEpoch, .inr (.inr rfl), ?_, (by intro is; cases is),
    (by intro is; cases is), ?_⟩
  · exact slotHolds_same kept.1 kept.2 keys.current
  · intro _
    rw [← other]
    exact ⟨empty, ku⟩

/-- The next key is made of the next secret, in the keyslot that is empty. -/
theorem cooldownKeys_keys (derives : QrlDerives crypto hashLen)
    (hash : hashLen (some md) = suite.secretLen) (suited : getSuite args.suiteId = some suite)
    (sized : args.secret.length = suite.secretLen) (keys : QrlKeys crypto args md suite n el)
    (cooldown : el.state = .provCooldown)
    (done : (qrlCooldownKeys crypto fails quicEncLevel1rtt el).1 = true) :
    QrlKeys crypto args md suite n (qrlCooldownKeys crypto fails quicEncLevel1rtt el).2 := by
  obtain ⟨is, other⟩ := otherKeyslot_epoch keys.keyEpoch
  obtain ⟨_, ku⟩ := keys.cooldown cooldown
  have len : qrlGetSuiteSecretLen el.suiteId = suite.secretLen := by
    rw [qrlGetSuiteSecretLen, keys.suiteId, suited]
    rfl
  rw [← keys.suiteId] at suited
  unfold qrlCooldownKeys at done ⊢
  rw [len] at done ⊢
  obtain ⟨setUp, done⟩ := guard_passed fst rfl done
  obtain ⟨noKu, _⟩ := guard_passed fst rfl done
  rw [if_neg setUp, if_neg noKu]
  obtain ⟨_, cctx, iv, level, holds, rest⟩ := elSetupKeyslot_holds suited keys.hash
    (Bool.not_eq_false _ ▸ setUp)
  rw [level]
  have kept := rest _ (other ▸ (epochKeyslot_next (args.initKeyPhaseBit + n)).symm)
  refine ⟨keys.suiteId, keys.hash, keys.isTx, keys.keyEpoch, .inl rfl, ?_, ?_, nofun, nofun⟩
  · exact slotHolds_same kept.1 kept.2 keys.current
  · intro _
    constructor
    · rw [← other]
      apply slotHolds_reads derives hash _ (slotHolds_same rfl rfl holds)
      rw [ku, take_of_length_le (le_of_eq (qrlChain_length derives sized _))]
    · rw [keys.hash]
      exact ku_next derives hash sized ku

theorem keyCooldownDone_keys (derives : QrlDerives crypto hashLen)
    (hash : hashLen (some md) = suite.secretLen) (suited : getSuite args.suiteId = some suite)
    (sized : args.secret.length = suite.secretLen) (keys : QrlKeys crypto args md suite n el)
    (done : (qrlKeyCooldownDone crypto fails quicEncLevel1rtt el).1 = true) :
    QrlKeys crypto args md suite n (qrlKeyCooldownDone crypto fails quicEncLevel1rtt el).2 := by
  have updates (updating : el.state = .provUpdating) := keyUpdateDone_keys keys (.inl updating)
  rw [qrlKeyCooldownDone, if_neg (not_not.mpr rfl)] at done ⊢
  by_cases updating : el.state = .provUpdating
  · simp only [if_pos updating] at done ⊢
    have ok : (qrlKeyUpdateDone quicEncLevel1rtt el).1 = true := rfl
    have state : (qrlKeyUpdateDone quicEncLevel1rtt el).2.state = .provCooldown := rfl
    rw [ok, if_neg (by simp), if_neg (not_not.mpr state)] at done ⊢
    exact cooldownKeys_keys derives hash suited sized (updates updating) state done
  · simp only [if_neg updating] at done ⊢
    rw [if_neg (by simp)] at done ⊢
    by_cases cooldown : el.state = .provCooldown
    · rw [if_neg (not_not.mpr cooldown)] at done ⊢
      exact cooldownKeys_keys derives hash suited sized keys cooldown done
    · rw [if_pos cooldown] at done
      contradiction

theorem initKeyslot_epoch (receives : args.isTx = 0) (phase : args.initKeyPhaseBit ≤ 1) :
    qrlInitKeyslot args = epochKeyslot args.initKeyPhaseBit ∧
      otherKeyslot (qrlInitKeyslot args) = epochKeyslot (args.initKeyPhaseBit + 1) := by
  rcases le_one_iff_eq_zero_or_eq_one.mp phase with zero | one
  · simp [qrlInitKeyslot, otherKeyslot, epochKeyslot, receives, zero]
  · simp [qrlInitKeyslot, otherKeyslot, epochKeyslot, receives, one]

theorem provideKeys_keys (derives : QrlDerives crypto hashLen)
    (hash : hashLen (some md) = suite.secretLen) (suited : getSuite args.suiteId = some suite)
    (receives : args.isTx = 0) (phase : args.initKeyPhaseBit ≤ 1)
    (suiteId : el.suiteId = args.suiteId) (started : el.md = some md)
    (rx : el.isTx = false) (keyEpoch : el.keyEpoch = args.initKeyPhaseBit)
    (done : (qrlProvideKeys crypto fails quicEncLevel1rtt el md args).ok = true) :
    args.secret.length = suite.secretLen ∧ QrlKeys crypto args md suite 0
      { (qrlProvideKeys crypto fails quicEncLevel1rtt el md args).el with
        state := .provNormal } := by
  obtain ⟨isInit, isNext⟩ := initKeyslot_epoch receives phase
  rw [← suiteId] at suited
  unfold qrlProvideKeys at done ⊢
  obtain ⟨noHp, done⟩ := guard_passed QrlProvision.ok rfl done
  obtain ⟨first, done⟩ := guard_passed QrlProvision.ok rfl done
  rw [if_neg (not_not.mpr rfl)] at done
  obtain ⟨noKu, done⟩ := guard_passed QrlProvision.ok rfl done
  rw [if_neg (not_not.mpr receives)] at done
  rw [if_neg noHp, if_neg first, if_neg (not_not.mpr rfl), if_neg noKu,
    if_neg (not_not.mpr receives)]
  obtain ⟨sized, cctx, iv, level, holds, rest⟩ := elSetupKeyslot_holds suited started
    (Bool.not_eq_false _ ▸ first)
  rw [level] at done ⊢
  unfold qrlProvideNext at done ⊢
  obtain ⟨second, done⟩ := guard_passed QrlProvision.ok rfl done
  obtain ⟨noNext, _⟩ := guard_passed QrlProvision.ok rfl done
  rw [if_neg second, if_neg noNext]
  obtain ⟨_, cctx', iv', level', holds', rest'⟩ :=
    @elSetupKeyslot_holds Md crypto md suite fails quicEncLevel1rtt { el with cctx, iv } .provNormal
      _ _ _ suited started (Bool.not_eq_false _ ▸ second)
  rw [level']
  have kept := rest' (qrlInitKeyslot args) (by
    rw [isInit] at isNext ⊢
    rw [isNext]
    exact (epochKeyslot_next args.initKeyPhaseBit).symm)
  refine ⟨sized, suiteId, started, rx, ?_, .inl rfl, ?_, ?_, nofun, nofun⟩
  · dsimp only [qrlProvideHdrProt]
    rw [keyEpoch, add_zero, mod_eq_of_lt (by omega)]
  · rw [add_zero, ← isInit]
    exact slotHolds_same kept.1 kept.2 holds
  · intro _
    rw [add_zero, ← isNext]
    rw [sized] at holds' ⊢
    constructor
    · exact slotHolds_same rfl rfl holds'
    · have chain : (crypto.hkdfExpand (some md) args.secret quicV1KuLabel
          suite.secretLen).take suite.secretLen =
          qrlChain crypto md suite.secretLen args.secret 1 := by
        rw [take_of_length_le (le_of_eq (derives.sized _ _ _ _))]
        rfl
      exact ku_next derives hash sized chain

/-- A level that takes a secret has its keys, and no key update yet. -/
theorem provideSecret_keys (derives : QrlDerives crypto hashLen) (receives : args.isTx = 0)
    (hash : ∀ suite, getSuite args.suiteId = some suite →
      hashLen (some (args.md.getD (crypto.mdFetch suite.mdName))) = suite.secretLen)
    (done : (qrlProvideSecret crypto fails quicEncLevel1rtt args el).1 = true) :
    el.state = .unprov ∧ ∃ suite, getSuite args.suiteId = some suite ∧
      args.secret.length = suite.secretLen ∧
      QrlKeys crypto args (args.md.getD (crypto.mdFetch suite.mdName)) suite 0
        (qrlProvideSecret crypto fails quicEncLevel1rtt args el).2 := by
  unfold qrlProvideSecret at done ⊢
  cases suited : getSuite args.suiteId with
  | none =>
    rw [suited] at done
    contradiction
  | some suite =>
    rw [suited] at done
    dsimp only at done ⊢
    obtain ⟨refused, done⟩ := guard_passed fst rfl done
    have phase : args.initKeyPhaseBit ≤ 1 := by
      rw [not_or] at refused
      omega
    have notInitial : ¬ (quicEncLevel1rtt = quicEncLevelInitial ∧ el.state = .provNormal) :=
      fun bad => absurd bad.1 (by decide)
    rw [if_neg notInitial] at done
    obtain ⟨unprov, done⟩ := guard_passed fst rfl done
    rw [if_neg refused, if_neg notInitial, if_neg unprov]
    refine ⟨not_not.mp unprov, suite, rfl, ?_⟩
    unfold qrlProvideUnprov at done ⊢
    dsimp only at done ⊢
    obtain ⟨noHp, done⟩ := guard_passed fst rfl done
    obtain ⟨noMd, done⟩ := guard_passed fst rfl done
    rw [if_neg noHp, if_neg noMd]
    split_ifs at done ⊢ with ok
    exact provideKeys_keys derives (hash suite suited) suited receives phase rfl rfl
      (by simp [receives]) rfl ok

end Steps

section Runs
variable {crypto : QrlCrypto Md} {hashLen : Option Md → Nat} {args : QrlSecret Md} {md : Md}
  {suite : SuiteInfo}

variable {n : Nat} {el : QrlEncLevel Md}

/-- A level with its keys takes no secret, and its other operations keep the keys. -/
theorem qrlRun_keyed (derives : QrlDerives crypto hashLen)
    (hash : hashLen (some md) = suite.secretLen) (suited : getSuite args.suiteId = some suite)
    (sized : args.secret.length = suite.secretLen) {ops : List (QrlOp Md × (QrlCall → Bool))}
    {el' : QrlEncLevel Md} (keys : QrlKeys crypto args md suite n el)
    (receives : QrlReceives crypto hashLen ops el) (run : qrlRun crypto ops el = some el') :
    QrlKeys crypto args md suite (n + qrlUpdates ops) el' := by
  induction ops generalizing n el with
  | nil =>
    cases run
    exact keys
  | cons call ops next =>
    obtain ⟨op, fails⟩ := call
    obtain ⟨due, secret, later⟩ := receives
    rw [qrlRun] at run
    split_ifs at run with done
    cases op with
    | provideSecret again =>
      obtain ⟨receives, hashed⟩ := secret again rfl
      obtain ⟨unprov, _⟩ := provideSecret_keys derives receives hashed done
      have provided := keys.provided
      simp [unprov] at provided
    | keyUpdate =>
      have kept := next (keyUpdate_keys keys done) later run
      rw [add_assoc, add_comm 1] at kept
      exact kept
    | keyUpdateDone => exact next (keyUpdateDone_keys keys (due rfl)) later run
    | keyCooldownDone =>
      exact next (keyCooldownDone_keys derives hash suited sized keys done) later run

theorem parity_xor {epoch keyPhaseBit : Nat} (bit : keyPhaseBit ≤ 1) :
    (epoch % 2) ^^^ keyPhaseBit = if epoch % 2 = keyPhaseBit then 0 else 1 := by
  rcases le_one_iff_eq_zero_or_eq_one.mp bit with zero | one <;>
    rcases mod_two_eq_zero_or_one epoch with even | odd <;>
    simp [*]

/-- The packet's key phase picks the keyslot, and the state tells which epoch is there. -/
theorem qrlKeys_picks (keys : QrlKeys crypto args md suite n el) :
    QrxPicks crypto args md suite el := by
  intro keyPhaseBit bit rxKeyEpoch provided
  have parity : el.keyEpoch % 2 = (args.initKeyPhaseBit + n) % 2 := by
    have := keys.keyEpoch
    omega
  rw [qrxGetCipherCtxIdx, if_neg (not_not.mpr rfl), if_neg (not_lt.mpr bit), parity_xor bit]
  by_cases same : el.keyEpoch % 2 = keyPhaseBit
  · refine ⟨keyPhaseBit, n, ?_, bit, ?_, ?_⟩
    · cases provided with
      | inl normal => simp [normal]
      | inr updating => simp [updating]
    · rw [epochKeyslot_parity (show keyPhaseBit % 2 = (args.initKeyPhaseBit + n) % 2 by omega)]
      exact keys.current
    · cases provided with
      | inl normal =>
        simp only [normal, if_pos same]
        rw [keys.keyEpoch, addU64_mod, add_zero]
      | inr updating =>
        simp only [updating, if_pos same]
        rw [keys.keyEpoch]
        exact subU64_mod (args.initKeyPhaseBit + n) 0
  · have phase : keyPhaseBit % 2 = (args.initKeyPhaseBit + n + 1) % 2 := by omega
    cases provided with
    | inl normal =>
      refine ⟨keyPhaseBit, n + 1, by simp [normal], bit, ?_, ?_⟩
      · rw [epochKeyslot_parity phase]
        exact (keys.normal normal).1
      · simp only [normal, if_neg same]
        rw [keys.keyEpoch, addU64_mod, add_assoc]
    | inr updating =>
      obtain ⟨m, after, holds, _⟩ := keys.updating updating
      refine ⟨keyPhaseBit, m, by simp [updating], bit, ?_, ?_⟩
      · rw [epochKeyslot_parity phase]
        exact holds
      · simp only [updating, if_neg same]
        rw [keys.keyEpoch, after, ← add_assoc, subU64_mod]

/-- Over a run that starts with the secret, the keyslots and the epochs follow the key updates. -/
theorem qrlRun_keys (derives : QrlDerives crypto hashLen)
    {ops : List (QrlOp Md × (QrlCall → Bool))} {el el' : QrlEncLevel Md}
    (fresh : el.state = .unprov) (receives : QrlReceives crypto hashLen ops el)
    (run : qrlRun crypto ops el = some el') :
    ops = [] ∨ ∃ args fails rest suite, ops = (.provideSecret args, fails) :: rest ∧
      getSuite args.suiteId = some suite ∧
      QrlKeys crypto args (args.md.getD (crypto.mdFetch suite.mdName)) suite (qrlUpdates ops) el' ∧
      QrxPicks crypto args (args.md.getD (crypto.mdFetch suite.mdName)) suite el' := by
  cases ops with
  | nil => exact .inl rfl
  | cons call rest =>
    obtain ⟨op, fails⟩ := call
    obtain ⟨due, secret, later⟩ := receives
    rw [qrlRun] at run
    split_ifs at run with done
    cases op with
    | provideSecret args =>
      obtain ⟨receives, hashed⟩ := secret args rfl
      obtain ⟨_, suite, suited, sized, keys⟩ := provideSecret_keys derives receives hashed done
      have kept := qrlRun_keyed derives (hashed suite suited) suited sized keys later run
      rw [Nat.zero_add] at kept
      exact .inr ⟨args, fails, rest, suite, rfl, suited, kept, qrlKeys_picks kept⟩
    | keyUpdate =>
      simp [qrlStep, qrlKeyUpdate, fresh] at done
    | keyUpdateDone =>
      have state := due rfl
      simp [fresh] at state
    | keyCooldownDone =>
      simp [qrlStep, qrlKeyCooldownDone, fresh] at done

end Runs

def addCrypto : QrlCrypto Unit :=
  { suiteCrypto with
    hkdfExpand := fun _ secret label len =>
      ((secret.take 32).map (· + UInt8.ofNat label.length) ++ replicate len 0).take len }

def addSecret : QrlSecret Unit where
  suiteId := 1
  md := none
  secret := replicate 32 1
  initKeyPhaseBit := 0
  isTx := 0

def freshLevel : QrlEncLevel Unit :=
  { suiteLevel .unprov false with hpr := none, md := none, cctx := fun _ => none, keyEpoch := 0 }

def updateOps : List (QrlOp Unit × (QrlCall → Bool)) :=
  [(.provideSecret addSecret, fun _ => false), (.keyUpdate, fun _ => false),
    (.keyUpdateDone, fun _ => false), (.keyCooldownDone, fun _ => false)]

theorem addCrypto_derives : QrlDerives addCrypto (fun _ => 32) := by
  constructor
  · intro _ secret label len
    simp [addCrypto]
  · intro _ secret secret' label len same
    simp only [addCrypto, same]

theorem addSecret_hash (suite : SuiteInfo) (suited : getSuite addSecret.suiteId = some suite) :
    32 = suite.secretLen := by
  cases suited
  rfl

theorem qrlRun_keys_update : ∃ el', qrlRun addCrypto updateOps freshLevel = some el' ∧
    (updateOps = [] ∨ ∃ args fails rest suite, updateOps = (.provideSecret args, fails) :: rest ∧
      getSuite args.suiteId = some suite ∧
      QrlKeys addCrypto args (args.md.getD (addCrypto.mdFetch suite.mdName)) suite
        (qrlUpdates updateOps) el' ∧
      QrxPicks addCrypto args (args.md.getD (addCrypto.mdFetch suite.mdName)) suite el') := by
  have succeeds : (qrlRun addCrypto updateOps freshLevel).isSome = true := by decide +kernel
  obtain ⟨el', run⟩ := isSome_iff_exists.mp succeeds
  have receives : QrlReceives addCrypto (fun _ => 32) updateOps freshLevel := by
    refine ⟨nofun, ?_, nofun, nofun, fun _ => .inl ?_, nofun, nofun, nofun, trivial⟩
    · intro args is
      cases is
      exact ⟨rfl, addSecret_hash⟩
    · decide +kernel
  exact ⟨el', run, qrlRun_keys addCrypto_derives rfl receives run⟩

def earlyDoneOps : List (QrlOp Unit × (QrlCall → Bool)) :=
  [(.provideSecret addSecret, fun _ => false), (.keyUpdateDone, fun _ => false),
    (.keyCooldownDone, fun _ => false)]

/-- The key for the next epoch is then erased, and that of the epoch after it takes its place. -/
theorem qrlRun_earlyDone :
    ¬ ∀ el', qrlRun addCrypto earlyDoneOps freshLevel = some el' →
      QrlKeys addCrypto addSecret () suiteAes128gcm (qrlUpdates earlyDoneOps) el' := by
  intro keys
  have run : ((qrlRun addCrypto earlyDoneOps freshLevel).map
      fun el => (el.state, (el.cctx 1).map (·.key))) =
        some (.provNormal, some (replicate 16 23)) := by
    decide +kernel
  obtain ⟨el', is, fields⟩ := map_eq_some_iff.mp run
  have state : el'.state = .provNormal := congrArg fst fields
  have key : (el'.cctx 1).map (·.key) = some (replicate 16 23) := congrArg snd fields
  obtain ⟨⟨iv, old, _, _, holds⟩, _⟩ := (keys el' is).normal state
  have next : el'.cctx 1 = some ⟨suiteAes128gcm.cipherName, addCrypto.hkdfExpand (some ())
      (qrlChain addCrypto () suiteAes128gcm.secretLen addSecret.secret 1) quicV1KeyLabel
      suiteAes128gcm.cipherKeyLen, iv⟩ := holds
  rw [next] at key
  have same : addCrypto.hkdfExpand (some ())
      (qrlChain addCrypto () suiteAes128gcm.secretLen addSecret.secret 1) quicV1KeyLabel
      suiteAes128gcm.cipherKeyLen = replicate 16 23 := some.inj key
  exact absurd same (by decide +kernel)

end Ossl
