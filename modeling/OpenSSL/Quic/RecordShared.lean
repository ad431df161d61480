import Mathlib.Algebra.GroupWithZero.Nat
import OpenSSL.Word
import Mathlib.Data.Fin.Basic

/- The keys of a QUIC encryption level in ssl/quic/quic_record_shared.c, with the ciphersuites of
   ssl/quic/quic_record_util.c. The crypto library is a parameter: what it derives, how long its
   keys are, and which of its calls fail. -/
namespace Ossl

instance two_slots : NeZero 2 := ⟨by decide⟩

structure SuiteInfo where
  cipherName : String
  mdName : String
  secretLen : Nat
  cipherKeyLen : Nat
  cipherIvLen : Nat
  cipherTagLen : Nat
  hdrProtKeyLen : Nat
  hdrProtCipherId : Nat

def suiteAes128gcm : SuiteInfo := ⟨"AES-128-GCM", "SHA256", 32, 16, 12, 16, 16, 1⟩
def suiteAes256gcm : SuiteInfo := ⟨"AES-256-GCM", "SHA384", 48, 32, 12, 16, 32, 2⟩
def suiteChacha20poly1305 : SuiteInfo := ⟨"ChaCha20-Poly1305", "SHA256", 32, 32, 12, 16, 32, 3⟩

def getSuite (suiteId : Nat) : Option SuiteInfo :=
  if suiteId = 1 then some suiteAes128gcm
  else if suiteId = 2 then some suiteAes256gcm
  else if suiteId = 3 then some suiteChacha20poly1305
  else none

def qrlGetSuiteSecretLen (suiteId : Nat) : Nat := ((getSuite suiteId).map (·.secretLen)).getD 0
def qrlGetSuiteCipherTagLen (suiteId : Nat) : Nat :=
  ((getSuite suiteId).map (·.cipherTagLen)).getD 0
def qrlGetSuiteHdrProtKeyLen (suiteId : Nat) : Nat :=
  ((getSuite suiteId).map (·.hdrProtKeyLen)).getD 0
def qrlGetSuiteHdrProtCipherId (suiteId : Nat) : Nat :=
  ((getSuite suiteId).map (·.hdrProtCipherId)).getD 0

def quicEncLevelInitial : Nat := 0
def quicEncLevel1rtt : Nat := 3
def evpMaxKeyLength : Nat := 64
def evpMaxIvLength : Nat := 16

def quicV1IvLabel : List UInt8 := [0x71, 0x75, 0x69, 0x63, 0x20, 0x69, 0x76]
def quicV1KeyLabel : List UInt8 := [0x71, 0x75, 0x69, 0x63, 0x20, 0x6b, 0x65, 0x79]
def quicV1HpLabel : List UInt8 := [0x71, 0x75, 0x69, 0x63, 0x20, 0x68, 0x70]
def quicV1KuLabel : List UInt8 := [0x71, 0x75, 0x69, 0x63, 0x20, 0x6b, 0x75]

inductive QrlElState where
  | unprov
  | provNormal
  | provUpdating
  | provCooldown
  | discarded
  deriving DecidableEq

structure EvpCipherCtx where
  cipherName : String
  key : List UInt8
  iv : List UInt8
  deriving DecidableEq

structure QuicHdrProtector where
  cipherId : Nat
  key : List UInt8
  deriving DecidableEq

structure QrlEncLevel (Md : Type*) where
  hpr : Option QuicHdrProtector
  md : Option Md
  cctx : Fin 2 → Option EvpCipherCtx
  keyEpoch : Nat
  opCount : Nat
  suiteId : Nat
  tagLen : Nat
  state : QrlElState
  isTx : Bool
  iv : Fin 2 → List UInt8
  ku : List UInt8

abbrev QrlEncLevelSet (Md : Type*) := Fin 4 → QrlEncLevel Md

structure QrlCrypto (Md : Type*) where
  mdFetch : String → Md
  hkdfExpand : Option Md → List UInt8 → List UInt8 → Nat → List UInt8
  ivLength : String → Nat
  keyLength : String → Nat
  hpKeyLength : Nat → Nat

/- The calls of one operation that may fail: in the setup of a keyslot, of the header protection
   and between. -/
inductive QrlCall where
  | mdFetch
  | hpKey
  | slotIv (keyslot : Fin 2)
  | slotKey (keyslot : Fin 2)
  | slotFetch (keyslot : Fin 2)
  | slotCtxNew (keyslot : Fin 2)
  | slotInit (keyslot : Fin 2)
  | ku
  | nextKu
  | hpCtxNew
  | hpFetch
  | hpInit
  deriving DecidableEq

variable {Md : Type*}

def qrlEncLevelHasKeyslot (el : QrlEncLevel Md) (encLevel : Nat) (tgtState : QrlElState)
    (keyslot : Fin 2) : Bool :=
  match tgtState with
  | .provNormal | .provUpdating => decide (encLevel = quicEncLevel1rtt ∨ keyslot = 0)
  | .provCooldown => decide (keyslot.val = el.keyEpoch % 2)
  | _ => false

def cleansedIv : List UInt8 := List.replicate evpMaxIvLength 0
def cleansedKey : List UInt8 := List.replicate evpMaxKeyLength 0

def writtenStart (bytes buf : List UInt8) : List UInt8 := bytes ++ buf.drop bytes.length

def elTeardownKeyslot (encLevel : Nat) (el : QrlEncLevel Md) (keyslot : Fin 2) : QrlEncLevel Md :=
  if qrlEncLevelHasKeyslot el encLevel el.state keyslot = false then el
  else
    { el with
      cctx := Function.update el.cctx keyslot none
      iv := Function.update el.iv keyslot cleansedIv }

def elSetupCctx (crypto : QrlCrypto Md) (fails : QrlCall → Bool) (el : QrlEncLevel Md)
    (suite : SuiteInfo) (keyslot : Fin 2) (secret : List UInt8) : Bool × QrlEncLevel Md :=
  let failed : Bool × QrlEncLevel Md :=
    (false, { el with iv := Function.update el.iv keyslot cleansedIv })
  let slotIv := writtenStart (crypto.hkdfExpand el.md secret quicV1IvLabel suite.cipherIvLen)
    (el.iv keyslot)
  let key := crypto.hkdfExpand el.md secret quicV1KeyLabel suite.cipherKeyLen
  if fails (.slotIv keyslot) then failed
  else if fails (.slotKey keyslot) then failed
  else if fails (.slotFetch keyslot) then failed
  else if fails (.slotCtxNew keyslot) then failed
  else if suite.cipherIvLen ≠ crypto.ivLength suite.cipherName ∨
      suite.cipherKeyLen ≠ crypto.keyLength suite.cipherName then failed
  else if fails (.slotInit keyslot) then failed
  else
    (true, { el with
      cctx := Function.update el.cctx keyslot (some ⟨suite.cipherName, key, slotIv⟩)
      iv := Function.update el.iv keyslot slotIv })

def elSetupKeyslot (crypto : QrlCrypto Md) (fails : QrlCall → Bool) (encLevel : Nat)
    (el : QrlEncLevel Md) (tgtState : QrlElState) (keyslot : Fin 2) (secret : List UInt8)
    (secretLen : Nat) : Bool × QrlEncLevel Md :=
  if qrlEncLevelHasKeyslot el encLevel tgtState keyslot = false then (false, el)
  else
    match getSuite el.suiteId with
    | none => (false, el)
    | some suite =>
      if secretLen ≠ suite.secretLen ∨ evpMaxKeyLength < secretLen then (false, el)
      else elSetupCctx crypto fails el suite keyslot secret

def quicHdrProtectorInit (crypto : QrlCrypto Md) (fails : QrlCall → Bool) (cipherId : Nat)
    (key : List UInt8) (keyLen : Nat) : Option QuicHdrProtector :=
  if cipherId = 0 ∨ 3 < cipherId then none
  else if fails .hpCtxNew then none
  else if fails .hpFetch ∨ keyLen ≠ crypto.hpKeyLength cipherId then none
  else if fails .hpInit then none
  else some ⟨cipherId, key⟩

def qrlEncLevelHaveEl (el : QrlEncLevel Md) : Int :=
  match el.state with
  | .unprov => 0
  | .provNormal | .provUpdating | .provCooldown => 1
  | .discarded => -1

def qrlEncLevelDiscard (encLevel : Nat) (el : QrlEncLevel Md) : QrlEncLevel Md :=
  if el.state = .discarded then el
  else
    let el :=
      if qrlEncLevelHaveEl el = 1 then
        elTeardownKeyslot encLevel (elTeardownKeyslot encLevel { el with hpr := none } 0) 1
      else el
    { el with md := none, state := .discarded }

/- The arguments of a new secret beside the level it is for. -/
structure QrlSecret (Md : Type*) where
  suiteId : Nat
  md : Option Md
  secret : List UInt8
  initKeyPhaseBit : Nat
  isTx : Int

def qrlInitKeyslot (args : QrlSecret Md) : Fin 2 :=
  if args.isTx ≠ 0 then 0 else if args.initKeyPhaseBit = 0 then 0 else 1

def otherKeyslot (keyslot : Fin 2) : Fin 2 := if keyslot = 0 then 1 else 0

structure QrlProvision (Md : Type*) where
  ok : Bool
  haveKs0 : Bool
  haveKs1 : Bool
  el : QrlEncLevel Md

def qrlProvideHdrProt (crypto : QrlCrypto Md) (fails : QrlCall → Bool) (haveKs1 : Bool)
    (el : QrlEncLevel Md) (suiteId : Nat) (hprKey : List UInt8) : QrlProvision Md :=
  let hpr := quicHdrProtectorInit crypto fails (qrlGetSuiteHdrProtCipherId suiteId) hprKey
    (qrlGetSuiteHdrProtKeyLen suiteId)
  ⟨hpr.isSome, true, haveKs1, { el with hpr }⟩

def qrlProvideNext (crypto : QrlCrypto Md) (fails : QrlCall → Bool) (encLevel : Nat)
    (el : QrlEncLevel Md) (md : Md) (args : QrlSecret Md) (hprKey kuKey : List UInt8) :
    QrlProvision Md :=
  let ks1 := elSetupKeyslot crypto fails encLevel el .provNormal
    (otherKeyslot (qrlInitKeyslot args)) kuKey args.secret.length
  if ks1.1 = false then ⟨false, true, false, ks1.2⟩
  else if fails .nextKu then ⟨false, true, true, ks1.2⟩
  else
    let ku := crypto.hkdfExpand (some md) kuKey quicV1KuLabel args.secret.length
    qrlProvideHdrProt crypto fails true { ks1.2 with ku := writtenStart ku ks1.2.ku }
      args.suiteId hprKey

def qrlProvideKeys (crypto : QrlCrypto Md) (fails : QrlCall → Bool) (encLevel : Nat)
    (el : QrlEncLevel Md) (md : Md) (args : QrlSecret Md) : QrlProvision Md :=
  let hprKey := crypto.hkdfExpand (some md) args.secret quicV1HpLabel
    (qrlGetSuiteHdrProtKeyLen args.suiteId)
  if fails .hpKey then ⟨false, false, false, el⟩
  else
    let ks0 := elSetupKeyslot crypto fails encLevel el .provNormal (qrlInitKeyslot args)
      args.secret args.secret.length
    if ks0.1 = false then ⟨false, false, false, ks0.2⟩
    else if encLevel ≠ quicEncLevel1rtt then
      qrlProvideHdrProt crypto fails false ks0.2 args.suiteId hprKey
    else if fails .ku then ⟨false, true, false, ks0.2⟩
    else
      let ku := crypto.hkdfExpand (some md) args.secret quicV1KuLabel args.secret.length
      if args.isTx ≠ 0 then
        qrlProvideHdrProt crypto fails false { ks0.2 with ku := writtenStart ku ks0.2.ku }
          args.suiteId hprKey
      else qrlProvideNext crypto fails encLevel ks0.2 md args hprKey ku

def qrlProvideErr (encLevel : Nat) (args : QrlSecret Md) (tried : QrlProvision Md) :
    QrlEncLevel Md :=
  let el := { tried.el with suiteId := 0, md := none, ku := cleansedKey }
  let el := if tried.haveKs0 then elTeardownKeyslot encLevel el (qrlInitKeyslot args) else el
  if tried.haveKs1 then elTeardownKeyslot encLevel el (otherKeyslot (qrlInitKeyslot args)) else el

def qrlProvideUnprov (crypto : QrlCrypto Md) (fails : QrlCall → Bool) (encLevel : Nat)
    (suite : SuiteInfo) (args : QrlSecret Md) (el : QrlEncLevel Md) : Bool × QrlEncLevel Md :=
  if qrlGetSuiteHdrProtKeyLen args.suiteId = 0 then (false, el)
  else if args.md.isNone ∧ fails .mdFetch then (false, el)
  else
    let md := args.md.getD (crypto.mdFetch suite.mdName)
    let started :=
      { el with
        md := some md, suiteId := args.suiteId, tagLen := qrlGetSuiteCipherTagLen args.suiteId
        opCount := 0, keyEpoch := args.initKeyPhaseBit, isTx := decide (args.isTx ≠ 0) }
    let tried := qrlProvideKeys crypto fails encLevel started md args
    if tried.ok then (true, { tried.el with state := .provNormal })
    else (false, qrlProvideErr encLevel args tried)

def qrlProvideSecret (crypto : QrlCrypto Md) (fails : QrlCall → Bool) (encLevel : Nat)
    (args : QrlSecret Md) (el : QrlEncLevel Md) : Bool × QrlEncLevel Md :=
  match getSuite args.suiteId with
  | none => (false, el)
  | some suite =>
    if 1 < args.initKeyPhaseBit ∨ args.isTx < 0 ∨ 1 < args.isTx ∨
        (0 < args.initKeyPhaseBit ∧ encLevel ≠ quicEncLevel1rtt) then (false, el)
    else
      let el :=
        if encLevel = quicEncLevelInitial ∧ el.state = .provNormal then
          { qrlEncLevelDiscard encLevel el with state := .unprov }
        else el
      if el.state ≠ .unprov then (false, el)
      else qrlProvideUnprov crypto fails encLevel suite args el

def currentKeyslot (el : QrlEncLevel Md) : Fin 2 := if el.keyEpoch % 2 = 0 then 0 else 1

def qrlKeyUpdateTx (crypto : QrlCrypto Md) (fails : QrlCall → Bool) (encLevel : Nat)
    (el : QrlEncLevel Md) : Bool × QrlEncLevel Md :=
  let secretLen := qrlGetSuiteSecretLen el.suiteId
  if fails .ku then (false, el)
  else
    let newKu := crypto.hkdfExpand el.md el.ku quicV1KuLabel secretLen
    let ks0 := elSetupKeyslot crypto fails encLevel (elTeardownKeyslot encLevel el 0) .provNormal 0
      el.ku secretLen
    if ks0.1 = false then (false, ks0.2)
    else
      (true, { ks0.2 with
        keyEpoch := addU64 ks0.2.keyEpoch 1, opCount := 0, ku := writtenStart newKu ks0.2.ku })

def qrlKeyUpdate (crypto : QrlCrypto Md) (fails : QrlCall → Bool) (encLevel : Nat)
    (el : QrlEncLevel Md) : Bool × QrlEncLevel Md :=
  if encLevel ≠ quicEncLevel1rtt then (false, el)
  else if el.state ≠ .provNormal then (false, el)
  else if el.isTx = false then
    (true, { el with keyEpoch := addU64 el.keyEpoch 1, state := .provUpdating })
  else qrlKeyUpdateTx crypto fails encLevel el

def qrlKeyUpdateDone (encLevel : Nat) (el : QrlEncLevel Md) : Bool × QrlEncLevel Md :=
  if encLevel ≠ quicEncLevel1rtt then (false, el)
  else
    (true, { elTeardownKeyslot encLevel el (otherKeyslot (currentKeyslot el)) with
      state := .provCooldown })

def qrlCooldownKeys (crypto : QrlCrypto Md) (fails : QrlCall → Bool) (encLevel : Nat)
    (el : QrlEncLevel Md) : Bool × QrlEncLevel Md :=
  let secretLen := qrlGetSuiteSecretLen el.suiteId
  let next := elSetupKeyslot crypto fails encLevel el .provNormal
    (otherKeyslot (currentKeyslot el)) el.ku secretLen
  if next.1 = false then (false, next.2)
  else if fails .ku then
    (false, elTeardownKeyslot encLevel next.2 (otherKeyslot (currentKeyslot next.2)))
  else
    let newKu := crypto.hkdfExpand next.2.md next.2.ku quicV1KuLabel secretLen
    (true, { next.2 with ku := writtenStart newKu next.2.ku, state := .provNormal })

def qrlKeyCooldownDone (crypto : QrlCrypto Md) (fails : QrlCall → Bool) (encLevel : Nat)
    (el : QrlEncLevel Md) : Bool × QrlEncLevel Md :=
  if encLevel ≠ quicEncLevel1rtt then (false, el)
  else
    let done := if el.state = .provUpdating then qrlKeyUpdateDone encLevel el else (true, el)
    if done.1 = false then done
    else if done.2.state ≠ .provCooldown then (false, done.2)
    else qrlCooldownKeys crypto fails encLevel done.2

def qrlOnLevel (els : QrlEncLevelSet Md) (encLevel : Nat)
    (op : QrlEncLevel Md → Bool × QrlEncLevel Md) : Bool × QrlEncLevelSet Md :=
  if valid : encLevel < 4 then
    let done := op (els ⟨encLevel, valid⟩)
    (done.1, Function.update els ⟨encLevel, valid⟩ done.2)
  else (false, els)

def qrlEncLevelSetProvideSecret (crypto : QrlCrypto Md) (fails : QrlCall → Bool)
    (els : QrlEncLevelSet Md) (encLevel : Nat) (args : QrlSecret Md) :
    Bool × QrlEncLevelSet Md :=
  qrlOnLevel els encLevel (qrlProvideSecret crypto fails encLevel args)

def qrlEncLevelSetKeyUpdate (crypto : QrlCrypto Md) (fails : QrlCall → Bool)
    (els : QrlEncLevelSet Md) (encLevel : Nat) : Bool × QrlEncLevelSet Md :=
  qrlOnLevel els encLevel (qrlKeyUpdate crypto fails encLevel)

def qrlEncLevelSetKeyCooldownDone (crypto : QrlCrypto Md) (fails : QrlCall → Bool)
    (els : QrlEncLevelSet Md) (encLevel : Nat) : Bool × QrlEncLevelSet Md :=
  qrlOnLevel els encLevel (qrlKeyCooldownDone crypto fails encLevel)

end Ossl
