import OpenSSL.Lib.BigEndian

/- Record protection of ssl/record/methods/tls13_meth.c and the default writer around it. -/
namespace Ossl
open BigEndian

def ssl3RtChangeCipherSpec : UInt8 := 20
def ssl3RtAlert : UInt8 := 21
def ssl3RtHandshake : UInt8 := 22
def ssl3RtApplicationData : UInt8 := 23

def tls12Version : Nat := 0x0303
def ssl3RtMaxPlainLength : Nat := 16384
def ssl3RtMaxTls13EncryptedLength : Nat := ssl3RtMaxPlainLength + 256
def ssl3RtSendMaxEncryptedOverhead : Nat := 16 + 64

/-- What EVP gives for an AEAD: with the same nonce and header, it opens what it sealed. -/
structure Aead where
  taglen : Nat
  ivlen : Nat
  encrypt : (nonce aad plain : List UInt8) → List UInt8 × List UInt8
  decrypt : (nonce aad data tag : List UInt8) → Option (List UInt8)
  short_tag : taglen ≤ 64
  long_iv : 8 ≤ ivlen
  same_length : ∀ nonce aad plain, (encrypt nonce aad plain).1.length = plain.length
  tag_length : ∀ nonce aad plain, (encrypt nonce aad plain).2.length = taglen
  opens : ∀ nonce aad plain,
    decrypt nonce aad (encrypt nonce aad plain).1 (encrypt nonce aad plain).2 = some plain

/-- The same for a MAC of a suite that only protects integrity. -/
structure RecordMac where
  size : Nat
  final : List UInt8 → List UInt8
  short_size : size ≤ 64
  long_size : 8 ≤ size
  final_length : ∀ data, (final data).length = size

inductive RecordCrypto where
  | cipher (aead : Aead)
  | mac (hmac : RecordMac)

def RecordCrypto.taglen : RecordCrypto → Nat
  | .cipher aead => aead.taglen
  | .mac hmac => hmac.size

def RecordCrypto.nonceLen : RecordCrypto → Nat
  | .cipher aead => aead.ivlen
  | .mac hmac => hmac.size

structure RecordLayer where
  crypto : RecordCrypto
  iv : List UInt8
  sequence : Nat
  allowPlainAlerts : Bool
  isFirstHandshake : Bool
  maxFragLen : Nat
  padding : Option (UInt8 → Nat → Nat)
  blockPadding : Nat
  hsPadding : Nat

structure RecordTemplate where
  type : UInt8
  version : Nat
  buf : List UInt8

structure TlsRlRecord where
  type : UInt8
  recVersion : Nat
  data : List UInt8

def tlsIncrementSequenceCtr (rl : RecordLayer) : Option RecordLayer :=
  if rl.sequence + 1 = 2 ^ 64 then none else some { rl with sequence := rl.sequence + 1 }

def recordNonce (rl : RecordLayer) : List UInt8 :=
  let offset := rl.crypto.nonceLen - 8
  rl.iv.take offset ++ List.zipWith (· ^^^ ·) (rl.iv.drop offset) (netBytes 8 rl.sequence)

def tls13Cipher (rl : RecordLayer) (rec : TlsRlRecord) (sending : Bool) :
    Option (RecordLayer × TlsRlRecord) :=
  if rec.type = ssl3RtAlert then some (rl, rec)
  else if sending = false ∧ rec.data.length < rl.crypto.taglen + 1 then none
  else
    let length := if sending then rec.data.length else rec.data.length - rl.crypto.taglen
    if rl.crypto.nonceLen < 8 then none
    else
      let nonce := recordNonce rl
      match tlsIncrementSequenceCtr rl with
      | none => none
      | some next =>
        if length + rl.crypto.taglen > 0xffff then none
        else
          let recheader :=
            rec.type :: netBytes 2 rec.recVersion ++ netBytes 2 (length + rl.crypto.taglen)
          let input := rec.data.take length
          match rl.crypto with
          | .mac hmac =>
            let tag := hmac.final (nonce ++ recheader ++ input)
            if sending then some (next, { rec with data := input ++ tag })
            else if tag ≠ rec.data.drop length then none
            else some (next, { rec with data := input })
          | .cipher aead =>
            if sending then
              let (data, tag) := aead.encrypt nonce recheader input
              some (next, { rec with data := data ++ tag })
            else
              match aead.decrypt nonce recheader input (rec.data.drop length) with
              | none => none
              | some data => if data.length ≠ length then none
                else some (next, { rec with data := data })

def tls13GetRecordType (rl : RecordLayer) (template_ : RecordTemplate) : UInt8 :=
  if rl.allowPlainAlerts ∧ template_.type = ssl3RtAlert then ssl3RtAlert else ssl3RtApplicationData

def recordPadding (rl : RecordLayer) (type : UInt8) (rlen : Nat) : Nat :=
  match rl.padding with
  | some padding => padding type rlen
  | none =>
    if rl.blockPadding > 0 ∨ rl.hsPadding > 0 then
      let bp :=
        if type = ssl3RtHandshake ∧ rl.hsPadding > 0 then rl.hsPadding
        else if type = ssl3RtAlert ∧ rl.hsPadding > 0 then rl.hsPadding
        else if type = ssl3RtApplicationData ∧ rl.blockPadding > 0 then rl.blockPadding
        else 0
      if bp > 0 then
        let mask := bp - 1
        let remainder := if bp &&& mask = 0 then rlen &&& mask else rlen % bp
        if remainder = 0 then 0 else bp - remainder
      else 0
    else 0

def tls13AddRecordPadding (rl : RecordLayer) (thistempl : RecordTemplate) (thispkt : List UInt8) :
    List UInt8 :=
  if rl.allowPlainAlerts ∧ thistempl.type ≠ ssl3RtAlert then thispkt
  else
    let thispkt := thispkt ++ [thistempl.type]
    let rlen := thispkt.length
    if rlen < rl.maxFragLen then
      let padding := min (recordPadding rl thistempl.type rlen) (rl.maxFragLen - rlen)
      thispkt ++ List.replicate padding 0
    else thispkt

def tlsWriteRecord (rl : RecordLayer) (thistempl : RecordTemplate) :
    Option (RecordLayer × TlsRlRecord) :=
  let rectype := tls13GetRecordType rl thistempl
  let data := tls13AddRecordPadding rl thistempl thistempl.buf
  match tls13Cipher rl { type := rectype, recVersion := thistempl.version, data := data } true with
  | none => none
  | some (next, thiswr) =>
    if data.length + ssl3RtSendMaxEncryptedOverhead < thiswr.data.length then none
    else if thiswr.data.length < data.length then none
    else some (next, thiswr)

def tlsWriteRecords (rl : RecordLayer) : List RecordTemplate → Option (List TlsRlRecord)
  | [] => some []
  | thistempl :: templates =>
    match tlsWriteRecord rl thistempl with
    | none => none
    | some (next, thiswr) => (tlsWriteRecords next templates).map (thiswr :: ·)

def tls13ValidateRecordHeader (rl : RecordLayer) (rec : TlsRlRecord) : Bool :=
  if rec.type ≠ ssl3RtApplicationData
      ∧ (rec.type ≠ ssl3RtChangeCipherSpec ∨ rl.isFirstHandshake = false)
      ∧ (rec.type ≠ ssl3RtAlert ∨ rl.allowPlainAlerts = false) then false
  else if rec.recVersion ≠ tls12Version then false
  else if rec.data.length > ssl3RtMaxTls13EncryptedLength then false
  else true

def strippedEnd (data : List UInt8) : Nat → Nat
  | 0 => 0
  | last + 1 => if data.getD (last + 1) 0 = 0 then strippedEnd data last else last + 1

def tls13CommonPostProcessRecord (rec : TlsRlRecord) : Bool :=
  if rec.type ≠ ssl3RtApplicationData ∧ rec.type ≠ ssl3RtAlert ∧ rec.type ≠ ssl3RtHandshake then
    false
  else if (rec.type = ssl3RtHandshake ∨ rec.type = ssl3RtAlert) ∧ rec.data.length = 0 then false
  else true

def tls13PostProcessRecord (rec : TlsRlRecord) : Option TlsRlRecord :=
  let stripped :=
    if rec.type ≠ ssl3RtAlert then
      if rec.data.length = 0 ∨ rec.type ≠ ssl3RtApplicationData then none
      else
        let last := strippedEnd rec.data (rec.data.length - 1)
        some { rec with type := rec.data.getD last 0, data := rec.data.take last }
    else some rec
  match stripped with
  | none => none
  | some rec =>
    if rec.data.length > ssl3RtMaxPlainLength then none
    else if tls13CommonPostProcessRecord rec then some rec
    else none

def tlsReadRecord (rl : RecordLayer) (rec : TlsRlRecord) : Option (RecordLayer × TlsRlRecord) :=
  if tls13ValidateRecordHeader rl rec = false then none
  else
    match tls13Cipher rl rec false with
    | none => none
    | some (next, rec) =>
      match tls13PostProcessRecord rec with
      | none => none
      | some rec => some (next, rec)

def tlsReadRecords (rl : RecordLayer) : List TlsRlRecord → Option (List (UInt8 × List UInt8))
  | [] => some []
  | rec :: recs =>
    match tlsReadRecord rl rec with
    | none => none
    | some (next, rec) => (tlsReadRecords next recs).map ((rec.type, rec.data) :: ·)

end Ossl
