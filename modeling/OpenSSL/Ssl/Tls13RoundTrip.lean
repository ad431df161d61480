import OpenSSL.Ssl.TlsReadRuns

/- What a reader makes of the records of a writer, one by one and out of a stream. -/
namespace Ossl
open List BigEndian Runs

/- Two ends with the same keys, the same counter and the same say on plain alerts. -/
def InStep (writer reader : RecordLayer) : Prop :=
  writer.crypto = reader.crypto ∧ writer.iv = reader.iv ∧ writer.sequence = reader.sequence ∧
    writer.allowPlainAlerts = reader.allowPlainAlerts

theorem data_not_alert : ssl3RtApplicationData ≠ ssl3RtAlert := by decide

theorem taglen_le (crypto : RecordCrypto) : crypto.taglen ≤ 64 := by
  cases crypto with
  | cipher aead => exact aead.short_tag
  | mac hmac => exact hmac.short_size

theorem le_nonceLen (crypto : RecordCrypto) : 8 ≤ crypto.nonceLen := by
  cases crypto with
  | cipher aead => exact aead.long_iv
  | mac hmac => exact hmac.long_size

variable {rl : RecordLayer} {rec : TlsRlRecord} {recheader : List UInt8}

theorem tls13Cipher_seals (sealed : rec.type ≠ ssl3RtAlert)
    (counts : rl.sequence + 1 < 2 ^ 64) (small : rec.data.length + 64 ≤ 0xffff)
    (head : rec.type :: netBytes 2 rec.recVersion ++
      netBytes 2 (rec.data.length + rl.crypto.taglen) = recheader) :
    tls13Cipher rl rec true = match rl.crypto with
    | .mac hmac => some ({ rl with sequence := rl.sequence + 1 },
        { rec with data := rec.data ++ hmac.final (recordNonce rl ++ recheader ++ rec.data) })
    | .cipher aead => some ({ rl with sequence := rl.sequence + 1 },
        { rec with data := (aead.encrypt (recordNonce rl) recheader rec.data).1 ++
            (aead.encrypt (recordNonce rl) recheader rec.data).2 }) := by
  have tag := taglen_le rl.crypto
  have iv := le_nonceLen rl.crypto
  have next : tlsIncrementSequenceCtr rl = some { rl with sequence := rl.sequence + 1 } :=
    if_neg (by omega)
  rw [tls13Cipher, if_neg sealed, if_neg (by simp)]
  rw [if_neg (by omega), next]
  dsimp only
  rw [if_neg (by simp only [if_true]; omega)]
  simp only [if_true, take_length, head]
  all_goals cases rl.crypto <;> rfl

theorem tls13Cipher_opens (sealed : rec.type ≠ ssl3RtAlert)
    (counts : rl.sequence + 1 < 2 ^ 64) (small : rec.data.length + 64 ≤ 0xffff)
    (head : rec.type :: netBytes 2 rec.recVersion ++
      netBytes 2 (rec.data.length + rl.crypto.taglen) = recheader)
    (reader : RecordLayer) (step : InStep rl reader) (data : List UInt8)
    (long : data.length = rec.data.length + rl.crypto.taglen) (some_ : rec.data ≠ []) :
    tls13Cipher reader { rec with data := data } false = match rl.crypto with
    | .mac hmac =>
      if hmac.final (recordNonce rl ++ recheader ++ data.take rec.data.length) ≠
        data.drop rec.data.length then none
      else some ({ reader with sequence := reader.sequence + 1 },
        { rec with data := data.take rec.data.length })
    | .cipher aead =>
      match aead.decrypt (recordNonce rl) recheader (data.take rec.data.length)
        (data.drop rec.data.length) with
      | none => none
      | some data => if data.length ≠ rec.data.length then none
        else some ({ reader with sequence := reader.sequence + 1 }, { rec with data := data }) := by
  have tag := taglen_le rl.crypto
  have iv := le_nonceLen rl.crypto
  obtain ⟨crypto, ivs, counters, _⟩ := step
  have nonce : recordNonce reader = recordNonce rl := by
    rw [recordNonce, recordNonce, crypto, ivs, counters]
  have counted : tlsIncrementSequenceCtr reader =
      some { reader with sequence := reader.sequence + 1 } := if_neg (by omega)
  have pos : rec.data.length ≠ 0 := mt length_eq_zero_iff.mp some_
  have length : data.length - reader.crypto.taglen = rec.data.length := by
    rw [long, crypto]
    omega
  rw [tls13Cipher, if_neg sealed, if_neg (by simp only [long, crypto, true_and]; omega)]
  rw [← crypto, if_neg (by omega), counted]
  simp only [Bool.false_eq_true, if_false]
  rw [crypto, length, ← crypto, if_neg (by omega), nonce, head]
  all_goals cases rl.crypto <;> rfl

/-- Sealing: the other end, in step, opens what is not empty and refuses what is. -/
theorem tls13Cipher_sends (rl : RecordLayer) (rec : TlsRlRecord) (sealed : rec.type ≠ ssl3RtAlert)
    (counts : rl.sequence + 1 < 2 ^ 64) (small : rec.data.length + 64 ≤ 0xffff) :
    ∃ data, tls13Cipher rl rec true =
        some ({ rl with sequence := rl.sequence + 1 }, { rec with data := data }) ∧
      data.length = rec.data.length + rl.crypto.taglen ∧
      ∀ reader, InStep rl reader → tls13Cipher reader { rec with data := data } false =
        if rec.data = [] then none
        else some ({ reader with sequence := reader.sequence + 1 }, rec) := by
  have empty : rec.data = [] ↔ rec.data.length = 0 := length_eq_zero_iff.symm
  generalize head : rec.type :: netBytes 2 rec.recVersion ++
    netBytes 2 (rec.data.length + rl.crypto.taglen) = recheader
  have refuse (reader : RecordLayer) (step : InStep rl reader) (data : List UInt8)
      (long : data.length = rec.data.length + rl.crypto.taglen) (none_ : rec.data = []) :
      tls13Cipher reader { rec with data := data } false = none := by
    rw [empty] at none_
    rw [tls13Cipher, if_neg sealed, if_pos]
    exact ⟨rfl, by simp only [long, none_, ← step.1]; omega⟩
  have send := tls13Cipher_seals sealed counts small head
  have receive := tls13Cipher_opens sealed counts small head
  cases kind : rl.crypto with
  | mac hmac =>
    rw [kind] at send
    have size : rl.crypto.taglen = hmac.size := by rw [kind]; rfl
    have long : (rec.data ++ hmac.final (recordNonce rl ++ recheader ++ rec.data)).length =
        rec.data.length + rl.crypto.taglen := by
      rw [length_append, hmac.final_length, size]
    refine ⟨_, send, by rw [long, kind], ?_⟩
    intro reader step
    by_cases none_ : rec.data = []
    · rw [if_pos none_]
      exact refuse reader step _ long none_
    · rw [if_neg none_, receive reader step _ long none_, kind]
      simp
  | cipher aead =>
    rw [kind] at send
    have size : rl.crypto.taglen = aead.taglen := by rw [kind]; rfl
    have same := aead.same_length (recordNonce rl) recheader rec.data
    have long : ((aead.encrypt (recordNonce rl) recheader rec.data).1 ++
        (aead.encrypt (recordNonce rl) recheader rec.data).2).length =
        rec.data.length + rl.crypto.taglen := by
      rw [length_append, same, aead.tag_length, size]
    refine ⟨_, send, by rw [long, kind], ?_⟩
    intro reader step
    by_cases none_ : rec.data = []
    · rw [if_pos none_]
      exact refuse reader step _ long none_
    · rw [if_neg none_, receive reader step _ long none_, kind]
      dsimp only
      rw [take_left' same, drop_left' same, aead.opens]
      simp

theorem tls13AddRecordPadding_eq (rl : RecordLayer) (t : RecordTemplate)
    (typed : ¬ (rl.allowPlainAlerts = true ∧ t.type ≠ ssl3RtAlert)) :
    ∃ k, tls13AddRecordPadding rl t t.buf = t.buf ++ t.type :: replicate k 0 ∧
      (t.buf ++ t.type :: replicate k 0).length ≤ max (t.buf.length + 1) rl.maxFragLen := by
  rw [tls13AddRecordPadding, if_neg typed]
  by_cases room : (t.buf ++ [t.type]).length < rl.maxFragLen
  · rw [if_pos room]
    refine ⟨_, by rw [append_assoc, singleton_append], ?_⟩
    simp at room ⊢
    omega
  · rw [if_neg room]
    have length : (t.buf ++ t.type :: replicate 0 0).length = t.buf.length + 1 := by
      rw [length_append, length_cons, length_replicate]
    exact ⟨0, by simp, by omega⟩

/-- The stripped bytes end at the inner type, whatever the content ends in. -/
theorem strippedEnd_eq (content : List UInt8) {type : UInt8} (some_ : type ≠ 0) {j k : Nat}
    (within : j ≤ k) :
    strippedEnd (content ++ type :: replicate k 0) (content.length + j) = content.length := by
  induction j with
  | zero =>
    cases content with
    | nil => rfl
    | cons first content =>
      have last : (first :: content ++ type :: replicate k 0).getD (content.length + 1) 0 =
          type := by simp
      rw [add_zero, length_cons, strippedEnd, if_neg (by rw [last]; exact some_)]
  | succ j ih =>
    have zero : (content ++ type :: replicate k 0).getD (content.length + j + 1) 0 = 0 := by
      have at_ : content.length + j + 1 - content.length = j + 1 := by omega
      simp only [getD_eq_getElem?_getD]
      rw [getElem?_append_right (by omega), at_, getElem?_cons_succ,
        getElem?_replicate, if_pos (by omega)]
      rfl
    rw [← add_assoc, strippedEnd, if_pos zero, ih (by omega)]

structure Sendable (rl : RecordLayer) (t : RecordTemplate) : Prop where
  kind : t.type = ssl3RtHandshake ∨ t.type = ssl3RtApplicationData ∨ t.type = ssl3RtAlert
  version : t.version = tls12Version
  fits : t.buf.length ≤ rl.maxFragLen
  content : t.type ≠ ssl3RtApplicationData → t.buf ≠ []

variable {t : RecordTemplate}

theorem tls13PostProcessRecord_padded {rl : RecordLayer} (sendable : Sendable rl t)
    (limit : t.buf.length ≤ ssl3RtMaxPlainLength) (k version : Nat) :
    tls13PostProcessRecord { type := ssl3RtApplicationData, recVersion := version
                             data := t.buf ++ t.type :: replicate k 0 } =
      some { type := t.type, recVersion := version, data := t.buf } := by
  have inner : t.type ≠ 0 := by
    rcases sendable.kind with is | is | is <;> rw [is] <;> decide
  have length : (t.buf ++ t.type :: replicate k 0).length - 1 = t.buf.length + k := by
    simp
  have common : tls13CommonPostProcessRecord
      { type := t.type, recVersion := version, data := t.buf } = true := by
    have content := sendable.content
    rcases sendable.kind with is | is | is <;> rw [is] at content <;>
      simp [tls13CommonPostProcessRecord, is, ssl3RtHandshake, ssl3RtApplicationData, ssl3RtAlert]
        at content ⊢ <;> exact content
  rw [tls13PostProcessRecord]
  dsimp only
  rw [if_pos (by decide), if_neg (by simp), length, strippedEnd_eq t.buf inner (le_refl k)]
  have type : (t.buf ++ t.type :: replicate k 0).getD t.buf.length 0 = t.type := by simp
  rw [type, take_left]
  dsimp only
  rw [if_neg (by omega), if_pos common]

theorem tls13ValidateRecordHeader_data (rl : RecordLayer) (data : List UInt8)
    (fits : data.length ≤ ssl3RtMaxTls13EncryptedLength) :
    tls13ValidateRecordHeader rl { type := ssl3RtApplicationData, recVersion := tls12Version
                                   data := data } = true := by
  rw [tls13ValidateRecordHeader, if_neg (by simp), if_neg (by simp), if_neg (not_lt.mpr fits)]

structure ProtectedRecord (rec : TlsRlRecord) : Prop where
  type : rec.type = ssl3RtApplicationData
  version : rec.recVersion = tls12Version
  fits : rec.data.length ≤ ssl3RtMaxTls13EncryptedLength

variable {writer : RecordLayer}

theorem protected_record (sendable : Sendable writer t)
    (always : writer.allowPlainAlerts = false) (limit : writer.maxFragLen ≤ ssl3RtMaxPlainLength)
    (counts : writer.sequence + 1 < 2 ^ 64) :
    ∃ rec, tlsWriteRecord writer t = some ({ writer with sequence := writer.sequence + 1 }, rec) ∧
      ProtectedRecord rec ∧ ∀ reader, InStep writer reader → tlsReadRecord reader rec =
        some ({ reader with sequence := reader.sequence + 1 },
          { type := t.type, recVersion := t.version, data := t.buf }) := by
  have fits := sendable.fits
  have tag := taglen_le writer.crypto
  obtain ⟨k, padded, room⟩ := tls13AddRecordPadding_eq writer t (by simp [always])
  have rectype : tls13GetRecordType writer t = ssl3RtApplicationData := by
    rw [tls13GetRecordType, if_neg (by simp [always])]
  rw [ssl3RtMaxPlainLength] at limit
  obtain ⟨data, sent, long, read⟩ := tls13Cipher_sends writer
    { type := ssl3RtApplicationData, recVersion := t.version
      data := t.buf ++ t.type :: replicate k 0 } data_not_alert counts (by dsimp only; omega)
  dsimp only at long
  have small : data.length ≤ ssl3RtMaxTls13EncryptedLength := by
    have : ssl3RtMaxTls13EncryptedLength = 16640 := rfl
    omega
  refine ⟨{ type := ssl3RtApplicationData, recVersion := t.version, data := data }, ?_,
    ⟨rfl, sendable.version, small⟩, ?_⟩
  · rw [tlsWriteRecord, rectype, padded, sent]
    dsimp only
    rw [if_neg (by rw [ssl3RtSendMaxEncryptedOverhead]; omega), if_neg (by omega)]
  · intro reader step
    have valid := tls13ValidateRecordHeader_data reader data small
    have opened := read reader step
    rw [if_neg (by simp)] at opened
    have post := tls13PostProcessRecord_padded sendable
      (by have : ssl3RtMaxPlainLength = 16384 := rfl; omega) k
      t.version
    rw [sendable.version] at opened post ⊢
    rw [tlsReadRecord, valid, if_neg (by decide), opened]
    dsimp only
    rw [post]

variable {out rec : TlsRlRecord} {reader : RecordLayer}

/-- A record that is not padded by its type loses a byte. -/
theorem tls13PostProcessRecord_shorter (sealed : rec.type ≠ ssl3RtAlert)
    (read : tls13PostProcessRecord rec = some out) : out.data.length < rec.data.length := by
  have shorter (data : List UInt8) (last : Nat) : strippedEnd data last ≤ last := by
    induction last with
    | zero => exact le_refl 0
    | succ last ih =>
      rw [strippedEnd]
      split
      · omega
      · exact le_refl _
  rw [tls13PostProcessRecord] at read
  rw [if_pos sealed] at read
  by_cases bad : rec.data.length = 0 ∨ rec.type ≠ ssl3RtApplicationData
  · rw [if_pos bad] at read
    nomatch read
  · rw [if_neg bad] at read
    dsimp only at read
    by_cases long : (rec.data.take (strippedEnd rec.data (rec.data.length - 1))).length >
        ssl3RtMaxPlainLength
    · rw [if_pos long] at read
      nomatch read
    · rw [if_neg long] at read
      split at read
      · cases read
        have := shorter rec.data (rec.data.length - 1)
        rw [length_take]
        omega
      · nomatch read

theorem plain_record (step : InStep writer reader)
    (sendable : Sendable writer t) (limit : writer.maxFragLen ≤ ssl3RtMaxPlainLength)
    (allowed : writer.allowPlainAlerts = true) (counts : writer.sequence + 1 < 2 ^ 64)
    {next after_ : RecordLayer} (written : tlsWriteRecord writer t = some (next, rec))
    (read : tlsReadRecord reader rec = some (after_, out)) : out.data ≠ t.buf := by
  have fits := sendable.fits
  rw [ssl3RtMaxPlainLength] at limit
  rw [tlsWriteRecord] at written
  rw [tlsReadRecord] at read
  by_cases alert : t.type = ssl3RtAlert
  · obtain ⟨k, padded, _⟩ := tls13AddRecordPadding_eq writer t (by simp [alert])
    have rectype : tls13GetRecordType writer t = ssl3RtAlert := if_pos ⟨allowed, alert⟩
    rw [rectype, padded, tls13Cipher, if_pos rfl] at written
    dsimp only at written
    rw [if_neg (by omega), if_neg (by omega)] at written
    cases written
    split at read
    · nomatch read
    · rw [tls13Cipher, if_pos rfl] at read
      dsimp only at read
      rw [tls13PostProcessRecord] at read
      dsimp only at read
      rw [if_neg (by decide)] at read
      dsimp only at read
      intro same
      split at read
      · nomatch read
      · rename_i found
        cases read
        split at found
        · nomatch found
        · split at found
          · cases found
            have lengths := congrArg length same
            simp at lengths
          · nomatch found
  · have rectype : tls13GetRecordType writer t = ssl3RtApplicationData := if_neg (by simp [alert])
    have bare : tls13AddRecordPadding writer t t.buf = t.buf := if_pos ⟨allowed, alert⟩
    rw [rectype, bare] at written
    obtain ⟨data, sent, long, reads⟩ := tls13Cipher_sends writer
      { type := ssl3RtApplicationData, recVersion := t.version, data := t.buf } data_not_alert counts
      (by dsimp only; omega)
    have tag := taglen_le writer.crypto
    dsimp only at long
    rw [sent] at written
    dsimp only at written
    rw [if_neg (by rw [ssl3RtSendMaxEncryptedOverhead]; omega), if_neg (by omega)] at written
    cases written
    split at read
    · nomatch read
    · rw [reads reader step] at read
      by_cases none_ : t.buf = []
      · rw [if_pos none_] at read
        nomatch read
      · rw [if_neg none_] at read
        dsimp only at read
        split at read
        · nomatch read
        · rename_i found
          cases read
          have shorter := tls13PostProcessRecord_shorter data_not_alert found
          intro same
          rw [same] at shorter
          exact lt_irrefl _ shorter

def RoundTrips (writer reader : RecordLayer) (templates : List RecordTemplate) : Prop :=
  ∃ recs, tlsWriteRecords writer templates = some recs ∧
    tlsReadRecords reader recs = some (templates.map fun t => (t.type, t.buf)) ∧
    ∀ sent ∈ templates.zip recs, sent.1.type = ssl3RtAlert →
      (sent.2.type = ssl3RtAlert ↔ writer.allowPlainAlerts = true)

theorem protected_records (step : InStep writer reader)
    {templates : List RecordTemplate} (sendable : ∀ t ∈ templates, Sendable writer t)
    (limit : writer.maxFragLen ≤ ssl3RtMaxPlainLength) (always : writer.allowPlainAlerts = false)
    (counts : writer.sequence + templates.length < 2 ^ 64) :
    ∃ recs, tlsWriteRecords writer templates = some recs ∧ (∀ rec ∈ recs, ProtectedRecord rec) ∧
      tlsReadRecords reader recs = some (templates.map fun t => (t.type, t.buf)) := by
  induction templates generalizing writer reader with
  | nil => exact ⟨[], rfl, by simp, rfl⟩
  | cons t templates ih =>
    rw [length_cons] at counts
    obtain ⟨rec, written, guarded, read⟩ :=
      protected_record (sendable t (by simp)) always limit (by omega)
    have later : InStep { writer with sequence := writer.sequence + 1 }
        { reader with sequence := reader.sequence + 1 } := by
      obtain ⟨crypto, iv, counter, plain⟩ := step
      exact ⟨crypto, iv, by dsimp only; rw [counter], plain⟩
    obtain ⟨recs, writes, all, reads⟩ := ih later
      (by
        intro x member
        have one := sendable x (by simp [member])
        exact { one with })
      limit always (by dsimp only; omega)
    refine ⟨rec :: recs, ?_, forall_mem_cons.mpr ⟨guarded, all⟩, ?_⟩
    · rw [tlsWriteRecords, written]
      dsimp only
      rw [writes]
      rfl
    · rw [tlsReadRecords, read reader step]
      dsimp only
      rw [reads]
      rfl

theorem protected_round_trips (step : InStep writer reader)
    {templates : List RecordTemplate} (sendable : ∀ t ∈ templates, Sendable writer t)
    (limit : writer.maxFragLen ≤ ssl3RtMaxPlainLength) (always : writer.allowPlainAlerts = false)
    (counts : writer.sequence + templates.length < 2 ^ 64) :
    RoundTrips writer reader templates := by
  obtain ⟨recs, writes, all, reads⟩ := protected_records step sendable limit always counts
  refine ⟨recs, writes, reads, fun sent member alert => ?_⟩
  rw [(all sent.2 (of_mem_zip member).2).type, always]
  decide

/-- TLS 1.3 records survive protection exactly when plain alerts are off, or nothing is sent. -/
theorem tls13_round_trips_iff {writer reader : RecordLayer} (step : InStep writer reader)
    {templates : List RecordTemplate} (sendable : ∀ t ∈ templates, Sendable writer t)
    (limit : writer.maxFragLen ≤ ssl3RtMaxPlainLength)
    (counts : writer.sequence + templates.length < 2 ^ 64) :
    RoundTrips writer reader templates ↔ writer.allowPlainAlerts = false ∨ templates = [] := by
  constructor
  · intro trips
    cases templates with
    | nil => exact Or.inr rfl
    | cons t templates =>
      apply Or.inl
      by_contra allowed
      rw [Bool.not_eq_false] at allowed
      rw [length_cons] at counts
      obtain ⟨recs, writes, reads, _⟩ := trips
      rw [tlsWriteRecords] at writes
      cases written : tlsWriteRecord writer t with
      | none =>
        rw [written] at writes
        nomatch writes
      | some pair =>
        obtain ⟨next, rec⟩ := pair
        rw [written] at writes
        obtain ⟨rest, _, rfl⟩ := Option.map_eq_some_iff.mp writes
        rw [tlsReadRecords] at reads
        cases read : tlsReadRecord reader rec with
        | none =>
          rw [read] at reads
          nomatch reads
        | some pair =>
          obtain ⟨after_, out⟩ := pair
          rw [read] at reads
          obtain ⟨others, _, same⟩ := Option.map_eq_some_iff.mp reads
          rw [map_cons, List.cons.injEq, Prod.mk.injEq] at same
          exact plain_record step (sendable t (by simp)) limit allowed (by omega) written read
            same.1.2
  · intro safe
    rcases safe with always | rfl
    · exact protected_round_trips step sendable limit always counts
    · exact ⟨[], rfl, rfl, by simp⟩

def copyAead : Aead :=
  { taglen := 1
    ivlen := 12
    encrypt := fun _ _ plain => (plain, [0])
    decrypt := fun _ _ data _ => some data
    short_tag := by decide
    long_iv := by decide
    same_length := fun _ _ _ => rfl
    tag_length := fun _ _ _ => rfl
    opens := fun _ _ _ => rfl }

def recordEnd (allowPlainAlerts : Bool) : RecordLayer :=
  { crypto := .cipher copyAead
    iv := replicate 12 0
    sequence := 0
    allowPlainAlerts := allowPlainAlerts
    isFirstHandshake := false
    maxFragLen := ssl3RtMaxPlainLength
    padding := none
    blockPadding := 0
    hsPadding := 0 }

theorem tls13_round_trips_zeros :
    RoundTrips (recordEnd false) (recordEnd false) [⟨ssl3RtHandshake, tls12Version, [1, 0, 0]⟩] ↔
      false = false ∨ [(⟨ssl3RtHandshake, tls12Version, [1, 0, 0]⟩ : RecordTemplate)] = [] :=
  tls13_round_trips_iff ⟨rfl, rfl, rfl, rfl⟩
    (by
      intro t member
      rw [mem_singleton] at member
      subst member
      exact ⟨.inl rfl, rfl, by decide, by decide⟩)
    (by decide) (by decide)

/-- With plain alerts on, the last byte of a handshake message is taken for its type. -/
theorem plain_alerts_lose_handshake :
    ¬ RoundTrips (recordEnd true) (recordEnd true) [⟨ssl3RtHandshake, tls12Version, [1, 0, 22]⟩] ∧
      tlsReadRecords (recordEnd true) [⟨ssl3RtApplicationData, tls12Version, [1, 0, 22, 0]⟩] =
        some [(ssl3RtHandshake, [1, 0])] := by
  constructor
  · rintro ⟨recs, writes, reads, _⟩
    have sent : tlsWriteRecords (recordEnd true) [⟨ssl3RtHandshake, tls12Version, [1, 0, 22]⟩] =
        some [⟨ssl3RtApplicationData, tls12Version, [1, 0, 22, 0]⟩] := rfl
    rw [sent] at writes
    cases writes
    have read : tlsReadRecords (recordEnd true)
        [⟨ssl3RtApplicationData, tls12Version, [1, 0, 22, 0]⟩] =
        some [(ssl3RtHandshake, [1, 0])] := rfl
    rw [read] at reads
    nomatch reads
  · rfl

/- A record on its way, as the reader of the stream sees it, and back. -/
def TlsRlRecord.sent (rec : TlsRlRecord) : PlainRecord := ⟨rec.type, rec.recVersion, rec.data⟩
def PlainRecord.received (r : PlainRecord) : TlsRlRecord := ⟨r.type, r.version, r.body⟩

end Ossl
