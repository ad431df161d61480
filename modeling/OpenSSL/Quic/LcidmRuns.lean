import OpenSSL.Lib.Runs
import OpenSSL.Quic.LcidmLaws

/- Runs of the local connection ID manager, next to the register of CIDs that its
   lookups should answer from and the numbers given out so far. -/
namespace Ossl
open List Option Function Runs

/- What each call does to the entries and the counts. -/

variable {m : QuicLcidm} {o retirePriorTo : Nat} {registered : List UInt8 → Option LcidEntry}
    {issued : Nat → List Nat}

variable {cid : QuicConnId} {c lcidLen : Nat} {conn : QuicLcidmConn} {args : Option Nat × Nat}
    {seen : List Nat}

theorem candidate_unused {rand : Nat → Option (Nat → UInt8)} (retries i : Nat)
    (made : lcidmCandidate rand m retries i = some cid) :
    lhRetrieve cid.bytes m.lcids = none ∧ cid.idLen ≤ quicMaxConnIdLen := by
  induction retries generalizing i with
  | zero => cases made
  | succ retries ih =>
    rw [lcidmCandidate] at made
    cases random : quicGenRandConnId m.lcidLen (rand i) with
    | none =>
      rw [random] at made
      cases made
    | some cand =>
      rw [random] at made
      dsimp only at made
      by_cases taken : lhRetrieve cand.bytes m.lcids ≠ none
      · rw [if_pos taken] at made
        exact ih (i + 1) made
      · rw [if_neg taken] at made
        obtain rfl := some.inj made
        constructor
        · exact Classical.not_not.mp taken
        · unfold quicGenRandConnId at random
          split at random
          · cases random
          · rename_i fits
            split at random
            · cases random
            · obtain rfl := some.inj random
              rw [connIdOf, length_map, length_range]
              exact Nat.le_of_not_lt fits

/-- The entries and counts of m with the next number of o gone to the CID. -/
structure LcidIssued (m m' : QuicLcidm) (o : Nat) (cid : QuicConnId) : Prop where
  ok : LcidmOk m'
  short : cid.idLen ≤ quicMaxConnIdLen
  unused : entryOf m cid.bytes = none
  entries : entryOf m' = update (entryOf m) cid.bytes (some ⟨o, issuedOf m o, false⟩)
  issued : issuedOf m' = update (issuedOf m) o (issuedOf m o + 1)

/-- Nothing but, at most, an empty record for a connection is new. -/
structure LcidmSame (m m' : QuicLcidm) : Prop where
  ok : LcidmOk m'
  entries : entryOf m' = entryOf m
  issued : issuedOf m' = issuedOf m

theorem lcidmSame_refl (ok : LcidmOk m) : LcidmSame m m := ⟨ok, rfl, rfl⟩

theorem upsertConn_same (ok : LcidmOk m) (o : Nat) : LcidmSame m (lcidmUpsertConn o m).2 := by
  obtain ⟨upserted, entries, issued, _⟩ := upsertConn_done ok o
  exact ⟨upserted, entries, issued⟩

theorem number_issued (ok : LcidmOk m) {lcid : QuicConnId} (type : LcidType)
    (numbered : type ≠ .odcid) (unused : lhRetrieve lcid.bytes m.lcids = none)
    (short : lcid.idLen ≤ quicMaxConnIdLen) : let upserted := lcidmUpsertConn o m
    let made := lcidmConnNewLcid upserted.1 lcid upserted.2
    made.1 = some upserted.2.fresh ∧
      LcidIssued m (lcidmNumber upserted.1 upserted.2.fresh type made.2) o lcid := by
  obtain ⟨okThen, entries, issued, lcids, _, conn, live, owner, seqNum⟩ := upsertConn_done ok o
  generalize lcidmUpsertConn o m = upserted at *
  obtain ⟨c, t⟩ := upserted
  obtain ⟨made, numbering⟩ := newLcid_number type live short
  constructor
  · exact made
  · rw [← lcids] at unused
    rw [numbering]
    have okAfter : LcidmOk (lcidAdded c { conn with nextSeqNum := conn.nextSeqNum + 1 }
        ⟨lcid, conn.nextSeqNum, c, type⟩ t) :=
      lcidAdded_ok okThen live rfl rfl rfl rfl unused short (.inl ⟨numbered, rfl, rfl⟩)
    have record := lcidAdded_entryOf okThen.tables live okAfter.tables rfl rfl
    have counts : issuedOf (lcidAdded c { conn with nextSeqNum := conn.nextSeqNum + 1 }
        ⟨lcid, conn.nextSeqNum, c, type⟩ t) =
          update (issuedOf t) conn.opaquePtr (conn.nextSeqNum + 1) :=
      lcidAdded_issuedOf okThen.tables live rfl
    constructor
    · exact okAfter
    · exact short
    · rw [← entries]
      exact entryOf_none.mpr unused
    · rw [record, entries, ← seqNum, ← owner]
      rw [decide_eq_false numbered]
    · rw [counts, issued, ← seqNum, ← owner]

theorem lcidmGenerate_done (ok : LcidmOk m) (o : Nat) {type : LcidType} (numbered : type ≠ .odcid)
    (rand : Nat → Option (Nat → UInt8)) : let r := lcidmGenerate o type rand m
    (r.1 = none ∧ LcidmSame m r.2) ∨
      ∃ cid, r.1 = some (cid, issuedOf m o) ∧ LcidIssued m r.2 o cid := by
  intro r
  have start : r = lcidmGenerate o type rand m := rfl
  have same := upsertConn_same ok o
  obtain ⟨_, _, _, lcids, _, conn, live, _, seqNum⟩ := upsertConn_done ok o
  unfold lcidmGenerate at start
  dsimp only at start
  split at start
  · left
    rw [start]
    exact ⟨rfl, same⟩
  · cases cand : lcidmCandidate rand (lcidmUpsertConn o m).2 maxRetries 0 with
    | none =>
      rw [cand] at start
      left
      rw [start]
      exact ⟨rfl, same⟩
    | some cid =>
      obtain ⟨unused, short⟩ := candidate_unused maxRetries 0 cand
      rw [lcids] at unused
      obtain ⟨made, issued⟩ := number_issued ok (o := o) type numbered unused short
      rw [cand] at start
      dsimp only at start
      right
      exists cid
      generalize lcidmConnNewLcid (lcidmUpsertConn o m).1 cid (lcidmUpsertConn o m).2 = new at *
      obtain ⟨obj, t⟩ := new
      dsimp only at made
      rw [made] at start
      rw [start]
      constructor
      · rw [derefConn_live live, seqNum]
      · exact issued

theorem quicLcidmEnrolOdcid_done (ok : LcidmOk m) (o : Nat) (initialOdcid : Option QuicConnId) :
    let r := quicLcidmEnrolOdcid o initialOdcid m
    (r.1 = false ∧ LcidmSame m r.2) ∨
      (r.1 = true ∧ ∃ cid, initialOdcid = some cid ∧ cid.idLen ≤ quicMaxConnIdLen ∧ LcidmOk r.2 ∧
        entryOf r.2 = update (entryOf m) cid.bytes (some ⟨o, lcidmOdcidSeqNum, true⟩) ∧
        issuedOf r.2 = issuedOf m) := by
  intro r
  have start : r = quicLcidmEnrolOdcid o initialOdcid m := rfl
  cases initialOdcid with
  | none =>
    left
    exact ⟨rfl, lcidmSame_refl ok⟩
  | some cid =>
    have same := upsertConn_same ok o
    obtain ⟨okThen, entries, issued, _, _, conn, live, owner, _⟩ := upsertConn_done ok o
    unfold quicLcidmEnrolOdcid at start
    generalize lcidmUpsertConn o m = upserted at *
    obtain ⟨c, t⟩ := upserted
    dsimp only at *
    rw [derefConn_live live] at start
    split at start
    · left
      rw [start]
      exact ⟨rfl, lcidmSame_refl ok⟩
    · rename_i fits
      split at start
      · left
        rw [start]
        exact ⟨rfl, same⟩
      · rename_i notDone
        split at start
        · left
          rw [start]
          exact ⟨rfl, same⟩
        · rename_i unused
          have short : cid.idLen ≤ quicMaxConnIdLen := by omega
          obtain ⟨made, whole⟩ := newLcid_odcid live short
          generalize lcidmConnNewLcid c cid t = new at *
          obtain ⟨obj, u⟩ := new
          dsimp only at made start whole
          rw [made] at start
          dsimp only at start
          rw [whole] at start
          have noOdcid := (okThen.odcid c conn live).done (Bool.eq_false_iff.mpr notDone)
          have okAfter : LcidmOk (lcidAdded c
              { conn with odcidLcidObj := some t.fresh, doneOdcid := true }
              ⟨cid, lcidmOdcidSeqNum, c, .odcid⟩ t) :=
            lcidAdded_ok okThen live rfl rfl rfl rfl (Classical.not_not.mp unused) short
              (.inr ⟨rfl, rfl, rfl, noOdcid⟩)
          have record := lcidAdded_entryOf okThen.tables live okAfter.tables rfl rfl
          have counts : issuedOf (lcidAdded c
              { conn with odcidLcidObj := some t.fresh, doneOdcid := true }
              ⟨cid, lcidmOdcidSeqNum, c, .odcid⟩ t) =
                update (issuedOf t) conn.opaquePtr conn.nextSeqNum :=
            lcidAdded_issuedOf okThen.tables live rfl
          right
          rw [start]
          refine ⟨rfl, cid, rfl, short, okAfter, ?_, ?_⟩
          · rw [record, entries, ← owner]
            rfl
          · rw [counts, ← issued, ← issuedOf_found okThen.tables live]
            exact update_eq_self ..

/-- The entries of other connections stay. -/
def dropOwner (o : Nat) (entries : List UInt8 → Option LcidEntry) (k : List UInt8) :
    Option LcidEntry :=
  (entries k).filter (fun e => e.opaquePtr ≠ o)

structure LcidmCleared (m m' : QuicLcidm) (o : Nat) : Prop where
  ok : LcidmOk m'
  entries : entryOf m' = dropOwner o (entryOf m)
  issued : issuedOf m' = update (issuedOf m) o 0

theorem deleteConn_cleared (ok : LcidmOk m) (live : m.connObjs c = some conn) :
    LcidmCleared m (lcidmDeleteConn c m) conn.opaquePtr where
  ok := deleteConn_ok ok live
  entries := funext (deleteConn_entryOf ok.tables live)
  issued := deleteConn_issuedOf ok.tables live

theorem lookup_entry (m : QuicLcidm) (lcid : QuicConnId) :
    quicLcidmLookup (some lcid) m =
      if quicMaxConnIdLen < lcid.idLen then none
      else (entryOf m lcid.bytes).map (fun e => (e.opaquePtr, e.seqNum)) := by
  rw [quicLcidmLookup, lcidmGet0Lcid, entryOf, Option.map_map]
  split
  · rename_i absent
    split at absent
    · rw [if_pos (by assumption)]
    · rw [if_neg (by assumption), absent]
      rfl
  · rename_i a found
    split at found
    · cases found
    · rw [if_neg (by assumption), found]
      rfl

theorem quicLcidmBindChannel_done (ok : LcidmOk m) (o : Nat) (lcid : QuicConnId) :
    let r := quicLcidmBindChannel o lcid m
    (r.1 = true ∧ LcidIssued m r.2 o lcid) ∨
      (r.1 = false ∧ lcid.idLen ≤ quicMaxConnIdLen ∧ LcidmSame m r.2) ∨
      (r.1 = false ∧ quicMaxConnIdLen < lcid.idLen ∧ LcidmCleared m r.2 o) := by
  intro r
  have start : r = quicLcidmBindChannel o lcid m := rfl
  unfold quicLcidmBindChannel at start
  dsimp only at start
  rw [lookup_entry] at start
  by_cases long : quicMaxConnIdLen < lcid.idLen
  · obtain ⟨okThen, entries, issued, _, _, conn, live, owner, _⟩ := upsertConn_done ok o
    have cleared := deleteConn_cleared okThen live
    have entriesAfter := cleared.entries
    have issuedAfter := cleared.issued
    rw [owner, entries] at entriesAfter
    rw [owner, issued] at issuedAfter
    rw [if_pos long, if_neg (fun found => found rfl), lcidmConnNewLcid, if_pos long] at start
    right
    right
    rw [start]
    exact ⟨rfl, long, cleared.ok, entriesAfter, issuedAfter⟩
  · have short := Nat.le_of_not_lt long
    rw [if_neg long] at start
    cases found : entryOf m lcid.bytes with
    | some e =>
      rw [found, map_some, if_pos (some_ne_none _)] at start
      right
      left
      rw [start]
      exact ⟨rfl, short, lcidmSame_refl ok⟩
    | none =>
      rw [found, map_none, if_neg (fun is => is rfl)] at start
      obtain ⟨made, issued⟩ :=
        number_issued ok (o := o) .initial (by decide) (entryOf_none.mp found) short
      generalize lcidmConnNewLcid (lcidmUpsertConn o m).1 lcid (lcidmUpsertConn o m).2 = new at *
      obtain ⟨obj, t⟩ := new
      dsimp only at made
      rw [made] at start
      left
      rw [start]
      exact ⟨rfl, issued⟩

theorem quicLcidmCull_done (ok : LcidmOk m) (o : Nat) : LcidmCleared m (quicLcidmCull o m).2 o := by
  rw [quicLcidmCull, lcidmGet0Conn]
  cases found : lhRetrieve o m.conns with
  | some c =>
    obtain ⟨conn, live, rfl⟩ := (ok.tables.conns o c).mp found
    exact deleteConn_cleared ok live
  | none =>
    constructor
    · exact ok
    · funext k
      rw [dropOwner]
      cases here : entryOf m k with
      | none => rfl
      | some e =>
        obtain ⟨a, obj, conn, live, _, owner, rfl⟩ := entryOf_some ok.tables here
        have other : conn.opaquePtr ≠ o := by
          have key := ok.tables.conns o obj.conn
          grind
        rw [filter_some, if_pos (decide_eq_true other)]
    · have fromZero : issuedOf m o = 0 := by
        rw [issuedOf, found]
      rw [← fromZero]
      exact (update_eq_self ..).symm

def dropOdcid (o : Nat) (entries : List UInt8 → Option LcidEntry) (k : List UInt8) :
    Option LcidEntry :=
  (entries k).filter (fun e => ¬ (e.opaquePtr = o ∧ e.odcid = true))

theorem quicLcidmRetireOdcid_done (ok : LcidmOk m) (o : Nat) : let r := quicLcidmRetireOdcid o m
    (r.1 = false ∧ LcidmSame m r.2) ∨
      (r.1 = true ∧ LcidmOk r.2 ∧ entryOf r.2 = dropOdcid o (entryOf m) ∧
        issuedOf r.2 = issuedOf m) := by
  intro r
  have start : r = quicLcidmRetireOdcid o m := rfl
  have same := upsertConn_same ok o
  obtain ⟨okThen, entries, issued, _, _, conn, live, owner, _⟩ := upsertConn_done ok o
  unfold quicLcidmRetireOdcid at start
  generalize lcidmUpsertConn o m = upserted at *
  obtain ⟨c, t⟩ := upserted
  dsimp only at *
  rw [derefConn_live live] at start
  have only := (okThen.odcid c conn live).only
  cases odcid : conn.odcidLcidObj with
  | none =>
    rw [odcid] at start
    left
    rw [start]
    exact ⟨rfl, same⟩
  | some a =>
    obtain ⟨obj, here, own, isOdcid⟩ := (only a).mp odcid
    have tables := okThen.tables
    have tables' := deleteLcid_tables tables here
    have entriesAfter := deleteLcid_entryOf tables here
    have issuedAfter := deleteLcid_issuedOf tables here
    have others (d : Nat) (conn' : QuicLcidmConn) (there : t.connObjs d = some conn')
        (apart : d ≠ c) : OdcidOk (lcidmDeleteConnLcid a t) d conn' :=
      deleteLcid_odcid tables here (okThen.odcid d conn' there) (.inr (by grind))
    have whole := deleteLcid_eq here (own ▸ live)
    rw [odcid] at start
    dsimp only at start
    have record : (lcidmDeleteConnLcid a t).connObjs c =
        some (unlinkedConn conn obj.cid.bytes) := by
      rw [whole, own]
      exact update_self ..
    rw [derefConn_live record] at start
    change r = (true, withoutOdcid c (unlinkedConn conn obj.cid.bytes) (lcidmDeleteConnLcid a t))
      at start
    obtain ⟨entriesLast, issuedLast⟩ := withoutOdcid_same tables' record
    right
    rw [start]
    refine ⟨rfl, ⟨withoutOdcid_tables tables' record, ?_⟩, ?_, ?_⟩
    · intro d conn' there
      by_cases mine : d = c
      · constructor
        · intro b
          have onlyThat := only b
          unfold withoutOdcid setConn at there ⊢
          rw [whole] at there ⊢
          grind [update_apply]
        · unfold withoutOdcid setConn at there
          grind [update_apply]
      · have before : t.connObjs d = some conn' := by
          unfold withoutOdcid setConn at there
          rw [whole] at there
          grind [update_apply]
        have kept := others d conn' before mine
        exact ⟨kept.only, kept.done⟩
    · rw [entriesLast, entriesAfter]
      funext k
      rw [update_apply, dropOdcid, ← entries]
      split
      · rename_i here'
        rw [here', entryOf_found tables here live own, filter_some, if_neg (by grind)]
      · rename_i other
        cases found : entryOf t k with
        | none => rfl
        | some e =>
          obtain ⟨b, obj', conn', there, bytes, owner', rfl⟩ := entryOf_some tables found
          have apart : ¬ (conn'.opaquePtr = o ∧ decide (obj'.type = .odcid) = true) := by
            intro both
            have first := tables.conns o obj'.conn
            have second := tables.conns o c
            have onlyThat := only b
            grind
          rw [filter_some, if_pos (decide_eq_true apart)]
    · rw [issuedLast, issuedAfter, issued]

/- Retiring looks for the earliest number. -/

def Retirable (m : QuicLcidm) (retirePriorTo a : Nat) : Prop :=
  (derefLcid m a).type ≠ .odcid ∧ (derefLcid m a).seqNum < retirePriorTo

def Earliest (m : QuicLcidm) (retirePriorTo : Nat) (args : Option Nat × Nat) (seen : List Nat) :
    Prop :=
  (args = (none, maxU64) ∧ ∀ b ∈ seen, ¬ Retirable m retirePriorTo b) ∨
    ∃ a ∈ seen, args = (some a, (derefLcid m a).seqNum) ∧ Retirable m retirePriorTo a ∧
      ∀ b ∈ seen, Retirable m retirePriorTo b → (derefLcid m a).seqNum ≤ (derefLcid m b).seqNum

theorem retireForConn_earliest (bounded : retirePriorTo ≤ maxU64)
    (earliest : Earliest m retirePriorTo args seen) (b : Nat) :
    Earliest m retirePriorTo (retireForConn m retirePriorTo args b) (b :: seen) := by
  unfold retireForConn
  by_cases skip : (derefLcid m b).type = .odcid ∨ retirePriorTo ≤ (derefLcid m b).seqNum
  · have no : ¬ Retirable m retirePriorTo b := by
      intro can
      cases skip with
      | inl isOdcid => exact can.1 isOdcid
      | inr high => exact not_lt.mpr high can.2
    rw [if_pos skip]
    unfold Earliest at earliest ⊢
    grind
  · have yes : Retirable m retirePriorTo b :=
      ⟨(not_or.mp skip).1, Nat.lt_of_not_le (not_or.mp skip).2⟩
    rw [if_neg skip]
    unfold Earliest at earliest ⊢
    grind

theorem retire_earliest (bounded : retirePriorTo ≤ maxU64) (items : List Nat)
    (earliest : Earliest m retirePriorTo args seen) :
    Earliest m retirePriorTo (items.foldl (retireForConn m retirePriorTo) args)
      (items.reverse ++ seen) := by
  induction items generalizing args seen with
  | nil => exact earliest
  | cons b rest ih =>
    rw [foldl_cons, reverse_cons, append_assoc]
    exact ih (retireForConn_earliest bounded earliest b)

/-- The CID may be retired on behalf of o. -/
def RetirableEntry (entries : List UInt8 → Option LcidEntry) (o retirePriorTo : Nat)
    (k : List UInt8) (e : LcidEntry) : Prop :=
  entries k = some e ∧ e.opaquePtr = o ∧ e.odcid = false ∧ e.seqNum < retirePriorTo

/-- The entries and counts of m without one CID. -/
structure LcidRetired (m m' : QuicLcidm) (k : List UInt8) : Prop where
  ok : LcidmOk m'
  entries : entryOf m' = update (entryOf m) k none
  issued : issuedOf m' = issuedOf m

theorem deleteLcid_retired (ok : LcidmOk m) {a : Nat} {obj : QuicLcid}
    (live : m.objs a = some obj) (numbered : obj.type ≠ .odcid) :
    LcidRetired m (lcidmDeleteConnLcid a m) obj.cid.bytes := by
  obtain ⟨conn, owner⟩ := ok.tables.owned a obj live
  constructor
  · constructor
    · exact deleteLcid_tables ok.tables live
    · intro d conn' there
      have before : ∃ conn'', m.connObjs d = some conn'' ∧
          conn'.odcidLcidObj = conn''.odcidLcidObj ∧ conn'.doneOdcid = conn''.doneOdcid := by
        rw [deleteLcid_eq live owner] at there
        grind [update_apply, unlinkedConn]
      obtain ⟨conn'', old, sameOdcid, sameDone⟩ := before
      have kept := deleteLcid_odcid ok.tables live (ok.odcid d conn'' old) (.inl numbered)
      constructor
      · rw [sameOdcid]
        exact kept.only
      · rw [sameOdcid, sameDone]
        exact kept.done
  · exact deleteLcid_entryOf ok.tables live
  · exact deleteLcid_issuedOf ok.tables live

theorem retirable_object (ok : LcidmOk m) (live : m.connObjs c = some conn)
    (owner : conn.opaquePtr = o) {k : List UInt8} {e : LcidEntry} :
    RetirableEntry (entryOf m) o retirePriorTo k e ↔
      ∃ a ∈ lhItems conn.lcids, Retirable m retirePriorTo a ∧ (derefLcid m a).cid.bytes = k ∧
        e = ⟨o, (derefLcid m a).seqNum, false⟩ := by
  have mem := mem_connItems ok.tables live
  constructor
  · intro retirable
    obtain ⟨found, mine, notOdcid, below⟩ := retirable
    obtain ⟨a, obj, conn', here, bytes, owner', rfl⟩ := entryOf_some ok.tables found
    have same : obj.conn = c := by
      have first := ok.tables.conns o obj.conn
      have second := ok.tables.conns o c
      grind
    refine ⟨a, (mem a).mpr ⟨obj, here, same⟩, ?_⟩
    rw [Retirable, derefLcid_live here]
    grind
  · intro somewhere
    obtain ⟨a, member, retirable, rfl, rfl⟩ := somewhere
    obtain ⟨obj, here, own⟩ := (mem a).mp member
    rw [Retirable, derefLcid_live here] at retirable
    rw [derefLcid_live here]
    have found := entryOf_found ok.tables here live own
    rw [owner, decide_eq_false retirable.1] at found
    exact ⟨found, rfl, rfl, retirable.2⟩

theorem quicLcidmRetire_done (ok : LcidmOk m) (o : Nat) (bounded : retirePriorTo ≤ maxU64)
    (dcid : Option QuicConnId) : let r := quicLcidmRetire o retirePriorTo dcid m
    (r = ⟨true, none, m⟩ ∧ ∀ k e, ¬ RetirableEntry (entryOf m) o retirePriorTo k e) ∨
      ∃ cid e, RetirableEntry (entryOf m) o retirePriorTo cid.bytes e ∧
        (∀ k e', RetirableEntry (entryOf m) o retirePriorTo k e' → e.seqNum ≤ e'.seqNum) ∧
        ((dcid.any (quicConnIdEq cid) = true ∧ r = ⟨false, none, m⟩) ∨
          (dcid.any (quicConnIdEq cid) = false ∧ r.ret = true ∧
            r.retired = some (cid, e.seqNum) ∧ LcidRetired m r.lcidm cid.bytes)) := by
  intro r
  have start : r = quicLcidmRetire o retirePriorTo dcid m := rfl
  unfold quicLcidmRetire lcidmGet0Conn at start
  cases found : lhRetrieve o m.conns with
  | none =>
    rw [found] at start
    left
    constructor
    · exact start
    · intro k e retirable
      obtain ⟨a, obj, conn, _, _, owner, rfl⟩ := entryOf_some ok.tables retirable.1
      have key := ok.tables.conns o obj.conn
      have mine := retirable.2.1
      grind
  | some c =>
    obtain ⟨conn, live, owner⟩ := (ok.tables.conns o c).mp found
    have nothingYet : ∀ b ∈ ([] : List Nat), ¬ Retirable m retirePriorTo b :=
      fun _ member => absurd member not_mem_nil
    have loop := retire_earliest bounded (lhItems conn.lcids) (.inl ⟨rfl, nothingYet⟩)
    rw [found] at start
    dsimp only at start
    rw [derefConn_live live] at start
    rw [append_nil] at loop
    generalize (lhItems conn.lcids).foldl (retireForConn m retirePriorTo) (none, maxU64) = args
      at loop start
    have object (k : List UInt8) (e : LcidEntry) :
        RetirableEntry (entryOf m) o retirePriorTo k e ↔
          ∃ a ∈ lhItems conn.lcids, Retirable m retirePriorTo a ∧
            (derefLcid m a).cid.bytes = k ∧ e = ⟨o, (derefLcid m a).seqNum, false⟩ :=
      retirable_object ok live owner
    cases loop with
    | inl nothing =>
      obtain ⟨rfl, absent⟩ := nothing
      left
      constructor
      · exact start
      · intro k e retirable
        obtain ⟨a, member, can, _⟩ := (object k e).mp retirable
        exact absent a (mem_reverse.mpr member) can
    | inr earliest =>
      obtain ⟨a, member, rfl, can, first⟩ := earliest
      rw [mem_reverse] at member
      obtain ⟨obj, here, own⟩ := (mem_connItems ok.tables live a).mp member
      dsimp only at start
      rw [derefLcid_live here] at start
      right
      refine ⟨obj.cid, ⟨o, obj.seqNum, false⟩, ?_, ?_, ?_⟩
      · apply (object _ _).mpr
        refine ⟨a, member, can, ?_⟩
        rw [derefLcid_live here]
        exact ⟨rfl, rfl⟩
      · intro k e' retirable
        obtain ⟨b, there, canToo, _, rfl⟩ := (object k e').mp retirable
        have order := first b (mem_reverse.mpr there) canToo
        rw [derefLcid_live here] at order
        exact order
      · cases addressed : dcid.any (quicConnIdEq obj.cid) with
        | true =>
          rw [addressed, if_pos rfl] at start
          left
          exact ⟨rfl, start⟩
        | false =>
          rw [addressed, if_neg Bool.false_ne_true] at start
          have numbered := can.1
          rw [derefLcid_live here] at numbered
          right
          rw [start]
          exact ⟨rfl, rfl, rfl, deleteLcid_retired ok here numbered⟩

/- The register: who each CID was enrolled, generated or bound for and under which number, until it
   is retired or its connection deleted, and the numbers each connection was given. -/

inductive LcidmCall where
  | enrolOdcid (opaquePtr : Nat) (initialOdcid : Option QuicConnId)
  | generateInitial (opaquePtr : Nat) (rand : Nat → Option (Nat → UInt8))
  | generate (opaquePtr : Nat) (rand : Nat → Option (Nat → UInt8)) (ncidFrame : FrameNewConnId)
  | bindChannel (opaquePtr : Nat) (lcid : QuicConnId)
  | retireOdcid (opaquePtr : Nat)
  | retire (opaquePtr : Nat) (retirePriorTo : UInt64) (containingPktDcid : Option QuicConnId)
  | cull (opaquePtr : Nat)

structure TracedLcidm where
  lcidm : QuicLcidm
  registered : List UInt8 → Option LcidEntry
  issued : Nat → List Nat

def startLcidm (lcidm : QuicLcidm) : TracedLcidm := ⟨lcidm, fun _ => none, fun _ => []⟩

def noteEnrolled (o : Nat) (initialOdcid : Option QuicConnId) (r : Bool × QuicLcidm)
    (s : TracedLcidm) : TracedLcidm :=
  match r.1, initialOdcid with
  | true, some cid =>
    { s with
      lcidm := r.2
      registered := update s.registered cid.bytes (some ⟨o, lcidmOdcidSeqNum, true⟩) }
  | _, _ => { s with lcidm := r.2 }

def noteIssued (o : Nat) (cid : QuicConnId) (m : QuicLcidm) (s : TracedLcidm) : TracedLcidm :=
  let number := ((quicLcidmLookup (some cid) m).map Prod.snd).getD 0
  { lcidm := m
    registered := update s.registered cid.bytes (some ⟨o, number, false⟩)
    issued := update s.issued o (s.issued o ++ [number]) }

def noteCleared (o : Nat) (m : QuicLcidm) (s : TracedLcidm) : TracedLcidm :=
  { lcidm := m, registered := dropOwner o s.registered, issued := update s.issued o [] }

def applyLcidm (s : TracedLcidm) : LcidmCall → TracedLcidm
  | .enrolOdcid o initialOdcid =>
    noteEnrolled o initialOdcid (quicLcidmEnrolOdcid o initialOdcid s.lcidm) s
  | .generateInitial o rand =>
    match quicLcidmGenerateInitial o rand s.lcidm with
    | (some cid, m) => noteIssued o cid m s
    | (none, m) => { s with lcidm := m }
  | .generate o rand ncidFrame =>
    match quicLcidmGenerate o rand ncidFrame s.lcidm with
    | (some frame, m) => noteIssued o frame.connId m s
    | (none, m) => { s with lcidm := m }
  | .bindChannel o lcid =>
    match quicLcidmBindChannel o lcid s.lcidm with
    | (true, m) => noteIssued o lcid m s
    -- a CID that is too long takes the connection with it
    | (false, m) =>
      if quicMaxConnIdLen < lcid.idLen then noteCleared o m s else { s with lcidm := m }
  | .retireOdcid o =>
    match quicLcidmRetireOdcid o s.lcidm with
    | (true, m) => { s with lcidm := m, registered := dropOdcid o s.registered }
    | (false, m) => { s with lcidm := m }
  | .retire o retirePriorTo dcid =>
    let r := quicLcidmRetire o retirePriorTo.toNat dcid s.lcidm
    match r.retired with
    | some (cid, _) =>
      { s with lcidm := r.lcidm, registered := update s.registered cid.bytes none }
    | none => { s with lcidm := r.lcidm }
  | .cull o => noteCleared o (quicLcidmCull o s.lcidm).2 s

/-- The numbers of a connection's CIDs are among those given out, each used once. -/
structure RegisterOk (registered : List UInt8 → Option LcidEntry) (issued : Nat → List Nat) :
    Prop where
  numbers : ∀ o, issued o = List.range (issued o).length
  below : ∀ k e, registered k = some e → e.odcid = false → e.seqNum < (issued e.opaquePtr).length
  distinct : ∀ k l e f, registered k = some e → registered l = some f → e.odcid = false →
    f.odcid = false → e.opaquePtr = f.opaquePtr → e.seqNum = f.seqNum → k = l

theorem register_fewer {registered' : List UInt8 → Option LcidEntry}
    (ok : RegisterOk registered issued)
    (fewer : ∀ k e, registered' k = some e → e.odcid = false → registered k = some e) :
    RegisterOk registered' issued where
  numbers := ok.numbers
  below := fun k e here numbered => ok.below k e (fewer k e here numbered) numbered
  distinct := fun k l e f kHere lHere eNumbered fNumbered =>
    ok.distinct k l e f (fewer k e kHere eNumbered) (fewer l f lHere fNumbered) eNumbered fNumbered

theorem register_issue (ok : RegisterOk registered issued) (o : Nat) (k : List UInt8) :
    RegisterOk (update registered k (some ⟨o, (issued o).length, false⟩))
      (update issued o (issued o ++ [(issued o).length])) := by
  constructor
  · intro p
    have old := ok.numbers p
    rw [update_apply]
    split
    · rename_i here
      rw [here] at old
      rw [length_append, length_singleton, range_succ, ← old]
    · exact old
  · intro l e here numbered
    have old := ok.below l e
    grind [update_apply]
  · intro l l' e f here there numbered alsoNumbered
    have first := ok.below l e
    have second := ok.below l' f
    have old := ok.distinct l l' e f
    grind [update_apply]

theorem register_clear (ok : RegisterOk registered issued) (o : Nat) :
    RegisterOk (dropOwner o registered) (update issued o []) := by
  have stays (k : List UInt8) (e : LcidEntry) (here : dropOwner o registered k = some e) :
      registered k = some e ∧ e.opaquePtr ≠ o := by
    rw [dropOwner, filter_eq_some_iff] at here
    exact ⟨here.1, of_decide_eq_true here.2⟩
  constructor
  · intro p
    have old := ok.numbers p
    rw [update_apply]
    split
    · rfl
    · exact old
  · intro k e here numbered
    obtain ⟨before, other⟩ := stays k e here
    rw [update_of_ne other]
    exact ok.below k e before numbered
  · intro k l e f kHere lHere
    exact ok.distinct k l e f (stays k e kHere).1 (stays l f lHere).1

structure TracedLcidmOk (s : TracedLcidm) : Prop where
  manager : LcidmOk s.lcidm
  entries : entryOf s.lcidm = s.registered
  counts : ∀ o, issuedOf s.lcidm o = (s.issued o).length
  register : RegisterOk s.registered s.issued

variable {s : TracedLcidm}

theorem same_traced (ok : TracedLcidmOk s) (same : LcidmSame s.lcidm m) :
    TracedLcidmOk { s with lcidm := m } where
  manager := same.ok
  entries := same.entries.trans ok.entries
  counts := fun o => (congrFun same.issued o).trans (ok.counts o)
  register := ok.register

theorem issued_traced (ok : TracedLcidmOk s) (issue : LcidIssued s.lcidm m o cid) :
    TracedLcidmOk (noteIssued o cid m s) := by
  have number : ((quicLcidmLookup (some cid) m).map Prod.snd).getD 0 = (s.issued o).length := by
    rw [lookup_entry, if_neg (not_lt.mpr issue.short), issue.entries, update_self, ← ok.counts]
    rfl
  unfold noteIssued
  rw [number]
  constructor
  · exact issue.ok
  · rw [issue.entries, ok.entries, ok.counts]
  · intro p
    dsimp only
    rw [issue.issued, update_apply, update_apply]
    split
    · rw [length_append, length_singleton, ok.counts]
    · exact ok.counts p
  · exact register_issue ok.register o cid.bytes

theorem cleared_traced (ok : TracedLcidmOk s) (cleared : LcidmCleared s.lcidm m o) :
    TracedLcidmOk (noteCleared o m s) := by
  unfold noteCleared
  constructor
  · exact cleared.ok
  · rw [cleared.entries, ok.entries]
  · intro p
    dsimp only
    rw [cleared.issued, update_apply, update_apply]
    split
    · rfl
    · exact ok.counts p
  · exact register_clear ok.register o

theorem generate_traced (ok : TracedLcidmOk s) (o : Nat) {type : LcidType}
    (numbered : type ≠ .odcid) (rand : Nat → Option (Nat → UInt8)) :
    let r := lcidmGenerate o type rand s.lcidm
    TracedLcidmOk (match r.1 with
      | some made => noteIssued o made.1 r.2 s
      | none => { s with lcidm := r.2 }) := by
  intro r
  cases lcidmGenerate_done ok.manager o numbered rand with
  | inl failed =>
    obtain ⟨none', same⟩ := failed
    rw [none']
    exact same_traced ok same
  | inr done =>
    obtain ⟨cid, made, issue⟩ := done
    rw [made]
    exact issued_traced ok issue

theorem applyLcidm_ok (s : TracedLcidm) (call : LcidmCall) (ok : TracedLcidmOk s) :
    TracedLcidmOk (applyLcidm s call) := by
  cases call with
  | enrolOdcid o initialOdcid =>
    have outcome := quicLcidmEnrolOdcid_done ok.manager o initialOdcid
    change TracedLcidmOk (noteEnrolled o initialOdcid (quicLcidmEnrolOdcid o initialOdcid s.lcidm) s)
    generalize quicLcidmEnrolOdcid o initialOdcid s.lcidm = r at outcome ⊢
    obtain ⟨ret, m⟩ := r
    cases outcome with
    | inl failed =>
      obtain ⟨rfl, same⟩ := failed
      exact same_traced ok same
    | inr done =>
      obtain ⟨rfl, cid, rfl, _, okAfter, entries, issued⟩ := done
      constructor
      · exact okAfter
      · change entryOf m = update s.registered _ _
        rw [← ok.entries]
        exact entries
      · intro p
        exact (congrFun issued p).trans (ok.counts p)
      · apply register_fewer ok.register
        intro k e here numbered
        change update s.registered cid.bytes _ k = some e at here
        rw [update_apply] at here
        split at here
        · obtain rfl := some.inj here
          cases numbered
        · exact here
  | generateInitial o rand =>
    have outcome := generate_traced ok o (fun is => nomatch is : LcidType.initial ≠ .odcid) rand
    rw [applyLcidm, quicLcidmGenerateInitial]
    generalize lcidmGenerate o .initial rand s.lcidm = r at outcome ⊢
    obtain ⟨made, m⟩ := r
    cases made with
    | none => exact outcome
    | some made => exact outcome
  | generate o rand ncidFrame =>
    have outcome := generate_traced ok o (fun is => nomatch is : LcidType.ncid ≠ .odcid) rand
    rw [applyLcidm, quicLcidmGenerate]
    generalize lcidmGenerate o .ncid rand s.lcidm = r at outcome ⊢
    obtain ⟨made, m⟩ := r
    cases made with
    | none => exact outcome
    | some made => exact outcome
  | bindChannel o lcid =>
    have outcome := quicLcidmBindChannel_done ok.manager o lcid
    rw [applyLcidm]
    generalize quicLcidmBindChannel o lcid s.lcidm = r at outcome ⊢
    obtain ⟨ret, m⟩ := r
    cases outcome with
    | inl bound =>
      obtain ⟨rfl, issue⟩ := bound
      exact issued_traced ok issue
    | inr failed =>
      cases failed with
      | inl taken =>
        obtain ⟨rfl, short, same⟩ := taken
        dsimp only
        rw [if_neg (not_lt.mpr short)]
        exact same_traced ok same
      | inr tooLong =>
        obtain ⟨rfl, long, cleared⟩ := tooLong
        dsimp only
        rw [if_pos long]
        exact cleared_traced ok cleared
  | retireOdcid o =>
    have outcome := quicLcidmRetireOdcid_done ok.manager o
    rw [applyLcidm]
    generalize quicLcidmRetireOdcid o s.lcidm = r at outcome ⊢
    obtain ⟨ret, m⟩ := r
    cases outcome with
    | inl failed =>
      obtain ⟨rfl, same⟩ := failed
      exact same_traced ok same
    | inr done =>
      obtain ⟨rfl, okAfter, entries, issued⟩ := done
      constructor
      · exact okAfter
      · rw [entries, ok.entries]
      · intro p
        exact (congrFun issued p).trans (ok.counts p)
      · apply register_fewer ok.register
        intro k e here _
        dsimp only [dropOdcid] at here
        rw [filter_eq_some_iff] at here
        exact here.1
  | retire o retirePriorTo dcid =>
    have bounded : retirePriorTo.toNat ≤ maxU64 := Nat.le_of_lt_succ retirePriorTo.toNat_lt
    have outcome := quicLcidmRetire_done ok.manager o bounded dcid
    rw [applyLcidm]
    generalize quicLcidmRetire o retirePriorTo.toNat dcid s.lcidm = r at outcome ⊢
    cases outcome with
    | inl idle =>
      obtain ⟨rfl, _⟩ := idle
      exact ok
    | inr found =>
      obtain ⟨cid, e, _, _, either⟩ := found
      cases either with
      | inl refused =>
        obtain ⟨_, rfl⟩ := refused
        exact ok
      | inr done =>
        obtain ⟨_, _, retired, gone⟩ := done
        rw [retired]
        constructor
        · exact gone.ok
        · rw [gone.entries, ok.entries]
        · intro p
          exact (congrFun gone.issued p).trans (ok.counts p)
        · apply register_fewer ok.register
          intro k f here _
          dsimp only at here
          rw [update_apply] at here
          split at here
          · cases here
          · exact here
  | cull o => exact cleared_traced ok (quicLcidmCull_done ok.manager o)

theorem quicLcidmNew_ok (made : quicLcidmNew lcidLen = some m) : TracedLcidmOk (startLcidm m) := by
  unfold quicLcidmNew at made
  split at made
  · cases made
  · obtain rfl := some.inj made
    constructor
    · constructor
      · constructor
        · intro k a
          have empty : lhRetrieve k (lhNew : Lhash (List UInt8) Nat) = none := lhRetrieve_new k
          dsimp only [startLcidm]
          rw [empty]
          grind
        · intro o c
          have empty : lhRetrieve o (lhNew : Lhash Nat Nat) = none := lhRetrieve_new o
          dsimp only [startLcidm]
          rw [empty]
          grind
        · intro a obj live
          cases live
        · intro c conn live
          cases live
        · intro c conn live
          cases live
        · intro a obj live
          cases live
        · intro a obj live
          cases live
        · intro c conn live
          cases live
      · intro c conn live
        cases live
    · rfl
    · exact fun _ => rfl
    · constructor
      · exact fun _ => rfl
      · intro k e here
        cases here
      · intro k l e f here
        cases here

theorem run_lcidm_ok (made : quicLcidmNew lcidLen = some m) (calls : List LcidmCall) :
    TracedLcidmOk (run applyLcidm (startLcidm m) calls) := by
  have always : ∀ call ∈ calls, True := fun _ _ => trivial
  apply run_invariant _ (quicLcidmNew_ok made) (admissible_of_forall always)
  intro s call ok _
  exact applyLcidm_ok s call ok

theorem mem_table (tables : LcidmTables m) (k : List UInt8) (o c a : Nat) :
    (lhRetrieve o m.conns = some c ∧ lhRetrieve k (derefConn m c).lcids = some a) ↔
      ∃ obj conn, m.objs a = some obj ∧ obj.cid.bytes = k ∧ obj.conn = c ∧
        m.connObjs c = some conn ∧ conn.opaquePtr = o := by
  constructor
  · intro both
    obtain ⟨conn, live, owner⟩ := (tables.conns o c).mp both.1
    have inside := both.2
    rw [derefConn_live live] at inside
    obtain ⟨obj, here, bytes, own⟩ := (tables.own c conn live k a).mp inside
    exact ⟨obj, conn, here, bytes, own, live, owner⟩
  · intro somewhere
    obtain ⟨obj, conn, here, bytes, own, live, owner⟩ := somewhere
    rw [derefConn_live live]
    exact ⟨(tables.conns o c).mpr ⟨conn, live, owner⟩,
      (tables.own c conn live k a).mpr ⟨obj, here, bytes, own⟩⟩

/-- The call takes the earliest of the numbered CIDs below the bound from the register,
    unless the packet was sent to it. -/
def RetiresEarliest (s : TracedLcidm) (o retirePriorTo : Nat) (dcid : Option QuicConnId) : Prop :=
  let r := quicLcidmRetire o retirePriorTo dcid s.lcidm
  (r = ⟨true, none, s.lcidm⟩ ∧ ∀ k e, ¬ RetirableEntry s.registered o retirePriorTo k e) ∨
    ∃ cid e, RetirableEntry s.registered o retirePriorTo cid.bytes e ∧
      (∀ k f, RetirableEntry s.registered o retirePriorTo k f →
        k = cid.bytes ∨ e.seqNum < f.seqNum) ∧
      ((dcid.any (quicConnIdEq cid) = true ∧ r = ⟨false, none, s.lcidm⟩) ∨
        (dcid.any (quicConnIdEq cid) = false ∧ r.ret = true ∧ r.retired = some (cid, e.seqNum) ∧
          ∀ lcid, quicLcidmLookup (some lcid) r.lcidm =
            if lcid.bytes = cid.bytes then none else quicLcidmLookup (some lcid) s.lcidm))

theorem traced_retires (ok : TracedLcidmOk s) (o : Nat) (bounded : retirePriorTo ≤ maxU64)
    (dcid : Option QuicConnId) : RetiresEarliest s o retirePriorTo dcid := by
  have outcome := quicLcidmRetire_done ok.manager o bounded dcid
  rw [ok.entries] at outcome
  cases outcome with
  | inl idle => exact .inl idle
  | inr found =>
    obtain ⟨cid, e, can, first, either⟩ := found
    right
    refine ⟨cid, e, can, ?_, ?_⟩
    · intro k f also
      have order := first k f also
      by_cases same : f.seqNum = e.seqNum
      · left
        apply ok.register.distinct k cid.bytes f e also.1 can.1 also.2.2.1 can.2.2.1 _ same
        exact also.2.1.trans can.2.1.symm
      · right
        omega
    · cases either with
      | inl refused => exact .inl refused
      | inr done =>
        obtain ⟨apart, ret, retired, gone⟩ := done
        right
        refine ⟨apart, ret, retired, ?_⟩
        intro lcid
        rw [lookup_entry, lookup_entry, gone.entries, update_apply]
        split
        · split
          · rfl
          · rfl
        · split
          · rfl
          · rfl

/-- Each CID leads to one connection, the tables agree on the objects and their number,
    lookups answer from the register, the numbers given out are 0, 1, 2, ..., and retiring
    takes the earliest. -/
theorem lcidm_routes {lcidLen : Nat} {lcidm : QuicLcidm} (made : quicLcidmNew lcidLen = some lcidm)
    (calls : List LcidmCall) :
    let s := run applyLcidm (startLcidm lcidm) calls
    (∀ k o o' c c' a a', lhRetrieve o s.lcidm.conns = some c →
      lhRetrieve k (derefConn s.lcidm c).lcids = some a →
      lhRetrieve o' s.lcidm.conns = some c' →
      lhRetrieve k (derefConn s.lcidm c').lcids = some a' → o = o' ∧ a = a') ∧
    (∀ k a, lhRetrieve k s.lcidm.lcids = some a ↔ ∃ o c,
      lhRetrieve o s.lcidm.conns = some c ∧ lhRetrieve k (derefConn s.lcidm c).lcids = some a) ∧
    (∀ o c, lhRetrieve o s.lcidm.conns = some c →
      (derefConn s.lcidm c).numActiveLcid = lhNumItems (derefConn s.lcidm c).lcids) ∧
    (∀ lcid, quicLcidmLookup (some lcid) s.lcidm =
      if quicMaxConnIdLen < lcid.idLen then none
      else (s.registered lcid.bytes).map (fun e => (e.opaquePtr, e.seqNum))) ∧
    (∀ o, s.issued o = List.range (s.issued o).length) ∧
    (∀ o rand ncidFrame frame, (quicLcidmGenerate o rand ncidFrame s.lcidm).1 = some frame →
      frame.seqNum = (s.issued o).length) ∧
    ∀ o (retirePriorTo : UInt64) dcid, RetiresEarliest s o retirePriorTo.toNat dcid := by
  intro s
  have ok : TracedLcidmOk s := run_lcidm_ok made calls
  have tables := ok.manager.tables
  refine ⟨?_, ?_, ?_, ?_, ok.register.numbers, ?_, ?_⟩
  · intro k o o' c c' a a' conn inside conn' inside'
    have first := (mem_table tables k o c a).mp ⟨conn, inside⟩
    have second := (mem_table tables k o' c' a').mp ⟨conn', inside'⟩
    have one := tables.lcids k a
    have two := tables.lcids k a'
    grind
  · intro k a
    rw [tables.lcids]
    constructor
    · intro somewhere
      obtain ⟨obj, live, bytes⟩ := somewhere
      obtain ⟨conn, owner⟩ := tables.owned a obj live
      exact ⟨conn.opaquePtr, obj.conn,
        (mem_table tables k _ _ a).mpr ⟨obj, conn, live, bytes, rfl, owner, rfl⟩⟩
    · intro somewhere
      obtain ⟨o, c, both⟩ := somewhere
      obtain ⟨obj, _, live, bytes, _⟩ := (mem_table tables k o c a).mp both
      exact ⟨obj, live, bytes⟩
  · intro o c found
    obtain ⟨conn, live, _⟩ := (tables.conns o c).mp found
    rw [derefConn_live live]
    exact tables.count c conn live
  · intro lcid
    rw [lookup_entry, ok.entries]
  · intro o rand ncidFrame frame out
    rw [quicLcidmGenerate] at out
    cases lcidmGenerate_done ok.manager o (by decide : LcidType.ncid ≠ .odcid) rand with
    | inl failed =>
      rw [failed.1] at out
      cases out
    | inr done =>
      obtain ⟨cid, result, _⟩ := done
      rw [result] at out
      obtain rfl := some.inj out
      exact ok.counts o
  · intro o retirePriorTo dcid
    exact traced_retires ok o (Nat.le_of_lt_succ retirePriorTo.toNat_lt) dcid

/- Two connections, an ODCID retired, a number retired by a packet to another CID. -/
def sampleLcidm : QuicLcidm where
  objs := fun _ => none
  connObjs := fun _ => none
  fresh := 0
  lcids := lhNew
  conns := lhNew
  lcidLen := 1

def sampleOdcid : QuicConnId := connIdOf [1, 2, 3, 4, 5, 6, 7, 8]

def sampleLcidmCalls : List LcidmCall :=
  [.enrolOdcid 1 (some sampleOdcid), .generateInitial 1 (fun _ => some (fun _ => 9)),
    .bindChannel 2 (connIdOf [4]), .retireOdcid 1, .generateInitial 1 (fun _ => none),
    .retire 1 5 (some (connIdOf [4])), .cull 2]

theorem lcidm_routes_sample :
    let s := run applyLcidm (startLcidm sampleLcidm) sampleLcidmCalls
    ∀ lcid, quicLcidmLookup (some lcid) s.lcidm =
      if quicMaxConnIdLen < lcid.idLen then none
      else (s.registered lcid.bytes).map (fun e => (e.opaquePtr, e.seqNum)) :=
  have made : quicLcidmNew 1 = some sampleLcidm := rfl
  (lcidm_routes made sampleLcidmCalls).2.2.2.1

end Ossl
