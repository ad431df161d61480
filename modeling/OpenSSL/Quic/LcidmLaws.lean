import OpenSSL.Quic.Lcidm

/- What holds of the tables of the local connection ID manager between calls, and what
   each helper does to them. -/
namespace Ossl
open List Option Function

structure LcidmTables (m : QuicLcidm) : Prop where
  lcids : ∀ k a, lhRetrieve k m.lcids = some a ↔ ∃ obj, m.objs a = some obj ∧ obj.cid.bytes = k
  conns : ∀ o c, lhRetrieve o m.conns = some c ↔
    ∃ conn, m.connObjs c = some conn ∧ conn.opaquePtr = o
  owned : ∀ a obj, m.objs a = some obj → ∃ conn, m.connObjs obj.conn = some conn
  own : ∀ c conn, m.connObjs c = some conn → ∀ k a, lhRetrieve k conn.lcids = some a ↔
    ∃ obj, m.objs a = some obj ∧ obj.cid.bytes = k ∧ obj.conn = c
  count : ∀ c conn, m.connObjs c = some conn → conn.numActiveLcid = lhNumItems conn.lcids
  short : ∀ a obj, m.objs a = some obj → obj.cid.idLen ≤ quicMaxConnIdLen
  lowObj : ∀ a obj, m.objs a = some obj → a < m.fresh
  lowConn : ∀ c conn, m.connObjs c = some conn → c < m.fresh

/-- The record's ODCID object is the connection's only one. -/
structure OdcidOk (m : QuicLcidm) (c : Nat) (conn : QuicLcidmConn) : Prop where
  only : ∀ a, conn.odcidLcidObj = some a ↔
    ∃ obj, m.objs a = some obj ∧ obj.conn = c ∧ obj.type = .odcid
  done : conn.doneOdcid = false → conn.odcidLcidObj = none

structure LcidmOk (m : QuicLcidm) : Prop where
  tables : LcidmTables m
  odcid : ∀ c conn, m.connObjs c = some conn → OdcidOk m c conn

structure LcidEntry where
  opaquePtr : Nat
  seqNum : Nat
  odcid : Bool
  deriving DecidableEq

def entryOf (m : QuicLcidm) (k : List UInt8) : Option LcidEntry :=
  (lhRetrieve k m.lcids).map (fun a =>
    { opaquePtr := (derefConn m (derefLcid m a).conn).opaquePtr
      seqNum := (derefLcid m a).seqNum
      odcid := (derefLcid m a).type = .odcid })

def issuedOf (m : QuicLcidm) (o : Nat) : Nat :=
  match lhRetrieve o m.conns with
  | none => 0
  | some c => (derefConn m c).nextSeqNum

variable {m s t : QuicLcidm} {a c : Nat} {obj : QuicLcid} {conn : QuicLcidmConn} {k : List UInt8}

theorem derefLcid_live (live : m.objs a = some obj) : derefLcid m a = obj := by
  rw [derefLcid, live]
  rfl

theorem derefConn_live (live : m.connObjs c = some conn) : derefConn m c = conn := by
  rw [derefConn, live]
  rfl

theorem entryOf_found (tables : LcidmTables m) (live : m.objs a = some obj)
    (owner : m.connObjs c = some conn) (own : obj.conn = c) :
    entryOf m obj.cid.bytes = some ⟨conn.opaquePtr, obj.seqNum, obj.type = .odcid⟩ := by
  have found := (tables.lcids _ a).mpr ⟨obj, live, rfl⟩
  rw [entryOf, found, map_some, derefLcid_live live, own, derefConn_live owner]

theorem entryOf_some (tables : LcidmTables m) {e : LcidEntry} (found : entryOf m k = some e) :
    ∃ a obj conn, m.objs a = some obj ∧ obj.cid.bytes = k ∧ m.connObjs obj.conn = some conn ∧
      e = ⟨conn.opaquePtr, obj.seqNum, obj.type = .odcid⟩ := by
  cases there : lhRetrieve k m.lcids with
  | none =>
    rw [entryOf, there] at found
    cases found
  | some a =>
    obtain ⟨obj, live, rfl⟩ := (tables.lcids k a).mp there
    obtain ⟨conn, owner⟩ := tables.owned a obj live
    rw [entryOf_found tables live owner rfl] at found
    exact ⟨a, obj, conn, live, rfl, owner, (some.inj found).symm⟩

theorem entryOf_none : entryOf m k = none ↔ lhRetrieve k m.lcids = none := by
  rw [entryOf, map_eq_none_iff]

theorem issuedOf_found (tables : LcidmTables m) (live : m.connObjs c = some conn) :
    issuedOf m conn.opaquePtr = conn.nextSeqNum := by
  have found := (tables.conns _ c).mpr ⟨conn, live, rfl⟩
  rw [issuedOf, found]
  dsimp only
  rw [derefConn_live live]

/-- Objects that stay as they are keep their CIDs' entries. -/
theorem entryOf_same (sTables : LcidmTables s) (tTables : LcidmTables t)
    (objs : ∀ a obj, obj.cid.bytes = k → (t.objs a = some obj ↔ s.objs a = some obj))
    (owners : ∀ a obj conn, s.objs a = some obj → obj.cid.bytes = k →
      s.connObjs obj.conn = some conn →
        ∃ conn', t.connObjs obj.conn = some conn' ∧ conn'.opaquePtr = conn.opaquePtr) :
    entryOf t k = entryOf s k := by
  cases there : lhRetrieve k s.lcids with
  | none =>
    rw [entryOf_none.mpr there]
    apply entryOf_none.mpr
    rw [eq_none_iff_forall_not_mem]
    intro a found
    obtain ⟨obj, live, bytes⟩ := (tTables.lcids k a).mp found
    have old := (sTables.lcids k a).mpr ⟨obj, (objs a obj bytes).mp live, bytes⟩
    rw [there] at old
    cases old
  | some a =>
    obtain ⟨obj, live, bytes⟩ := (sTables.lcids k a).mp there
    obtain ⟨conn, owner⟩ := sTables.owned a obj live
    obtain ⟨conn', owner', same⟩ := owners a obj conn live bytes owner
    have before := entryOf_found sTables live owner rfl
    have after := entryOf_found tTables ((objs a obj bytes).mpr live) owner' rfl
    rw [bytes] at before after
    rw [before, after, same]

/- Deleting an LCID. -/

def unlinkedConn (conn : QuicLcidmConn) (k : List UInt8) : QuicLcidmConn :=
  { conn with lcids := lhDelete k conn.lcids, numActiveLcid := conn.numActiveLcid - 1 }

theorem deleteLcid_eq (live : m.objs a = some obj) (owner : m.connObjs obj.conn = some conn) :
    lcidmDeleteConnLcid a m =
      { m with
        objs := update m.objs a none
        connObjs := update m.connObjs obj.conn (some (unlinkedConn conn obj.cid.bytes))
        lcids := lhDelete obj.cid.bytes m.lcids } := by
  unfold lcidmDeleteConnLcid setConn
  dsimp only
  rw [derefLcid_live live, derefConn_live owner]
  rfl

theorem deleteLcid_tables (tables : LcidmTables m) (live : m.objs a = some obj) :
    LcidmTables (lcidmDeleteConnLcid a m) := by
  obtain ⟨conn, owner⟩ := tables.owned a obj live
  have found : lhRetrieve obj.cid.bytes conn.lcids = some a :=
    (tables.own _ conn owner _ a).mpr ⟨obj, live, rfl, rfl⟩
  have fewer := lhDelete_numItems found
  have same (b : Nat) (obj' : QuicLcid) (there : m.objs b = some obj')
      (bytes : obj'.cid.bytes = obj.cid.bytes) : b = a := by
    have first := (tables.lcids _ b).mpr ⟨obj', there, bytes⟩
    have second := (tables.lcids _ a).mpr ⟨obj, live, rfl⟩
    grind
  rw [deleteLcid_eq live owner]
  constructor
  · intro k b
    have old := tables.lcids k b
    grind [lhRetrieve_delete, update_apply]
  · intro o c
    have old := tables.conns o c
    grind [update_apply, unlinkedConn]
  · intro b obj' there
    have old := tables.owned b obj'
    grind [update_apply]
  · intro c conn' there k b
    have old := tables.own c
    grind [lhRetrieve_delete, update_apply, unlinkedConn]
  · intro c conn' there
    have old := tables.count c
    grind [update_apply, unlinkedConn]
  · intro b obj' there
    have old := tables.short b obj'
    grind [update_apply]
  · intro b obj' there
    have old := tables.lowObj b obj'
    grind [update_apply]
  · intro c conn' there
    have old := tables.lowConn c
    grind [update_apply]

theorem deleteLcid_entryOf (tables : LcidmTables m) (live : m.objs a = some obj) :
    entryOf (lcidmDeleteConnLcid a m) = update (entryOf m) obj.cid.bytes none := by
  obtain ⟨conn, owner⟩ := tables.owned a obj live
  have tables' := deleteLcid_tables tables live
  rw [deleteLcid_eq live owner] at tables' ⊢
  funext k
  rw [update_apply]
  split
  · rename_i here
    apply entryOf_none.mpr
    rw [lhRetrieve_delete, if_pos here]
  · rename_i other
    apply entryOf_same tables tables'
    · grind [update_apply]
    · grind [update_apply, unlinkedConn]

theorem deleteLcid_issuedOf (tables : LcidmTables m) (live : m.objs a = some obj) :
    issuedOf (lcidmDeleteConnLcid a m) = issuedOf m := by
  obtain ⟨conn, owner⟩ := tables.owned a obj live
  rw [deleteLcid_eq live owner]
  funext o
  rw [issuedOf, issuedOf]
  dsimp only
  split
  · rfl
  · rename_i c found
    rw [derefConn, derefConn]
    grind [update_apply, unlinkedConn]

theorem deleteLcid_odcid (tables : LcidmTables m) (live : m.objs a = some obj)
    (ok : OdcidOk m c conn) (kept : obj.type ≠ .odcid ∨ obj.conn ≠ c) :
    OdcidOk (lcidmDeleteConnLcid a m) c conn := by
  obtain ⟨owner, there⟩ := tables.owned a obj live
  rw [deleteLcid_eq live there]
  constructor
  · intro b
    have old := ok.only b
    grind [update_apply]
  · exact ok.done

/- Deleting a connection: first its LCIDs, one by one. -/

structure LcidmEmptied (s t : QuicLcidm) (c : Nat) (gone : List Nat) : Prop where
  tables : LcidmTables t
  objs : ∀ a, t.objs a = if a ∈ gone then none else s.objs a
  others : ∀ d, d ≠ c → t.connObjs d = s.connObjs d
  record : ∀ conn, s.connObjs c = some conn →
    ∃ conn', t.connObjs c = some conn' ∧ conn'.opaquePtr = conn.opaquePtr
  conns : t.conns = s.conns
  fresh : t.fresh = s.fresh

theorem emptied_refl (tables : LcidmTables s) (c : Nat) : LcidmEmptied s s c [] where
  tables := tables
  objs := fun _ => rfl
  others := fun _ _ => rfl
  record := fun conn live => ⟨conn, live, rfl⟩
  conns := rfl
  fresh := rfl

variable {gone : List Nat} {o : Nat} {lcid : QuicConnId}

theorem emptied_next (emptied : LcidmEmptied s t c gone) (live : s.objs a = some obj)
    (own : obj.conn = c) (present : a ∉ gone) :
    LcidmEmptied s (lcidmDeleteConnLcid a t) c (a :: gone) := by
  have there : t.objs a = some obj := by
    rw [emptied.objs, if_neg present]
    exact live
  have tables := deleteLcid_tables emptied.tables there
  obtain ⟨conn, owner⟩ := emptied.tables.owned a obj there
  rw [deleteLcid_eq there owner] at tables ⊢
  constructor
  · exact tables
  · intro b
    have old := emptied.objs b
    grind [update_apply]
  · intro d other
    have old := emptied.others d other
    grind [update_apply]
  · intro conn' old
    obtain ⟨conn'', here, same⟩ := emptied.record conn' old
    grind [update_apply, unlinkedConn]
  · exact emptied.conns
  · exact emptied.fresh

theorem emptied_all (items : List Nat) (emptied : LcidmEmptied s t c gone) (nodup : items.Nodup)
    (live : ∀ a ∈ items, ∃ obj, s.objs a = some obj ∧ obj.conn = c)
    (present : ∀ a ∈ items, a ∉ gone) :
    LcidmEmptied s (items.foldl (fun m a => lcidmDeleteConnLcid a m) t) c
      (items.reverse ++ gone) := by
  induction items generalizing t gone with
  | nil => exact emptied
  | cons a rest ih =>
    obtain ⟨obj, here, own⟩ := live a mem_cons_self
    obtain ⟨notLater, restNodup⟩ := nodup_cons.mp nodup
    have step := emptied_next emptied here own (present a mem_cons_self)
    rw [foldl_cons, reverse_cons, append_assoc]
    apply ih step restNodup
    · intro b member
      exact live b (mem_cons_of_mem a member)
    · intro b member old
      cases mem_cons.mp old with
      | inl same => exact notLater (same ▸ member)
      | inr old => exact present b (mem_cons_of_mem a member) old

theorem mem_connItems (tables : LcidmTables m) (live : m.connObjs c = some conn) (a : Nat) :
    a ∈ lhItems conn.lcids ↔ ∃ obj, m.objs a = some obj ∧ obj.conn = c := by
  have own := tables.own c conn live
  rw [mem_lhItems]
  constructor
  · intro somewhere
    obtain ⟨k, found⟩ := somewhere
    obtain ⟨obj, here, _, owner⟩ := (own k a).mp found
    exact ⟨obj, here, owner⟩
  · intro somewhere
    obtain ⟨obj, here, owner⟩ := somewhere
    exact ⟨obj.cid.bytes, (own _ a).mpr ⟨obj, here, rfl, owner⟩⟩

theorem deleteConn_left (tables : LcidmTables m) (live : m.connObjs c = some conn) :
    let t := lcidmDeleteConn c m
    LcidmTables t ∧
      (∀ a obj, t.objs a = some obj ↔ m.objs a = some obj ∧ obj.conn ≠ c) ∧
      (∀ d, t.connObjs d = if d = c then none else m.connObjs d) ∧
      t.conns = lhDelete conn.opaquePtr m.conns := by
  have mem := mem_connItems tables live
  have nodup : (lhItems conn.lcids).Nodup := by
    apply lhItems_nodup
    intro k l a first second
    have own := tables.own c conn live
    grind
  have loop := emptied_all (lhItems conn.lcids) (emptied_refl tables c) nodup
    (fun a member => (mem a).mp member) (fun _ _ => not_mem_nil)
  rw [lcidmDeleteConn, derefConn_live live]
  rw [append_nil] at loop
  generalize (lhItems conn.lcids).foldl (fun m a => lcidmDeleteConnLcid a m) m = t at loop ⊢
  obtain ⟨conn', there, same⟩ := loop.record conn live
  have objs (a : Nat) (obj : QuicLcid) :
      t.objs a = some obj ↔ m.objs a = some obj ∧ obj.conn ≠ c := by
    rw [loop.objs]
    grind
  rw [derefConn_live there, same, loop.conns]
  refine ⟨?_, objs, ?_, rfl⟩
  · have key := tables.conns
    constructor
    · exact loop.tables.lcids
    · intro o d
      have old := key o d
      have mine := key conn.opaquePtr c
      have others := loop.others d
      grind [lhRetrieve_delete, update_apply]
    · intro a obj here
      have old := loop.tables.owned a obj here
      grind [update_apply]
    · intro d conn'' here k a
      have old := loop.tables.own d
      grind [update_apply]
    · intro d conn'' here
      have old := loop.tables.count d
      grind [update_apply]
    · exact loop.tables.short
    · exact loop.tables.lowObj
    · intro d conn'' here
      have old := loop.tables.lowConn d
      grind [update_apply]
  · intro d
    have old := loop.others d
    grind [update_apply]

theorem deleteConn_ok (ok : LcidmOk m) (live : m.connObjs c = some conn) :
    LcidmOk (lcidmDeleteConn c m) := by
  obtain ⟨tables, objs, conns, _⟩ := deleteConn_left ok.tables live
  generalize lcidmDeleteConn c m = t at tables objs conns ⊢
  constructor
  · exact tables
  · intro d conn' here
    have old := ok.odcid d conn' (by grind)
    constructor
    · intro a
      have only := old.only a
      grind
    · exact old.done

theorem deleteConn_entryOf (tables : LcidmTables m) (live : m.connObjs c = some conn)
    (k : List UInt8) : entryOf (lcidmDeleteConn c m) k =
      (entryOf m k).filter (fun e => e.opaquePtr ≠ conn.opaquePtr) := by
  obtain ⟨tables', objs, conns, _⟩ := deleteConn_left tables live
  generalize lcidmDeleteConn c m = t at tables' objs conns ⊢
  cases found : entryOf m k with
  | none =>
    apply entryOf_none.mpr
    rw [eq_none_iff_forall_not_mem]
    intro a there
    have missing := entryOf_none.mp found
    have after := (tables'.lcids k a).mp there
    have before := tables.lcids k a
    grind
  | some e =>
    obtain ⟨a, obj, conn', here, rfl, owner, rfl⟩ := entryOf_some tables found
    by_cases mine : obj.conn = c
    · have same : conn' = conn := by grind
      rw [filter_some, if_neg (by grind)]
      apply entryOf_none.mpr
      rw [eq_none_iff_forall_not_mem]
      intro b there
      have after := (tables'.lcids _ b).mp there
      have first := tables.lcids obj.cid.bytes a
      have second := tables.lcids obj.cid.bytes b
      grind
    · have apart : conn'.opaquePtr ≠ conn.opaquePtr := by
        have first := tables.conns conn.opaquePtr obj.conn
        have second := tables.conns conn.opaquePtr c
        grind
      have still : t.connObjs obj.conn = some conn' := by
        rw [conns, if_neg mine]
        exact owner
      rw [filter_some, if_pos (by grind)]
      exact entryOf_found tables' ((objs a obj).mpr ⟨here, mine⟩) still rfl

theorem deleteConn_issuedOf (tables : LcidmTables m) (live : m.connObjs c = some conn) :
    issuedOf (lcidmDeleteConn c m) = update (issuedOf m) conn.opaquePtr 0 := by
  obtain ⟨_, _, conns, table⟩ := deleteConn_left tables live
  generalize lcidmDeleteConn c m = t at conns table ⊢
  funext o
  rw [issuedOf, table, lhRetrieve_delete, update_apply]
  by_cases here : o = conn.opaquePtr
  · rw [if_pos here, if_pos here]
  · rw [if_neg here, if_neg here, issuedOf]
    cases found : lhRetrieve o m.conns with
    | none => rfl
    | some d =>
      obtain ⟨conn', there, owner⟩ := (tables.conns o d).mp found
      have other : d ≠ c := by grind
      dsimp only
      rw [derefConn, derefConn, conns, if_neg other]

/- Finding or making a connection's record. -/

def newConn (o : Nat) : QuicLcidmConn := { zeroLcidmConn with opaquePtr := o }

theorem upsertConn_new (absent : lhRetrieve o m.conns = none) : lcidmUpsertConn o m =
      (m.fresh, { m with
        fresh := m.fresh + 1
        connObjs := update m.connObjs m.fresh (some (newConn o))
        conns := lhInsert o m.fresh m.conns }) := by
  rw [lcidmUpsertConn, lcidmGet0Conn, absent]
  rfl

theorem upsertConn_tables (tables : LcidmTables m) (absent : lhRetrieve o m.conns = none) :
    LcidmTables (lcidmUpsertConn o m).2 := by
  have missing (c : Nat) (conn : QuicLcidmConn) (live : m.connObjs c = some conn) :
      conn.opaquePtr ≠ o ∧ c ≠ m.fresh := by
    have key := (tables.conns o c).mpr
    have low := tables.lowConn c conn live
    grind
  have owned (a : Nat) (obj : QuicLcid) (live : m.objs a = some obj) : obj.conn ≠ m.fresh := by
    obtain ⟨conn, there⟩ := tables.owned a obj live
    exact (missing _ conn there).2
  have owner : (newConn o).opaquePtr = o := rfl
  have noLcids (k : List UInt8) : lhRetrieve k (newConn o).lcids = none := lhRetrieve_new k
  have noneActive : (newConn o).numActiveLcid = lhNumItems (newConn o).lcids := rfl
  rw [upsertConn_new absent]
  constructor
  · exact tables.lcids
  · intro p c
    have old := tables.conns p c
    dsimp only
    rw [lhRetrieve_insert, update_apply]
    by_cases isNew : c = m.fresh
    · rw [if_pos isNew]
      by_cases here : p = o
      · rw [if_pos here, isNew]
        exact ⟨fun _ => ⟨newConn o, rfl, here.symm⟩, fun _ => rfl⟩
      · rw [if_neg here]
        grind
    · grind
  · intro a obj live
    have old := tables.owned a obj live
    grind [update_apply]
  · intro c conn live k a
    have old := tables.own c
    grind [update_apply]
  · intro c conn live
    have old := tables.count c
    grind [update_apply]
  · exact tables.short
  · intro a obj live
    exact Nat.lt_succ_of_lt (tables.lowObj a obj live)
  · intro c conn live
    have old := tables.lowConn c
    grind [update_apply]

theorem upsertConn_done (ok : LcidmOk m) (o : Nat) : let r := lcidmUpsertConn o m
    LcidmOk r.2 ∧ entryOf r.2 = entryOf m ∧ issuedOf r.2 = issuedOf m ∧
      r.2.lcids = m.lcids ∧ r.2.objs = m.objs ∧
      ∃ conn, r.2.connObjs r.1 = some conn ∧ conn.opaquePtr = o ∧
        conn.nextSeqNum = issuedOf m o := by
  cases found : lhRetrieve o m.conns with
  | some c =>
    have same : lcidmUpsertConn o m = (c, m) := by
      rw [lcidmUpsertConn, lcidmGet0Conn, found]
    rw [same]
    obtain ⟨conn, live, owner⟩ := (ok.tables.conns o c).mp found
    have issued := issuedOf_found ok.tables live
    rw [owner] at issued
    exact ⟨ok, rfl, rfl, rfl, rfl, conn, live, owner, issued.symm⟩
  | none =>
    have tables := ok.tables
    have tables' := upsertConn_tables tables found
    have other (c : Nat) (conn : QuicLcidmConn) (live : m.connObjs c = some conn) :
        c ≠ m.fresh := ne_of_lt (tables.lowConn c conn live)
    have owned (a : Nat) (obj : QuicLcid) (live : m.objs a = some obj) : obj.conn ≠ m.fresh := by
      obtain ⟨conn, there⟩ := tables.owned a obj live
      exact other _ conn there
    have noOdcid : (newConn o).odcidLcidObj = none := rfl
    have unnumbered : (newConn o).nextSeqNum = 0 := rfl
    rw [upsertConn_new found] at tables' ⊢
    refine ⟨⟨tables', ?_⟩, ?_, ?_, rfl, rfl, ?_⟩
    · intro c conn live
      have old := ok.odcid c
      constructor
      · intro a
        have only := fun conn' here => (old conn' here).only a
        grind [update_apply]
      · have done := fun conn' here => (old conn' here).done
        grind [update_apply]
    · funext k
      apply entryOf_same tables tables'
      · exact fun _ _ _ => Iff.rfl
      · grind [update_apply]
    · funext p
      rw [issuedOf, issuedOf]
      rw [lhRetrieve_insert]
      by_cases here : p = o
      · rw [if_pos here, here, found]
        dsimp only
        rw [derefConn]
        dsimp only
        rw [update_self]
        exact unnumbered
      · rw [if_neg here]
        cases there : lhRetrieve p m.conns with
        | none => rfl
        | some c =>
          obtain ⟨conn, live, _⟩ := (tables.conns p c).mp there
          dsimp only
          rw [derefConn, derefConn]
          dsimp only
          rw [update_of_ne (other c conn live)]
    · refine ⟨newConn o, update_self .., rfl, ?_⟩
      rw [issuedOf, found]
      exact unnumbered

/- Adding an LCID to a connection. -/

/- The new object in both tables, and the record as the caller leaves it. -/
def lcidAdded (c : Nat) (conn : QuicLcidmConn) (obj : QuicLcid) (m : QuicLcidm) : QuicLcidm :=
  { m with
    fresh := m.fresh + 1
    objs := update m.objs m.fresh (some obj)
    connObjs := update m.connObjs c (some
      { conn with
        lcids := lhInsert obj.cid.bytes m.fresh conn.lcids
        numActiveLcid := conn.numActiveLcid + 1 })
    lcids := lhInsert obj.cid.bytes m.fresh m.lcids }

theorem newLcid_number (type : LcidType) (live : m.connObjs c = some conn)
    (short : lcid.idLen ≤ quicMaxConnIdLen) : (lcidmConnNewLcid c lcid m).1 = some m.fresh ∧
      lcidmNumber c m.fresh type (lcidmConnNewLcid c lcid m).2 =
        lcidAdded c { conn with nextSeqNum := conn.nextSeqNum + 1 }
          ⟨lcid, conn.nextSeqNum, c, type⟩ m := by
  rw [lcidmConnNewLcid, if_neg (not_lt.mpr short)]
  constructor
  · rfl
  · unfold lcidmNumber lcidAdded setConn setLcid derefConn derefLcid
    dsimp only
    rw [live]
    simp only [update_self, update_idem, getD_some]

theorem newLcid_odcid (live : m.connObjs c = some conn) (short : lcid.idLen ≤ quicMaxConnIdLen) :
    let made := (lcidmConnNewLcid c lcid m).2
    let m' := setLcid m.fresh
      { derefLcid made m.fresh with seqNum := lcidmOdcidSeqNum, type := .odcid } made
    (lcidmConnNewLcid c lcid m).1 = some m.fresh ∧
      setConn c { derefConn m' c with odcidLcidObj := some m.fresh, doneOdcid := true } m' =
        lcidAdded c { conn with odcidLcidObj := some m.fresh, doneOdcid := true }
          ⟨lcid, lcidmOdcidSeqNum, c, .odcid⟩ m := by
  intro made m'
  have whole : made = (lcidmConnNewLcid c lcid m).2 := rfl
  rw [lcidmConnNewLcid, if_neg (not_lt.mpr short)] at whole ⊢
  constructor
  · rfl
  · change setConn c
      { derefConn (setLcid m.fresh _ made) c with
        odcidLcidObj := some m.fresh, doneOdcid := true } (setLcid m.fresh _ made) = _
    rw [whole]
    unfold lcidAdded setConn setLcid derefConn derefLcid
    dsimp only
    rw [live]
    simp only [update_self, update_idem, getD_some]

theorem fresh_dead (tables : LcidmTables m) : m.objs m.fresh = none := by
  rw [eq_none_iff_forall_not_mem]
  intro obj live
  exact lt_irrefl _ (tables.lowObj m.fresh obj live)

section
variable {m : QuicLcidm} {c : Nat} {old conn : QuicLcidmConn} {obj : QuicLcid}

theorem lcidAdded_tables (tables : LcidmTables m) (live : m.connObjs c = some old)
    (lcids : conn.lcids = old.lcids) (active : conn.numActiveLcid = old.numActiveLcid)
    (owner : conn.opaquePtr = old.opaquePtr) (own : obj.conn = c)
    (absent : lhRetrieve obj.cid.bytes m.lcids = none)
    (short : obj.cid.idLen ≤ quicMaxConnIdLen) : LcidmTables (lcidAdded c conn obj m) := by
  have unused : lhRetrieve obj.cid.bytes old.lcids = none := by
    rw [eq_none_iff_forall_not_mem]
    intro a found
    have there := (tables.own c old live _ a).mp found
    have whole := tables.lcids obj.cid.bytes a
    grind
  have more : lhNumItems (lhInsert obj.cid.bytes m.fresh old.lcids) = lhNumItems old.lcids + 1 :=
    lhInsert_numItems unused
  have dead := fresh_dead tables
  have objs (a : Nat) (obj' : QuicLcid) : update m.objs m.fresh (some obj) a = some obj' ↔
      m.objs a = some obj' ∨ a = m.fresh ∧ obj' = obj := by
    grind [update_apply]
  unfold lcidAdded
  constructor
  · intro k a
    have whole := tables.lcids k a
    rw [lhRetrieve_insert]
    by_cases here : k = obj.cid.bytes
    · rw [if_pos here, here]
      constructor
      · intro is
        exact ⟨obj, (objs a obj).mpr (.inr ⟨(some.inj is).symm, rfl⟩), rfl⟩
      · intro somewhere
        grind
    · rw [if_neg here]
      grind
  · intro o d
    have whole := tables.conns o d
    grind [update_apply]
  · intro a obj' there
    have whole := tables.owned a obj'
    grind [update_apply]
  · intro d conn' there k a
    have whole := tables.own d
    dsimp only at there ⊢
    rw [update_apply] at there
    by_cases mine : d = c
    · rw [if_pos mine] at there
      obtain rfl := some.inj there
      rw [lhRetrieve_insert, lcids]
      by_cases here : k = obj.cid.bytes
      · rw [if_pos here, here]
        constructor
        · intro is
          exact ⟨obj, (objs a obj).mpr (.inr ⟨(some.inj is).symm, rfl⟩), rfl, own.trans mine.symm⟩
        · intro somewhere
          grind
      · rw [if_neg here]
        grind
    · grind
  · intro d conn' there
    have whole := tables.count d
    grind [update_apply]
  · intro a obj' there
    have whole := tables.short a obj'
    grind
  · intro a obj' there
    have whole := tables.lowObj a obj'
    grind
  · intro d conn' there
    have whole := tables.lowConn d
    grind [update_apply]

theorem lcidAdded_entryOf (tables : LcidmTables m) (live : m.connObjs c = some old)
    (tables' : LcidmTables (lcidAdded c conn obj m)) (owner : conn.opaquePtr = old.opaquePtr)
    (own : obj.conn = c) :
    entryOf (lcidAdded c conn obj m) = update (entryOf m) obj.cid.bytes
      (some ⟨conn.opaquePtr, obj.seqNum, obj.type = .odcid⟩) := by
  have dead := fresh_dead tables
  funext k
  rw [update_apply]
  split
  · rename_i here
    rw [here]
    have objLive : (lcidAdded c conn obj m).objs m.fresh = some obj := update_self ..
    have record := entryOf_found tables' objLive (update_self c _ m.connObjs) own
    exact record
  · apply entryOf_same tables tables'
    · unfold lcidAdded
      grind [update_apply]
    · unfold lcidAdded
      grind [update_apply]

theorem lcidAdded_issuedOf (tables : LcidmTables m) (live : m.connObjs c = some old)
    (owner : conn.opaquePtr = old.opaquePtr) :
    issuedOf (lcidAdded c conn obj m) = update (issuedOf m) conn.opaquePtr conn.nextSeqNum := by
  have mine := (tables.conns old.opaquePtr c).mpr ⟨old, live, rfl⟩
  funext o
  rw [update_apply]
  change (match lhRetrieve o m.conns with
    | none => 0
    | some d => (derefConn (lcidAdded c conn obj m) d).nextSeqNum) = _
  by_cases here : o = conn.opaquePtr
  · rw [if_pos here, here, owner, mine]
    dsimp only
    rw [derefConn, lcidAdded]
    dsimp only
    rw [update_self]
    rfl
  · rw [if_neg here, issuedOf]
    cases found : lhRetrieve o m.conns with
    | none => rfl
    | some d =>
      obtain ⟨conn', there, named⟩ := (tables.conns o d).mp found
      have other : d ≠ c := by grind
      dsimp only
      rw [derefConn, derefConn, lcidAdded]
      dsimp only
      rw [update_of_ne other]

/-- The record's word on its ODCID has to go with the new object. -/
theorem lcidAdded_ok (ok : LcidmOk m) (live : m.connObjs c = some old)
    (lcids : conn.lcids = old.lcids) (active : conn.numActiveLcid = old.numActiveLcid)
    (owner : conn.opaquePtr = old.opaquePtr) (own : obj.conn = c)
    (absent : lhRetrieve obj.cid.bytes m.lcids = none)
    (short : obj.cid.idLen ≤ quicMaxConnIdLen)
    (odcid : (obj.type ≠ .odcid ∧ conn.odcidLcidObj = old.odcidLcidObj ∧
        conn.doneOdcid = old.doneOdcid) ∨
      (obj.type = .odcid ∧ conn.odcidLcidObj = some m.fresh ∧ conn.doneOdcid = true ∧
        old.odcidLcidObj = none)) : LcidmOk (lcidAdded c conn obj m) := by
  have dead := fresh_dead ok.tables
  constructor
  · exact lcidAdded_tables ok.tables live lcids active owner own absent short
  · unfold lcidAdded
    intro d conn' there
    have before := ok.odcid d
    constructor
    · intro a
      have only := fun conn'' here => (before conn'' here).only a
      grind [update_apply]
    · have done := fun conn'' here => (before conn'' here).done
      grind [update_apply]

end

/- Clearing a record's ODCID, the object being gone. -/

def withoutOdcid (c : Nat) (conn : QuicLcidmConn) (m : QuicLcidm) : QuicLcidm :=
  setConn c { conn with odcidLcidObj := none } m

theorem withoutOdcid_tables (tables : LcidmTables m) (live : m.connObjs c = some conn) :
    LcidmTables (withoutOdcid c conn m) := by
  unfold withoutOdcid setConn
  constructor
  · exact tables.lcids
  · intro o d
    have old := tables.conns o d
    grind [update_apply]
  · intro a obj here
    have old := tables.owned a obj here
    grind [update_apply]
  · intro d conn' here k a
    have old := tables.own d
    grind [update_apply]
  · intro d conn' here
    have old := tables.count d
    grind [update_apply]
  · exact tables.short
  · exact tables.lowObj
  · intro d conn' here
    have old := tables.lowConn d
    grind [update_apply]

theorem withoutOdcid_same (tables : LcidmTables m) (live : m.connObjs c = some conn) :
    entryOf (withoutOdcid c conn m) = entryOf m ∧
      issuedOf (withoutOdcid c conn m) = issuedOf m := by
  have tables' := withoutOdcid_tables tables live
  constructor
  · funext k
    apply entryOf_same tables tables'
    · exact fun _ _ _ => Iff.rfl
    · unfold withoutOdcid setConn
      grind [update_apply]
  · funext o
    unfold issuedOf
    change (match lhRetrieve o m.conns with
      | none => 0
      | some d => (derefConn (withoutOdcid c conn m) d).nextSeqNum) = _
    cases found : lhRetrieve o m.conns with
    | none => rfl
    | some d =>
      unfold withoutOdcid setConn derefConn
      grind [update_apply]

end Ossl
