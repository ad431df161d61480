import Mathlib.Data.Finset.Image
import OpenSSL.Lib.Runs
import OpenSSL.Quic.SrtmLaws

/- Runs of the stateless reset token manager from its creation, next to the set of
   triples it stands for. -/
namespace Ossl
open List Chains Runs

structure SrtmOk (blind : StatelessResetToken → StatelessResetToken) (srtm : QuicSrtm) :
    Prop where
  fwd : ∃ fwd, FwdIndex srtm (ItemLive srtm.objs) fwd
  rev : ∃ rev, RevIndex srtm (ItemLive srtm.objs) rev
  unique : ∀ a b, ItemLive srtm.objs a → ItemLive srtm.objs b →
    opaqueOf srtm.objs a = opaqueOf srtm.objs b → seqNumOf srtm.objs a = seqNumOf srtm.objs b →
      a = b
  blinded : ∀ a, ItemLive srtm.objs a → blindedOf srtm.objs a = blind (srtOf srtm.objs a)
  low : ∀ a, ItemLive srtm.objs a → a < srtm.fresh
  working : srtm.allocFailed = false

abbrev SrtmTriple : Type := Nat × Nat × StatelessResetToken

def tripleOf (objs : Nat → Option SrtmItem) (a : Nat) : SrtmTriple :=
  (opaqueOf objs a, seqNumOf objs a, srtOf objs a)

variable {objs : Nat → Option SrtmItem} {a : Nat} {keep : SrtmTriple → Prop}

theorem tripleOf_congr {objs' : Nat → Option SrtmItem} (core : itemCore objs' a = itemCore objs a) :
    tripleOf objs' a = tripleOf objs a := by
  rw [tripleOf, opaqueOf, seqNumOf, srtOf, core]
  rfl

variable {blind : StatelessResetToken → StatelessResetToken}

variable {s srtm t : QuicSrtm}

/-- The forward list of the opaque says whether the key is there, and where. -/
theorem srtmFind_found (ok : SrtmOk blind srtm) {fwd : Nat → List Nat}
    (ix : FwdIndex srtm (ItemLive srtm.objs) fwd) (opaquePtr seqNum : Nat) :
    (∃ xs item ys, fwd opaquePtr = xs ++ item :: ys ∧ ItemLive srtm.objs item ∧
      opaqueOf srtm.objs item = opaquePtr ∧ seqNumOf srtm.objs item = seqNum ∧
      srtmFind opaquePtr seqNum srtm =
        (some item, lhRetrieve opaquePtr srtm.itemsFwd, xs.getLast?)) ∨
      ((∀ a, ItemLive srtm.objs a → opaqueOf srtm.objs a = opaquePtr →
          seqNumOf srtm.objs a ≠ seqNum) ∧
        (srtmFind opaquePtr seqNum srtm).1 = none) := by
  have short := chain_short (ix.nodup opaquePtr)
    (fun a here => ok.low a ((ix.mem opaquePtr a).mp here).1)
  cases srtmFindRounds_found (srtm.fresh + 1) none (ix.linked opaquePtr) (by omega)
    (ix.sorted opaquePtr) with
  | inl found =>
    obtain ⟨xs, item, ys, split, equal, result⟩ := found
    have member := (ix.mem opaquePtr item).mp (split ▸ mem_append_right xs mem_cons_self)
    left
    refine ⟨xs, item, ys, split, member.1, member.2, equal, ?_⟩
    rw [srtmFind, result, Option.or_none]
  | inr absent =>
    right
    constructor
    · intro a live owner
      exact absent.1 a ((ix.mem opaquePtr a).mpr ⟨live, owner⟩)
    · exact absent.2

/- What each call does to the items. -/

theorem quicSrtmNew_ok : SrtmOk blind quicSrtmNew := by
  have dead (a : Nat) : ¬ ItemLive quicSrtmNew.objs a := fun live => live rfl
  constructor
  · exists fun _ => []
    constructor
    · exact fun _ => rfl
    · intro k a
      exact ⟨fun here => (nomatch here), fun both => absurd both.1 (dead a)⟩
    · exact fun _ => nodup_nil
    · exact fun _ => List.Pairwise.nil
  · exists fun _ => []
    constructor
    · exact fun _ => rfl
    · intro k a
      exact ⟨fun here => (nomatch here), fun both => absurd both.1 (dead a)⟩
    · exact fun _ => nodup_nil
    · exact fun _ => List.Pairwise.nil
  · intro a b live
    exact absurd live (dead a)
  · intro a live
    exact absurd live (dead a)
  · intro a live
    exact absurd live (dead a)
  · rfl

theorem srtmOk_fewer (ok : SrtmOk blind s) (fwd : ∃ fwd, FwdIndex t (ItemLive t.objs) fwd)
    (rev : ∃ rev, RevIndex t (ItemLive t.objs) rev)
    (live : ∀ a, ItemLive t.objs a → ItemLive s.objs a)
    (core : ∀ a, ItemLive t.objs a → itemCore t.objs a = itemCore s.objs a)
    (fresh : t.fresh = s.fresh) (working : t.allocFailed = s.allocFailed) : SrtmOk blind t where
  fwd := fwd
  rev := rev
  unique := by
    intro a b aLive bLive
    rw [opaqueOf, opaqueOf, seqNumOf, seqNumOf, core a aLive, core b bLive]
    exact ok.unique a b (live a aLive) (live b bLive)
  blinded := by
    intro a aLive
    rw [blindedOf, srtOf, core a aLive]
    exact ok.blinded a (live a aLive)
  low := by
    intro a aLive
    rw [fresh]
    exact ok.low a (live a aLive)
  working := working.trans ok.working

theorem quicSrtmRemove_done (ok : SrtmOk blind s) (opaquePtr seqNum : Nat) :
    let r := quicSrtmRemove opaquePtr seqNum s
    (r = (false, s) ∧ ∀ a, ItemLive s.objs a → opaqueOf s.objs a = opaquePtr →
        seqNumOf s.objs a ≠ seqNum) ∨
      (r.1 = true ∧ ∃ item, ItemLive s.objs item ∧ opaqueOf s.objs item = opaquePtr ∧
        seqNumOf s.objs item = seqNum ∧ SrtmOk blind r.2 ∧
        (∀ a, ItemLive r.2.objs a ↔ ItemLive s.objs a ∧ a ≠ item) ∧
        ∀ a, a ≠ item → itemCore r.2.objs a = itemCore s.objs a) := by
  intro r
  have start : r = quicSrtmRemove opaquePtr seqNum s := rfl
  obtain ⟨fwd, fwdIx⟩ := ok.fwd
  obtain ⟨rev, revIx⟩ := ok.rev
  rw [quicSrtmRemove, ok.working] at start
  cases srtmFind_found ok fwdIx opaquePtr seqNum with
  | inr absent =>
    left
    constructor
    · rw [start]
      have missing := absent.2
      generalize srtmFind opaquePtr seqNum s = found at missing ⊢
      obtain ⟨item, head, prev⟩ := found
      dsimp only at missing
      rw [missing]
      rfl
    · exact absent.1
  | inl found =>
    obtain ⟨xs, item, ys, split, live, owner, seq, result⟩ := found
    rw [result] at start
    dsimp only at start
    rw [← owner] at split
    obtain ⟨⟨fwd', fwdIx'⟩, first⟩ := srtmRemoveFromFwd_done fwdIx split (fun _ here => here)
    generalize srtmRemoveFromFwd item xs.getLast? s = t at fwdIx' first start
    have lowHere (a : Nat) (here : ItemLive s.objs a) : a < t.fresh := by
      rw [first.fresh]
      exact ok.low a here
    obtain ⟨⟨rev', revIx'⟩, second⟩ := srtmRemoveFromRev_done (relinked_revIndex first revIx) live
      (fun a here => (first.live a).mpr here) lowHere
    generalize srtmRemoveFromRev item t = u at revIx' second start
    have aside := freeItem_aside item u
    have liveAfter (a : Nat) :
        ItemLive (srtmFreeItem item u).objs a ↔ ItemLive s.objs a ∧ a ≠ item := by
      rw [freeItem_live, second.live, first.live]
    have coreAfter (a : Nat) (apart : a ≠ item) :
        itemCore (srtmFreeItem item u).objs a = itemCore s.objs a := by
      rw [(aside_fields aside apart).2.1, second.core, first.core]
    have members : ItemLive (srtmFreeItem item u).objs = fun a => ItemLive s.objs a ∧ a ≠ item :=
      funext (fun a => propext (liveAfter a))
    right
    rw [start, if_neg Bool.false_ne_true]
    constructor
    · rfl
    · refine ⟨item, live, owner, seq, ?_, liveAfter, coreAfter⟩
      apply srtmOk_fewer ok
      · rw [members]
        exists fwd'
        exact aside_fwdIndex aside (relinked_fwdIndex second fwdIx') (fun both => both.2 rfl)
      · rw [members]
        exists rev'
        exact aside_revIndex aside revIx' (fun both => both.2 rfl)
      · intro a aLive
        exact ((liveAfter a).mp aLive).1
      · intro a aLive
        exact coreAfter a ((liveAfter a).mp aLive).2
      · exact second.fresh.trans first.fresh
      · exact second.working.trans first.working

theorem quicSrtmCull_done (ok : SrtmOk blind s) (opaquePtr : Nat) :
    let r := quicSrtmCull opaquePtr s
    r.1 = true ∧ SrtmOk blind r.2 ∧
      (∀ a, ItemLive r.2.objs a ↔ ItemLive s.objs a ∧ opaqueOf s.objs a ≠ opaquePtr) ∧
      ∀ a, opaqueOf s.objs a ≠ opaquePtr → itemCore r.2.objs a = itemCore s.objs a := by
  intro r
  have start : r = quicSrtmCull opaquePtr s := rfl
  obtain ⟨fwd, fwdIx⟩ := ok.fwd
  obtain ⟨rev, revIx⟩ := ok.rev
  have linked := fwdIx.linked opaquePtr
  have first := linked_head linked
  have nodup := fwdIx.nodup opaquePtr
  have mem := fwdIx.mem opaquePtr
  rw [quicSrtmCull, ok.working, first] at start
  have short := chain_short nodup (fun a here => ok.low a ((mem a).mp here).1)
  cases chain : fwd opaquePtr with
  | nil =>
    rw [chain] at start mem
    rw [start]
    refine ⟨rfl, ok, ?_, fun _ _ => rfl⟩
    intro a
    constructor
    · intro live
      exact ⟨live, fun owner => nomatch (mem a).mpr ⟨live, owner⟩⟩
    · intro both
      exact both.1
  | cons head rest =>
    rw [chain] at start linked nodup mem short
    rw [head?_cons] at start
    dsimp only at start
    obtain ⟨notRest, restNodup⟩ := nodup_cons.mp nodup
    have live (a : Nat) (here : a ∈ head :: rest) : ItemLive s.objs a := ((mem a).mp here).1
    have headLive := live head mem_cons_self
    rw [length_cons] at short
    have next : (derefItem s.objs head).nextBySeqNum = nextOf .bySeqNum s.objs head := rfl
    have headRound : srtmCullRounds head (s.fresh + 1) (some head) s =
        srtmCullRounds head s.fresh (nextOf .bySeqNum s.objs head) s := by
      rw [srtmCullRounds, next, if_neg (fun apart => apart rfl)]
    have loop := srtmCullRounds_done (culled_refl revIx) s.fresh linked.2 (by omega) restNodup
      (fun a here => live a (mem_cons_of_mem head here)) (fun _ _ => not_mem_nil) notRest
      ok.low
    rw [headRound] at start
    rw [append_nil] at loop
    generalize srtmCullRounds head s.fresh (nextOf .bySeqNum s.objs head) s = t at loop start
    have present : head ∉ rest.reverse := by
      rw [mem_reverse]
      exact notRest
    have key : (derefItem t.objs head).opaquePtr = opaquePtr := by
      have core := loop.core head present
      have owner := ((mem head).mp mem_cons_self).2
      rw [← owner, opaqueOf, ← core]
      rfl
    have last := culled_next loop headLive present ok.low
    have same (a : Nat) : a ∈ head :: rest.reverse ↔ a ∈ fwd opaquePtr := by
      rw [chain, mem_cons, mem_cons, mem_reverse]
    have fwdAfter := culled_fwdIndex fwdIx last same
    rw [key, srtmRemoveFromRev_itemsFwd] at start
    have result : r.2 = { srtmFreeItem head (srtmRemoveFromRev head t) with
        itemsFwd := lhDelete opaquePtr t.itemsFwd } := by
      rw [start, if_neg Bool.false_ne_true]
      rfl
    have kept : (srtmFreeItem head (srtmRemoveFromRev head t)).itemsFwd = t.itemsFwd :=
      last.itemsFwd.trans loop.itemsFwd.symm
    rw [kept] at fwdAfter
    have liveAfter (a : Nat) :
        ItemLive r.2.objs a ↔ ItemLive s.objs a ∧ opaqueOf s.objs a ≠ opaquePtr := by
      rw [result]
      rw [last.live, same, chain, mem]
      tauto
    have coreAfter (a : Nat) (other : opaqueOf s.objs a ≠ opaquePtr) :
        itemCore r.2.objs a = itemCore s.objs a := by
      rw [result]
      apply last.core
      rw [same, chain, mem]
      exact fun both => other both.2
    constructor
    · rw [start, if_neg Bool.false_ne_true]
    · refine ⟨?_, liveAfter, coreAfter⟩
      apply srtmOk_fewer ok
      · rw [result]
        exact fwdAfter
      · rw [result]
        obtain ⟨rev', revIx'⟩ := last.rev
        exists rev'
        have members : ItemLive (srtmFreeItem head (srtmRemoveFromRev head t)).objs =
            fun a => ItemLive s.objs a ∧ a ∉ head :: rest.reverse :=
          funext (fun a => propext (last.live a))
        rw [members]
        exact revIx'
      · intro a live
        exact ((liveAfter a).mp live).1
      · intro a live
        exact coreAfter a ((liveAfter a).mp live).2
      · rw [result]
        exact last.fresh
      · rw [result]
        exact last.working

def srtmAllocated (obj : SrtmItem) (srtm : QuicSrtm) : QuicSrtm :=
  { srtm with
    fresh := srtm.fresh + 1, objs := Function.update srtm.objs srtm.fresh (some obj) }

theorem allocated_aside (obj : SrtmItem) (srtm : QuicSrtm) :
    SrtmAside srtm.fresh srtm (srtmAllocated obj srtm) :=
  ⟨fun _ apart => Function.update_of_ne apart .., rfl, rfl⟩

theorem allocated_deref (obj : SrtmItem) (srtm : QuicSrtm) :
    derefItem (srtmAllocated obj srtm).objs srtm.fresh = obj := by
  change derefItem (Function.update srtm.objs srtm.fresh (some obj)) srtm.fresh = obj
  rw [derefItem_update, Function.update_self]

theorem allocated_live (obj : SrtmItem) (srtm : QuicSrtm) (a : Nat) :
    ItemLive (srtmAllocated obj srtm).objs a ↔ ItemLive srtm.objs a ∨ a = srtm.fresh := by
  by_cases here : a = srtm.fresh
  · subst here
    constructor
    · intro _
      exact .inr rfl
    · intro _ absent
      have written : (srtmAllocated obj srtm).objs srtm.fresh = some obj := Function.update_self ..
      rw [written] at absent
      cases absent
  · rw [(aside_fields (allocated_aside obj srtm) here).2.2]
    exact ⟨.inl, fun either => either.resolve_right here⟩

theorem quicSrtmAdd_done (ok : SrtmOk blind s) (opaquePtr seqNum : Nat)
    (token : StatelessResetToken) : let r := quicSrtmAdd blind opaquePtr seqNum token s
    (r = (false, s) ∧ ∃ a, ItemLive s.objs a ∧ opaqueOf s.objs a = opaquePtr ∧
        seqNumOf s.objs a = seqNum) ∨
      (r.1 = true ∧ (∀ a, ItemLive s.objs a → opaqueOf s.objs a = opaquePtr →
          seqNumOf s.objs a ≠ seqNum) ∧ SrtmOk blind r.2 ∧
        (∀ a, ItemLive r.2.objs a ↔ ItemLive s.objs a ∨ a = s.fresh) ∧
        (∀ a, ItemLive s.objs a → itemCore r.2.objs a = itemCore s.objs a) ∧
        tripleOf r.2.objs s.fresh = (opaquePtr, seqNum, token)) := by
  intro r
  have start : r = quicSrtmAdd blind opaquePtr seqNum token s := rfl
  obtain ⟨fwd, fwdIx⟩ := ok.fwd
  obtain ⟨rev, revIx⟩ := ok.rev
  have headIs : (srtmFind opaquePtr seqNum s).2.1 = lhRetrieve opaquePtr s.itemsFwd := rfl
  have works : ¬ s.allocFailed = true := by
    rw [ok.working]
    exact Bool.false_ne_true
  rw [quicSrtmAdd, if_neg works] at start
  dsimp only at start
  rw [headIs] at start
  cases srtmFind_found ok fwdIx opaquePtr seqNum with
  | inl found =>
    obtain ⟨xs, item, ys, _, live, owner, seq, result⟩ := found
    left
    constructor
    · rw [start, result, if_pos (by simp)]
    · exact ⟨item, live, owner, seq⟩
  | inr absent =>
    rw [absent.2, if_neg (fun apart => apart rfl)] at start
    generalize same : ({ zeroSrtmItem with
      opaquePtr, seqNum, srt := token, srtBlinded := blind token } : SrtmItem) = obj at start
    change r = (true, srtmAddRev s.fresh (srtmAddFwd (lhRetrieve opaquePtr s.itemsFwd) s.fresh
      (srtmAllocated obj s))) at start
    have new : ¬ ItemLive s.objs s.fresh := fun live => lt_irrefl _ (ok.low _ live)
    have aside := allocated_aside obj s
    have deref := allocated_deref obj s
    have liveThen := allocated_live obj s
    have ends (link : SrtmLink) : nextOf link (srtmAllocated obj s).objs s.fresh = none := by
      rw [nextOf, deref, ← same]
      cases link <;> rfl
    have coreThen (a : Nat) (live : ItemLive s.objs a) :
        itemCore (srtmAllocated obj s).objs a = itemCore s.objs a :=
      (aside_fields aside (fun is => new (is ▸ live))).2.1
    have itemIs : itemCore (srtmAllocated obj s).objs s.fresh =
        (opaquePtr, seqNum, token, blind token) := by
      rw [itemCore, deref, ← same]
    have owner : opaqueOf (srtmAllocated obj s).objs s.fresh = opaquePtr := by
      rw [opaqueOf, itemIs]
    have lowThen (a : Nat) (live : ItemLive s.objs a) : a < (srtmAllocated obj s).fresh :=
      Nat.lt_succ_of_lt (ok.low a live)
    have freshIs : (srtmAllocated obj s).fresh = s.fresh + 1 := rfl
    have workingIs : (srtmAllocated obj s).allocFailed = s.allocFailed := rfl
    have fwdIx' := aside_fwdIndex aside fwdIx new
    have revIx' := aside_revIndex aside revIx new
    have tableIs : (srtmAllocated obj s).itemsFwd = s.itemsFwd := rfl
    rw [← tableIs] at start
    generalize srtmAllocated obj s = t at *
    have membersLive (a : Nat) (live : ItemLive s.objs a) : ItemLive t.objs a :=
      (liveThen a).mpr (.inl live)
    have itemLive : ItemLive t.objs s.fresh := (liveThen s.fresh).mpr (.inr rfl)
    obtain ⟨⟨fwd', fwdNext⟩, first⟩ :=
      srtmAddFwd_done fwdIx' new (ends .bySeqNum) itemLive membersLive lowThen
    rw [owner] at fwdNext first
    generalize srtmAddFwd (lhRetrieve opaquePtr t.itemsFwd) s.fresh t = u at fwdNext first start
    have revEnds : nextOf .bySrtBlinded u.objs s.fresh = none := by
      rw [first.next .bySrtBlinded (by decide)]
      exact ends .bySrtBlinded
    have lowThere (a : Nat) (live : ItemLive s.objs a) : a < u.fresh := by
      rw [first.fresh]
      exact lowThen a live
    obtain ⟨⟨rev', revNext⟩, second⟩ :=
      srtmAddRev_done (relinked_revIndex first revIx') new revEnds ((first.live _).mpr itemLive)
        (fun a live => (first.live a).mpr (membersLive a live)) lowThere
    have fwdLast := relinked_fwdIndex second fwdNext
    generalize srtmAddRev s.fresh u = v at *
    have core : itemCore v.objs = itemCore t.objs := second.core.trans first.core
    have liveAfter (a : Nat) : ItemLive v.objs a ↔ ItemLive s.objs a ∨ a = s.fresh := by
      rw [second.live, first.live, liveThen]
    have coreAfter (a : Nat) (live : ItemLive s.objs a) :
        itemCore v.objs a = itemCore s.objs a := by
      rw [core]
      exact coreThen a live
    have itemAfter : itemCore v.objs s.fresh = (opaquePtr, seqNum, token, blind token) := by
      rw [core]
      exact itemIs
    have members : ItemLive v.objs = fun a => ItemLive s.objs a ∨ a = s.fresh :=
      funext (fun a => propext (liveAfter a))
    right
    rw [start]
    refine ⟨rfl, absent.1, ?_, liveAfter, coreAfter, ?_⟩
    · constructor
      · rw [members]
        exact ⟨fwd', fwdLast⟩
      · rw [members]
        exact ⟨rev', revNext⟩
      · intro a b aLive bLive
        unfold opaqueOf seqNumOf
        cases (liveAfter a).mp aLive with
        | inl aOld =>
          rw [coreAfter a aOld]
          cases (liveAfter b).mp bLive with
          | inl bOld =>
            rw [coreAfter b bOld]
            exact ok.unique a b aOld bOld
          | inr bNew =>
            rw [bNew, itemAfter]
            intro owners seqs
            exact absurd seqs (absent.1 a aOld owners)
        | inr aNew =>
          rw [aNew, itemAfter]
          cases (liveAfter b).mp bLive with
          | inl bOld =>
            rw [coreAfter b bOld]
            intro owners seqs
            exact absurd seqs.symm (absent.1 b bOld owners.symm)
          | inr bNew =>
            rw [bNew]
            exact fun _ _ => rfl
      · intro a live
        unfold blindedOf srtOf
        cases (liveAfter a).mp live with
        | inl old =>
          rw [coreAfter a old]
          exact ok.blinded a old
        | inr isNew => rw [isNew, itemAfter]
      · intro a live
        rw [second.fresh, first.fresh, freshIs]
        cases (liveAfter a).mp live with
        | inl old => exact Nat.lt_succ_of_lt (ok.low a old)
        | inr isNew =>
          rw [isNew]
          exact Nat.lt_succ_self _
      · rw [second.working, first.working, workingIs]
        exact ok.working
    · rw [tripleOf, opaqueOf, seqNumOf, srtOf, itemAfter]

/- The calls, on the manager and on the set of triples. -/

inductive SrtmCall where
  | add (opaquePtr seqNum : Nat) (token : StatelessResetToken)
  | remove (opaquePtr seqNum : Nat)
  | cull (opaquePtr : Nat)
  deriving DecidableEq

def srtmCall (blind : StatelessResetToken → StatelessResetToken) (call : SrtmCall)
    (srtm : QuicSrtm) : Bool × QuicSrtm :=
  match call with
  | .add opaquePtr seqNum token => quicSrtmAdd blind opaquePtr seqNum token srtm
  | .remove opaquePtr seqNum => quicSrtmRemove opaquePtr seqNum srtm
  | .cull opaquePtr => quicSrtmCull opaquePtr srtm

def heldKeys (held : Finset SrtmTriple) : Finset (Nat × Nat) := held.image (fun e => (e.1, e.2.1))

def heldCall (call : SrtmCall) (held : Finset SrtmTriple) : Bool × Finset SrtmTriple :=
  match call with
  | .add opaquePtr seqNum token =>
    if (opaquePtr, seqNum) ∈ heldKeys held then (false, held)
    else (true, insert (opaquePtr, seqNum, token) held)
  | .remove opaquePtr seqNum =>
    if (opaquePtr, seqNum) ∈ heldKeys held then
      (true, held.filter (fun e => (e.1, e.2.1) ≠ (opaquePtr, seqNum)))
    else (false, held)
  | .cull opaquePtr => (true, held.filter (fun e => e.1 ≠ opaquePtr))

structure TracedSrtm where
  srtm : QuicSrtm
  held : Finset SrtmTriple

def startSrtm : TracedSrtm := ⟨quicSrtmNew, ∅⟩

def applySrtm (blind : StatelessResetToken → StatelessResetToken) (s : TracedSrtm)
    (call : SrtmCall) : TracedSrtm :=
  ⟨(srtmCall blind call s.srtm).2, (heldCall call s.held).2⟩

def SrtmHolds (srtm : QuicSrtm) (held : Finset SrtmTriple) : Prop :=
  ∀ e, e ∈ held ↔ ∃ a, ItemLive srtm.objs a ∧ tripleOf srtm.objs a = e

variable {held : Finset SrtmTriple}

theorem holds_key (holds : SrtmHolds srtm held)
    (opaquePtr seqNum : Nat) : (opaquePtr, seqNum) ∈ heldKeys held ↔ ∃ a, ItemLive srtm.objs a ∧
      opaqueOf srtm.objs a = opaquePtr ∧ seqNumOf srtm.objs a = seqNum := by
  rw [heldKeys, Finset.mem_image]
  constructor
  · intro holder
    obtain ⟨e, member, key⟩ := holder
    obtain ⟨a, live, rfl⟩ := (holds e).mp member
    cases key
    exact ⟨a, live, rfl, rfl⟩
  · intro holder
    obtain ⟨a, live, rfl, rfl⟩ := holder
    exact ⟨tripleOf srtm.objs a, (holds _).mpr ⟨a, live, rfl⟩, rfl⟩

theorem holds_filter (holds : SrtmHolds s held) {stays : Nat → Prop}
    [DecidablePred keep] (live : ∀ a, ItemLive t.objs a ↔ ItemLive s.objs a ∧ stays a)
    (core : ∀ a, stays a → itemCore t.objs a = itemCore s.objs a)
    (same : ∀ a, ItemLive s.objs a → (stays a ↔ keep (tripleOf s.objs a))) :
    SrtmHolds t (held.filter keep) := by
  intro e
  rw [Finset.mem_filter, holds e]
  constructor
  · intro both
    obtain ⟨⟨a, aLive, rfl⟩, kept⟩ := both
    have staying := (same a aLive).mpr kept
    exact ⟨a, (live a).mpr ⟨aLive, staying⟩, tripleOf_congr (core a staying)⟩
  · intro somewhere
    obtain ⟨a, aLive, rfl⟩ := somewhere
    obtain ⟨old, staying⟩ := (live a).mp aLive
    have triple := tripleOf_congr (core a staying)
    rw [triple]
    exact ⟨⟨a, old, rfl⟩, (same a old).mp staying⟩

theorem holds_insert (holds : SrtmHolds s held) {item : Nat}
    (live : ∀ a, ItemLive t.objs a ↔ ItemLive s.objs a ∨ a = item)
    (core : ∀ a, ItemLive s.objs a → itemCore t.objs a = itemCore s.objs a) :
    SrtmHolds t (insert (tripleOf t.objs item) held) := by
  intro e
  rw [Finset.mem_insert, holds e]
  constructor
  · intro either
    cases either with
    | inl isNew => exact ⟨item, (live item).mpr (.inr rfl), isNew.symm⟩
    | inr somewhere =>
      obtain ⟨a, aLive, rfl⟩ := somewhere
      exact ⟨a, (live a).mpr (.inl aLive), tripleOf_congr (core a aLive)⟩
  · intro somewhere
    obtain ⟨a, aLive, rfl⟩ := somewhere
    cases (live a).mp aLive with
    | inl old => exact .inr ⟨a, old, (tripleOf_congr (core a old)).symm⟩
    | inr isNew =>
      left
      rw [isNew]

/-- A call on the manager is the call on the set, and does nothing when it fails. -/
theorem srtmCall_agrees {s : TracedSrtm} (ok : SrtmOk blind s.srtm)
    (holds : SrtmHolds s.srtm s.held) (call : SrtmCall) :
    let r := srtmCall blind call s.srtm
    let ideal := heldCall call s.held
    r.1 = ideal.1 ∧ (r.1 = false → r.2 = s.srtm) ∧ SrtmOk blind r.2 ∧ SrtmHolds r.2 ideal.2 := by
  cases call with
  | add opaquePtr seqNum token =>
    have keys := holds_key holds opaquePtr seqNum
    rw [srtmCall, heldCall]
    cases quicSrtmAdd_done ok opaquePtr seqNum token with
    | inl failed =>
      rw [failed.1, if_pos (keys.mpr failed.2)]
      exact ⟨rfl, fun _ => rfl, ok, holds⟩
    | inr done =>
      obtain ⟨result, absent, okAfter, live, core, triple⟩ := done
      have missing : (opaquePtr, seqNum) ∉ heldKeys s.held := by
        intro here
        obtain ⟨a, aLive, owner, seq⟩ := keys.mp here
        exact absent a aLive owner seq
      rw [if_neg missing]
      refine ⟨result, ?_, okAfter, ?_⟩
      · intro failed
        rw [failed] at result
        cases result
      · have inserted := holds_insert holds live core
        rw [triple] at inserted
        exact inserted
  | remove opaquePtr seqNum =>
    have keys := holds_key holds opaquePtr seqNum
    rw [srtmCall, heldCall]
    cases quicSrtmRemove_done ok opaquePtr seqNum with
    | inl failed =>
      have missing : (opaquePtr, seqNum) ∉ heldKeys s.held := by
        intro here
        obtain ⟨a, aLive, owner, seq⟩ := keys.mp here
        exact failed.2 a aLive owner seq
      rw [failed.1, if_neg missing]
      exact ⟨rfl, fun _ => rfl, ok, holds⟩
    | inr done =>
      obtain ⟨result, item, itemLive, owner, seq, okAfter, live, core⟩ := done
      rw [if_pos (keys.mpr ⟨item, itemLive, owner, seq⟩)]
      refine ⟨result, ?_, okAfter, ?_⟩
      · intro failed
        rw [failed] at result
        cases result
      · apply holds_filter holds live core
        intro a aLive
        constructor
        · intro apart same
          apply apart
          apply ok.unique a item aLive itemLive
          · exact (congrArg Prod.fst same).trans owner.symm
          · exact (congrArg Prod.snd same).trans seq.symm
        · intro apart same
          apply apart
          rw [same, tripleOf, owner, seq]
  | cull opaquePtr =>
    obtain ⟨result, okAfter, live, core⟩ := quicSrtmCull_done ok opaquePtr
    rw [srtmCall, heldCall]
    refine ⟨result, ?_, okAfter, ?_⟩
    · intro failed
      rw [failed] at result
      cases result
    · apply holds_filter holds live core
      intro a _
      exact Iff.rfl

structure TracedSrtmOk (blind : StatelessResetToken → StatelessResetToken) (s : TracedSrtm) :
    Prop where
  manager : SrtmOk blind s.srtm
  holds : SrtmHolds s.srtm s.held

theorem startSrtm_ok : TracedSrtmOk blind startSrtm := by
  constructor
  · exact quicSrtmNew_ok
  · intro e
    constructor
    · intro member
      cases member
    · intro somewhere
      obtain ⟨a, live, _⟩ := somewhere
      exact absurd rfl live

theorem run_srtm_ok (calls : List SrtmCall) :
    TracedSrtmOk blind (run (applySrtm blind) startSrtm calls) := by
  have always : ∀ call ∈ calls, True := fun _ _ => trivial
  apply run_invariant _ startSrtm_ok (admissible_of_forall always)
  · intro s call ok _
    obtain ⟨_, _, manager, holds⟩ := srtmCall_agrees ok.manager ok.holds call
    exact ⟨manager, holds⟩

/- Going through a whole table, and along one list of the reverse one. -/

theorem retrieve_covers {Key : Type} [DecidableEq Key] (table : Lhash Key Nat) (k : Key)
    (present : lhRetrieve k table ≠ none) : k ∈ table.keys := by
  apply AList.mem_keys.mp
  apply AList.lookup_isSome.mp
  exact Option.isSome_iff_ne_none.mpr present

theorem tripleOf_inj (ok : SrtmOk blind srtm) {b : Nat} (aLive : ItemLive srtm.objs a)
    (bLive : ItemLive srtm.objs b) (same : tripleOf srtm.objs a = tripleOf srtm.objs b) :
    a = b := by
  apply ok.unique a b aLive bLive
  · exact congrArg (fun e : SrtmTriple => e.1) same
  · exact congrArg (fun e : SrtmTriple => e.2.1) same

/-- A list without repetition of the items that a filter picks maps to the filtered set. -/
theorem triples_of_items (ok : SrtmOk blind srtm)
    (holds : SrtmHolds srtm held) [DecidablePred keep] {items : List Nat} (nodup : items.Nodup)
    (mem : ∀ a, a ∈ items ↔ ItemLive srtm.objs a ∧ keep (tripleOf srtm.objs a)) :
    (items.map (tripleOf srtm.objs) : Multiset SrtmTriple) = (held.filter keep).val := by
  have distinct : (items.map (tripleOf srtm.objs)).Nodup := by
    apply List.Nodup.map_on _ nodup
    intro a aHere b bHere same
    exact tripleOf_inj ok ((mem a).mp aHere).1 ((mem b).mp bHere).1 same
  apply (Multiset.Nodup.ext (Multiset.coe_nodup.mpr distinct) (held.filter keep).nodup).mpr
  intro e
  rw [Multiset.mem_coe, mem_map, Finset.mem_val, Finset.mem_filter, holds e]
  constructor
  · intro somewhere
    obtain ⟨a, here, rfl⟩ := somewhere
    obtain ⟨live, kept⟩ := (mem a).mp here
    exact ⟨⟨a, live, rfl⟩, kept⟩
  · intro both
    obtain ⟨⟨a, live, rfl⟩, kept⟩ := both
    exact ⟨a, (mem a).mpr ⟨live, kept⟩, rfl⟩

theorem srtmNth_linked (idx : Nat) {head : Option Nat} {nodes : List Nat}
    (linked : Linked (nextOf .bySrtBlinded objs) head nodes) :
    srtmNth objs idx head = nodes[idx]? := by
  induction idx generalizing head nodes with
  | zero =>
    rw [linked_head linked, head?_eq_getElem?]
    rfl
  | succ idx ih =>
    cases nodes with
    | nil =>
      obtain rfl := linked
      rfl
    | cons a rest =>
      obtain ⟨rfl, later⟩ := linked
      rw [getElem?_cons_succ]
      exact ih later

/-- The idx-th answer about a token is the idx-th of its triples by descending opaque. -/
theorem quicSrtmLookup_hits (injective : Function.Injective blind)
    (ok : SrtmOk blind srtm) (holds : SrtmHolds srtm held) (token : StatelessResetToken) :
    ∃ hits : List (Nat × Nat),
      (hits.map (fun e => (e.1, e.2, token)) : Multiset SrtmTriple) =
          (held.filter (fun e => e.2.2 = token)).val ∧
        hits.Pairwise (fun e f => f.1 ≤ e.1) ∧
        ∀ idx, quicSrtmLookup blind token idx srtm = hits[idx]? := by
  obtain ⟨rev, ix⟩ := ok.rev
  have mem (a : Nat) : a ∈ rev (blind token) ↔
      ItemLive srtm.objs a ∧ (tripleOf srtm.objs a).2.2 = token := by
    rw [ix.mem]
    constructor
    · intro both
      have key := ok.blinded a both.1
      rw [both.2] at key
      exact ⟨both.1, injective key.symm⟩
    · intro both
      rw [ok.blinded a both.1]
      exact ⟨both.1, congrArg blind both.2⟩
  exists (rev (blind token)).map (fun a => (opaqueOf srtm.objs a, seqNumOf srtm.objs a))
  constructor
  · rw [← triples_of_items ok holds (ix.nodup _) mem, map_map]
    apply congrArg
    apply map_congr_left
    intro a here
    rw [Function.comp_apply, tripleOf, ← ((mem a).mp here).2]
    rfl
  · constructor
    · rw [pairwise_map]
      exact ix.sorted (blind token)
    · intro idx
      have linked := ix.linked (blind token)
      rw [quicSrtmLookup, ok.working, if_neg Bool.false_ne_true, srtmNth_linked idx linked,
        getElem?_map]
      cases (rev (blind token))[idx]? with
      | none => rfl
      | some a => rfl

/-- Both tables lead to the same items, the triples of the reference set; every call answers as the
    reference does and changes nothing when it fails; the lookups of a token list its triples. -/
theorem srtm_two_indexes (blind : StatelessResetToken → StatelessResetToken)
    (injective : Function.Injective blind) (calls : List SrtmCall) :
    let s := run (applySrtm blind) startSrtm calls
    (∃ fwd rev,
      (∀ o, Linked (nextOf .bySeqNum s.srtm.objs) (lhRetrieve o s.srtm.itemsFwd) (fwd o)) ∧
      (∀ b, Linked (nextOf .bySrtBlinded s.srtm.objs) (lhRetrieve b s.srtm.itemsRev) (rev b)) ∧
      (s.srtm.itemsFwd.keys.flatMap fwd).Perm (s.srtm.itemsRev.keys.flatMap rev) ∧
      ((s.srtm.itemsFwd.keys.flatMap fwd).map (tripleOf s.srtm.objs) : Multiset SrtmTriple) =
        s.held.val) ∧
      (∀ call, (srtmCall blind call s.srtm).1 = (heldCall call s.held).1 ∧
        ((srtmCall blind call s.srtm).1 = false → (srtmCall blind call s.srtm).2 = s.srtm)) ∧
      ∀ token, ∃ hits : List (Nat × Nat),
        (hits.map (fun e => (e.1, e.2, token)) : Multiset SrtmTriple) =
            (s.held.filter (fun e => e.2.2 = token)).val ∧
          hits.Pairwise (fun e f => f.1 ≤ e.1) ∧
          ∀ idx, quicSrtmLookup blind token idx s.srtm = hits[idx]? := by
  intro s
  have ok : TracedSrtmOk blind s := run_srtm_ok calls
  constructor
  · obtain ⟨fwd, fwdIx⟩ := ok.manager.fwd
    obtain ⟨rev, revIx⟩ := ok.manager.rev
    have fwdAll := indexed_all fwdIx s.srtm.itemsFwd.nodupKeys (retrieve_covers s.srtm.itemsFwd)
    have revAll := indexed_all revIx s.srtm.itemsRev.nodupKeys (retrieve_covers s.srtm.itemsRev)
    refine ⟨fwd, rev, fwdIx.linked, revIx.linked, ?_, ?_⟩
    · apply (perm_ext_iff_of_nodup fwdAll.1 revAll.1).mpr
      intro a
      rw [fwdAll.2, revAll.2]
    · let keep : SrtmTriple → Prop := fun _ => True
      have mem (a : Nat) : a ∈ s.srtm.itemsFwd.keys.flatMap fwd ↔
          ItemLive s.srtm.objs a ∧ keep (tripleOf s.srtm.objs a) :=
        (fwdAll.2 a).trans (and_true _).symm.to_iff
      have all := triples_of_items ok.manager ok.holds fwdAll.1 mem
      rw [Finset.filter_true] at all
      exact all
  · constructor
    · intro call
      obtain ⟨result, unchanged, _⟩ := srtmCall_agrees ok.manager ok.holds call
      exact ⟨result, unchanged⟩
    · exact quicSrtmLookup_hits injective ok.manager ok.holds

/- A permutation of the blocks; two owners of one token, a duplicate, a removal of a head. -/
def maskToken (token : StatelessResetToken) : StatelessResetToken := token.map (fun b => b ^^^ 0x5a)

theorem maskToken_injective : Function.Injective maskToken := by
  apply Function.Involutive.injective
  intro token
  rw [maskToken, maskToken, Vector.map_map]
  have twice : (fun b : UInt8 => b ^^^ 0x5a) ∘ (fun b => b ^^^ 0x5a) = id := by
    funext b
    rw [Function.comp_apply, UInt8.xor_assoc, UInt8.xor_self, UInt8.xor_zero]
    rfl
  rw [twice, Vector.map_id]

def sampleSrtmCalls : List SrtmCall :=
  [.add 1 0 zeroToken, .add 2 5 zeroToken, .add 1 0 zeroToken, .remove 2 5, .add 1 7 zeroToken]

theorem srtm_two_indexes_masked :
    let s := run (applySrtm maskToken) startSrtm sampleSrtmCalls
    ∀ call, (srtmCall maskToken call s.srtm).1 = (heldCall call s.held).1 ∧
      ((srtmCall maskToken call s.srtm).1 = false → (srtmCall maskToken call s.srtm).2 = s.srtm) :=
  (srtm_two_indexes maskToken maskToken_injective sampleSrtmCalls).2.1

end Ossl
