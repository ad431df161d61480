import Mathlib.Data.List.TakeWhile
import OpenSSL.Lib.Chains
import OpenSSL.Quic.Srtm

/- The two hash tables of the stateless reset token manager as two indexes of the same
   items, and what linking an item in or out does to each. -/
namespace Ossl
open Option List Function Chains

def itemCore (objs : Nat → Option SrtmItem) (a : Nat) :
    Nat × Nat × StatelessResetToken × StatelessResetToken :=
  let item := derefItem objs a
  (item.opaquePtr, item.seqNum, item.srt, item.srtBlinded)

def opaqueOf (objs : Nat → Option SrtmItem) (a : Nat) : Nat := (itemCore objs a).1
def seqNumOf (objs : Nat → Option SrtmItem) (a : Nat) : Nat := (itemCore objs a).2.1
def srtOf (objs : Nat → Option SrtmItem) (a : Nat) : StatelessResetToken := (itemCore objs a).2.2.1
def blindedOf (objs : Nat → Option SrtmItem) (a : Nat) : StatelessResetToken :=
  (itemCore objs a).2.2.2

def rankOf (link : SrtmLink) (objs : Nat → Option SrtmItem) (a : Nat) : Nat :=
  match link with
  | .bySrtBlinded => opaqueOf objs a
  | .bySeqNum => seqNumOf objs a

def nextOf (link : SrtmLink) (objs : Nat → Option SrtmItem) (a : Nat) : Option Nat :=
  (derefItem objs a).next link

def ItemLive (objs : Nat → Option SrtmItem) (a : Nat) : Prop := objs a ≠ none

theorem rank_eq (link : SrtmLink) (objs : Nat → Option SrtmItem) (a : Nat) :
    (derefItem objs a).rank link = rankOf link objs a := by
  cases link <;> rfl

theorem derefItem_update (objs : Nat → Option SrtmItem) (a : Nat) (item : SrtmItem) :
    derefItem (update objs a (some item)) = update (derefItem objs) a item := by
  funext b
  by_cases here : b = a
  · subst here
    rw [derefItem, update_self, update_self]
    rfl
  · rw [derefItem, update_of_ne here, update_of_ne here, derefItem]

theorem setNext_fields (link : SrtmLink) (a : Nat) (next : Option Nat) (srtm : QuicSrtm) :
    let objs' := (srtmSetNext link a next srtm).objs
    nextOf link objs' = update (nextOf link srtm.objs) a next ∧
      (∀ other, other ≠ link → nextOf other objs' = nextOf other srtm.objs) ∧
      itemCore objs' = itemCore srtm.objs := by
  intro objs'
  have deref : derefItem objs' = update (derefItem srtm.objs) a
      ((derefItem srtm.objs a).setNext link next) := derefItem_update ..
  have at' (b : Nat) : derefItem objs' b =
      if b = a then (derefItem srtm.objs a).setNext link next else derefItem srtm.objs b := by
    rw [deref, update_apply]
  constructor
  · funext b
    rw [nextOf, at', update_apply]
    split
    · cases link <;> rfl
    · rfl
  · constructor
    · intro other apart
      funext b
      rw [nextOf, at']
      split
      · rename_i here
        subst here
        cases link with
        | bySrtBlinded =>
          cases other with
          | bySrtBlinded => exact absurd rfl apart
          | bySeqNum => rfl
        | bySeqNum =>
          cases other with
          | bySrtBlinded => rfl
          | bySeqNum => exact absurd rfl apart
      · rfl
    · funext b
      rw [itemCore, at']
      split
      · rename_i here
        subst here
        cases link <;> rfl
      · rfl

variable {a bound head item : Nat} {s srtm t : QuicSrtm} {gone nodes : List Nat}
    {objs : Nat → Option SrtmItem} {member : Nat → Prop} {fwd : Nat → List Nat}
    {rev : StatelessResetToken → List Nat}

variable {link : SrtmLink}

theorem setNext_live {next : Option Nat} (live : ItemLive srtm.objs a) (b : Nat) :
    ItemLive (srtmSetNext link a next srtm).objs b ↔ ItemLive srtm.objs b := by
  unfold ItemLive srtmSetNext
  dsimp only
  by_cases here : b = a
  · subst here
    rw [update_self]
    exact ⟨fun _ => live, fun _ absent => by cases absent⟩
  · rw [update_of_ne here]

/- The two indexes. -/

def FwdIndex (srtm : QuicSrtm) (member : Nat → Prop) (fwd : Nat → List Nat) : Prop :=
  Indexed (nextOf .bySeqNum srtm.objs) (fun o => lhRetrieve o srtm.itemsFwd)
    (opaqueOf srtm.objs) (rankOf .bySeqNum srtm.objs) member fwd

def RevIndex (srtm : QuicSrtm) (member : Nat → Prop)
    (rev : StatelessResetToken → List Nat) : Prop :=
  Indexed (nextOf .bySrtBlinded srtm.objs) (fun b => lhRetrieve b srtm.itemsRev)
    (blindedOf srtm.objs) (rankOf .bySrtBlinded srtm.objs) member rev

/-- What a change of one link and its table leaves alone. -/
structure SrtmRelinked (link : SrtmLink) (srtm srtm' : QuicSrtm) : Prop where
  next : ∀ other, other ≠ link → nextOf other srtm'.objs = nextOf other srtm.objs
  core : itemCore srtm'.objs = itemCore srtm.objs
  live : ∀ a, ItemLive srtm'.objs a ↔ ItemLive srtm.objs a
  fresh : srtm'.fresh = srtm.fresh
  working : srtm'.allocFailed = srtm.allocFailed
  fwd : link = .bySrtBlinded → srtm'.itemsFwd = srtm.itemsFwd
  rev : link = .bySeqNum → srtm'.itemsRev = srtm.itemsRev

theorem chain_short (nodup : nodes.Nodup) (low : ∀ a ∈ nodes, a < bound) :
    nodes.length ≤ bound := by
  have within := nodup.length_le_of_subset
    (fun a member => mem_range.mpr (low a member) : nodes ⊆ range bound)
  rw [length_range] at within
  exact within

/- Searching. -/

theorem last_or_cons {α : Type} (a : α) (rest : List α) (other : Option α) :
    ((a :: rest).getLast?).or other = rest.getLast?.or (some a) := by
  rw [getLast?_cons]
  cases rest.getLast? with
  | none => rfl
  | some b => rfl

variable {cur : Option Nat} {xs ys : List Nat}

theorem sortedInsertRounds_found {rank : Nat} (fuel : Nat) (fixup : Option Nat)
    (linked : Linked (nextOf link objs) cur nodes) (enough : nodes.length < fuel) :
    sortedInsertRounds link objs rank fuel fixup cur =
      ((nodes.takeWhile (fun a => rank < rankOf link objs a)).getLast?).or fixup := by
  induction nodes generalizing fuel fixup cur with
  | nil =>
    cases fuel with
    | zero => cases enough
    | succ fuel =>
      obtain rfl := linked
      rfl
  | cons a rest ih =>
    cases fuel with
    | zero => cases enough
    | succ fuel =>
      obtain ⟨rfl, later⟩ := linked
      rw [length_cons] at enough
      rw [sortedInsertRounds, rank_eq, takeWhile_cons]
      by_cases high : rank < rankOf link objs a
      · have rounds := ih fuel (some a) later (by omega)
        rw [if_pos high, decide_eq_true high, if_pos rfl, last_or_cons]
        exact rounds
      · rw [if_neg high, decide_eq_false high]
        rfl

theorem srtmFindRounds_found {seqNum : Nat} (fuel : Nat) (prev : Option Nat)
    (linked : Linked (nextOf .bySeqNum objs) cur nodes) (enough : nodes.length < fuel)
    (sorted : nodes.Pairwise (fun a b => seqNumOf objs b ≤ seqNumOf objs a)) :
    let found := srtmFindRounds objs seqNum fuel prev cur
    (∃ xs a ys, nodes = xs ++ a :: ys ∧ seqNumOf objs a = seqNum ∧
      found = (some a, xs.getLast?.or prev)) ∨
      ((∀ a ∈ nodes, seqNumOf objs a ≠ seqNum) ∧ found.1 = none) := by
  induction nodes generalizing fuel prev cur with
  | nil =>
    cases fuel with
    | zero => cases enough
    | succ fuel =>
      obtain rfl := linked
      right
      constructor
      · intro a member
        cases member
      · rfl
  | cons a rest ih =>
    cases fuel with
    | zero => cases enough
    | succ fuel =>
      obtain ⟨rfl, later⟩ := linked
      obtain ⟨below, restSorted⟩ := pairwise_cons.mp sorted
      rw [length_cons] at enough
      have seq : (derefItem objs a).seqNum = seqNumOf objs a := rfl
      rw [srtmFindRounds, seq]
      by_cases here : seqNumOf objs a = seqNum
      · rw [if_pos here]
        left
        exact ⟨[], a, rest, rfl, here, rfl⟩
      · rw [if_neg here]
        by_cases past : seqNumOf objs a < seqNum
        · rw [if_pos past]
          right
          constructor
          · intro b member
            cases mem_cons.mp member with
            | inl same =>
              rw [same]
              exact here
            | inr inside =>
              have order := below b inside
              omega
          · rfl
        · have rounds := ih fuel (some a) later (by omega) restSorted
          rw [if_neg past]
          have next : (derefItem objs a).nextBySeqNum = nextOf .bySeqNum objs a := rfl
          rw [next]
          cases rounds with
          | inl found =>
            obtain ⟨xs, b, ys, split, equal, result⟩ := found
            left
            refine ⟨a :: xs, b, ys, ?_, equal, ?_⟩
            · rw [split]
              rfl
            · rw [last_or_cons]
              exact result
          | inr absent =>
            right
            constructor
            · intro b member
              cases mem_cons.mp member with
              | inl same =>
                rw [same]
                exact here
              | inr inside => exact absent.1 b inside
            · exact absent.2

theorem srtmBeforeRounds_found (fuel : Nat) {cur : Nat}
    (linked : Linked (nextOf .bySrtBlinded objs) (some cur) (xs ++ item :: ys))
    (nodup : (xs ++ item :: ys).Nodup) (later : xs ≠ []) (enough : xs.length < fuel) :
    xs.getLast? = some (srtmBeforeRounds objs item fuel cur) := by
  induction xs generalizing fuel cur with
  | nil => exact absurd rfl later
  | cons a rest ih =>
    cases fuel with
    | zero => cases enough
    | succ fuel =>
      obtain ⟨same, following⟩ := linked
      obtain rfl := some.inj same
      rw [length_cons] at enough
      have next : (derefItem objs cur).nextBySrtBlinded = nextOf .bySrtBlinded objs cur := rfl
      rw [srtmBeforeRounds, next]
      cases rest with
      | nil =>
        have found := following.1
        rw [found, if_neg (fun apart => apart rfl)]
        rfl
      | cons b others =>
        have found : nextOf .bySrtBlinded objs cur = some b := following.1
        have restNodup := (nodup_cons.mp nodup).2
        have apart : b ≠ item := by
          intro equal
          apply (nodup_cons.mp restNodup).1
          rw [equal]
          exact mem_append_right _ mem_cons_self
        have rounds := ih fuel (found ▸ following) restNodup (cons_ne_nil b others) (by omega)
        rw [found, if_pos (fun equal => apart (some.inj equal)), getLast?_cons_cons]
        exact rounds

/- Linking in. -/

theorem setNext_relinked {next : Option Nat} (live : ItemLive srtm.objs a) :
    SrtmRelinked link srtm (srtmSetNext link a next srtm) := by
  obtain ⟨_, others, core⟩ := setNext_fields link a next srtm
  exact ⟨others, core, setNext_live live, rfl, rfl, fun _ => rfl, fun _ => rfl⟩

theorem relinked_trans {u : QuicSrtm} (first : SrtmRelinked link s t)
    (second : SrtmRelinked link t u) : SrtmRelinked link s u where
  next := fun other apart => (second.next other apart).trans (first.next other apart)
  core := second.core.trans first.core
  live := fun a => (second.live a).trans (first.live a)
  fresh := second.fresh.trans first.fresh
  working := second.working.trans first.working
  fwd := fun is => (second.fwd is).trans (first.fwd is)
  rev := fun is => (second.rev is).trans (first.rev is)

theorem relinked_rank (same : SrtmRelinked link s t) (which : SrtmLink) :
    rankOf which t.objs = rankOf which s.objs := by
  funext a
  cases which with
  | bySrtBlinded =>
    change (itemCore t.objs a).1 = (itemCore s.objs a).1
    rw [same.core]
  | bySeqNum =>
    change (itemCore t.objs a).2.1 = (itemCore s.objs a).2.1
    rw [same.core]

theorem relinked_keys (same : SrtmRelinked link s t) :
    opaqueOf t.objs = opaqueOf s.objs ∧ blindedOf t.objs = blindedOf s.objs := by
  constructor
  · funext a
    rw [opaqueOf, opaqueOf, same.core]
  · funext a
    rw [blindedOf, blindedOf, same.core]

theorem takeWhile_above {rank : Nat → Nat} {b : Nat}
    (member : b ∈ nodes.takeWhile (fun a => bound < rank a)) : bound < rank b := by
  have high := mem_takeWhile_imp member
  simpa using high

theorem dropWhile_below {rank : Nat → Nat} (sorted : nodes.Pairwise (fun a b => rank b ≤ rank a)) :
    ∀ b ∈ nodes.dropWhile (fun a => bound < rank a), rank b ≤ bound := by
  induction nodes with
  | nil =>
    intro b member
    cases member
  | cons a rest ih =>
    obtain ⟨below, restSorted⟩ := pairwise_cons.mp sorted
    rw [dropWhile_cons]
    split
    · exact ih restSorted
    · rename_i low
      have top : rank a ≤ bound := by simpa using low
      intro b member
      cases mem_cons.mp member with
      | inl same =>
        rw [same]
        exact top
      | inr later => exact le_trans (below b later) top

theorem sortedInsert_linkIn
    (linked : Linked (nextOf link srtm.objs) (some head) nodes) (live : ItemLive srtm.objs item)
    (members : ∀ a ∈ nodes, ItemLive srtm.objs a) (short : nodes.length ≤ srtm.fresh) :
    let xs := nodes.takeWhile (fun a => rankOf link srtm.objs item < rankOf link srtm.objs a)
    let r := sortedInsert link head item srtm
    (nextOf link r.2.objs, some r.1) =
        linkIn (nextOf link srtm.objs) (some head) item xs.getLast? ∧
      SrtmRelinked link srtm r.2 ∧ r.2.itemsFwd = srtm.itemsFwd ∧
      r.2.itemsRev = srtm.itemsRev := by
  intro xs r
  have rounds : sortedInsertRounds link srtm.objs ((derefItem srtm.objs item).rank link)
      (srtm.fresh + 1) none (some head) = xs.getLast? := by
    rw [sortedInsertRounds_found (srtm.fresh + 1) none linked (by omega), rank_eq, or_none]
  cases last : xs.getLast? with
  | none =>
    have result : r = (item, srtmSetNext link item (some head) srtm) := by
      change sortedInsert link head item srtm = _
      rw [sortedInsert, rounds, last]
    rw [result]
    constructor
    · rw [linkIn, (setNext_fields link item (some head) srtm).1]
    · exact ⟨setNext_relinked live, rfl, rfl⟩
  | some p =>
    have inside : p ∈ nodes := takeWhile_prefix _ |>.subset (mem_of_getLast? last)
    have first : SrtmRelinked link srtm
        (srtmSetNext link item ((derefItem srtm.objs p).next link) srtm) := setNext_relinked live
    have holder := (first.live p).mpr (members p inside)
    have result : r = (head, srtmSetNext link p (some item)
        (srtmSetNext link item ((derefItem srtm.objs p).next link) srtm)) := by
      change sortedInsert link head item srtm = _
      rw [sortedInsert, rounds, last]
    rw [result]
    constructor
    · rw [linkIn, (setNext_fields link p (some item) _).1, (setNext_fields link item _ srtm).1]
      rfl
    · exact ⟨relinked_trans first (setNext_relinked holder), rfl, rfl⟩

section
variable {Key : Type} [DecidableEq Key] {link : SrtmLink} {srtm : QuicSrtm} {item : Nat}
  {heads : Key → Option Nat} {keyOf : Nat → Key} {member : Nat → Prop}
  {lists : Key → List Nat}

theorem first_indexed
    (ix : Indexed (nextOf link srtm.objs) heads keyOf (rankOf link srtm.objs) member lists)
    (new : ¬ member item) (ends : nextOf link srtm.objs item = none)
    (empty : heads (keyOf item) = none) :
    ∃ lists', Indexed (nextOf link srtm.objs) (update heads (keyOf item) (some item))
      keyOf (rankOf link srtm.objs) (fun b => member b ∨ b = item) lists' := by
  have nodes : lists (keyOf item) = [] := by
    have first := linked_head (ix.linked (keyOf item))
    rw [empty] at first
    exact head?_eq_none_iff.mp first.symm
  have nothing (b : Nat) (here : b ∈ ([] : List Nat)) (P : Prop) : P := by cases here
  have inserted := indexed_insert ix new (nodes : lists (keyOf item) = [] ++ [])
    (fun b here => nothing b here _) (fun b here => nothing b here _)
  have same : update (nextOf link srtm.objs) item none = nextOf link srtm.objs := by
    rw [← ends]
    exact update_eq_self ..
  rw [getLast?_nil, linkIn, empty, same] at inserted
  exact ⟨_, inserted⟩

/-- A fresh item goes where its rank says in its key's list. -/
theorem sorted_indexed
    (ix : Indexed (nextOf link srtm.objs) heads keyOf (rankOf link srtm.objs) member lists)
    (new : ¬ member item) (live : ItemLive srtm.objs item)
    (members : ∀ a, member a → ItemLive srtm.objs a)
    (low : ∀ a, member a → a < srtm.fresh) {head : Nat} (first : heads (keyOf item) = some head) :
    let r := sortedInsert link head item srtm
    (∃ lists', Indexed (nextOf link r.2.objs) (update heads (keyOf item) (some r.1))
      keyOf (rankOf link srtm.objs) (fun b => member b ∨ b = item) lists') ∧
      SrtmRelinked link srtm r.2 ∧ r.2.itemsFwd = srtm.itemsFwd ∧
      r.2.itemsRev = srtm.itemsRev := by
  intro r
  have inside (a : Nat) (here : a ∈ lists (keyOf item)) : member a :=
    ((ix.mem (keyOf item) a).mp here).1
  have linked := ix.linked (keyOf item)
  rw [first] at linked
  obtain ⟨linkedIn, relinked, fwd, rev⟩ := sortedInsert_linkIn linked live
    (fun a here => members a (inside a here))
    (chain_short (ix.nodup _) (fun a here => low a (inside a here)))
  constructor
  · have inserted := indexed_insert ix new (takeWhile_append_dropWhile).symm
      (fun b here => le_of_lt (takeWhile_above here))
      (dropWhile_below (ix.sorted (keyOf item)))
    rw [first] at inserted
    have next := congrArg Prod.fst linkedIn
    have newHead := congrArg Prod.snd linkedIn
    dsimp only at inserted next newHead
    rw [← next, ← newHead] at inserted
    exact ⟨_, inserted⟩
  · exact ⟨relinked, fwd, rev⟩

end

theorem sortedInsert_head (link : SrtmLink) (head item : Nat) (srtm : QuicSrtm) :
    let r := sortedInsert link head item srtm
    r.1 = item ∨ r.1 = head := by
  unfold sortedInsert
  split
  · exact .inl rfl
  · exact .inr rfl

theorem newHead_retrieve {Key : Type} [DecidableEq Key] {table : Lhash Key Nat} {k key : Key}
    {newHead : Nat} (first : lhRetrieve k table = some head) (same : newHead ≠ head → key = k) :
    (fun l => lhRetrieve l (if newHead ≠ head then lhInsert key newHead table else table)) =
      update (fun l => lhRetrieve l table) k (some newHead) := by
  by_cases changed : newHead ≠ head
  · rw [if_pos changed, same changed]
    exact lhInsert_retrieve k newHead table
  · have kept : newHead = head := by simpa using changed
    rw [if_neg changed, kept, ← first]
    exact (update_eq_self ..).symm

theorem srtmAddFwd_done (ix : FwdIndex srtm member fwd) (new : ¬ member item)
    (ends : nextOf .bySeqNum srtm.objs item = none) (live : ItemLive srtm.objs item)
    (members : ∀ a, member a → ItemLive srtm.objs a) (low : ∀ a, member a → a < srtm.fresh) :
    let srtm' := srtmAddFwd (lhRetrieve (opaqueOf srtm.objs item) srtm.itemsFwd) item srtm
    (∃ fwd', FwdIndex srtm' (fun b => member b ∨ b = item) fwd') ∧
      SrtmRelinked .bySeqNum srtm srtm' := by
  cases first : lhRetrieve (opaqueOf srtm.objs item) srtm.itemsFwd with
  | none =>
    obtain ⟨fwd', inserted⟩ := first_indexed ix new ends first
    constructor
    · exists fwd'
      unfold FwdIndex srtmAddFwd
      rw [lhInsert_retrieve]
      exact inserted
    · exact ⟨fun _ _ => rfl, rfl, fun _ => Iff.rfl, rfl, rfl, (fun is => nomatch is), fun _ => rfl⟩
  | some head =>
    obtain ⟨⟨fwd', inserted⟩, relinked, sameFwd, sameRev⟩ :=
      sorted_indexed ix new live members low first
    have rank := relinked_rank relinked .bySeqNum
    have keys := (relinked_keys relinked).1
    have either := sortedInsert_head .bySeqNum head item srtm
    rw [srtmAddFwd, sortedInsertSeqNum]
    generalize sortedInsert .bySeqNum head item srtm = r at *
    have key : r.1 ≠ head → (derefItem r.2.objs r.1).opaquePtr = opaqueOf srtm.objs item := by
      intro changed
      cases either with
      | inl which =>
        rw [which]
        exact congrFun keys item
      | inr which => exact absurd which changed
    have result : (if r.1 ≠ head then
        { r.2 with
          itemsFwd := lhInsert (derefItem r.2.objs r.1).opaquePtr r.1 r.2.itemsFwd } else r.2) =
        { r.2 with
          itemsFwd := if r.1 ≠ head then
            lhInsert (derefItem r.2.objs r.1).opaquePtr r.1 r.2.itemsFwd else r.2.itemsFwd } := by
      split
      · rfl
      · rfl
    rw [result]
    constructor
    · exists fwd'
      unfold FwdIndex
      rw [sameFwd, newHead_retrieve first key, keys, rank]
      exact inserted
    · exact { relinked with fwd := (fun is => nomatch is) }

theorem srtmAddRev_done (ix : RevIndex srtm member rev) (new : ¬ member item)
    (ends : nextOf .bySrtBlinded srtm.objs item = none) (live : ItemLive srtm.objs item)
    (members : ∀ a, member a → ItemLive srtm.objs a) (low : ∀ a, member a → a < srtm.fresh) :
    let srtm' := srtmAddRev item srtm
    (∃ rev', RevIndex srtm' (fun b => member b ∨ b = item) rev') ∧
      SrtmRelinked .bySrtBlinded srtm srtm' := by
  have itemKey : (derefItem srtm.objs item).srtBlinded = blindedOf srtm.objs item := rfl
  rw [srtmAddRev, itemKey]
  cases first : lhRetrieve (blindedOf srtm.objs item) srtm.itemsRev with
  | none =>
    obtain ⟨rev', inserted⟩ := first_indexed ix new ends first
    constructor
    · exists rev'
      unfold RevIndex
      rw [lhInsert_retrieve]
      exact inserted
    · exact ⟨fun _ _ => rfl, rfl, fun _ => Iff.rfl, rfl, rfl, fun _ => rfl, (fun is => nomatch is)⟩
  | some head =>
    obtain ⟨⟨rev', inserted⟩, relinked, sameFwd, sameRev⟩ :=
      sorted_indexed ix new live members low first
    have rank := relinked_rank relinked .bySrtBlinded
    have keys := (relinked_keys relinked).2
    have either := sortedInsert_head .bySrtBlinded head item srtm
    dsimp only [sortedInsertSrt]
    generalize sortedInsert .bySrtBlinded head item srtm = r at *
    have key : r.1 ≠ head → (derefItem r.2.objs r.1).srtBlinded = blindedOf srtm.objs item := by
      intro changed
      cases either with
      | inl which =>
        rw [which]
        exact congrFun keys item
      | inr which => exact absurd which changed
    have result : (if r.1 ≠ head then
        { r.2 with
          itemsRev := lhInsert (derefItem r.2.objs r.1).srtBlinded r.1 r.2.itemsRev } else r.2) =
        { r.2 with
          itemsRev := if r.1 ≠ head then
            lhInsert (derefItem r.2.objs r.1).srtBlinded r.1 r.2.itemsRev else r.2.itemsRev } := by
      split
      · rfl
      · rfl
    rw [result]
    constructor
    · exists rev'
      unfold RevIndex
      rw [sameRev, newHead_retrieve first key, keys, rank]
      exact inserted
    · exact { relinked with rev := (fun is => nomatch is) }

/- Linking out. -/

theorem srtmRemoveFromFwd_done (ix : FwdIndex srtm member fwd)
    (split : fwd (opaqueOf srtm.objs item) = xs ++ item :: ys)
    (members : ∀ a, member a → ItemLive srtm.objs a) :
    let srtm' := srtmRemoveFromFwd item xs.getLast? srtm
    (∃ fwd', FwdIndex srtm' (fun b => member b ∧ b ≠ item) fwd') ∧
      SrtmRelinked .bySeqNum srtm srtm' := by
  have removed := indexed_remove ix split
  have inside (a : Nat) (here : a ∈ xs ++ item :: ys) :
      member a ∧ opaqueOf srtm.objs a = opaqueOf srtm.objs item := by
    rw [← split] at here
    exact (ix.mem _ a).mp here
  cases last : xs.getLast? with
  | none =>
    obtain rfl := getLast?_eq_none_iff.mp last
    rw [last, linkOut] at removed
    have linked := ix.linked (opaqueOf srtm.objs item)
    rw [split] at linked
    have following := linked_head (linked_next linked)
    rw [srtmRemoveFromFwd]
    have next : (derefItem srtm.objs item).nextBySeqNum = nextOf .bySeqNum srtm.objs item := rfl
    rw [next]
    cases after : nextOf .bySeqNum srtm.objs item with
    | none =>
      rw [after] at removed
      constructor
      · exists update fwd (opaqueOf srtm.objs item) ([] ++ ys)
        unfold FwdIndex
        rw [lhDelete_retrieve]
        exact removed
      · exact ⟨fun _ _ => rfl, rfl, fun _ => Iff.rfl, rfl, rfl, (fun is => nomatch is), fun _ => rfl⟩
    | some b =>
      rw [after] at removed following
      have key : (derefItem srtm.objs b).opaquePtr = opaqueOf srtm.objs item := by
        apply (inside b _).2
        exact mem_cons_of_mem item (mem_of_head? following.symm)
      constructor
      · exists update fwd (opaqueOf srtm.objs item) ([] ++ ys)
        unfold FwdIndex
        dsimp only
        rw [key, lhInsert_retrieve]
        exact removed
      · exact ⟨fun _ _ => rfl, rfl, fun _ => Iff.rfl, rfl, rfl, (fun is => nomatch is), fun _ => rfl⟩
  | some p =>
    have live := members p (inside p (mem_append_left _ (mem_of_getLast? last))).1
    have relinked : SrtmRelinked .bySeqNum srtm
        (srtmSetNext .bySeqNum p (derefItem srtm.objs item).nextBySeqNum srtm) :=
      setNext_relinked live
    rw [last, linkOut] at removed
    constructor
    · exists update fwd (opaqueOf srtm.objs item) (xs ++ ys)
      unfold FwdIndex
      have same : update (fun o => lhRetrieve o srtm.itemsFwd)
          (opaqueOf srtm.objs item) (lhRetrieve (opaqueOf srtm.objs item) srtm.itemsFwd) =
            fun o => lhRetrieve o srtm.itemsFwd := update_eq_self ..
      dsimp only at removed
      rw [same] at removed
      rw [srtmRemoveFromFwd]
      rw [(setNext_fields ..).1, (relinked_keys relinked).1, relinked_rank relinked]
      exact removed
    · exact relinked

theorem srtmRemoveFromRev_done (ix : RevIndex srtm member rev) (here : member item)
    (members : ∀ a, member a → ItemLive srtm.objs a) (low : ∀ a, member a → a < srtm.fresh) :
    let srtm' := srtmRemoveFromRev item srtm
    (∃ rev', RevIndex srtm' (fun b => member b ∧ b ≠ item) rev') ∧
      SrtmRelinked .bySrtBlinded srtm srtm' := by
  obtain ⟨xs, ys, split⟩ := append_of_mem ((ix.mem (blindedOf srtm.objs item) item).mpr ⟨here, rfl⟩)
  have removed := indexed_remove ix split
  have inside (a : Nat) (there : a ∈ xs ++ item :: ys) :
      member a ∧ blindedOf srtm.objs a = blindedOf srtm.objs item := by
    rw [← split] at there
    exact (ix.mem _ a).mp there
  have linked := ix.linked (blindedOf srtm.objs item)
  have nodup := ix.nodup (blindedOf srtm.objs item)
  have short := chain_short nodup (fun a there => low a ((ix.mem _ a).mp there).1)
  rw [split] at linked nodup short
  have itemKey : (derefItem srtm.objs item).srtBlinded = blindedOf srtm.objs item := rfl
  have next : (derefItem srtm.objs item).nextBySrtBlinded = nextOf .bySrtBlinded srtm.objs item :=
    rfl
  have first := linked_head linked
  rw [srtmRemoveFromRev]
  rw [itemKey, first, next]
  cases xs with
  | nil =>
    rw [getLast?_nil, linkOut] at removed
    have following := linked_head (linked_next linked)
    rw [nil_append, head?_cons]
    dsimp only
    rw [if_pos rfl]
    cases after : nextOf .bySrtBlinded srtm.objs item with
    | none =>
      rw [after] at removed
      constructor
      · exists update rev (blindedOf srtm.objs item) ([] ++ ys)
        unfold RevIndex
        rw [lhDelete_retrieve]
        exact removed
      · exact ⟨fun _ _ => rfl, rfl, fun _ => Iff.rfl, rfl, rfl, fun _ => rfl, (fun is => nomatch is)⟩
    | some b =>
      rw [after] at removed following
      have key : (derefItem srtm.objs b).srtBlinded = blindedOf srtm.objs item := by
        apply (inside b _).2
        exact mem_cons_of_mem item (mem_of_head? following.symm)
      constructor
      · exists update rev (blindedOf srtm.objs item) ([] ++ ys)
        unfold RevIndex
        dsimp only
        rw [key, lhInsert_retrieve]
        exact removed
      · exact ⟨fun _ _ => rfl, rfl, fun _ => Iff.rfl, rfl, rfl, fun _ => rfl, (fun is => nomatch is)⟩
  | cons head others =>
    have apart : head ≠ item := by
      intro same
      apply (nodup_cons.mp nodup).1
      rw [same]
      exact mem_append_right _ mem_cons_self
    rw [length_append] at short
    have enough : (head :: others).length < srtm.fresh + 1 := by omega
    have last := srtmBeforeRounds_found (srtm.fresh + 1) (first ▸ linked) nodup
      (cons_ne_nil head others) enough
    rw [cons_append, head?_cons]
    dsimp only
    rw [if_neg apart]
    generalize srtmBeforeRounds srtm.objs item (srtm.fresh + 1) head = p at last ⊢
    have live := members p (inside p (mem_append_left _ (mem_of_getLast? last))).1
    have relinked : SrtmRelinked .bySrtBlinded srtm
        (srtmSetNext .bySrtBlinded p (nextOf .bySrtBlinded srtm.objs item) srtm) :=
      setNext_relinked live
    rw [last, linkOut] at removed
    constructor
    · exists update rev (blindedOf srtm.objs item) (head :: others ++ ys)
      unfold RevIndex
      have same : update (fun b => lhRetrieve b srtm.itemsRev)
          (blindedOf srtm.objs item) (lhRetrieve (blindedOf srtm.objs item) srtm.itemsRev) =
            fun b => lhRetrieve b srtm.itemsRev := update_eq_self ..
      dsimp only at removed
      rw [same] at removed
      rw [(setNext_fields ..).1, (relinked_keys relinked).2, relinked_rank relinked]
      exact removed
    · exact relinked

/- One index while the other one, or an item outside both, changes. -/

theorem relinked_fwdIndex (same : SrtmRelinked .bySrtBlinded s t) (ix : FwdIndex s member fwd) :
    FwdIndex t member fwd := by
  apply indexed_congr ix
  · exact fun _ => Iff.rfl
  · intro a _
    rw [same.next .bySeqNum (fun is => nomatch is)]
  · intro o
    rw [same.fwd rfl]
  · intro a _
    rw [(relinked_keys same).1]
  · intro a _
    rw [relinked_rank same]

theorem relinked_revIndex (same : SrtmRelinked .bySeqNum s t) (ix : RevIndex s member rev) :
    RevIndex t member rev := by
  apply indexed_congr ix
  · exact fun _ => Iff.rfl
  · intro a _
    rw [same.next .bySrtBlinded (fun is => nomatch is)]
  · intro b
    rw [same.rev rfl]
  · intro a _
    rw [(relinked_keys same).2]
  · intro a _
    rw [relinked_rank same]

/-- Nothing but one place of the heap differs. -/
structure SrtmAside (item : Nat) (s t : QuicSrtm) : Prop where
  objs : ∀ a, a ≠ item → t.objs a = s.objs a
  itemsFwd : t.itemsFwd = s.itemsFwd
  itemsRev : t.itemsRev = s.itemsRev

theorem aside_fields (aside : SrtmAside item s t) (apart : a ≠ item) :
    (∀ link, nextOf link t.objs a = nextOf link s.objs a) ∧
      itemCore t.objs a = itemCore s.objs a ∧ (ItemLive t.objs a ↔ ItemLive s.objs a) := by
  have deref : derefItem t.objs a = derefItem s.objs a := by
    rw [derefItem, derefItem, aside.objs a apart]
  constructor
  · intro link
    rw [nextOf, nextOf, deref]
  · constructor
    · rw [itemCore, itemCore, deref]
    · rw [ItemLive, ItemLive, aside.objs a apart]

theorem aside_fwdIndex (aside : SrtmAside item s t) (ix : FwdIndex s member fwd)
    (outside : ¬ member item) : FwdIndex t member fwd := by
  have apart (a : Nat) (here : member a) : a ≠ item := fun same => outside (same ▸ here)
  have core (a : Nat) (here : member a) : itemCore t.objs a = itemCore s.objs a :=
    (aside_fields aside (apart a here)).2.1
  apply indexed_congr ix
  · exact fun _ => Iff.rfl
  · intro a here
    exact (aside_fields aside (apart a here)).1 .bySeqNum
  · intro o
    rw [aside.itemsFwd]
  · intro a here
    rw [opaqueOf, opaqueOf, core a here]
  · intro a here
    change seqNumOf t.objs a = seqNumOf s.objs a
    rw [seqNumOf, seqNumOf, core a here]

theorem aside_revIndex (aside : SrtmAside item s t) (ix : RevIndex s member rev)
    (outside : ¬ member item) : RevIndex t member rev := by
  have apart (a : Nat) (here : member a) : a ≠ item := fun same => outside (same ▸ here)
  have core (a : Nat) (here : member a) : itemCore t.objs a = itemCore s.objs a :=
    (aside_fields aside (apart a here)).2.1
  apply indexed_congr ix
  · exact fun _ => Iff.rfl
  · intro a here
    exact (aside_fields aside (apart a here)).1 .bySrtBlinded
  · intro b
    rw [aside.itemsRev]
  · intro a here
    rw [blindedOf, blindedOf, core a here]
  · intro a here
    change opaqueOf t.objs a = opaqueOf s.objs a
    rw [opaqueOf, opaqueOf, core a here]

theorem freeItem_aside (item : Nat) (srtm : QuicSrtm) :
    SrtmAside item srtm (srtmFreeItem item srtm) :=
  ⟨fun _ apart => update_of_ne apart .., rfl, rfl⟩

theorem freeItem_live (item : Nat) (srtm : QuicSrtm) (a : Nat) :
    ItemLive (srtmFreeItem item srtm).objs a ↔ ItemLive srtm.objs a ∧ a ≠ item := by
  by_cases here : a = item
  · subst here
    constructor
    · intro live
      exact absurd (update_self ..) live
    · intro both
      exact absurd rfl both.2
  · rw [(aside_fields (freeItem_aside item srtm) here).2.2]
    exact ⟨fun live => ⟨live, here⟩, fun both => both.1⟩

/- Items taken off the reverse index and freed, the forward links still in place. -/

structure SrtmCulled (s t : QuicSrtm) (gone : List Nat) : Prop where
  rev : ∃ rev, RevIndex t (fun a => ItemLive s.objs a ∧ a ∉ gone) rev
  next : ∀ a, a ∉ gone → nextOf .bySeqNum t.objs a = nextOf .bySeqNum s.objs a
  core : ∀ a, a ∉ gone → itemCore t.objs a = itemCore s.objs a
  live : ∀ a, ItemLive t.objs a ↔ ItemLive s.objs a ∧ a ∉ gone
  fresh : t.fresh = s.fresh
  itemsFwd : t.itemsFwd = s.itemsFwd
  working : t.allocFailed = s.allocFailed

theorem culled_refl (ix : RevIndex s (ItemLive s.objs) rev) : SrtmCulled s s [] where
  rev := by
    exists rev
    apply indexed_congr ix
    · intro a
      exact ⟨fun both => both.1, fun live => ⟨live, not_mem_nil⟩⟩
    · exact fun _ _ => rfl
    · exact fun _ => rfl
    · exact fun _ _ => rfl
    · exact fun _ _ => rfl
  next := fun _ _ => rfl
  core := fun _ _ => rfl
  live := fun _ => ⟨fun live => ⟨live, not_mem_nil⟩, fun both => both.1⟩
  fresh := rfl
  itemsFwd := rfl
  working := rfl

theorem culled_next (culled : SrtmCulled s t gone) (live : ItemLive s.objs item)
    (present : item ∉ gone) (low : ∀ a, ItemLive s.objs a → a < s.fresh) :
    SrtmCulled s (srtmFreeItem item (srtmRemoveFromRev item t)) (item :: gone) := by
  obtain ⟨rev, ix⟩ := culled.rev
  have lowHere (a : Nat) (here : ItemLive s.objs a ∧ a ∉ gone) : a < t.fresh := by
    rw [culled.fresh]
    exact low a here.1
  obtain ⟨⟨rev', removed⟩, relinked⟩ := srtmRemoveFromRev_done ix ⟨live, present⟩
    (fun a here => (culled.live a).mpr here) lowHere
  generalize srtmRemoveFromRev item t = u at removed relinked ⊢
  have aside := freeItem_aside item u
  have members (a : Nat) : (ItemLive s.objs a ∧ a ∉ gone) ∧ a ≠ item ↔
      ItemLive s.objs a ∧ a ∉ item :: gone := by
    rw [mem_cons]
    tauto
  constructor
  · exists rev'
    have freed := aside_revIndex aside removed (fun both => both.2 rfl)
    rw [← funext (fun a => propext (members a))]
    exact freed
  · intro a outside
    rw [mem_cons, not_or] at outside
    rw [(aside_fields aside outside.1).1, relinked.next .bySeqNum (fun is => nomatch is)]
    exact culled.next a outside.2
  · intro a outside
    rw [mem_cons, not_or] at outside
    rw [(aside_fields aside outside.1).2.1, relinked.core]
    exact culled.core a outside.2
  · intro a
    rw [freeItem_live, relinked.live, culled.live]
    exact members a
  · exact relinked.fresh.trans culled.fresh
  · exact (relinked.fwd rfl).trans culled.itemsFwd
  · exact relinked.working.trans culled.working

theorem srtmCullRounds_done (culled : SrtmCulled s t gone) (fuel : Nat) {item : Option Nat}
    (linked : Linked (nextOf .bySeqNum s.objs) item nodes) (enough : nodes.length < fuel)
    (nodup : nodes.Nodup) (live : ∀ a ∈ nodes, ItemLive s.objs a)
    (present : ∀ a ∈ nodes, a ∉ gone) (notHead : head ∉ nodes)
    (low : ∀ a, ItemLive s.objs a → a < s.fresh) :
    SrtmCulled s (srtmCullRounds head fuel item t) (nodes.reverse ++ gone) := by
  induction nodes generalizing t gone fuel item with
  | nil =>
    cases fuel with
    | zero => cases enough
    | succ fuel =>
      obtain rfl := linked
      exact culled
  | cons a rest ih =>
    cases fuel with
    | zero => cases enough
    | succ fuel =>
      obtain ⟨rfl, later⟩ := linked
      obtain ⟨notLater, restNodup⟩ := nodup_cons.mp nodup
      have here : a ∉ gone := present a mem_cons_self
      have next : (derefItem t.objs a).nextBySeqNum = nextOf .bySeqNum s.objs a :=
        culled.next a here
      have other : a ≠ head := fun same => notHead (same ▸ mem_cons_self)
      have step := culled_next culled (live a mem_cons_self) here low
      rw [length_cons] at enough
      rw [srtmCullRounds, next, if_pos other, reverse_cons, append_assoc]
      apply ih step fuel later (by omega) restNodup
      · intro b member
        exact live b (mem_cons_of_mem a member)
      · intro b member old
        cases mem_cons.mp old with
        | inl same => exact notLater (same ▸ member)
        | inr old => exact present b (mem_cons_of_mem a member) old
      · intro member
        exact notHead (mem_cons_of_mem a member)

theorem srtmRemoveFromRev_itemsFwd (item : Nat) (table : Lhash Nat Nat) (srtm : QuicSrtm) :
    srtmRemoveFromRev item { srtm with itemsFwd := table } =
      { srtmRemoveFromRev item srtm with itemsFwd := table } := by
  unfold srtmRemoveFromRev
  dsimp only
  split
  · rfl
  · split
    · split
      · rfl
      · rfl
    · rfl

/-- Taking the whole list of an opaque off the forward index. -/
theorem culled_fwdIndex {o : Nat} (ix : FwdIndex s (ItemLive s.objs) fwd)
    (culled : SrtmCulled s t gone) (same : ∀ a, a ∈ gone ↔ a ∈ fwd o) :
    ∃ fwd', FwdIndex { t with itemsFwd := lhDelete o t.itemsFwd } (ItemLive t.objs) fwd' := by
  have relinked : Indexed (nextOf .bySeqNum t.objs)
      (update (fun o => lhRetrieve o s.itemsFwd) o none) (opaqueOf s.objs)
      (rankOf .bySeqNum s.objs) (ItemLive t.objs) (update fwd o []) := by
    apply indexed_relink ix
    · rfl
    · intro a _ outside
      exact culled.next a (fun old => outside ((same a).mp old))
    · intro a
      rw [culled.live, same, ix.mem]
      constructor
      · intro member
        cases member
      · intro kept
        exact absurd ⟨kept.1.1, kept.2⟩ kept.1.2
    · intro a other
      rw [culled.live, same, ix.mem]
      constructor
      · intro kept
        exact kept.1
      · intro live
        exact ⟨live, fun both => other both.2⟩
    · exact nodup_nil
    · exact List.Pairwise.nil
  have core (a : Nat) (live : ItemLive t.objs a) : itemCore t.objs a = itemCore s.objs a :=
    culled.core a ((culled.live a).mp live).2
  exists update fwd o []
  apply indexed_congr relinked
  · exact fun _ => Iff.rfl
  · exact fun _ _ => rfl
  · intro k
    rw [culled.itemsFwd, ← lhDelete_retrieve]
  · intro a live
    rw [opaqueOf, opaqueOf, core a live]
  · intro a live
    change seqNumOf t.objs a = seqNumOf s.objs a
    rw [seqNumOf, seqNumOf, core a live]

end Ossl
