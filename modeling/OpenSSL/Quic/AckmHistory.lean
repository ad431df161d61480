import Mathlib.Data.List.Nodup
import Mathlib.Data.List.TakeWhile
import Mathlib.Data.Finset.Insert
import Mathlib.Data.Fintype.Defs
import OpenSSL.Quic.UintSetLaws
import OpenSSL.Quic.Wire

/- The transmitted packet history and the received packet number history of ssl/quic/quic_ackm.c.
   The linked list is a List, head first, and the hash table a partial function, whose insertion is
   taken to succeed. -/
namespace Ossl
open Option Spans

inductive PnSpace where
  | initial
  | handshake
  | app
  deriving DecidableEq

instance : Fintype PnSpace := ⟨{.initial, .handshake, .app}, fun space => by cases space <;> decide⟩

def quicPnInvalid : Nat := maxU64

structure TxPkt where
  ref : Nat
  pktNum : Nat
  numBytes : Nat
  time : OsslTime
  largestAcked : Nat
  pktSpace : PnSpace
  isInflight : Bool
  isAckEliciting : Bool
  deriving DecidableEq

structure TxHistory where
  packets : List TxPkt
  map : Nat → Option TxPkt
  watermark : Nat
  highestSent : Nat

def txPktHistoryInit : TxHistory := ⟨[], fun _ => none, 0, 0⟩

def txPktHistoryDestroy (h : TxHistory) : TxHistory :=
  { h with packets := [], map := fun _ => none }

def txPktHistoryAddActual (h : TxHistory) (pkt : TxPkt) : Bool × TxHistory :=
  if (h.map pkt.pktNum).isSome then (false, h)
  else (true, { h with
    map := Function.update h.map pkt.pktNum (some pkt), packets := h.packets ++ [pkt] })

def txPktHistoryAdd (h : TxHistory) (pkt : TxPkt) : Bool × TxHistory :=
  if pkt.pktNum < h.watermark then (false, h)
  else
    let r := txPktHistoryAddActual h pkt
    if r.1 = false then r
    else (true, { r.2 with watermark := addU64 pkt.pktNum 1, highestSent := pkt.pktNum })

def txPktHistoryByPktNum (h : TxHistory) (pktNum : Nat) : Option TxPkt := h.map pktNum

def txPktHistoryRemove (h : TxHistory) (pktNum : Nat) : Bool × TxHistory :=
  match txPktHistoryByPktNum h pktNum with
  | none => (false, h)
  | some pkt => (true, { h with
      packets := h.packets.erase pkt, map := Function.update h.map pktNum none })

def rangeContains (range : AckRange) (pn : Nat) : Bool :=
  decide (range.start ≤ pn ∧ pn ≤ range.stop)

def movedBeyond (pkt : TxPkt) (range : AckRange) : Bool :=
  !rangeContains range pkt.pktNum && !decide (range.stop < pkt.pktNum)

/- The loop of ackm_detect_and_remove_newly_acked_pkts over a packet and those
   before it, nearest first. The ranges left to match never come back. -/
def newlyAckedWalk (ranges : List AckRange) : List TxPkt → TxHistory → List TxPkt × TxHistory
  | [], h => ([], h)
  | pkt :: prevs, h =>
    match ranges.dropWhile (movedBeyond pkt) with
    | [] => ([], h)
    | range :: rest =>
      if rangeContains range pkt.pktNum then
        let r := newlyAckedWalk (range :: rest) prevs (txPktHistoryRemove h pkt.pktNum).2
        (pkt :: r.1, r.2)
      else newlyAckedWalk (range :: rest) prevs h

def backwardsFrom (pkt : TxPkt) (packets : List TxPkt) : List TxPkt :=
  pkt :: (packets.takeWhile (fun p => decide (p ≠ pkt))).reverse

/- The first end of a frame's ranges; ranges are never empty where it is read. -/
def ackRangesLargest (ranges : List AckRange) : Nat := (ranges.head?.map Span.stop).getD 0

def detectAndRemoveNewlyAckedPkts (h : TxHistory) (ranges : List AckRange) :
    List TxPkt × TxHistory :=
  match txPktHistoryByPktNum h (ackRangesLargest ranges) with
  | some pkt => newlyAckedWalk ranges (backwardsFrom pkt h.packets) h
  | none => newlyAckedWalk ranges h.packets.reverse h

def kPktThreshold : Nat := 3

def isLost (largestAcked : Nat) (lostSendTime : OsslTime) (pkt : TxPkt) : Bool :=
  decide (pkt.time ≤ lostSendTime ∨ addU64 pkt.pktNum kPktThreshold ≤ largestAcked)

/- The loop of ackm_detect_and_remove_lost_pkts, which sets the loss time to the
   earliest time at which a packet that stays will be lost. -/
def lostWalk (largestAcked : Nat) (lostSendTime lossDelay : OsslTime) :
    List TxPkt → OsslTime × TxHistory → List TxPkt × OsslTime × TxHistory
  | [], (lossTime, h) => ([], lossTime, h)
  | pkt :: next, (lossTime, h) =>
    if largestAcked < pkt.pktNum then
      lostWalk largestAcked lostSendTime lossDelay next (lossTime, h)
    else if isLost largestAcked lostSendTime pkt then
      let r := lostWalk largestAcked lostSendTime lossDelay next
        (lossTime, (txPktHistoryRemove h pkt.pktNum).2)
      (pkt :: r.1, r.2)
    else
      let due := osslTimeAdd pkt.time lossDelay
      let lossTime := if osslTimeIsZero lossTime then due else osslTimeMin lossTime due
      lostWalk largestAcked lostSendTime lossDelay next (lossTime, h)

structure RxHistory where
  set : UintSet
  watermark : Nat

def rxPktHistoryInit : RxHistory := ⟨[], 0⟩

def rxPktHistoryDestroy (h : RxHistory) : RxHistory := { h with set := [] }

def maxRxAckRanges : Nat := 32

def rxPktHistoryBumpWatermark (h : RxHistory) (watermark : Nat) : Bool × RxHistory :=
  if watermark ≤ h.watermark then (true, h)
  else
    let r := uintSetRemove h.set ⟨0, watermark - 1⟩
    if r.1 = false then (false, { h with set := r.2 })
    else (true, ⟨r.2, watermark⟩)

def trimLoop : Nat → UintSet → Nat → UintSet × Nat
  | rounds + 1, r :: rest, highest =>
    if maxRxAckRanges < (r :: rest).length then
      trimLoop rounds (uintSetRemove (r :: rest) r).2
        (if highest = quicPnInvalid then r.stop else max highest r.stop)
    else (r :: rest, highest)
  | _, set, highest => (set, highest)

def rxPktHistoryTrimRangeCount (h : RxHistory) : RxHistory :=
  let r := trimLoop h.set.length h.set quicPnInvalid
  let h := { h with set := r.1 }
  if r.2 ≠ quicPnInvalid then (rxPktHistoryBumpWatermark h (addU64 r.2 1)).2 else h

def rxPktHistoryAddPn (mem : Bool) (h : RxHistory) (pn : Nat) : Bool × RxHistory :=
  if pn < h.watermark then (true, h)
  else
    let r := uintSetInsert mem h.set ⟨pn, pn⟩
    if r.1 = false then (false, { h with set := r.2 })
    else (true, rxPktHistoryTrimRangeCount { h with set := r.2 })

/-- The packet list and the packet map of a space hold the same packets, one for
    each packet number. -/
structure TxHistoryOk (space : PnSpace) (h : TxHistory) : Prop where
  distinct : (h.packets.map TxPkt.pktNum).Nodup
  mapped : ∀ n pkt, h.map n = some pkt ↔ pkt ∈ h.packets ∧ pkt.pktNum = n
  inSpace : ∀ pkt ∈ h.packets, pkt.pktSpace = space

theorem txPktHistoryInit_ok (space : PnSpace) : TxHistoryOk space txPktHistoryInit :=
  ⟨by simp [txPktHistoryInit], by simp [txPktHistoryInit], by simp [txPktHistoryInit]⟩

theorem txPktHistoryDestroy_ok (space : PnSpace) (h : TxHistory) :
    TxHistoryOk space (txPktHistoryDestroy h) :=
  ⟨by simp [txPktHistoryDestroy], by simp [txPktHistoryDestroy], by simp [txPktHistoryDestroy]⟩

variable {h : TxHistory} {space : PnSpace}

theorem packets_nodup (ok : TxHistoryOk space h) : h.packets.Nodup :=
  List.Nodup.of_map TxPkt.pktNum ok.distinct

theorem same_number_same_packet (ok : TxHistoryOk space h) {p q : TxPkt}
    (hp : p ∈ h.packets) (hq : q ∈ h.packets) (same : p.pktNum = q.pktNum) : p = q := by
  have atP := (ok.mapped p.pktNum p).mpr ⟨hp, rfl⟩
  have atQ := (ok.mapped p.pktNum q).mpr ⟨hq, same.symm⟩
  exact some.inj (atP.symm.trans atQ)

variable {pkt : TxPkt} {watermark : Nat} {set : UintSet}

/-- An addition changes nothing, or appends a packet with a number of its own. -/
theorem txPktHistoryAdd_cases (ok : TxHistoryOk space h)
    (here : pkt.pktSpace = space) : txPktHistoryAdd h pkt = (false, h) ∨
      ∃ h', txPktHistoryAdd h pkt = (true, h') ∧ h'.packets = h.packets ++ [pkt] ∧
        TxHistoryOk space h' := by
  unfold txPktHistoryAdd txPktHistoryAddActual
  split
  · exact .inl rfl
  · cases taken : h.map pkt.pktNum with
    | some other => exact .inl (by simp)
    | none =>
      refine .inr ⟨_, rfl, rfl, ?_⟩
      have unused : ∀ q ∈ h.packets, q.pktNum ≠ pkt.pktNum := by
        intro q hq same
        have atQ := (ok.mapped pkt.pktNum q).mpr ⟨hq, same⟩
        rw [taken] at atQ
        cases atQ
      refine ⟨?_, ?_, ?_⟩
      · simp only [isSome_none, Bool.false_eq_true, if_false, List.map_append, List.map_cons,
          List.map_nil]
        refine List.Nodup.append ok.distinct (List.nodup_singleton _) ?_
        intro n member last
        obtain ⟨q, hq, rfl⟩ := List.mem_map.mp member
        exact unused q hq (by simpa using last)
      · intro n q
        simp only [isSome_none, Bool.false_eq_true, if_false, List.mem_append,
          List.mem_singleton, Function.update_apply]
        split
        · rename_i same
          subst same
          constructor
          · intro found
            obtain rfl := some.inj found
            exact ⟨.inr rfl, rfl⟩
          · rintro ⟨member | rfl, number⟩
            · exact absurd number (unused q member)
            · rfl
        · rename_i other
          rw [ok.mapped]
          constructor
          · rintro ⟨member, number⟩
            exact ⟨.inl member, number⟩
          · rintro ⟨member | rfl, number⟩
            · exact ⟨member, number⟩
            · exact absurd number.symm other
      · intro q member
        simp only [isSome_none, Bool.false_eq_true, if_false, List.mem_append,
          List.mem_singleton] at member
        rcases member with member | rfl
        · exact ok.inSpace q member
        · exact here

theorem txPktHistoryRemove_member (ok : TxHistoryOk space h)
    (member : pkt ∈ h.packets) : (txPktHistoryRemove h pkt.pktNum).2.packets = h.packets.erase pkt ∧
      TxHistoryOk space (txPktHistoryRemove h pkt.pktNum).2 := by
  have found := (ok.mapped pkt.pktNum pkt).mpr ⟨member, rfl⟩
  have nodup := packets_nodup ok
  unfold txPktHistoryRemove txPktHistoryByPktNum
  rw [found]
  refine ⟨rfl, ?_, ?_, ?_⟩
  · exact ok.distinct.sublist (List.erase_sublist.map TxPkt.pktNum)
  · intro n q
    simp only [Function.update_apply, nodup.mem_erase_iff]
    split
    · rename_i same
      subst same
      simp only [reduceCtorEq, false_iff, not_and]
      rintro ⟨differs, inside⟩ number
      exact differs (same_number_same_packet ok inside member number)
    · rename_i other
      rw [ok.mapped]
      constructor
      · rintro ⟨inside, number⟩
        refine ⟨⟨?_, inside⟩, number⟩
        rintro rfl
        exact other number.symm
      · rintro ⟨⟨_, inside⟩, number⟩
        exact ⟨inside, number⟩
  · intro q inside
    exact ok.inSpace q (List.mem_of_mem_erase inside)

def removeAll (h : TxHistory) (gone : List TxPkt) : TxHistory :=
  gone.foldl (fun h pkt => (txPktHistoryRemove h pkt.pktNum).2) h

theorem removeAll_leaves (ok : TxHistoryOk space h) {gone : List TxPkt}
    (nodup : gone.Nodup) (inside : ∀ pkt ∈ gone, pkt ∈ h.packets) :
    h.packets.Perm (gone ++ (removeAll h gone).packets) ∧ TxHistoryOk space (removeAll h gone) := by
  induction gone generalizing h with
  | nil => exact ⟨List.Perm.refl _, ok⟩
  | cons pkt rest ih =>
    obtain ⟨fresh, nodup⟩ := List.nodup_cons.mp nodup
    have member := inside pkt (by simp)
    obtain ⟨left, ok'⟩ := txPktHistoryRemove_member ok member
    have inside' : ∀ q ∈ rest, q ∈ (txPktHistoryRemove h pkt.pktNum).2.packets := by
      intro q hq
      rw [left, (packets_nodup ok).mem_erase_iff]
      refine ⟨?_, inside q (by simp [hq])⟩
      rintro rfl
      exact fresh hq
    obtain ⟨perm, done⟩ := ih ok' nodup inside'
    refine ⟨?_, done⟩
    rw [left] at perm
    exact (List.perm_cons_erase member).trans (perm.cons pkt)

theorem newlyAckedWalk_removes (ranges : List AckRange) (prevs : List TxPkt) (h : TxHistory) :
    (newlyAckedWalk ranges prevs h).1.Sublist prevs ∧
      (newlyAckedWalk ranges prevs h).2 = removeAll h (newlyAckedWalk ranges prevs h).1 := by
  induction prevs generalizing ranges h with
  | nil => exact ⟨List.Sublist.refl _, rfl⟩
  | cons pkt prevs ih =>
    unfold newlyAckedWalk
    split
    · exact ⟨List.nil_sublist _, rfl⟩
    · rename_i range rest _
      split
      · obtain ⟨sub, left⟩ := ih (range :: rest) (txPktHistoryRemove h pkt.pktNum).2
        exact ⟨sub.cons_cons pkt, left⟩
      · obtain ⟨sub, left⟩ := ih (range :: rest) h
        exact ⟨sub.cons pkt, left⟩

theorem lostWalk_removes (largestAcked : Nat) (lostSendTime lossDelay : OsslTime)
    (next : List TxPkt) (lossTime : OsslTime) (h : TxHistory) :
    (lostWalk largestAcked lostSendTime lossDelay next (lossTime, h)).1.Sublist next ∧
      (lostWalk largestAcked lostSendTime lossDelay next (lossTime, h)).2.2 =
        removeAll h (lostWalk largestAcked lostSendTime lossDelay next (lossTime, h)).1 := by
  induction next generalizing lossTime h with
  | nil => exact ⟨List.Sublist.refl _, rfl⟩
  | cons pkt next ih =>
    unfold lostWalk
    split
    · obtain ⟨sub, left⟩ := ih lossTime h
      exact ⟨sub.cons pkt, left⟩
    · split
      · obtain ⟨sub, left⟩ := ih lossTime (txPktHistoryRemove h pkt.pktNum).2
        exact ⟨sub.cons_cons pkt, left⟩
      · obtain ⟨sub, left⟩ := ih (if osslTimeIsZero lossTime then osslTimeAdd pkt.time lossDelay
          else osslTimeMin lossTime (osslTimeAdd pkt.time lossDelay)) h
        exact ⟨sub.cons pkt, left⟩

/-- The packets acknowledged by a frame leave the history, each once. -/
theorem newlyAcked_leaves (ok : TxHistoryOk space h) (ranges : List AckRange) :
    h.packets.Perm ((detectAndRemoveNewlyAckedPkts h ranges).1 ++
        (detectAndRemoveNewlyAckedPkts h ranges).2.packets) ∧
      TxHistoryOk space (detectAndRemoveNewlyAckedPkts h ranges).2 := by
  have nodup := packets_nodup ok
  unfold detectAndRemoveNewlyAckedPkts txPktHistoryByPktNum
  split
  · rename_i pkt found
    have member := ((ok.mapped _ pkt).mp found).1
    obtain ⟨sub, left⟩ := newlyAckedWalk_removes ranges (backwardsFrom pkt h.packets) h
    rw [left]
    have before : (h.packets.takeWhile (fun p => decide (p ≠ pkt))).Sublist h.packets :=
      List.takeWhile_sublist _
    have start : (backwardsFrom pkt h.packets).Nodup := by
      refine List.nodup_cons.mpr ⟨?_, List.nodup_reverse.mpr (nodup.sublist before)⟩
      intro inside
      have := List.mem_takeWhile_imp (List.mem_reverse.mp inside)
      simp at this
    refine removeAll_leaves ok (start.sublist sub) ?_
    intro q hq
    rcases List.mem_cons.mp (sub.subset hq) with rfl | hq
    · exact member
    · exact before.subset (List.mem_reverse.mp hq)
  · obtain ⟨sub, left⟩ := newlyAckedWalk_removes ranges h.packets.reverse h
    rw [left]
    exact removeAll_leaves ok ((List.nodup_reverse.mpr nodup).sublist sub)
      (fun q hq => List.mem_reverse.mp (sub.subset hq))

theorem lost_leaves (ok : TxHistoryOk space h) (largestAcked : Nat)
    (lostSendTime lossDelay lossTime : OsslTime) :
    h.packets.Perm ((lostWalk largestAcked lostSendTime lossDelay h.packets (lossTime, h)).1 ++
        (lostWalk largestAcked lostSendTime lossDelay h.packets (lossTime, h)).2.2.packets) ∧
      TxHistoryOk space
        (lostWalk largestAcked lostSendTime lossDelay h.packets (lossTime, h)).2.2 := by
  obtain ⟨sub, left⟩ := lostWalk_removes largestAcked lostSendTime lossDelay h.packets lossTime h
  rw [left]
  exact removeAll_leaves ok ((packets_nodup ok).sublist sub) (fun q hq => sub.subset hq)

/-- The received numbers that are tracked: none below the watermark, in no more
    ranges than the limit, no two of which border one another. -/
structure RxHistoryOk (h : RxHistory) : Prop where
  separated : Separated h.set
  bounded : ∀ t ∈ h.set, t.stop < 2 ^ 64
  above : ∀ x ∈ points h.set, h.watermark ≤ x
  few : h.set.length ≤ maxRxAckRanges

theorem rxPktHistoryInit_ok : RxHistoryOk rxPktHistoryInit :=
  ⟨separated_nil, by simp [rxPktHistoryInit], by simp [rxPktHistoryInit], by decide⟩

theorem rxPktHistoryDestroy_ok (h : RxHistory) : RxHistoryOk (rxPktHistoryDestroy h) :=
  ⟨separated_nil, by simp [rxPktHistoryDestroy], by simp [rxPktHistoryDestroy], Nat.zero_le _⟩

variable {h : RxHistory}

theorem rxHistory_set_ok (ok : RxHistoryOk h) : UintSetOk h.set :=
  ⟨separated_ascending ok.separated, ok.bounded⟩

/-- What a call may do to a history: take in new numbers, raise the watermark and
    forget what is below it. -/
structure RxTakes (h : RxHistory) (new : Set Nat) (h' : RxHistory) : Prop where
  ok : RxHistoryOk h'
  raised : h.watermark ≤ h'.watermark
  exact : ∀ x, x ∈ points h'.set ↔ (x ∈ points h.set ∨ x ∈ new) ∧ h'.watermark ≤ x

theorem rxTakes_refl (ok : RxHistoryOk h) : RxTakes h ∅ h := by
  refine ⟨ok, le_refl _, fun x => ?_⟩
  simp only [Set.mem_empty_iff_false, or_false]
  exact ⟨fun here => ⟨here, ok.above x here⟩, And.left⟩

theorem rxTakes_trans {h h' h'' : RxHistory} {new : Set Nat} (first : RxTakes h new h')
    (second : RxTakes h' ∅ h'') : RxTakes h new h'' := by
  have up := second.raised
  refine ⟨second.ok, first.raised.trans up, fun x => ?_⟩
  rw [second.exact, first.exact]
  simp only [Set.mem_empty_iff_false, or_false]
  constructor
  · rintro ⟨⟨here, _⟩, high⟩
    exact ⟨here, high⟩
  · rintro ⟨here, high⟩
    exact ⟨⟨here, by omega⟩, high⟩

theorem rxPktHistoryBumpWatermark_eq (sep : Separated h.set)
    (bounded : ∀ t ∈ h.set, t.stop < 2 ^ 64) (fits : watermark ≤ 2 ^ 64) :
    rxPktHistoryBumpWatermark h watermark =
      (true, if watermark ≤ h.watermark then h else ⟨cutBelow watermark h.set, watermark⟩) := by
  unfold rxPktHistoryBumpWatermark
  split
  · rfl
  · rename_i higher
    have ok : UintSetOk h.set := ⟨separated_ascending sep, bounded⟩
    have range : 0 ≤ watermark - 1 → watermark - 1 < 2 ^ 64 := fun _ => by omega
    rcases remove_separated ok sep range with
      failed | ⟨set', done, sep', cut⟩
    · simp [uintSetRemove] at failed
    · have same : set' = cutBelow watermark h.set := by
        refine separated_unique sep' (cutBelow_separated watermark sep) ?_
        ext x
        rw [cut, mem_points_cutBelow]
        refine and_congr_right (fun _ => ?_)
        omega
      simp [done, same]

theorem cutBelow_bounded {bound : Nat} (bounded : ∀ t ∈ set, t.stop < 2 ^ 64) :
    ∀ t ∈ cutBelow bound set, t.stop < 2 ^ 64 := by
  intro t ht
  obtain ⟨u, hu, _, same⟩ := cutBelow_inside ht
  have := bounded u hu
  omega

theorem rxPktHistoryBumpWatermark_takes (ok : RxHistoryOk h)
    (fits : watermark ≤ 2 ^ 64) : RxTakes h ∅ (rxPktHistoryBumpWatermark h watermark).2 := by
  rw [rxPktHistoryBumpWatermark_eq ok.separated ok.bounded fits]
  split
  · exact rxTakes_refl ok
  · refine ⟨⟨cutBelow_separated watermark ok.separated, cutBelow_bounded ok.bounded, ?_, ?_⟩, ?_, ?_⟩
    · intro x here
      exact ((mem_points_cutBelow watermark h.set x).mp here).2
    · exact (cutBelow_length_le watermark h.set).trans ok.few
    · dsimp only; omega
    · intro x
      simp only [mem_points_cutBelow, Set.mem_empty_iff_false, or_false]

theorem uintSetRemove_head {r : UintRange} {rest : UintSet} (sep : Separated (r :: rest))
    (bounded : ∀ t ∈ r :: rest, t.stop < 2 ^ 64) : (uintSetRemove (r :: rest) r).2 = rest := by
  obtain ⟨valid, tail, far⟩ := separated_cons.mp sep
  have ok : UintSetOk (r :: rest) := ⟨separated_ascending sep, bounded⟩
  have range : r.start ≤ r.stop → r.stop < 2 ^ 64 := fun _ => bounded r (by simp)
  rcases remove_separated ok sep range with failed | ⟨set', done, sep', cut⟩
  · simp [uintSetRemove, valid] at failed
  · rw [done]
    refine separated_unique sep' tail ?_
    ext x
    rw [cut, mem_points_cons]
    constructor
    · rintro ⟨here | here, out⟩
      · exact absurd here out
      · exact here
    · intro here
      refine ⟨.inr here, ?_⟩
      obtain ⟨t, ht, low, _⟩ := here
      have := far t ht
      omega

/-- The loop drops ranges from the low end until the limit is met, and returns
    the end of the last one it dropped. -/
theorem trimLoop_drops (rounds : Nat) {highest : Nat} (sep : Separated set)
    (bounded : ∀ t ∈ set, t.stop < 2 ^ 64) (enough : set.length ≤ rounds + maxRxAckRanges)
    (lower : highest ≠ quicPnInvalid → ∀ t ∈ set, highest ≤ t.stop) :
    ((trimLoop rounds set highest) = (set, highest) ∧ set.length ≤ maxRxAckRanges) ∨
      ∃ pre last, set = pre ++ last :: (trimLoop rounds set highest).1 ∧
        (trimLoop rounds set highest).2 = last.stop ∧
        (trimLoop rounds set highest).1.length = maxRxAckRanges := by
  induction rounds generalizing set highest with
  | zero => exact .inl ⟨by cases set <;> rfl, by omega⟩
  | succ rounds ih =>
    cases set with
    | nil => exact .inl ⟨rfl, by simp⟩
    | cons r rest =>
      unfold trimLoop
      split
      · rename_i many
        obtain ⟨_, tail, far⟩ := separated_cons.mp sep
        have top : (if highest = quicPnInvalid then r.stop else max highest r.stop) = r.stop := by
          split
          · rfl
          · rename_i some
            exact max_eq_right (lower some r (by simp))
        rw [uintSetRemove_head sep bounded, top]
        have later : ∀ t ∈ rest, r.stop ≤ t.stop := by
          intro t ht
          have := far t ht; have := tail.nonempty t ht
          omega
        simp only [List.length_cons] at enough many
        rcases ih tail (fun t ht => bounded t (by simp [ht])) (by omega) (fun _ => later) with
          ⟨done, few⟩ | ⟨pre, last, split, high, count⟩
        · rw [done]
          exact .inr ⟨[], r, rfl, rfl, by dsimp only; omega⟩
        · exact .inr ⟨r :: pre, last, by rw [List.cons_append, ← split], high, count⟩
      · rename_i few
        exact .inl ⟨rfl, by omega⟩

/-- Trimming forgets only what its raised watermark covers. -/
theorem rxPktHistoryTrimRangeCount_takes (sep : Separated h.set)
    (bounded : ∀ t ∈ h.set, t.stop < 2 ^ 64) (above : ∀ x ∈ points h.set, h.watermark ≤ x) :
    RxTakes h ∅ (rxPktHistoryTrimRangeCount h) := by
  rcases trimLoop_drops h.set.length sep bounded (Nat.le_add_right _ _)
      (fun some => absurd rfl some) with ⟨done, few⟩ | ⟨pre, last, split, high, count⟩
  · have same : rxPktHistoryTrimRangeCount h = h := by
      simp [rxPktHistoryTrimRangeCount, done]
    rw [same]
    exact rxTakes_refl ⟨sep, bounded, above, few⟩
  · generalize run : trimLoop h.set.length h.set quicPnInvalid = r at split high count
    have whole := sep
    rw [split] at whole
    obtain ⟨_, upper, cross⟩ := separated_append.mp whole
    obtain ⟨valid, kept, far⟩ := separated_cons.mp upper
    -- a range is left, and it lies above the last one dropped
    obtain ⟨next, tail, rest⟩ := List.exists_cons_of_length_pos (by rw [count]; decide : 0 < r.1.length)
    have inside : next ∈ h.set := by rw [split, rest]; simp
    have room := far next (by rw [rest]; simp)
    have valid' := kept.nonempty next (by rw [rest]; simp)
    have bound := bounded next inside
    have low := above last.start (mem_points_of_mem (by rw [split]; simp) ⟨le_refl _, valid⟩)
    have bounded' : ∀ t ∈ r.1, t.stop < 2 ^ 64 := fun t ht => bounded t (by rw [split]; simp [ht])
    have trimmed : rxPktHistoryTrimRangeCount h =
        ⟨cutBelow (last.stop + 1) r.1, last.stop + 1⟩ := by
      have some : r.2 ≠ quicPnInvalid := by unfold quicPnInvalid maxU64; omega
      unfold rxPktHistoryTrimRangeCount
      rw [run]
      rw [if_pos some, high, addU64_exact (by omega),
        rxPktHistoryBumpWatermark_eq kept bounded' (by omega)]
      exact if_neg (by dsimp only; omega)
    rw [trimmed]
    refine ⟨⟨cutBelow_separated _ kept, cutBelow_bounded bounded', ?_, ?_⟩, ?_, ?_⟩
    · intro x here
      exact ((mem_points_cutBelow _ r.1 x).mp here).2
    · exact (cutBelow_length_le _ r.1).trans count.le
    · dsimp only; omega
    · intro x
      simp only [mem_points_cutBelow, Set.mem_empty_iff_false, or_false]
      refine and_congr_left (fun beyond => ?_)
      rw [split, mem_points_append, mem_points_cons]
      constructor
      · intro here
        exact .inr (.inr here)
      · rintro (⟨t, ht, here⟩ | here | here)
        · have := cross t ht last (by simp); have := here.2
          omega
        · have := here.2
          omega
        · exact here

/-- A new number is taken in, or nothing changes. -/
theorem rxPktHistoryAddPn_takes (mem : Bool) (ok : RxHistoryOk h) {pn : Nat}
    (bound : pn < 2 ^ 64) (fresh : pn ∉ points h.set) :
    rxPktHistoryAddPn mem h pn = (false, h) ∨
      ((rxPktHistoryAddPn mem h pn).1 = true ∧ RxTakes h {pn} (rxPktHistoryAddPn mem h pn).2) := by
  unfold rxPktHistoryAddPn
  split
  · rename_i below
    refine .inr ⟨rfl, ok, le_refl _, fun x => ?_⟩
    constructor
    · intro here
      exact ⟨.inl here, ok.above x here⟩
    · rintro ⟨here | same, high⟩
      · exact here
      · obtain rfl := Set.mem_singleton_iff.mp same
        exact absurd high (by dsimp only; omega)
  · have range : pn ≤ pn → pn < 2 ^ 64 := fun _ => bound
    have apart : ∀ x, pn ≤ x → x ≤ pn → x ∉ points h.set := by
      intro x low high
      obtain rfl := le_antisymm high low
      exact fresh
    rcases insert_disjoint mem (rxHistory_set_ok ok) ok.separated range apart with
      failed | ⟨set', done, _, sep, grown⟩
    · exact .inl (by rw [failed]; rfl)
    · rw [done]
      refine .inr ⟨rfl, ?_⟩
      have points' : ∀ x, x ∈ points set' ↔ x ∈ points h.set ∨ x = pn := by
        intro x
        rw [grown]
        exact or_congr_right ⟨fun here => by omega, fun here => by omega⟩
      have bounded' : ∀ t ∈ set', t.stop < 2 ^ 64 := by
        intro t ht
        have inside := mem_points_of_mem ht ⟨sep.nonempty t ht, le_refl _⟩
        rcases (points' _).mp inside with ⟨u, hu, _, high⟩ | same
        · have := ok.bounded u hu; omega
        · omega
      have above' : ∀ x ∈ points set', h.watermark ≤ x := by
        intro x here
        rcases (points' x).mp here with here | rfl
        · exact ok.above x here
        · omega
      have trimmed := rxPktHistoryTrimRangeCount_takes (h := { h with set := set' }) sep bounded' above'
      refine ⟨trimmed.ok, trimmed.raised, fun x => ?_⟩
      refine (trimmed.exact x).trans ?_
      simp only [Set.mem_empty_iff_false, or_false, points', Set.mem_singleton_iff]
      rfl

end Ossl
