import OpenSSL.Quic.AckmHistory

/- Which packets ackm_detect_and_remove_newly_acked_pkts of ssl/quic/quic_ackm.c finds. The walk
   shares one range index among all packets and may start in the middle of the history. -/
namespace Ossl
open List Spans

def acknowledged (ranges : List AckRange) (pkt : TxPkt) : Bool :=
  ranges.any (fun range => rangeContains range pkt.pktNum)

/- The ranges of an ACK frame: none is empty, and each lies below the one before it. -/
structure RangesDescend (ranges : List AckRange) : Prop where
  valid : ∀ range ∈ ranges, range.start ≤ range.stop
  below : ranges.Pairwise (fun range next => next.stop < range.start)

def PacketsAscend (packets : List TxPkt) : Prop :=
  packets.Pairwise (fun pkt next => pkt.pktNum < next.pktNum)

variable {ranges : List AckRange} {pkt : TxPkt} {h : TxHistory}

theorem acknowledged_iff : acknowledged ranges pkt = true ↔
      ∃ range ∈ ranges, range.start ≤ pkt.pktNum ∧ pkt.pktNum ≤ range.stop := by
  simp [acknowledged, rangeContains]

theorem movedBeyond_iff {range : AckRange} (valid : range.start ≤ range.stop) :
    movedBeyond pkt range = true ↔ pkt.pktNum < range.start := by
  simp only [movedBeyond, rangeContains, Bool.and_eq_true, Bool.not_eq_true', decide_eq_false_iff_not]
  omega

theorem rangesDescend_tail {range : AckRange} {rest : List AckRange}
    (descend : RangesDescend (range :: rest)) : RangesDescend rest :=
  ⟨fun r member => descend.valid r (mem_cons_of_mem range member),
    (pairwise_cons.mp descend.below).2⟩

theorem rangesDescend_sublist {left : List AckRange} (sub : left.Sublist ranges)
    (descend : RangesDescend ranges) : RangesDescend left :=
  ⟨fun r member => descend.valid r (sub.subset member), descend.below.sublist sub⟩

/-- A range that the walk has moved beyond holds neither the packet nor one before it. -/
theorem acknowledged_dropWhile (descend : RangesDescend ranges) {q : TxPkt}
    (before : q.pktNum ≤ pkt.pktNum) :
    acknowledged (ranges.dropWhile (movedBeyond pkt)) q = acknowledged ranges q := by
  induction ranges with
  | nil => rfl
  | cons range rest ih =>
    rw [dropWhile_cons]
    split
    · rename_i beyond
      rw [ih (rangesDescend_tail descend)]
      rw [movedBeyond_iff (descend.valid range (by simp))] at beyond
      have out : rangeContains range q.pktNum = false := by
        rw [rangeContains, decide_eq_false_iff_not]
        omega
      unfold acknowledged
      rw [any_cons, out, Bool.false_or]
    · rfl

theorem not_acknowledged_above (descend : RangesDescend ranges)
    (above : ∀ range, ranges.head? = some range → range.stop < pkt.pktNum) :
    acknowledged ranges pkt = false := by
  rw [Bool.eq_false_iff]
  intro acked
  obtain ⟨range, member, low, high⟩ := acknowledged_iff.mp acked
  cases ranges with
  | nil => exact nomatch member
  | cons first rest =>
    have high' := above first rfl
    rcases mem_cons.mp member with rfl | later
    · omega
    · have below := (pairwise_cons.mp descend.below).1 range later
      have valid := descend.valid first (by simp)
      omega

/-- The walk finds the acknowledged packets among those it passes: the ranges it leaves behind
    hold none of the packets still to come. -/
theorem newlyAckedWalk_filter (descend : RangesDescend ranges) {prevs : List TxPkt}
    (down : prevs.Pairwise (fun pkt prev => prev.pktNum < pkt.pktNum)) (h : TxHistory) :
    (newlyAckedWalk ranges prevs h).1 = prevs.filter (acknowledged ranges) := by
  induction prevs generalizing ranges h with
  | nil => rfl
  | cons pkt prevs ih =>
    obtain ⟨lower, down⟩ := pairwise_cons.mp down
    have left : ∀ q ∈ pkt :: prevs,
        acknowledged (ranges.dropWhile (movedBeyond pkt)) q = acknowledged ranges q := by
      intro q member
      apply acknowledged_dropWhile descend
      rcases mem_cons.mp member with rfl | earlier
      · exact le_refl _
      · exact (lower q earlier).le
    rw [← filter_congr left]
    have descend' := rangesDescend_sublist (dropWhile_sublist (movedBeyond pkt)) descend
    have head := head?_dropWhile_not (movedBeyond pkt) ranges
    unfold newlyAckedWalk
    generalize ranges.dropWhile (movedBeyond pkt) = ranges' at descend' head
    cases ranges' with
    | nil => exact (filter_eq_nil_iff.mpr (fun q _ => by simp [acknowledged])).symm
    | cons range rest =>
      dsimp only
      have here : movedBeyond pkt range = false := by simpa using head
      by_cases inside : rangeContains range pkt.pktNum = true
      · have acked : acknowledged (range :: rest) pkt = true := by
          rw [acknowledged, any_cons, inside, Bool.true_or]
        rw [if_pos inside, filter_cons_of_pos acked, ih descend' down]
      · have above : range.stop < pkt.pktNum := by
          simpa [movedBeyond, inside] using here
        have missed : ¬ acknowledged (range :: rest) pkt = true := by
          rw [not_acknowledged_above descend' (by simpa using above)]
          exact Bool.false_ne_true
        rw [if_neg inside, filter_cons_of_neg missed, ih descend' down]

/-- Removals leave the other packets, in their order. -/
theorem removeAll_packets {space : PnSpace} (ok : TxHistoryOk space h) {gone : List TxPkt}
    (nodup : gone.Nodup) (inside : ∀ pkt ∈ gone, pkt ∈ h.packets) :
    (removeAll h gone).packets = h.packets.filter (fun pkt => pkt ∉ gone) := by
  induction gone generalizing h with
  | nil => exact (filter_eq_self.mpr (by simp)).symm
  | cons pkt rest ih =>
    obtain ⟨fresh, nodup⟩ := nodup_cons.mp nodup
    obtain ⟨left, ok'⟩ := txPktHistoryRemove_member ok (inside pkt (by simp))
    have erased := (packets_nodup ok).erase_eq_filter pkt
    have inside' : ∀ q ∈ rest, q ∈ (txPktHistoryRemove h pkt.pktNum).2.packets := by
      intro q member
      rw [left, (packets_nodup ok).mem_erase_iff]
      refine ⟨?_, inside q (by simp [member])⟩
      rintro rfl
      exact fresh member
    refine (ih ok' nodup inside').trans ?_
    rw [left, erased, filter_filter]
    apply filter_congr
    intro q _
    by_cases same : q = pkt
    · simp [same]
    · simp [same]

theorem removeAll_marks (h : TxHistory) (gone : List TxPkt) :
    (removeAll h gone).watermark = h.watermark ∧ (removeAll h gone).highestSent = h.highestSent := by
  induction gone generalizing h with
  | nil => exact ⟨rfl, rfl⟩
  | cons pkt rest ih =>
    have kept : (txPktHistoryRemove h pkt.pktNum).2.watermark = h.watermark ∧
        (txPktHistoryRemove h pkt.pktNum).2.highestSent = h.highestSent := by
      unfold txPktHistoryRemove
      split
      · exact ⟨rfl, rfl⟩
      · exact ⟨rfl, rfl⟩
    exact ⟨(ih _).1.trans kept.1, (ih _).2.trans kept.2⟩

theorem backwardsFrom_eq {us vs : List TxPkt} (ascend : PacketsAscend (us ++ pkt :: vs)) :
    backwardsFrom pkt (us ++ pkt :: vs) = (us ++ [pkt]).reverse := by
  have cross := (pairwise_append.mp ascend).2.2
  have stop : (us ++ pkt :: vs).takeWhile (fun p => decide (p ≠ pkt)) = us := by
    rw [takeWhile_append_of_pos]
    · simp
    · intro p inside
      have lower := cross p inside pkt (by simp)
      rw [decide_eq_true_eq]
      rintro rfl
      exact lt_irrefl _ lower
  rw [backwardsFrom, stop, reverse_append, reverse_singleton, singleton_append]

/-- A walk over the history or over the part of it that ends with the largest number named finds
    every packet that is acknowledged. -/
theorem newlyAckedWalk_upTo (descend : RangesDescend ranges) (upTo beyond : List TxPkt)
    (ascend : PacketsAscend (upTo ++ beyond))
    (above : ∀ q ∈ beyond, ackRangesLargest ranges < q.pktNum) (h : TxHistory) :
    (newlyAckedWalk ranges upTo.reverse h).1 =
      ((upTo ++ beyond).filter (acknowledged ranges)).reverse := by
  have down : upTo.reverse.Pairwise (fun pkt prev => prev.pktNum < pkt.pktNum) :=
    pairwise_reverse.mpr (pairwise_append.mp ascend).1
  have none_ : beyond.filter (acknowledged ranges) = [] := by
    rw [filter_eq_nil_iff]
    intro q later
    rw [not_acknowledged_above descend]
    · exact Bool.false_ne_true
    · intro range first
      have past := above q later
      rw [ackRangesLargest, first] at past
      exact past
  rw [newlyAckedWalk_filter descend down h, filter_append, none_, append_nil, filter_reverse]

theorem newlyAcked_found {space : PnSpace} (ok : TxHistoryOk space h)
    (ascend : PacketsAscend h.packets) (descend : RangesDescend ranges) :
    (detectAndRemoveNewlyAckedPkts h ranges).1 =
        (h.packets.filter (acknowledged ranges)).reverse ∧
      (detectAndRemoveNewlyAckedPkts h ranges).2 =
        removeAll h (detectAndRemoveNewlyAckedPkts h ranges).1 := by
  unfold detectAndRemoveNewlyAckedPkts txPktHistoryByPktNum
  split
  · rename_i pkt there
    obtain ⟨member, number⟩ := (ok.mapped _ pkt).mp there
    obtain ⟨us, vs, whole⟩ := append_of_mem member
    have joined : h.packets = (us ++ [pkt]) ++ vs := by rw [whole]; simp
    have above : ∀ q ∈ vs, ackRangesLargest ranges < q.pktNum := by
      intro q later
      rw [whole] at ascend
      rw [← number]
      exact (pairwise_cons.mp (pairwise_append.mp ascend).2.1).1 q later
    refine ⟨?_, (newlyAckedWalk_removes ranges _ h).2⟩
    rw [whole] at ascend
    rw [whole, backwardsFrom_eq ascend, ← whole, joined]
    rw [← whole, joined] at ascend
    exact newlyAckedWalk_upTo descend _ vs ascend above h
  · refine ⟨?_, (newlyAckedWalk_removes ranges _ h).2⟩
    have found := newlyAckedWalk_upTo descend h.packets [] (by simpa using ascend) (by simp) h
    rwa [append_nil] at found

/-- The packets found are those the ranges name, last first; the others stay in their order, in
    the list and in the map. -/
theorem newly_acked_exact {space : PnSpace} {h : TxHistory} (ok : TxHistoryOk space h)
    (ascend : PacketsAscend h.packets) {ranges : List AckRange} (descend : RangesDescend ranges) :
    (detectAndRemoveNewlyAckedPkts h ranges).1 =
        (h.packets.filter (acknowledged ranges)).reverse ∧
      (detectAndRemoveNewlyAckedPkts h ranges).2.packets =
        h.packets.filter (fun pkt => !acknowledged ranges pkt) ∧
      TxHistoryOk space (detectAndRemoveNewlyAckedPkts h ranges).2 ∧
      (detectAndRemoveNewlyAckedPkts h ranges).2.watermark = h.watermark ∧
      (detectAndRemoveNewlyAckedPkts h ranges).2.highestSent = h.highestSent := by
  obtain ⟨found, removed⟩ := newlyAcked_found ok ascend descend
  have nodup : (h.packets.filter (acknowledged ranges)).reverse.Nodup :=
    nodup_reverse.mpr ((packets_nodup ok).filter _)
  have inside : ∀ pkt ∈ (h.packets.filter (acknowledged ranges)).reverse, pkt ∈ h.packets :=
    fun pkt member => (mem_filter.mp (mem_reverse.mp member)).1
  refine ⟨found, ?_, (newlyAcked_leaves ok ranges).2, ?_, ?_⟩
  · rw [removed, found, removeAll_packets ok nodup inside]
    apply filter_congr
    intro pkt member
    simp [member]
  · rw [removed]
    exact (removeAll_marks h _).1
  · rw [removed]
    exact (removeAll_marks h _).2

theorem txPktHistoryAdd_ok {space : PnSpace} (ok : TxHistoryOk space h)
    (here : pkt.pktSpace = space) : TxHistoryOk space (txPktHistoryAdd h pkt).2 := by
  rcases txPktHistoryAdd_cases ok here with refused | ⟨h', added, _, ok'⟩
  · rw [refused]
    exact ok
  · rw [added]
    exact ok'

def initialPkt (n : Nat) : TxPkt := ⟨n, n, 50, 2000, quicPnInvalid, .initial, true, true⟩

def addInitial (h : TxHistory) (n : Nat) : TxHistory := (txPktHistoryAdd h (initialPkt n)).2

theorem addInitial_ok (ok : TxHistoryOk .initial h) (ns : List Nat) :
    TxHistoryOk .initial (ns.foldl addInitial h) := by
  induction ns generalizing h with
  | nil => exact ok
  | cons n ns ih => exact ih (txPktHistoryAdd_ok ok (show (initialPkt n).pktSpace = .initial from rfl))

/- Of packets 0, 1, 3 and 4 the frame names the outer two, and others that were never sent. -/
theorem newly_acked_exact_gapped :
    (detectAndRemoveNewlyAckedPkts ([0, 1, 3, 4].foldl addInitial txPktHistoryInit)
      [⟨4, 7⟩, ⟨2, 2⟩, ⟨0, 0⟩]).1 = [initialPkt 4, initialPkt 0] :=
  (newly_acked_exact (addInitial_ok (txPktHistoryInit_ok .initial) [0, 1, 3, 4])
    (by unfold PacketsAscend; decide) ⟨by decide, by decide⟩).1

end Ossl
