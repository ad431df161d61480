import OpenSSL.Quic.SStream

/- Runs of a send stream. Each appended byte carries the state that the calls give
   it, beside what the two range sets and the ring buffer hold. -/
namespace Ossl
open Option List Spans RingWindow Runs

inductive ByteState where
  | new
  | inFlight
  | acked
  deriving DecidableEq

inductive SstreamCall where
  | append (mem : Bool) (buf : List UInt8)
  | markTransmitted (start stop : Nat)
  | markTransmittedFin (finalSize : Nat)
  | markLost (mem : Bool) (start stop : Nat)
  | markLostFin
  | markAcked (mem : Bool) (start stop : Nat)
  | markAckedFin
  | fin
  | setBufferSize (mem : Bool) (numBytes : Nat)
  | setCleanse (cleanse : Bool)
  deriving DecidableEq

structure TracedSstream where
  qss : QuicSstream
  appended : List UInt8
  state : Nat → ByteState
  finished : Bool
  finAcked : Bool

def freshSstream (qss : QuicSstream) : TracedSstream := ⟨qss, [], fun _ => .new, false, false⟩

def setStates (state : Nat → ByteState) (start stop : Nat) (next : ByteState) :
    Nat → ByteState :=
  fun x => if start ≤ x ∧ x < stop then next else state x

def applySstreamCall (s : TracedSstream) : SstreamCall → TracedSstream
  | .append mem buf =>
    let result := quicSstreamAppend mem s.qss buf
    { s with
      qss := result.2.2
      appended := s.appended ++ buf.take result.2.1
      state := setStates s.state s.appended.length (s.appended.length + result.2.1) .new }
  | .markTransmitted start stop =>
    let result := quicSstreamMarkTransmitted s.qss start stop
    { s with
      qss := result.2
      state := if result.1 then setStates s.state start (stop + 1) .inFlight else s.state }
  | .markTransmittedFin finalSize =>
    { s with qss := (quicSstreamMarkTransmittedFin s.qss finalSize).2 }
  | .markLost mem start stop =>
    let result := quicSstreamMarkLost mem s.qss start stop
    { s with
      qss := result.2
      state := if result.1 then setStates s.state start (stop + 1) .new else s.state }
  | .markLostFin => { s with qss := (quicSstreamMarkLostFin s.qss).2 }
  | .markAcked mem start stop =>
    let result := quicSstreamMarkAcked mem s.qss start stop
    { s with
      qss := result.2
      state := if result.1 then setStates s.state start (stop + 1) .acked else s.state }
  | .markAckedFin =>
    let result := quicSstreamMarkAckedFin s.qss
    { s with qss := result.2, finAcked := s.finAcked || result.1 }
  | .fin => { s with qss := quicSstreamFin s.qss, finished := true }
  | .setBufferSize mem numBytes => { s with qss := (quicSstreamSetBufferSize mem s.qss numBytes).2 }
  | .setCleanse cleanse => { s with qss := quicSstreamSetCleanse s.qss cleanse }

def MarksInOrder (s : TracedSstream) : SstreamCall → Prop
  | .markTransmitted start stop =>
    ∀ x, start ≤ x → x ≤ stop → x < s.appended.length ∧ s.state x = .new
  | .markLost _ start stop =>
    ∀ x, start ≤ x → x ≤ stop → x < s.appended.length ∧ s.state x = .inFlight
  | .markAcked _ start stop =>
    ∀ x, start ≤ x → x ≤ stop → x < s.appended.length ∧ s.state x = .inFlight
  | .setBufferSize _ numBytes => numBytes < 2 ^ 64
  | _ => True

def appendedAt (s : TracedSstream) (x : Nat) : UInt8 := s.appended.getD x 0

/-- The range sets are the new and the acknowledged bytes, kept separated, and the
    ring buffer holds the bytes from the culled ones on. -/
structure SstreamOk (s : TracedSstream) : Prop where
  ring : RingOk s.qss.ringBuf
  quic : s.qss.ringBuf.headOffset ≤ maxOffset
  size : s.qss.ringBuf.headOffset = s.appended.length
  newSep : Separated s.qss.newSet
  ackedSep : Separated s.qss.ackedSet
  new : ∀ x, x ∈ points s.qss.newSet ↔ x < s.appended.length ∧ s.state x = .new
  acked : ∀ x, x ∈ points s.qss.ackedSet ↔ x < s.appended.length ∧ s.state x = .acked
  culled : ∀ x < s.qss.ringBuf.ctailOffset, x ∈ points s.qss.ackedSet
  holds : Holds s.qss.ringBuf.alloc s.qss.ringBuf.start (appendedAt s)
    (Set.Ico s.qss.ringBuf.ctailOffset s.qss.ringBuf.headOffset)
  finished : s.qss.haveFinalSize = s.finished
  finAcked : s.qss.ackedFinalSize = s.finAcked

theorem uintSetOk_of {set : UintSet} (sep : Separated set) {n : Nat} (bound : n ≤ 2 ^ 64)
    (inside : ∀ x ∈ points set, x < n) : UintSetOk set := by
  refine ⟨separated_ascending sep, fun t ht => ?_⟩
  have := inside t.stop (mem_points_of_mem ht ⟨sep.nonempty t ht, le_refl _⟩)
  omega

theorem setStates_eq (state : Nat → ByteState) (start stop : Nat) (next : ByteState) (x : Nat) :
    setStates state start stop next x = if start ≤ x ∧ x < stop then next else state x := rfl

variable {s : TracedSstream} {start stop : Nat} {mem : Bool} {r : RingBuf}

theorem sstream_sets_ok (ok : SstreamOk s) : UintSetOk s.qss.newSet ∧ UintSetOk s.qss.ackedSet := by
  have quic := ok.quic
  have size := ok.size
  have limit : maxOffset < 2 ^ 64 := by decide
  exact ⟨uintSetOk_of ok.newSep (by omega) (fun x hx => ((ok.new x).mp hx).1),
    uintSetOk_of ok.ackedSep (by omega) (fun x hx => ((ok.acked x).mp hx).1)⟩

/- A range whose bytes all have been appended ends below 2^64. -/
variable {state : ByteState} {qss : QuicSstream} {numIov skip : Nat}

theorem marked_bound (ok : SstreamOk s)
    (valid : ∀ x, start ≤ x → x ≤ stop → x < s.appended.length ∧ s.state x = state)
    (some : start ≤ stop) : stop < 2 ^ 64 := by
  have quic := ok.quic
  have size := ok.size
  have limit : maxOffset < 2 ^ 64 := by decide
  have := (valid stop some (le_refl _)).1
  omega

theorem setStates_iff {old next : ByteState}
    (valid : ∀ x, start ≤ x → x ≤ stop → x < s.appended.length ∧ s.state x = old) (x : Nat) :
    (x < s.appended.length ∧ setStates s.state start (stop + 1) next x = state) ↔
      (start ≤ x ∧ x ≤ stop ∧ next = state) ∨
        (¬ (start ≤ x ∧ x ≤ stop) ∧ x < s.appended.length ∧ s.state x = state) := by
  rw [setStates_eq]
  by_cases inside : start ≤ x ∧ x ≤ stop
  · have here := (valid x inside.1 inside.2).1
    rw [if_pos ⟨inside.1, by omega⟩]
    simp only [inside, here, true_and, not_true_eq_false, false_and, or_false]
  · rw [if_neg (by omega)]
    tauto

theorem markTransmitted_ok (ok : SstreamOk s)
    (valid : MarksInOrder s (.markTransmitted start stop)) :
    SstreamOk (applySstreamCall s (.markTransmitted start stop)) := by
  rw [applySstreamCall, quicSstreamMarkTransmitted]
  rcases remove_separated (sstream_sets_ok ok).1 ok.newSep (marked_bound ok valid) with
    failed | ⟨set', done, sep, removed⟩
  · rw [failed]
    exact ok
  · rw [done]
    refine { ok with newSep := sep, new := fun x => ?_, acked := fun x => ?_ }
    · rw [removed x, ok.new x]
      refine trans ?_ (setStates_iff valid x).symm
      tauto
    · rw [ok.acked x]
      refine trans ?_ (setStates_iff valid x).symm
      simp only [reduceCtorEq, and_false, false_or]
      refine ⟨fun h => ⟨fun inside => ?_, h⟩, And.right⟩
      have := (valid x inside.1 inside.2).2
      rw [h.2] at this
      simp at this

theorem markLost_ok (ok : SstreamOk s) (valid : MarksInOrder s (.markLost mem start stop)) :
    SstreamOk (applySstreamCall s (.markLost mem start stop)) := by
  have others : ∀ x, start ≤ x → x ≤ stop → s.state x ≠ .new ∧ s.state x ≠ .acked := by
    intro x low high
    rw [(valid x low high).2]
    decide
  rw [applySstreamCall, quicSstreamMarkLost]
  rcases insert_disjoint mem (sstream_sets_ok ok).1 ok.newSep (marked_bound ok valid)
      (fun x low high here => (others x low high).1 ((ok.new x).mp here).2) with
    failed | ⟨set', done, _, sep, grown⟩
  · rw [failed]
    exact ok
  · rw [done]
    refine { ok with newSep := sep, new := fun x => ?_, acked := fun x => ?_ }
    · rw [grown x, ok.new x]
      refine trans ?_ (setStates_iff valid x).symm
      have inside := valid x
      tauto
    · rw [ok.acked x]
      refine trans ?_ (setStates_iff valid x).symm
      simp only [reduceCtorEq, and_false, false_or]
      exact ⟨fun h => ⟨fun inside => (others x inside.1 inside.2).2 h.2, h⟩, And.right⟩

theorem qssCull_ok (ring : RingOk s.qss.ringBuf) (quic : s.qss.ringBuf.headOffset ≤ maxOffset)
    (sep : Separated s.qss.ackedSet)
    (inside : ∀ x ∈ points s.qss.ackedSet, x < s.qss.ringBuf.headOffset)
    (culled : ∀ x < s.qss.ringBuf.ctailOffset, x ∈ points s.qss.ackedSet) :
    ∃ r, qssCull s.qss = { s.qss with ringBuf := r } ∧ RingOk r ∧
      r.headOffset = s.qss.ringBuf.headOffset ∧
      (∀ x < r.ctailOffset, x ∈ points s.qss.ackedSet) ∧
      ∀ stream, Holds s.qss.ringBuf.alloc s.qss.ringBuf.start stream
          (Set.Ico s.qss.ringBuf.ctailOffset s.qss.ringBuf.headOffset) →
        Holds r.alloc r.start stream (Set.Ico r.ctailOffset r.headOffset) := by
  cases sets : s.qss.ackedSet with
  | nil =>
    rw [sets] at culled
    exact ⟨s.qss.ringBuf, by simp only [qssCull, sets]; rw [← sets], ring, rfl, culled, fun _ => id⟩
  | cons h rest =>
    rw [sets] at sep inside culled
    obtain ⟨valid, _, apart⟩ := separated_cons.mp sep
    have top := inside h.stop (mem_points_of_mem (by simp) ⟨valid, le_refl _⟩)
    refine ⟨ringBufCpopRange s.qss.ringBuf h.start h.stop s.qss.cleanse,
      by simp only [qssCull, sets], ?_⟩
    by_cases early : h.start ≤ s.qss.ringBuf.ctailOffset
    · -- the culled bytes are acknowledged, so the first range reaches past them
      have past : s.qss.ringBuf.ctailOffset ≤ h.stop + 1 := by
        by_contra behind
        obtain ⟨t, ht, low, high⟩ := culled (h.stop + 1) (by omega)
        rcases mem_cons.mp ht with same | later
        · subst same; omega
        · have := apart t later; omega
      have result := ringBufCpopRange_culled ring s.qss.cleanse early past (by omega)
      refine ⟨result.ok, by rw [result.head]; omega, ?_, ?_⟩
      · rw [result.ctail]
        intro x hx
        by_cases old : x < s.qss.ringBuf.ctailOffset
        · exact culled x old
        · exact mem_points_of_mem (mem_cons_self) ⟨by omega, by omega⟩
      · intro stream holds
        have head : (ringBufCpopRange s.qss.ringBuf h.start h.stop s.qss.cleanse).headOffset =
            s.qss.ringBuf.headOffset := by rw [result.head]; omega
        rw [result.ctail, head]
        refine result.holds ?_ (holds_mono ?_ holds)
        · intro x hx
          simp only [Set.mem_Ico] at hx
          have := ring.fits
          exact ⟨⟨by omega, by omega⟩, hx.1⟩
        · intro x hx
          simp only [Set.mem_Ico] at hx ⊢
          omega
    · rw [ringBufCpopRange, if_pos (.inl (by omega))]
      exact ⟨ring, rfl, culled, fun _ => id⟩

theorem markAcked_ok (ok : SstreamOk s) (valid : MarksInOrder s (.markAcked mem start stop)) :
    SstreamOk (applySstreamCall s (.markAcked mem start stop)) := by
  have others : ∀ x, start ≤ x → x ≤ stop → s.state x ≠ .new ∧ s.state x ≠ .acked := by
    intro x low high
    rw [(valid x low high).2]
    decide
  have size := ok.size
  rw [applySstreamCall, quicSstreamMarkAcked]
  rcases insert_disjoint mem (sstream_sets_ok ok).2 ok.ackedSep (marked_bound ok valid)
      (fun x low high here => (others x low high).2 ((ok.acked x).mp here).2) with
    failed | ⟨set', done, _, sep, grown⟩
  · rw [failed]
    exact ok
  · rw [done]
    simp only [Bool.true_eq_false, if_false, if_true]
    have acked : ∀ x, x ∈ points set' ↔ x < s.appended.length ∧
        setStates s.state start (stop + 1) .acked x = .acked := by
      intro x
      rw [grown x, ok.acked x]
      refine Iff.trans ?_ (setStates_iff valid x).symm
      have inside := valid x
      tauto
    obtain ⟨r, cull, ring, head, culled, keeps⟩ :=
      qssCull_ok (s := { s with qss := { s.qss with ackedSet := set' } }) ok.ring ok.quic sep
        (fun x hx => by have := ((acked x).mp hx).1; simp only; omega)
        (fun x hx => (grown x).mpr (.inl (ok.culled x hx)))
    rw [cull]
    refine ⟨ring, by simp only; rw [head]; exact ok.quic, head.trans ok.size, ok.newSep, sep,
      fun x => ?_, acked, culled, keeps _ ok.holds, ok.finished, ok.finAcked⟩
    rw [ok.new x]
    refine Iff.trans ?_ (setStates_iff valid x).symm
    simp only [reduceCtorEq, and_false, false_or]
    exact ⟨fun h => ⟨fun inside => (others x inside.1 inside.2).1 h.2, h⟩, And.right⟩

theorem appendRounds_wrote (ok : RingOk r) (quic : r.headOffset ≤ maxOffset) (rounds : Nat)
    (buf : List UInt8) (consumed : Nat) :
    ∃ n r', appendRounds rounds r buf consumed = (consumed + n, r') ∧ n ≤ buf.length ∧
      RingWrote r r' r.headOffset (buf.take n) ∧ r'.headOffset = r.headOffset + n ∧
      r'.headOffset ≤ maxOffset := by
  induction rounds generalizing r buf consumed with
  | zero => exact ⟨0, r, rfl, Nat.zero_le _, ringWrote_nothing ok _, rfl, quic⟩
  | succ i ih =>
    rw [appendRounds]
    split
    · exact ⟨0, r, rfl, Nat.zero_le _, ringWrote_nothing ok _, rfl, quic⟩
    · obtain ⟨count, wrote⟩ := ringBufPush_wrote ok quic buf
      have len := ringBufPushLen_eq ok quic buf.length
      rw [← count] at wrote len
      generalize ringBufPush r buf = pushed at count wrote len ⊢
      obtain ⟨m, r1⟩ := pushed
      simp only at count wrote len ⊢
      obtain ⟨given, room, below⟩ : m ≤ buf.length ∧
          r.headOffset + m ≤ r.ctailOffset + r.alloc ∧ r.headOffset + m ≤ maxOffset := by
        have := ok.fits
        omega
      have taken : (buf.take m).length = m := by rw [length_take]; omega
      have head : r1.headOffset = r.headOffset + m := by
        rw [wrote.head, taken]
        split <;> omega
      split
      · rename_i none
        exact ⟨0, r1, rfl, Nat.zero_le _, none ▸ wrote, by omega, by omega⟩
      · rename_i some
        obtain ⟨n, r2, run, short, more, head2, quic2⟩ :=
          ih wrote.ok (by omega) (buf.drop m) (consumed + m)
        rw [length_drop] at short
        refine ⟨m + n, r2, by rw [run, add_assoc], by omega, ?_, by omega, quic2⟩
        have both := ringWrote_trans wrote more (by omega) ok.ordered (by omega) (by omega)
        rwa [← take_add] at both

theorem setStates_nothing (state : Nat → ByteState) (start : Nat) (next : ByteState) :
    setStates state start start next = state := by
  funext x
  rw [setStates_eq, if_neg (by omega)]

/-- The bytes of a write at the head, and the live ones before it, are those of the
    longer stream. -/
theorem append_holds (ok : SstreamOk s) {bytes : List UInt8}
    (wrote : RingWrote s.qss.ringBuf r s.qss.ringBuf.headOffset bytes) :
    Holds r.alloc r.start (fun x => (s.appended ++ bytes).getD x 0)
      (Set.Ico s.qss.ringBuf.ctailOffset (s.qss.ringBuf.headOffset + bytes.length)) := by
  have size := ok.size
  have fits := ok.ring.fits
  have old : Holds s.qss.ringBuf.alloc s.qss.ringBuf.start
      (fun x => (s.appended ++ bytes).getD x 0)
      (Set.Ico s.qss.ringBuf.ctailOffset s.qss.ringBuf.headOffset) := by
    refine holds_congr ?_ ok.holds
    intro x hx
    have inside : x < s.appended.length := by rw [← size]; exact hx.2
    simp only [appendedAt, getD_eq_getElem?_getD, getElem?_append_left inside]
  have carries : Carries (fun x => (s.appended ++ bytes).getD x 0) s.qss.ringBuf.headOffset
      bytes := by
    intro i h
    simp only [size, getD_eq_getElem?_getD]
    rw [List.getElem?_append_right (by omega), Nat.add_sub_cancel_left,
      getElem?_eq_getElem h, getD_some]
  refine holds_mono ?_ (wrote.holds _ _ ?_ old carries)
  · intro x hx
    simp only [Set.mem_union, Set.mem_Ico] at hx ⊢
    omega
  · intro x hx
    simp only [Set.mem_Ico] at hx
    simp only [RingBuf.Window]
    omega

theorem append_ok (ok : SstreamOk s) (mem : Bool) (buf : List UInt8) :
    SstreamOk (applySstreamCall s (.append mem buf)) := by
  have size := ok.size
  have limit : maxOffset < 2 ^ 64 - 1 := by decide
  rw [applySstreamCall, quicSstreamAppend]
  by_cases finished : s.qss.haveFinalSize
  · rw [if_pos finished]
    simp only [take_zero, append_nil, add_zero, setStates_nothing]
    exact ok
  · rw [if_neg finished]
    obtain ⟨n, r, run, short, wrote, head, quic'⟩ :=
      appendRounds_wrote ok.ring ok.quic (buf.length + 1) buf 0
    have len : (buf.take n).length = n := by rw [length_take]; omega
    have holds := append_holds ok wrote
    rw [len] at holds
    rw [run]
    simp only [zero_add]
    by_cases some : 0 < n
    · rw [if_pos some, addU64_exact (by omega), subU64_exact (by omega) (by omega)]
      have fresh : ∀ x, s.qss.ringBuf.headOffset ≤ x → x ≤ s.qss.ringBuf.headOffset + n - 1 →
          x ∉ points s.qss.newSet := by
        intro x low _ here
        have := ((ok.new x).mp here).1
        omega
      rcases insert_disjoint mem (sstream_sets_ok ok).1 ok.newSep (fun _ => by omega) fresh with
        failed | ⟨set', done, _, sep, grown⟩
      · -- the bytes stay behind the restored head
        rw [failed]
        simp only [if_true, take_zero, append_nil, add_zero, setStates_nothing]
        refine { ok with
          ring := ⟨ok.ring.ordered, ok.ring.fits, ok.ring.headBound, ok.ring.allocBound⟩,
          holds := ?_ }
        rw [← wrote.alloc]
        refine holds_congr ?_ (holds_mono ?_ holds)
        · intro x hx
          have inside : x < s.appended.length := by rw [← size]; exact hx.2
          simp only [appendedAt, getD_eq_getElem?_getD, List.getElem?_append_left inside]
        · intro x hx
          simp only [Set.mem_Ico] at hx ⊢
          omega
      · rw [done]
        simp only [Bool.true_eq_false, if_false]
        have member : ∀ x state, (x < s.appended.length + n ∧
            setStates s.state s.appended.length (s.appended.length + n) .new x = state) ↔
            (s.appended.length ≤ x ∧ x < s.appended.length + n ∧ ByteState.new = state) ∨
              (x < s.appended.length ∧ s.state x = state) := by
          intro x state
          rw [setStates_eq]
          split_ifs with inside
          · simp only [inside, true_and, Nat.not_lt.mpr inside.1, false_and, or_false]
          · simp only [← and_assoc, inside, false_and, false_or]
            exact and_congr_left fun _ => by omega
        refine ⟨wrote.ok, by omega, ?_, sep, ok.ackedSep, fun x => ?_, fun x => ?_, ?_, ?_,
          ok.finished, ok.finAcked⟩
        · simp only [length_append, len]; omega
        · simp only [length_append, len]
          have range : (s.qss.ringBuf.headOffset ≤ x ∧ x ≤ s.qss.ringBuf.headOffset + n - 1) ↔
              (s.appended.length ≤ x ∧ x < s.appended.length + n) := by omega
          rw [grown x, ok.new x, member x .new, range]
          simp only [and_true]
          exact or_comm
        · simp only [length_append, len]
          rw [ok.acked x, member x .acked]
          simp only [reduceCtorEq, and_false, false_or]
        · simp only [wrote.ctail]; exact ok.culled
        · simp only [wrote.ctail, head]; exact holds
    · rw [if_neg some]
      have none : n = 0 := by omega
      subst none
      simp only [take_zero, append_nil, add_zero, setStates_nothing] at holds ⊢
      refine ⟨wrote.ok, by omega, by simp only; omega, ok.newSep, ok.ackedSep, ok.new, ok.acked,
        ?_, ?_, ok.finished, ok.finAcked⟩
      · simp only [wrote.ctail]; exact ok.culled
      · simp only [wrote.ctail, head]; exact holds

theorem setBufferSize_ok (ok : SstreamOk s) (mem : Bool) {numBytes : Nat}
    (bound : numBytes < 2 ^ 64) : SstreamOk (applySstreamCall s (.setBufferSize mem numBytes)) := by
  rw [applySstreamCall, quicSstreamSetBufferSize]
  rcases ringBufResize_resized ok.ring ok.quic mem bound with failed | ⟨r, done, resized⟩
  · rw [failed]
    exact ok
  · rw [done]
    refine ⟨resized.ok, by simp only [resized.head]; exact ok.quic, resized.head.trans ok.size,
      ok.newSep, ok.ackedSep, ok.new, ok.acked, ?_, ?_, ok.finished, ok.finAcked⟩
    · simp only [resized.ctail]; exact ok.culled
    · simp only [resized.ctail, resized.head]
      exact resized.holds (fun _ hx => hx) ok.holds

theorem flags_ok (ok : SstreamOk s) {finished finAcked : Bool}
    (ringBuf : qss.ringBuf = s.qss.ringBuf) (newSet : qss.newSet = s.qss.newSet)
    (ackedSet : qss.ackedSet = s.qss.ackedSet) (final : qss.haveFinalSize = finished)
    (acked : qss.ackedFinalSize = finAcked) :
    SstreamOk { s with qss := qss, finished := finished, finAcked := finAcked } := by
  refine ⟨?_, ?_, ?_, ?_, ?_, ?_, ?_, ?_, ?_, final, acked⟩ <;>
    simp only [ringBuf, newSet, ackedSet]
  · exact ok.ring
  · exact ok.quic
  · exact ok.size
  · exact ok.newSep
  · exact ok.ackedSep
  · exact ok.new
  · exact ok.acked
  · exact ok.culled
  · exact ok.holds

theorem applySstreamCall_ok (s : TracedSstream) (call : SstreamCall) (ok : SstreamOk s)
    (valid : MarksInOrder s call) : SstreamOk (applySstreamCall s call) := by
  cases call with
  | append mem buf => exact append_ok ok mem buf
  | markTransmitted start stop => exact markTransmitted_ok ok valid
  | markLost mem start stop => exact markLost_ok ok valid
  | markAcked mem start stop => exact markAcked_ok ok valid
  | setBufferSize mem numBytes => exact setBufferSize_ok ok mem valid
  | setCleanse cleanse => exact flags_ok ok rfl rfl rfl ok.finished ok.finAcked
  | markTransmittedFin finalSize =>
    rw [applySstreamCall, quicSstreamMarkTransmittedFin]
    split
    · exact ok
    · exact flags_ok ok rfl rfl rfl ok.finished ok.finAcked
  | markLostFin =>
    rw [applySstreamCall, quicSstreamMarkLostFin]
    split
    · exact ok
    · exact flags_ok ok rfl rfl rfl ok.finished ok.finAcked
  | markAckedFin =>
    rw [applySstreamCall, quicSstreamMarkAckedFin]
    split
    · simp only [Bool.or_false]
      exact ok
    · simp only [Bool.or_true]
      exact flags_ok ok rfl rfl rfl ok.finished rfl
  | fin =>
    rw [applySstreamCall, quicSstreamFin]
    split
    · rename_i final
      exact flags_ok ok rfl rfl rfl final ok.finAcked
    · exact flags_ok ok rfl rfl rfl rfl ok.finAcked

theorem quicSstreamNew_ok {initBufSize : Nat} (bound : initBufSize < 2 ^ 64)
    (created : quicSstreamNew mem initBufSize = some qss) : SstreamOk (freshSstream qss) := by
  rw [quicSstreamNew] at created
  rcases ringBufResize_resized ringBufInit_ok (by decide) mem bound with failed | ⟨r, done, resized⟩
  · simp [failed] at created
  · simp only [done, Bool.true_eq_false, if_false, Option.some.injEq] at created
    subst created
    have head : r.headOffset = 0 := resized.head
    have ctail : r.ctailOffset = 0 := resized.ctail
    refine ⟨resized.ok, ?_, ?_, separated_nil, separated_nil, ?_, ?_, ?_, ?_, rfl, rfl⟩ <;>
      simp only [freshSstream, head, ctail]
    · decide
    · rfl
    · simp
    · simp
    · intro x hx; omega
    · intro x hx; simp at hx

/-- The IO vectors cover the range, and the buffer wraps at most once on the way. -/
theorem frameRounds_covers (ok : RingOk r) (quic : r.headOffset ≤ maxOffset)
    {stream : Nat → UInt8}
    (holds : Holds r.alloc r.start stream (Set.Ico r.ctailOffset r.headOffset))
    (rounds start maxLen totalLen : Nat) (low : r.ctailOffset ≤ start)
    (high : start + maxLen ≤ r.headOffset) (part : totalLen ≤ maxLen)
    (enough : maxLen < totalLen + rounds) :
    ∃ iov, frameRounds rounds r start maxLen totalLen = some iov ∧
      (iov.map length).sum = maxLen - totalLen ∧
      Carries stream (start + totalLen) iov.flatten ∧ iov.length ≤ 2 ∧
      (maxLen - totalLen ≤ r.alloc - (start + totalLen) % r.alloc → iov.length ≤ 1) := by
  induction rounds generalizing totalLen with
  | zero => omega
  | succ i ih =>
    have limit : maxOffset < 2 ^ 64 := by decide
    have fits := ok.fits
    rw [frameRounds]
    by_cases all : maxLen ≤ totalLen
    · rw [if_pos all]
      exact ⟨[], rfl, by simp; omega, carries_nil _ _, by simp, by simp⟩
    · rw [if_neg all, addU64_exact (by omega), ringBufGetBufAt, if_neg (by omega), if_neg (by omega),
        subU64_exact ok.headBound (by omega)]
      simp only
      have positive : 0 < r.alloc := by omega
      have idx := Nat.mod_lt (start + totalLen) positive
      have wraps := next_first_cell (start + totalLen) positive
      generalize hn : min (r.headOffset - (start + totalLen))
        (r.alloc - (start + totalLen) % r.alloc) = srcLen
      rw [if_neg (by omega), addU64_exact (by omega)]
      generalize hm : (if maxLen < totalLen + srcLen then maxLen - totalLen else srcLen) = m
      have least : m = min srcLen (maxLen - totalLen) := by split_ifs at hm <;> omega
      obtain ⟨some_, within, cell, ends⟩ : 0 < m ∧ totalLen + m ≤ maxLen ∧
          (start + totalLen) % r.alloc + m ≤ r.alloc ∧
          (totalLen + m = maxLen ∨ (start + totalLen) % r.alloc + m = r.alloc) := by omega
      obtain ⟨iov, run, total, carries, two, one⟩ := ih (totalLen + m) (by omega) (by omega)
      rw [run]
      have first : Carries stream (start + totalLen)
          (readCells r.start ((start + totalLen) % r.alloc) m) := by
        refine ring_read_carries holds _ _ (by omega) ?_
        intro x from_ upTo
        exact ⟨by omega, by omega⟩
      have last : maxLen - totalLen ≤ r.alloc - (start + totalLen) % r.alloc → iov = [] := by
        intro near
        have done : maxLen ≤ totalLen + m := by omega
        cases i with
        | zero => simpa [frameRounds] using run.symm
        | succ j => simpa [frameRounds, done] using run.symm
      refine ⟨_, rfl, ?_, ?_, ?_, ?_⟩
      · simp only [map_cons, sum_cons, readCells_length, total]; omega
      · rw [flatten_cons, carries_append, readCells_length]
        exact ⟨first, by rw [add_assoc]; exact carries⟩
      · -- past the last cell the rest of the range starts at the first one
        by_cases near : maxLen - totalLen ≤ r.alloc - (start + totalLen) % r.alloc
        · rw [last near]; simp
        · have full : m = r.alloc - (start + totalLen) % r.alloc := by omega
          have zero : (start + (totalLen + m)) % r.alloc = 0 := by
            rw [← add_assoc, full]; exact wraps
          simp only [length_cons]; omega
      · intro near
        rw [last near]; simp

/-- The frame that carries a whole range of the stream. -/
structure FrameOfRange (s : TracedSstream) (range : Span Nat) (frame : StreamFrameOut) : Prop where
  offset : frame.offset = range.start
  len : frame.len = range.stop + 1 - range.start
  bytes : frame.iov.flatten = (s.appended.drop range.start).take frame.len
  vectors : frame.iov.length ≤ 2
  isFin : frame.isFin = true ↔ s.finished = true ∧ range.stop + 1 = s.appended.length

theorem getStreamFrame_range (ok : SstreamOk s) (vectors : 2 ≤ numIov) {range : Span Nat}
    (here : s.qss.newSet[skip]? = some range) :
    ∃ frame, quicSstreamGetStreamFrame s.qss skip numIov = some frame ∧
      FrameOfRange s range frame := by
  have size := ok.size
  have quic := ok.quic
  have limit : maxOffset < 2 ^ 64 - 1 := by decide
  have member : range ∈ s.qss.newSet := mem_of_getElem? here
  have valid := ok.newSep.nonempty range member
  have new : ∀ x, range.start ≤ x → x ≤ range.stop → x < s.appended.length ∧ s.state x = .new :=
    fun x low high => (ok.new x).mp (mem_points_of_mem member ⟨low, high⟩)
  have top := (new range.stop valid (le_refl _)).1
  have live : s.qss.ringBuf.ctailOffset ≤ range.start := by
    by_contra culled
    have acked := ((ok.acked range.start).mp (ok.culled range.start (by omega))).2
    rw [(new range.start (le_refl _) valid).2] at acked
    simp at acked
  rw [quicSstreamGetStreamFrame, if_neg (by omega)]
  simp only [here]
  rw [subU64_exact (by omega) valid, addU64_exact (by omega)]
  obtain ⟨iov, run, total, carries, two, _⟩ := frameRounds_covers ok.ring quic ok.holds
    (range.stop - range.start + 1 + 1) range.start (range.stop - range.start + 1) 0 live (by omega)
    (by omega) (by omega)
  rw [run]
  have len : iov.flatten.length = range.stop - range.start + 1 := by
    rw [length_flatten, total, Nat.sub_zero]
  refine ⟨_, rfl, rfl, by simp only; omega, ?_, two, ?_⟩
  · refine carries_unique carries ?_ ?_
    · intro i h
      rw [length_take, length_drop] at h
      rw [getElem_take, getElem_drop, appendedAt, getD_eq_getElem?_getD,
        getElem?_eq_getElem (by omega), getD_some]
      simp only [add_zero]
    · rw [len, length_take, length_drop]
      simp only
      omega
  · rw [addU64_exact (by omega), Bool.and_eq_true, decide_eq_true_eq, ok.finished, size]
    exact and_congr_right fun _ => by omega

theorem getStreamFrame_past (ok : SstreamOk s) (past : s.qss.newSet.length ≤ skip)
    {frame : StreamFrameOut} (run : quicSstreamGetStreamFrame s.qss skip numIov = some frame) :
    skip = s.qss.newSet.length ∧ s.finished = true ∧ frame = ⟨s.appended.length, 0, true, []⟩ := by
  rw [quicSstreamGetStreamFrame, List.getElem?_eq_none past] at run
  simp only [ok.finished, ok.size] at run
  split_ifs at run with _ far final
  obtain rfl := some.inj run
  simp only [not_or, Bool.not_eq_false] at final
  exact ⟨by omega, final.1, rfl⟩

theorem isTotallyAcked_iff (ok : SstreamOk s) : quicSstreamIsTotallyAcked s.qss = true ↔
      (∀ x < s.appended.length, s.state x = .acked) ∧ (s.finished = true → s.finAcked = true) := by
  have size := ok.size
  have quic := ok.quic
  have limit : maxOffset < 2 ^ 64 - 1 := by decide
  have whole : quicSstreamGetCurSize s.qss = s.appended.length := size
  rw [quicSstreamIsTotallyAcked, ok.finished, ok.finAcked, whole]
  by_cases open_ : s.finished = true ∧ s.finAcked = false
  · rw [if_pos open_]
    simp [open_]
  · rw [if_neg open_]
    have fin : s.finished = true → s.finAcked = true := by
      intro finished
      cases acked : s.finAcked with
      | false => exact absurd ⟨finished, acked⟩ open_
      | true => rfl
    by_cases empty : s.appended.length = 0
    · rw [if_pos empty]
      simp only [true_iff]
      exact ⟨fun x hx => by omega, fin⟩
    · rw [if_neg empty]
      constructor
      · intro single
        split at single
        · rename_i r sets
          simp only [decide_eq_true_eq] at single
          have stop : r.stop < s.appended.length := by
            have valid := ok.ackedSep.nonempty r (by simp [sets])
            exact ((ok.acked r.stop).mp (by simp [sets, Span.Contains, valid])).1
          rw [addU64_exact (by omega)] at single
          refine ⟨fun x hx => ((ok.acked x).mp ?_).2, fin⟩
          simp only [sets, mem_points_cons, Span.Contains]
          exact .inl ⟨by omega, by omega⟩
        · simp at single
      · rintro ⟨all, _⟩
        have interval : points s.qss.ackedSet = Set.Icc 0 (s.appended.length - 1) := by
          ext x
          rw [ok.acked x, Set.mem_Icc]
          refine ⟨fun h => by omega, fun h => ?_⟩
          have inside : x < s.appended.length := by omega
          exact ⟨inside, all x inside⟩
        rw [separated_interval ok.ackedSep (Nat.zero_le _) interval]
        simp only [decide_eq_true_eq, true_and]
        rw [addU64_exact (by omega)]
        omega

theorem unacked_held (ok : SstreamOk s) {x : Nat} (inside : x < s.appended.length)
    (unacked : s.state x ≠ .acked) : ∃ idx room, ringBufGetPtr s.qss.ringBuf x = some (idx, room) ∧
      s.qss.ringBuf.start idx = appendedAt s x := by
  have size := ok.size
  have live : s.qss.ringBuf.ctailOffset ≤ x := by
    by_contra culled
    exact unacked ((ok.acked x).mp (ok.culled x (by omega))).2
  refine ⟨_, _, by rw [ringBufGetPtr, if_neg (by omega)], ?_⟩
  exact ok.holds x ⟨live, by omega⟩

/- Where there is memory for the range, bytes are appended until the stream is finished, and marks on
   some bytes succeed. -/
def CallSucceeds (s : TracedSstream) : SstreamCall → Prop
  | .append true buf => (quicSstreamAppend true s.qss buf).1 = !s.finished
  | .markTransmitted start stop =>
    start ≤ stop → (quicSstreamMarkTransmitted s.qss start stop).1 = true
  | .markLost true start stop => start ≤ stop → (quicSstreamMarkLost true s.qss start stop).1 = true
  | .markAcked true start stop =>
    start ≤ stop → (quicSstreamMarkAcked true s.qss start stop).1 = true
  | _ => True

theorem insert_succeeds {set : UintSet} (ok : UintSetOk set) (some : start ≤ stop)
    (bound : stop < 2 ^ 64) : (uintSetInsert true set ⟨start, stop⟩).1 = true := by
  rcases uintSetInsert_outcome true (r := ⟨start, stop⟩) ok ⟨some, bound⟩ with ⟨_, none_, _⟩ | ⟨done, _⟩
  · contradiction
  · exact done

theorem append_succeeds (ok : SstreamOk s) (buf : List UInt8) :
    (quicSstreamAppend true s.qss buf).1 = !s.finished := by
  rw [← ok.finished, quicSstreamAppend]
  by_cases finished : s.qss.haveFinalSize = true
  · rw [if_pos finished, finished]
    rfl
  · have limit : maxOffset < 2 ^ 64 - 1 := by decide
    obtain ⟨n, r, run, _, _, head, quic⟩ :=
      appendRounds_wrote ok.ring ok.quic (buf.length + 1) buf 0
    rw [if_neg finished, run, Bool.eq_false_iff.mpr finished]
    dsimp only
    by_cases some : 0 < 0 + n
    · have done := insert_succeeds (sstream_sets_ok ok).1
        (by omega : s.qss.ringBuf.headOffset ≤ s.qss.ringBuf.headOffset + (0 + n) - 1) (by omega)
      rw [if_pos some, addU64_exact (by omega), subU64_exact (by omega) (by omega), done]
      rfl
    · rw [if_neg some]
      rfl

theorem call_succeeds (ok : SstreamOk s) {call : SstreamCall} (valid : MarksInOrder s call) :
    CallSucceeds s call := by
  cases call with
  | append mem buf =>
    cases mem with
    | true => exact append_succeeds ok buf
    | false => trivial
  | markTransmitted start stop =>
    intro some
    obtain ⟨kept, _, run⟩ := uintSetRemove_kept (r := ⟨start, stop⟩) (sstream_sets_ok ok).1
      ⟨some, marked_bound ok valid some⟩
    rw [quicSstreamMarkTransmitted, run]
  | markLost mem start stop =>
    cases mem with
    | true =>
      intro some
      exact insert_succeeds (sstream_sets_ok ok).1 some (marked_bound ok valid some)
    | false => trivial
  | markAcked mem start stop =>
    cases mem with
    | true =>
      intro some
      have done := insert_succeeds (sstream_sets_ok ok).2 some (marked_bound ok valid some)
      rw [quicSstreamMarkAcked, done]
      rfl
    | false => trivial
  | _ => trivial

/-- In every run with its marks in order each appended byte has the state that the sets give it and
    is held until acknowledged, the frames are those of the maximal new ranges, the stream is totally
    acknowledged when its bytes and its end are, and the calls succeed. -/
theorem sstream_keeps_bytes {mem : Bool} {initBufSize : Nat} (bound : initBufSize < 2 ^ 64)
    {qss : QuicSstream} (created : quicSstreamNew mem initBufSize = some qss)
    (calls : List SstreamCall)
    (inOrder : Admissible applySstreamCall MarksInOrder (freshSstream qss) calls) :
    let s := run applySstreamCall (freshSstream qss) calls
    (∀ x, (x ∈ points s.qss.newSet ↔ x < s.appended.length ∧ s.state x = .new) ∧
      (x ∈ points s.qss.ackedSet ↔ x < s.appended.length ∧ s.state x = .acked)) ∧
    (∀ x < s.appended.length, s.state x ≠ .acked →
      ∃ idx room, ringBufGetPtr s.qss.ringBuf x = some (idx, room) ∧
        s.qss.ringBuf.start idx = appendedAt s x) ∧
    (∃ ranges : List (Span Nat), Separated ranges ∧
      (∀ x, x ∈ points ranges ↔ x < s.appended.length ∧ s.state x = .new) ∧
      ∀ skip numIov, 2 ≤ numIov →
        (∀ range, ranges[skip]? = some range →
          ∃ frame, quicSstreamGetStreamFrame s.qss skip numIov = some frame ∧
            FrameOfRange s range frame) ∧
        (ranges.length ≤ skip → ∀ frame, quicSstreamGetStreamFrame s.qss skip numIov = some frame →
            skip = ranges.length ∧ s.finished = true ∧ frame = ⟨s.appended.length, 0, true, []⟩)) ∧
    (quicSstreamIsTotallyAcked s.qss = true ↔
      (∀ x < s.appended.length, s.state x = .acked) ∧ (s.finished = true → s.finAcked = true)) ∧
    ∀ call, MarksInOrder s call → CallSucceeds s call := by
  intro s
  have ok : SstreamOk s :=
    run_invariant applySstreamCall_ok (quicSstreamNew_ok bound created) inOrder
  refine ⟨fun x => ⟨ok.new x, ok.acked x⟩, fun x inside => unacked_held ok inside,
    ⟨s.qss.newSet, ok.newSep, ok.new, ?_⟩, isTotallyAcked_iff ok, fun _ => call_succeeds ok⟩
  intro skip numIov vectors
  exact ⟨fun range => getStreamFrame_range ok vectors,
    fun past frame => getStreamFrame_past ok past⟩

/- Two bytes of a buffer of four are acknowledged, and the bytes appended after that
   pass the last cell. -/
def wrappedCalls : List SstreamCall :=
  [.append true [1, 2, 3], .markTransmitted 0 1, .markAcked true 0 1, .append true [4, 5, 6], .fin]

def emptySstream : QuicSstream := ⟨⟨fun _ => 0, 4, 0, 0⟩, [], [], false, false, false, false⟩

theorem sstream_keeps_bytes_wrapped :
    ∃ idx room,
      ringBufGetPtr (run applySstreamCall (freshSstream emptySstream) wrappedCalls).qss.ringBuf 5 =
        some (idx, room) ∧
      (run applySstreamCall (freshSstream emptySstream) wrappedCalls).qss.ringBuf.start idx =
        6 := by
  have sent : ∀ x, 0 ≤ x → x ≤ 1 → x = 0 ∨ x = 1 := fun x _ high => by omega
  refine (sstream_keeps_bytes (by decide : 4 < 2 ^ 64) (rfl : quicSstreamNew true 4 = some emptySstream)
    wrappedCalls ⟨trivial, ?_, ?_, trivial, trivial, trivial⟩).2.1 5 (by decide) (by decide)
  · intro x low high
    rcases sent x low high with rfl | rfl <;> exact ⟨by decide, by decide⟩
  · intro x low high
    rcases sent x low high with rfl | rfl <;> exact ⟨by decide, by decide⟩

end Ossl
