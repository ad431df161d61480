import OpenSSL.Quic.RStream

/- What the operations of the receive stream do to the data it holds, measured
   against the peer's byte stream. -/
namespace Ossl
open List RingWindow

def frontier (start : Nat) : List StreamFrame → Nat
  | [] => start
  | f :: next => if start < f.range.start then start else frontier f.range.stop next

variable {off size start : Nat} {frames : List StreamFrame} {stream : Nat → UInt8} {r r' : RingBuf}
    {f : StreamFrame} {qrs : QuicRstream}

theorem frontier_low (ahead : ∀ f ∈ frames, start < f.range.stop) (sorted : FramesSorted frames) :
    start ≤ frontier start frames := by
  induction frames generalizing start with
  | nil => exact le_refl _
  | cons f next ih =>
    obtain ⟨first, tail⟩ := framesSorted_cons.mp sorted
    rw [frontier]
    split
    · exact le_refl _
    · have := ih (fun g hg => (first g hg).2) tail
      have := ahead f (by simp)
      omega

/-- Every offset up to the frontier is covered, and the frontier is not. -/
theorem frontier_covers (ahead : ∀ f ∈ frames, start < f.range.stop)
    (sorted : FramesSorted frames) :
    (∀ x, start ≤ x → x < frontier start frames → x ∈ covered frames) ∧
      frontier start frames ∉ covered frames := by
  induction frames generalizing start with
  | nil => simp [frontier]
  | cons f next ih =>
    obtain ⟨first, tail⟩ := framesSorted_cons.mp sorted
    have after : ∀ g ∈ next, f.range.stop < g.range.stop := fun g hg => (first g hg).2
    rw [frontier]
    split
    · rename_i gap
      refine ⟨fun x low high => by omega, ?_⟩
      rintro ⟨g, hg, low, _⟩
      rcases mem_cons.mp hg with same | hg
      · subst same; omega
      · have := first g hg; omega
    · rename_i joined
      obtain ⟨below, top⟩ := ih after tail
      have low := frontier_low after tail
      refine ⟨fun x hx high => ?_, ?_⟩
      · rw [mem_covered_cons]
        by_cases inside : x < f.range.stop
        · exact .inl ⟨by omega, inside⟩
        · exact .inr (below x (by omega) high)
      · rw [mem_covered_cons, not_or]
        exact ⟨by omega, top⟩

theorem frontier_top {top : Nat} (base : start ≤ top) (all : ∀ f ∈ frames, f.range.stop ≤ top) :
    frontier start frames ≤ top := by
  induction frames generalizing start with
  | nil => exact base
  | cons f next ih =>
    rw [frontier]
    split
    · exact base
    · exact ih (all f (by simp)) (fun g hg => all g (by simp [hg]))

/-- The ring buffer holds the byte of the stream at the offset. -/
def RingHas (stream : Nat → UInt8) (r : RingBuf) (x : Nat) : Prop :=
  (r.ctailOffset ≤ x ∧ x < r.headOffset) ∧ r.start (x % r.alloc) = stream x

/-- The data of the frame from the offset on is that of the stream, in the frame
    or in the ring buffer. -/
structure FrameHolds (stream : Nat → UInt8) (off : Nat) (r : RingBuf) (f : StreamFrame) :
    Prop where
  own : ∀ d ∈ f.data, d.length = f.range.stop - f.range.start ∧ Carries stream f.range.start d
  side : f.data = none → ∀ x, off ≤ x → f.range.start ≤ x → x < f.range.stop → RingHas stream r x

theorem frameHolds_mono {off' : Nat} (later : off ≤ off')
    (keeps : ∀ x, off' ≤ x → RingHas stream r x → RingHas stream r' x)
    (holds : FrameHolds stream off r f) : FrameHolds stream off' r' f :=
  ⟨holds.own, fun moved x low start stop =>
    keeps x low (holds.side moved x (by omega) start stop)⟩

variable {l x : Nat}

theorem ringWrote_has {bytes : List UInt8} (ok : RingOk r) (wrote : RingWrote r r' off bytes)
    (carries : Carries stream off bytes) (low : r.ctailOffset ≤ off)
    (here : RingHas stream r x ∨ off ≤ x ∧ x < off + bytes.length) : RingHas stream r' x := by
  have fits := ok.fits
  have grown := wrote.holds stream {x | RingHas stream r x}
    (fun x hx => ⟨hx.1.1, by have := hx.1.2; omega⟩) (fun x hx => hx.2) carries
  refine ⟨?_, grown x (here.imp id id)⟩
  have head := wrote.head
  have tail := wrote.ctail
  rcases here with old | new
  · have := old.1
    split at head <;> omega
  · split at head <;> omega

theorem ringCulled_has {tail : Nat} (ok : RingOk r) (culled : RingCulled r r' tail)
    (past : tail ≤ x) (here : RingHas stream r x) : RingHas stream r' x := by
  have fits := ok.fits
  refine ⟨by rw [culled.ctail, culled.head]; have := here.1; omega, ?_⟩
  refine culled.holds (P := {x}) ?_ ?_ x rfl
  · rintro y rfl
    exact ⟨⟨here.1.1, by have := here.1.2; omega⟩, past⟩
  · rintro y rfl
    exact here.2

/-- The two-part fetch returns the bytes of the stream. -/
theorem fetchRing_carries (ok : RingOk r) (positiveLen : 0 < l)
    (has : ∀ x, start ≤ x → x < start + l → RingHas stream r x) :
    ∃ bytes, fetchRing r start l = some bytes ∧ bytes.length = l ∧ Carries stream start bytes := by
  have first := (has start (by omega) (by omega)).1
  have last := (has (start + l - 1) (by omega) (by omega)).1
  have fits := ok.fits
  have headBound := ok.headBound
  have positive : 0 < r.alloc := by omega
  have idx := Nat.mod_lt start positive
  have holds : Holds r.alloc r.start stream (Set.Ico start (start + l)) :=
    fun x hx => (has x hx.1 hx.2).2
  have inside : ∀ off len, start ≤ off → off + len ≤ start + l →
      ∀ x, off ≤ x → x < off + len → x ∈ Set.Ico start (start + l) :=
    fun off len low high x _ _ => ⟨by omega, by omega⟩
  rw [fetchRing, ringBufGetPtr, if_neg (by omega)]
  simp only
  split
  · rename_i wraps
    rw [addU64_exact (by omega), ringBufGetPtr, if_neg (by omega), next_first_cell _ positive]
    simp only
    rw [if_neg (by omega)]
    refine ⟨_, rfl, ?_, carries_append.mpr ⟨?_, ?_⟩⟩
    · rw [length_append, readCells_length, readCells_length]; omega
    · exact ring_read_carries holds _ _ (by omega) (inside _ _ (by omega) (by omega))
    · rw [readCells_length]
      have second := ring_read_carries holds (start + (r.alloc - start % r.alloc))
        (l - (r.alloc - start % r.alloc)) (by rw [next_first_cell _ positive]; omega)
        (inside _ _ (by omega) (by omega))
      rwa [next_first_cell _ positive] at second
  · exact ⟨_, rfl, readCells_length _ _ _, ring_read_carries holds _ _ (by omega)
      (inside _ _ (by omega) (by omega))⟩

/-- A list of frames that lie past the offset, in order, with their data held. -/
structure FramesHeld (stream : Nat → UInt8) (size off : Nat) (r : RingBuf)
    (frames : List StreamFrame) : Prop where
  sorted : FramesSorted frames
  valid : ∀ f ∈ frames, f.range.start ≤ f.range.stop
  ahead : ∀ f ∈ frames, off < f.range.stop
  inside : ∀ f ∈ frames, f.range.stop ≤ size
  holds : ∀ f ∈ frames, FrameHolds stream off r f

def lastStop (start : Nat) : List StreamFrame → Nat
  | [] => start
  | f :: next => lastStop f.range.stop next

theorem currEnd_eq_lastStop (fl : SframeList) : sframeCurrEnd fl = lastStop fl.offset fl.frames := by
  have concat : ∀ start init tail, lastStop start (init ++ [tail]) = tail.range.stop := by
    intro start init tail
    induction init generalizing start with
    | nil => rfl
    | cons f rest ih => exact ih f.range.stop
  rcases eq_nil_or_concat' fl.frames with empty | ⟨init, tail, split⟩
  · simp [sframeCurrEnd, empty, lastStop]
  · rw [currEnd_of_last split, split, concat]

theorem lastStop_top (start : Nat) (sorted : FramesSorted frames) (member : f ∈ frames) :
    f.range.stop ≤ lastStop start frames := by
  induction frames generalizing start f with
  | nil => simp at member
  | cons g next ih =>
    obtain ⟨first, tail⟩ := framesSorted_cons.mp sorted
    rw [lastStop]
    cases next with
    | nil =>
      rw [mem_singleton] at member
      exact member ▸ le_refl _
    | cons h rest =>
      have top : h.range.stop ≤ _ := ih g.range.stop tail (by simp)
      rcases mem_cons.mp member with same | later
      · have := first h (by simp); subst same; omega
      · exact ih g.range.stop tail later

theorem framesHeld_cons {next : List StreamFrame}
    (held : FramesHeld stream size off r (f :: next)) :
    FramesHeld stream size off r next ∧ ∀ g ∈ next, f.range.stop < g.range.stop := by
  obtain ⟨first, tail⟩ := framesSorted_cons.mp held.sorted
  exact ⟨⟨tail, fun g hg => held.valid g (by simp [hg]), fun g hg => held.ahead g (by simp [hg]),
    fun g hg => held.inside g (by simp [hg]), fun g hg => held.holds g (by simp [hg])⟩,
    fun g hg => (first g hg).2⟩

theorem frame_fetch (ok : RingOk r) (holds : FrameHolds stream off r f) (later : off ≤ start)
    (begun : f.range.start ≤ start) (positiveLen : 0 < l) (inside : start + l ≤ f.range.stop) :
    ∃ bytes, fetchBytes r (f.data.map (drop (start - f.range.start))) start l = some bytes ∧
      bytes.length = l ∧ Carries stream start bytes := by
  cases place : f.data with
  | none =>
    exact fetchRing_carries ok positiveLen
      (fun x low high => holds.side place x (by omega) (by omega) (by omega))
  | some data =>
    obtain ⟨len, carries⟩ := holds.own data place
    have skipped := carries_drop (n := start - f.range.start) carries
    rw [Nat.add_sub_cancel' begun] at skipped
    exact ⟨_, rfl, by rw [length_take, length_drop]; omega, carries_take l skipped⟩

/-- What the loop of read_internal gathers from the frames from start on. -/
structure ReadRun (stream : Nat → UInt8) (fin : Bool) (start : Nat) (frames : List StreamFrame)
    (size : Nat) (acc got : Gathered) : Prop where
  bytes : ∃ bytes, got.bytes = acc.bytes ++ bytes ∧ Carries stream start bytes ∧
    bytes.length = min size (frontier start frames - start) ∧
    got.offset = (if frontier start frames = start then acc.offset else start + bytes.length) ∧
    (got.fin = true ↔ fin = true ∧ start + bytes.length = lastStop start frames)
  broken : got.broken = acc.broken

theorem readRounds_run {total : Nat} (start size rounds : Nat) {rbuf : RingBuf} {fl : SframeList}
    (iter : Option SframeIter) (acc : Gathered) (ok : RingOk rbuf) (bound : total < 2 ^ 63)
    (held : FramesHeld stream total off rbuf frames) (later : off ≤ start)
    (ahead : ∀ f ∈ frames, start < f.range.stop)
    (here : sframeListPeek fl iter = peekFrames fl.fin start frames)
    (enough : frames.length < rounds) : ∃ got, readRounds rounds rbuf fl iter size acc = some got ∧
      ReadRun stream fl.fin start frames size acc got := by
  induction frames generalizing start iter size acc rounds with
  | nil =>
    obtain ⟨i, rfl⟩ : ∃ i, rounds = i + 1 := ⟨rounds - 1, by simp at enough; omega⟩
    refine ⟨{ acc with fin := fl.fin }, by rw [readRounds, here]; rfl, ⟨[], ?_⟩, rfl⟩
    simp [frontier, lastStop, carries_nil]
  | cons f next ih =>
    obtain ⟨i, rfl⟩ : ∃ i, rounds = i + 1 := ⟨rounds - 1, by simp at enough; omega⟩
    obtain ⟨heldNext, after⟩ := framesHeld_cons held
    have stops := ahead f (by simp)
    have top := held.inside f (by simp)
    have last := lastStop_top start held.sorted (mem_cons_self : f ∈ f :: next)
    rw [readRounds, here, peekFrames]
    by_cases gap : start < f.range.start
    · rw [if_pos gap]
      refine ⟨{ acc with fin := false }, rfl, ⟨[], ?_⟩, rfl⟩
      simp only [frontier, if_pos gap, append_nil, carries_nil, length_nil, Nat.sub_self,
        Nat.min_zero, if_true, true_and, Bool.false_eq_true, false_iff, not_and]
      omega
    · rw [if_neg gap, if_neg (by omega)]
      have front : frontier start (f :: next) = frontier f.range.stop next := by
        rw [frontier, if_neg gap]
      have reach := frontier_low after heldNext.sorted
      simp only
      rw [subU64_exact (by omega) (by omega)]
      generalize isPiece : f.range.stop - start = piece
      have joint : start + piece = f.range.stop := by omega
      by_cases short : size < piece
      · simp only [if_pos short]
        rw [addU64_exact (by omega)]
        by_cases zero : size = 0
        · rw [if_pos zero]
          refine ⟨_, rfl, ⟨[], ?_⟩, rfl⟩
          simp only [front, zero, append_nil, carries_nil, length_nil, Nat.zero_min,
            true_and, Bool.false_eq_true, false_iff, not_and]
          exact ⟨by rw [if_neg (by omega)], by omega⟩
        · rw [if_neg zero]
          obtain ⟨bytes, fetched, len, carries⟩ :=
            frame_fetch ok (held.holds f (by simp)) later (by omega) (by omega : 0 < size) (by omega)
          rw [fetched]
          simp only [Nat.sub_self, if_true]
          refine ⟨_, rfl, ⟨bytes, rfl, carries, ?_⟩, rfl⟩
          simp only [front, len, Bool.false_eq_true, false_iff, not_and]
          exact ⟨by omega, by rw [if_neg (by omega)], by omega⟩
      · simp only [if_neg short]
        rw [addU64_exact (by omega), if_neg (by omega)]
        obtain ⟨bytes, fetched, len, carries⟩ := frame_fetch ok (held.holds f (by simp)) later
          (by omega) (by omega : 0 < piece) (by omega)
        rw [fetched]
        simp only
        by_cases full : size - (piece) = 0
        · rw [if_pos full]
          refine ⟨_, rfl, ⟨bytes, rfl, carries, ?_⟩, rfl⟩
          simp only [front, len]
          refine ⟨by omega, by rw [if_neg (by omega)], ?_⟩
          cases next with
          | nil => simp [lastStop]; omega
          | cons g rest =>
            have := after g (by simp)
            have := lastStop_top f.range.stop heldNext.sorted (mem_cons_self : g ∈ g :: rest)
            simp only [lastStop, reduceCtorEq, if_false, Bool.false_eq_true, false_iff, not_and]
              at this ⊢
            omega
        · rw [if_neg full]
          obtain ⟨got, run, ⟨more, gathered, carriesMore, lenMore, offset, fin⟩, broken⟩ :=
            ih f.range.stop (size - (piece)) i (some ⟨f.range.stop, next⟩) _
              heldNext (by omega) after rfl
              (by simp at enough; omega)
          refine ⟨got, run, ⟨bytes ++ more, ?_, carries_append.mpr ⟨carries, ?_⟩, ?_⟩, broken⟩
          · rw [gathered, append_assoc]
          · have next_ : start + bytes.length = f.range.stop := by omega
            exact next_ ▸ carriesMore
          · rw [front, length_append, lastStop]
            refine ⟨by omega, ?_, ?_⟩
            · rw [if_neg (by omega), offset]
              split
              · simp only; omega
              · omega
            · rw [fin]
              have : start + (bytes.length + more.length) = f.range.stop + more.length := by omega
              rw [this]

/-- A receive stream that holds a part of the peer's stream of that final size. -/
structure RstreamHolds (stream : Nat → UInt8) (size : Nat) (qrs : QuicRstream) : Prop where
  held : FramesHeld stream size qrs.fl.offset qrs.rbuf qrs.fl.frames
  ring : RingOk qrs.rbuf
  tail : qrs.rbuf.ctailOffset = qrs.fl.offset
  within : qrs.fl.offset ≤ size
  finEnd : qrs.fl.fin = true → sframeCurrEnd qrs.fl = size
  unlocked : qrs.fl.headLocked = false

theorem RstreamHolds.listOk (holds : RstreamHolds stream size qrs) : SframeListOk qrs.fl :=
  ⟨holds.held.sorted, holds.held.valid, holds.held.ahead⟩

theorem currEnd_within (holds : RstreamHolds stream size qrs) : sframeCurrEnd qrs.fl ≤ size := by
  rcases currEnd_cases qrs.fl with ⟨_, same⟩ | ⟨f, member, stop⟩
  · have := holds.within; omega
  · have := holds.held.inside f member; omega

structure ReadDone (stream : Nat → UInt8) (size : Nat) (qrs qrs' : QuicRstream) (got : Gathered)
    (n : Nat) : Prop where
  holds : RstreamHolds stream size qrs'
  length : got.bytes.length = n
  carries : Carries stream qrs.fl.offset got.bytes
  fin : got.fin = true ↔ qrs.fl.fin = true ∧ qrs.fl.offset + n = sframeCurrEnd qrs.fl
  whole : got.broken = false
  offset : qrs'.fl.offset = qrs.fl.offset + n
  covers : ∀ x, qrs'.fl.offset ≤ x → (x ∈ covered qrs'.fl.frames ↔ x ∈ covered qrs.fl.frames)
  currEnd : sframeCurrEnd qrs'.fl = sframeCurrEnd qrs.fl
  sameFin : qrs'.fl.fin = qrs.fl.fin
  rxfc : qrs'.rxfc = qrs.rxfc

theorem readInternal_done {total : Nat} (holds : RstreamHolds stream total qrs)
    (bound : total < maxOffset) (size : Nat) :
    ∃ got qrs', readInternal qrs size true = (some got, qrs') ∧
      ReadDone stream total qrs qrs' got
        (min size (frontier qrs.fl.offset qrs.fl.frames - qrs.fl.offset)) := by
  have held := holds.held
  have ok := holds.listOk
  have limit : maxOffset < 2 ^ 63 := by decide
  have low := frontier_low held.ahead held.sorted
  have top := frontier_top (offset_le_currEnd ok) (fun f hf => currEnd_top ok.sorted hf)
  have within := currEnd_within holds
  obtain ⟨got, run, ⟨bytes, gathered, carries, len, offset, fin⟩, broken⟩ :=
    readRounds_run qrs.fl.offset size (qrs.fl.frames.length + 1) none ⟨[], 0, false, false⟩
      holds.ring (by omega : total < 2 ^ 63) held
      (le_refl _) held.ahead rfl (Nat.lt_succ_self _)
  rw [nil_append] at gathered
  rw [← currEnd_eq_lastStop] at fin
  generalize hn : min size (frontier qrs.fl.offset qrs.fl.frames - qrs.fl.offset) = n at len ⊢
  rw [readInternal, run]
  simp only [true_and]
  by_cases moves : got.offset = 0
  · -- nothing to drop: no frame at the offset, or none of it wanted at the very start
    have still : n = 0 := by split at offset <;> omega
    rw [if_neg (by omega)]
    exact ⟨got, qrs, rfl, holds, by rw [gathered, len], gathered ▸ carries, by rw [fin, len], broken,
      by omega, fun _ _ => Iff.rfl, rfl, rfl, rfl⟩
  · have drop : got.offset = qrs.fl.offset + n := by
      split at offset
      · exact absurd offset moves
      · rw [offset, len]
    rw [if_pos moves]
    obtain ⟨fl', dropped, effect⟩ := sframeListDropFrames_dropped ok got.offset
      (by omega) (by omega)
    rw [dropped, subU64_exact (by omega) (by omega)]
    have culled := ringBufCpopRange_culled holds.ring fl'.cleanse (Nat.zero_le _)
      (by have := holds.tail; omega : qrs.rbuf.ctailOffset ≤ got.offset - 1 + 1) (by omega)
    rw [Nat.sub_add_cancel (by omega : 1 ≤ got.offset)] at culled
    refine ⟨got, _, rfl, ⟨⟨effect.ok.sorted, effect.ok.valid, effect.ok.ahead, ?_, ?_⟩,
      culled.ok, ?_, ?_, ?_, effect.headLocked⟩, by rw [gathered, len], gathered ▸ carries,
      by rw [fin, len], broken, by rw [← drop, effect.offset], ?_, effect.currEnd, effect.fin, rfl⟩
    · exact fun f hf => held.inside f (effect.sub.subset hf)
    · intro f hf
      rw [effect.offset]
      exact frameHolds_mono (by omega) (fun x past here => ringCulled_has holds.ring culled past here)
        (held.holds f (effect.sub.subset hf))
    · rw [culled.ctail, effect.offset]
    · rw [effect.offset]; omega
    · intro final
      rw [effect.currEnd]
      exact holds.finEnd (effect.fin ▸ final)
    · intro x past
      exact effect.covers x (effect.offset ▸ past)

theorem queueData_holds (holds : RstreamHolds stream size qrs) (bound : size < maxOffset)
    (mem : Bool) {offset : Nat} {data : Option (List UInt8)} {dataLen : Nat} {fin : Bool}
    (inside : offset + dataLen ≤ size)
    (carries : ∀ d ∈ data, d.length = dataLen ∧ Carries stream offset d)
    (final : fin = true → offset + dataLen = size) :
    quicRstreamQueueData mem qrs offset data dataLen fin = (false, qrs) ∨
      ∃ qrs', quicRstreamQueueData mem qrs offset data dataLen fin = (true, qrs') ∧
        RstreamHolds stream size qrs' ∧ qrs'.fl.offset = qrs.fl.offset ∧ qrs'.rxfc = qrs.rxfc ∧
        qrs'.fl.fin = (fin || qrs.fl.fin) ∧
        sframeCurrEnd qrs'.fl = max (sframeCurrEnd qrs.fl) (offset + dataLen) ∧
        ∀ x, qrs.fl.offset ≤ x → (x ∈ covered qrs'.fl.frames ↔
          x ∈ covered qrs.fl.frames ∨ (offset ≤ x ∧ x < offset + dataLen)) := by
  have limit : maxOffset < 2 ^ 63 := by decide
  rw [quicRstreamQueueData, addU64_exact (by omega)]
  split
  · exact .inl rfl
  rename_i given
  rcases sframeListInsert_inserted mem holds.listOk
    ⟨offset, offset + dataLen⟩ data fin (by simp) with ⟨failed, _⟩ | ⟨fl', stored, effect⟩
  · rw [failed]
    exact .inl rfl
  rw [stored]
  have within := currEnd_within holds
  refine .inr ⟨_, rfl, ⟨⟨effect.ok.sorted, effect.ok.valid, effect.ok.ahead, ?_, ?_⟩, holds.ring,
    ?_, ?_, ?_, ?_⟩, effect.offset, rfl, effect.fin, effect.currEnd, effect.covers⟩
  · intro f hf
    rcases effect.frame f hf with old | same
    · exact holds.held.inside f old
    · subst same; exact inside
  · intro f hf
    rw [effect.offset]
    rcases effect.frame f hf with old | same
    · exact holds.held.holds f old
    · subst same
      refine ⟨fun d hd => ?_, fun none x low start stop => ?_⟩
      · obtain ⟨len, here⟩ := carries d hd
        exact ⟨by simp only; omega, here⟩
      · -- a frame without data is the empty one
        simp only at none start stop
        have : dataLen = 0 := by
          by_contra some
          exact given (.inl ⟨none, some⟩)
        omega
  · rw [effect.offset]; exact holds.tail
  · rw [effect.offset]; exact holds.within
  · intro last
    rw [effect.fin, Bool.or_eq_true] at last
    rw [effect.currEnd]
    rcases last with new | old
    · have := final new; simp only; omega
    · have := holds.finEnd old; simp only; omega
  · rw [effect.headLocked]; exact holds.unlocked

theorem lastStop_append (start : Nat) (l m : List StreamFrame) :
    lastStop start (l ++ m) = lastStop (lastStop start l) m := by
  induction l generalizing start with
  | nil => rfl
  | cons f rest ih => exact ih f.range.stop

/-- The frame's data has moved into a ring buffer that lost nothing. -/
theorem framesHeld_moved {before next : List StreamFrame}
    (held : FramesHeld stream size off r (before ++ f :: next))
    (keeps : ∀ x, RingHas stream r x → RingHas stream r' x)
    (moved : ∀ x, off ≤ x → f.range.start ≤ x → x < f.range.stop → RingHas stream r' x) :
    FramesHeld stream size off r' (before ++ ⟨f.range, none⟩ :: next) := by
  -- a property of the ranges alone carries over
  have ranges : ∀ {P : UintRange → Prop}, (∀ g ∈ before ++ f :: next, P g.range) →
      ∀ g ∈ before ++ ⟨f.range, none⟩ :: next, P g.range := by
    intro P all g hg
    simp only [mem_append, mem_cons] at hg
    rcases hg with hg | rfl | hg
    · exact all g (by simp [hg])
    · exact all f (by simp)
    · exact all g (by simp [hg])
  refine ⟨?_, ranges (P := fun t => t.start ≤ t.stop) held.valid,
    ranges (P := fun t => off < t.stop) held.ahead, ranges (P := fun t => t.stop ≤ size) held.inside,
    ?_⟩
  · have sorted := held.sorted
    simp only [framesSorted_append, framesSorted_cons, mem_cons, forall_eq_or_imp] at sorted ⊢
    exact sorted
  · intro g hg
    simp only [mem_append, mem_cons] at hg
    rcases hg with hg | rfl | hg
    · exact frameHolds_mono (le_refl _) (fun x _ => keeps x) (held.holds g (by simp [hg]))
    · exact ⟨fun d hd => by simp at hd, fun _ x low start stop => moved x low start stop⟩
    · exact frameHolds_mono (le_refl _) (fun x _ => keeps x) (held.holds g (by simp [hg]))

/-- Two contiguous frames in the ring buffer are one. -/
theorem framesHeld_merged {before next : List StreamFrame} {g : StreamFrame}
    (held : FramesHeld stream size off r (before ++ f :: g :: next)) (first : f.data = none)
    (second : g.data = none) (meet : g.range.start ≤ f.range.stop) :
    FramesHeld stream size off r (before ++ ⟨⟨f.range.start, g.range.stop⟩, f.data⟩ :: next) ∧
      (∀ x, x ∈ covered (before ++ ⟨⟨f.range.start, g.range.stop⟩, f.data⟩ :: next) ↔
        x ∈ covered (before ++ f :: g :: next)) ∧
      lastStop off (before ++ ⟨⟨f.range.start, g.range.stop⟩, f.data⟩ :: next) =
        lastStop off (before ++ f :: g :: next) := by
  have sorted := held.sorted
  simp only [framesSorted_append, framesSorted_cons, mem_cons, forall_eq_or_imp] at sorted
  obtain ⟨sb, ⟨⟨⟨startLe, stopLt⟩, fNext⟩, gNext, sn⟩, cross⟩ := sorted
  have members : ∀ {P : StreamFrame → Prop}, P ⟨⟨f.range.start, g.range.stop⟩, f.data⟩ →
      (∀ h ∈ before ++ f :: g :: next, P h) →
      ∀ h ∈ before ++ ⟨⟨f.range.start, g.range.stop⟩, f.data⟩ :: next, P h := by
    intro P merged all h hh
    simp only [mem_append, mem_cons] at hh
    rcases hh with hh | rfl | hh
    · exact all h (by simp [hh])
    · exact merged
    · exact all h (by simp [hh])
  refine ⟨⟨?_, ?_, ?_, ?_, ?_⟩, ?_, ?_⟩
  · simp only [framesSorted_append, framesSorted_cons, mem_cons, forall_eq_or_imp]
    refine ⟨sb, ⟨fun h hh => ⟨(fNext h hh).1, (gNext h hh).2⟩, sn⟩, fun b hb => ⟨?_, ?_⟩⟩
    · exact ⟨(cross b hb).1.1, by have := (cross b hb).2.1; omega⟩
    · exact (cross b hb).2.2
  · exact members (by simp only; omega) held.valid
  · exact members (by have := held.ahead g (by simp); exact this) held.ahead
  · exact members (by have := held.inside g (by simp); exact this) held.inside
  · refine members ⟨fun d hd => by simp [first] at hd, fun _ x low start stop => ?_⟩ held.holds
    by_cases inFirst : x < f.range.stop
    · exact (held.holds f (by simp)).side first x low start inFirst
    · exact (held.holds g (by simp)).side second x low (by omega) stop
  · intro x
    simp only [mem_covered_append, mem_covered_cons]
    have join : f.range.start ≤ x ∧ x < g.range.stop ↔
        (f.range.start ≤ x ∧ x < f.range.stop) ∨ (g.range.start ≤ x ∧ x < g.range.stop) := by
      omega
    rw [join, or_assoc]
  · simp only [lastStop_append, lastStop]

/-- What moving the frames behind some moved ones leaves behind. -/
structure MoveDone (stream : Nat → UInt8) (size off : Nat) (frames frames' : List StreamFrame)
    (r' : RingBuf) : Prop where
  held : FramesHeld stream size off r' frames'
  ring : RingOk r'
  tail : r'.ctailOffset = off
  covers : ∀ x, x ∈ covered frames' ↔ x ∈ covered frames
  last : lastStop off frames' = lastStop off frames

/-- A write, where the frame has data of its own, puts the rest of it in the ring
    buffer; one that fails changes nothing. -/
theorem writeFrame_has {low : Nat} (ring : RingOk r) (holds : FrameHolds stream off r f)
    (above : f.range.start ≤ low) (below : low ≤ f.range.stop)
    (prior : ∀ x, off ≤ x → f.range.start ≤ x → x < low → RingHas stream r x) :
    writeFrame ringBufWriteAt low f r = (false, r) ∨
      ∃ r', writeFrame ringBufWriteAt low f r = (true, r') ∧ RingOk r' ∧
        r'.ctailOffset = r.ctailOffset ∧ (∀ x, RingHas stream r x → RingHas stream r' x) ∧
        ∀ x, off ≤ x → f.range.start ≤ x → x < f.range.stop → RingHas stream r' x := by
  rw [writeFrame]
  cases place : f.data with
  | none => exact .inr ⟨r, rfl, ring, rfl, fun _ => id, holds.side place⟩
  | some data =>
    obtain ⟨len, carries⟩ := holds.own data place
    have rest := carries_take (f.range.stop - low) (carries_drop (n := low - f.range.start) carries)
    rw [Nat.add_sub_cancel' above] at rest
    have restLen : ((data.drop (low - f.range.start)).take (f.range.stop - low)).length =
        f.range.stop - low := by rw [length_take, length_drop]; omega
    simp only
    generalize hbytes : (data.drop (low - f.range.start)).take (f.range.stop - low) = bytes
      at rest restLen ⊢
    rcases ringBufWriteAt_wrote ring low bytes with failed | ⟨r', done, wrote, bottom, _⟩
    · exact .inl failed
    · refine .inr ⟨r', done, wrote.ok, wrote.ctail, ?_, ?_⟩
      · exact fun x here => ringWrote_has ring wrote rest bottom (.inl here)
      · intro x hx start stop
        by_cases before : x < low
        · exact ringWrote_has ring wrote rest bottom (.inl (prior x hx start before))
        · exact ringWrote_has ring wrote rest bottom (.inr ⟨by omega, by omega⟩)

theorem mergeFrame_head (f : StreamFrame) (prevs : List StreamFrame) :
    ∃ g rest, mergeFrame f prevs = g :: rest ∧ g.range.stop = f.range.stop := by
  cases prevs with
  | nil => exact ⟨_, _, rfl, rfl⟩
  | cons p earlier =>
    rw [mergeFrame]
    split <;> exact ⟨_, _, rfl, rfl⟩

theorem mergeFrame_done {prevs next : List StreamFrame} (moved : ∀ p ∈ prevs, p.data = none)
    (held : FramesHeld stream size off r (prevs.reverse ++ ⟨f.range, none⟩ :: next)) :
    FramesHeld stream size off r ((mergeFrame f prevs).reverse ++ next) ∧
      (∀ p ∈ mergeFrame f prevs, p.data = none) ∧
      (∀ x, x ∈ covered ((mergeFrame f prevs).reverse ++ next) ↔
        x ∈ covered (prevs.reverse ++ f :: next)) ∧
      lastStop off ((mergeFrame f prevs).reverse ++ next) =
        lastStop off (prevs.reverse ++ f :: next) := by
  cases prevs with
  | nil =>
    refine ⟨by simpa [mergeFrame] using held, by simp [mergeFrame], ?_, ?_⟩
    · intro x; simp [mergeFrame]
    · simp [mergeFrame, lastStop]
  | cons p earlier =>
    have pNone := moved p (by simp)
    rw [mergeFrame]
    split
    · rename_i meet
      have split : (p :: earlier).reverse ++ ⟨f.range, none⟩ :: next =
          earlier.reverse ++ p :: ⟨f.range, none⟩ :: next := by simp
      rw [split] at held
      obtain ⟨merged, covers, _⟩ := framesHeld_merged held pNone rfl meet
      refine ⟨by simpa using merged, ?_, ?_, ?_⟩
      · intro q hq
        rcases mem_cons.mp hq with rfl | hq
        · exact pNone
        · exact moved q (by simp [hq])
      · intro x
        simpa using covers x
      · simp [lastStop_append, lastStop]
    · refine ⟨by simpa using held, ?_, ?_, ?_⟩
      · intro q hq
        rcases mem_cons.mp hq with rfl | hq
        · rfl
        · exact moved q hq
      · intro x; simp
      · simp [lastStop_append, lastStop]

theorem moveFrames_done (limit : Nat) (prevs : List StreamFrame)
    (held : FramesHeld stream size off r (prevs.reverse ++ frames)) (ring : RingOk r)
    (tail : r.ctailOffset = off) (moved : ∀ p ∈ prevs, p.data = none)
    (at_limit : limit = prevs.head?.elim off (·.range.stop)) :
    ∃ done frames' r', moveFrames ringBufWriteAt limit prevs frames r = (done, frames', r') ∧
      MoveDone stream size off (prevs.reverse ++ frames) frames' r' := by
  induction frames generalizing prevs limit r with
  | nil =>
    rw [append_nil] at held ⊢
    exact ⟨true, _, r, rfl, held, ring, tail, fun _ => Iff.rfl, rfl⟩
  | cons sf next ih =>
    have valid := held.valid sf (by simp)
    have ahead := held.ahead sf (by simp)
    have holds := held.holds sf (by simp)
    have sorted := held.sorted
    rw [framesSorted_append, framesSorted_cons] at sorted
    rw [moveFrames]
    generalize hl : (if limit < sf.range.start then sf.range.start else limit) = low
    -- what lies between the frame's start and low is held already
    have prior : sf.range.start ≤ low ∧ low ≤ sf.range.stop ∧
        ∀ x, off ≤ x → sf.range.start ≤ x → x < low → RingHas stream r x := by
      cases prevs with
      | nil =>
        simp only [List.head?_nil, Option.elim_none] at at_limit
        split at hl <;> exact ⟨by omega, by omega, fun x _ _ _ => by omega⟩
      | cons p earlier =>
        simp only [List.head?_cons, Option.elim_some] at at_limit
        have pNone := moved p (by simp)
        have pHolds := held.holds p (by simp)
        have order := sorted.2.2 p (by simp) sf (by simp)
        refine ⟨by split at hl <;> omega, by split at hl <;> omega, ?_⟩
        intro x hx start stop
        exact pHolds.side pNone x hx (by omega) (by split at hl <;> omega)
    obtain ⟨above, below, prior⟩ := prior
    rcases writeFrame_has ring holds above below prior with
      failed | ⟨r1, done, ring1, tail1, keeps, here⟩
    · rw [failed, if_pos rfl]
      exact ⟨false, _, r, rfl, held, ring, tail, fun _ => Iff.rfl, rfl⟩
    · rw [done, if_neg (by simp)]
      obtain ⟨held1, moved1, covers1, last1⟩ :=
        mergeFrame_done moved (framesHeld_moved held keeps here)
      obtain ⟨g, rest, merged, stop⟩ := mergeFrame_head sf prevs
      obtain ⟨ok, frames', r', run, result⟩ := ih sf.range.stop _ held1 ring1
        (tail1.trans tail) moved1 (by rw [merged]; simp [stop])
      exact ⟨ok, frames', r', run, result.held, result.ring, result.tail,
        fun x => (result.covers x).trans (covers1 x), result.last.trans last1⟩

/-- Moving data to the ring buffer changes nothing that a reader can see. -/
theorem moveToRbuf_holds (holds : RstreamHolds stream size qrs) :
    RstreamHolds stream size (quicRstreamMoveToRbuf qrs).2 ∧
      (quicRstreamMoveToRbuf qrs).2.fl.offset = qrs.fl.offset ∧
      (quicRstreamMoveToRbuf qrs).2.rxfc = qrs.rxfc ∧
      (quicRstreamMoveToRbuf qrs).2.fl.fin = qrs.fl.fin ∧
      sframeCurrEnd (quicRstreamMoveToRbuf qrs).2.fl = sframeCurrEnd qrs.fl ∧
      ∀ x, x ∈ covered (quicRstreamMoveToRbuf qrs).2.fl.frames ↔ x ∈ covered qrs.fl.frames := by
  rw [quicRstreamMoveToRbuf]
  split
  · exact ⟨holds, rfl, rfl, rfl, rfl, fun _ => Iff.rfl⟩
  · obtain ⟨done, frames', r', run, result⟩ := moveFrames_done qrs.fl.offset [] holds.held
      holds.ring holds.tail (by simp) rfl
    have moved : sframeListMoveData ringBufWriteAt qrs.fl qrs.rbuf =
        (done, { qrs.fl with frames := frames' }, r') := by
      rw [sframeListMoveData]
      simp only [holds.unlocked, run]
    rw [moved]
    have ends : sframeCurrEnd { qrs.fl with frames := frames' } = sframeCurrEnd qrs.fl := by
      rw [currEnd_eq_lastStop, currEnd_eq_lastStop]; exact result.last
    exact ⟨⟨result.held, result.ring, result.tail, holds.within, fun final =>
      ends.trans (holds.finEnd final), holds.unlocked⟩, rfl, rfl, rfl, ends, result.covers⟩

end Ossl
