import Mathlib.Data.List.Basic
import OpenSSL.Quic.UintSet

/- The stream frame list of ssl/quic/quic_sf_list.c, the List of its items, head first. The start of
   a frame's range is inclusive and its stop exclusive, so that an empty frame has a range. A frame
   whose data has moved to the side storage has none of its own. -/
namespace Ossl
open List

structure StreamFrame where
  range : UintRange
  data : Option (List UInt8)
  deriving DecidableEq

structure SframeList where
  frames : List StreamFrame
  fin : Bool
  offset : Nat
  headLocked : Bool
  cleanse : Bool
  deriving DecidableEq

def sframeListInit : SframeList := ⟨[], false, 0, false, false⟩

/- Why an insertion returns 0: no memory, or the assertion that the loop finds a
   frame to insert before. -/
inductive SframeFault where
  | noMemory
  | invariantBroken
  deriving DecidableEq

def sframeListInsert (mem : Bool) (fl : SframeList) (range : UintRange)
    (data : Option (List UInt8)) (fin : Bool) : Except SframeFault SframeList :=
  let stored frames : Except SframeFault SframeList :=
    .ok { fl with frames := frames, fin := fin || fl.fin }
  if range.stop ≤ fl.offset then stored fl.frames
  else match fl.frames.getLast? with
  | none => if mem then stored [⟨range, data⟩] else .error .noMemory
  | some tail =>
    if tail.range.start < range.start then
      if range.stop ≤ tail.range.stop then stored fl.frames
      else if mem then stored (fl.frames ++ [⟨range, data⟩]) else .error .noMemory
    else
      let prevs := fl.frames.takeWhile (fun f => f.range.start < range.start)
      let later := fl.frames.dropWhile (fun f => f.range.start < range.start)
      if later = [] then .error .invariantBroken
      else if ∃ prev ∈ prevs.getLast?, range.stop ≤ prev.range.stop then stored fl.frames
      else if mem = false then .error .noMemory
      else
        let nexts := later.dropWhile (fun f => f.range.stop ≤ range.stop)
        -- the new frame is redundant when there is no gap
        if ∃ prev ∈ prevs.getLast?, ∃ next ∈ nexts.head?, next.range.start ≤ prev.range.stop then
          stored (prevs ++ nexts)
        else stored (prevs ++ ⟨range, data⟩ :: nexts)

structure SframeIter where
  stop : Nat
  next : List StreamFrame

/- A frame, or nothing more at the offset; broken is the failed assertion. -/
inductive SframePeek where
  | frame (range : UintRange) (data : Option (List UInt8)) (fin : Bool) (iter : SframeIter)
  | nothing (start : Nat) (fin : Bool)
  | broken (start : Nat)

def peekFrames (fin : Bool) (start : Nat) : List StreamFrame → SframePeek
  | [] => .nothing start fin
  | sf :: next =>
    if start < sf.range.start then .nothing start false
    else if ¬ start < sf.range.stop then .broken start
    else
      .frame ⟨start, sf.range.stop⟩ (sf.data.map (List.drop (start - sf.range.start)))
        (if next = [] then fin else false) ⟨sf.range.stop, next⟩

def sframeListPeek (fl : SframeList) : Option SframeIter → SframePeek
  | none => peekFrames fl.fin fl.offset fl.frames
  | some sf => peekFrames fl.fin sf.stop sf.next

def sframeListDropFrames (fl : SframeList) (limit : Nat) : Bool × SframeList :=
  if limit < fl.offset ∨ (∃ tail ∈ fl.frames.getLast?, tail.range.stop < limit) ∨
      (fl.frames = [] ∧ limit ≠ fl.offset) then (false, fl)
  else
    (true,
      { fl with
        offset := limit
        frames := fl.frames.dropWhile (fun f => f.range.stop ≤ limit)
        headLocked := false })

def sframeListLockHead (fl : SframeList) (old : UintRange) :
    SframeList × UintRange × Option (Option (List UInt8) × Bool) :=
  if fl.headLocked then (fl, old, none)
  else match sframeListPeek fl none with
  | .frame range data fin _ => ({ fl with headLocked := true }, range, some (data, fin))
  | .nothing start _ => (fl, ⟨start, start⟩, none)
  | .broken start => (fl, ⟨start, start⟩, none)

def writeFrame {Storage : Type} (writeAt : Storage → Nat → List UInt8 → Bool × Storage)
    (limit : Nat) (sf : StreamFrame) (storage : Storage) : Bool × Storage :=
  match sf.data with
  | some data =>
    writeAt storage limit ((data.drop (limit - sf.range.start)).take (sf.range.stop - limit))
  | none => (true, storage)

def mergeFrame (sf : StreamFrame) : List StreamFrame → List StreamFrame
  | [] => [⟨sf.range, none⟩]
  | prev :: earlier =>
    if sf.range.start ≤ prev.range.stop then
      ⟨⟨prev.range.start, sf.range.stop⟩, prev.data⟩ :: earlier
    else ⟨sf.range, none⟩ :: prev :: earlier

def moveFrames {Storage : Type} (writeAt : Storage → Nat → List UInt8 → Bool × Storage) :
    Nat → List StreamFrame → List StreamFrame → Storage → Bool × List StreamFrame × Storage
  | _, prevs, [], storage => (true, prevs.reverse, storage)
  | limit, prevs, sf :: next, storage =>
    let limit := if limit < sf.range.start then sf.range.start else limit
    let written := writeFrame writeAt limit sf storage
    if written.1 = false then (false, prevs.reverse ++ sf :: next, written.2)
    else moveFrames writeAt sf.range.stop (mergeFrame sf prevs) next written.2

def sframeListMoveData {Storage : Type} (writeAt : Storage → Nat → List UInt8 → Bool × Storage)
    (fl : SframeList) (storage : Storage) : Bool × SframeList × Storage :=
  match fl.headLocked, fl.frames with
  | true, locked :: next =>
    let moved := moveFrames writeAt fl.offset [] next storage
    (moved.1, { fl with frames := locked :: moved.2.1 }, moved.2.2)
  | _, frames =>
    let moved := moveFrames writeAt fl.offset [] frames storage
    (moved.1, { fl with frames := moved.2.1 }, moved.2.2)

def FramesSorted (frames : List StreamFrame) : Prop :=
  frames.Pairwise (fun f g => f.range.start ≤ g.range.start ∧ f.range.stop < g.range.stop)

/-- The invariants of the header file. -/
structure SframeListOk (fl : SframeList) : Prop where
  sorted : FramesSorted fl.frames
  valid : ∀ f ∈ fl.frames, f.range.start ≤ f.range.stop
  ahead : ∀ f ∈ fl.frames, fl.offset < f.range.stop

/-- The offsets that some frame has data for. -/
def covered (frames : List StreamFrame) : Set Nat :=
  {x | ∃ f ∈ frames, f.range.start ≤ x ∧ x < f.range.stop}

/- The end of the tail frame, as the final size assertion computes it. -/
def sframeCurrEnd (fl : SframeList) : Nat :=
  match fl.frames.getLast? with
  | some tail => tail.range.stop
  | none => fl.offset

@[simp] theorem covered_nil : covered [] = ∅ := by
  ext x; simp [covered]

@[simp] theorem mem_covered_cons (f : StreamFrame) (l : List StreamFrame) (x : Nat) :
    x ∈ covered (f :: l) ↔ (f.range.start ≤ x ∧ x < f.range.stop) ∨ x ∈ covered l := by
  simp [covered]

@[simp] theorem mem_covered_append (l m : List StreamFrame) (x : Nat) :
    x ∈ covered (l ++ m) ↔ x ∈ covered l ∨ x ∈ covered m := by
  simp only [covered, Set.mem_ofPred_eq, mem_append, or_and_right, exists_or]

variable {frames l : List StreamFrame} {f : StreamFrame}

theorem framesSorted_append {m : List StreamFrame} :
    FramesSorted (l ++ m) ↔ FramesSorted l ∧ FramesSorted m ∧
      ∀ f ∈ l, ∀ g ∈ m, f.range.start ≤ g.range.start ∧ f.range.stop < g.range.stop :=
  pairwise_append

theorem framesSorted_cons : FramesSorted (f :: l) ↔
      (∀ g ∈ l, f.range.start ≤ g.range.start ∧ f.range.stop < g.range.stop) ∧ FramesSorted l :=
  pairwise_cons

variable {fl : SframeList}

theorem currEnd_of_last {init : List StreamFrame} {tail : StreamFrame}
    (split : fl.frames = init ++ [tail]) : sframeCurrEnd fl = tail.range.stop := by
  simp [sframeCurrEnd, split]

theorem currEnd_top (sorted : FramesSorted fl.frames) (member : f ∈ fl.frames) :
    f.range.stop ≤ sframeCurrEnd fl := by
  obtain ⟨init, tail, split⟩ := eq_nil_or_concat' fl.frames |>.resolve_left (ne_nil_of_mem member)
  rw [currEnd_of_last split]
  rw [split] at sorted member
  rcases mem_append.mp member with early | last
  · exact le_of_lt ((framesSorted_append.mp sorted).2.2 f early tail (by simp)).2
  · rw [mem_singleton] at last
    exact last ▸ le_refl _

theorem currEnd_eq_of (sorted : FramesSorted fl.frames) {top : Nat}
    (some : ∃ f ∈ fl.frames, f.range.stop = top) (all : ∀ f ∈ fl.frames, f.range.stop ≤ top) :
    sframeCurrEnd fl = top := by
  obtain ⟨f, member, stop⟩ := some
  obtain ⟨init, tail, split⟩ := eq_nil_or_concat' fl.frames |>.resolve_left (ne_nil_of_mem member)
  have low := currEnd_top sorted member
  rw [currEnd_of_last split] at low ⊢
  have high := all tail (by simp [split])
  omega

theorem currEnd_cases (fl : SframeList) :
    (fl.frames = [] ∧ sframeCurrEnd fl = fl.offset) ∨
      ∃ f ∈ fl.frames, f.range.stop = sframeCurrEnd fl := by
  rcases eq_nil_or_concat' fl.frames with empty | ⟨init, tail, split⟩
  · exact .inl ⟨empty, by simp [sframeCurrEnd, empty]⟩
  · exact .inr ⟨tail, by simp [split], (currEnd_of_last split).symm⟩

structure SframeInserted (fl : SframeList) (range : UintRange) (data : Option (List UInt8))
    (fin : Bool) (fl' : SframeList) : Prop where
  ok : SframeListOk fl'
  frame : ∀ f ∈ fl'.frames, f ∈ fl.frames ∨ f = ⟨range, data⟩
  covers : ∀ x, fl.offset ≤ x →
    (x ∈ covered fl'.frames ↔ x ∈ covered fl.frames ∨ (range.start ≤ x ∧ x < range.stop))
  currEnd : sframeCurrEnd fl' = max (sframeCurrEnd fl) range.stop
  offset : fl'.offset = fl.offset
  fin : fl'.fin = (fin || fl.fin)
  headLocked : fl'.headLocked = fl.headLocked
  cleanse : fl'.cleanse = fl.cleanse

/-- The new frame takes the place of the frames it covers. -/
theorem inserted_new (ok : SframeListOk fl) {range : UintRange} (data : Option (List UInt8))
    (fin : Bool) (prevs dropped nexts : List StreamFrame)
    (split : fl.frames = prevs ++ (dropped ++ nexts)) (valid : range.start ≤ range.stop)
    (fresh : fl.offset < range.stop)
    (before : ∀ p ∈ prevs, p.range.start ≤ range.start ∧ p.range.stop < range.stop)
    (inside : ∀ d ∈ dropped, range.start ≤ d.range.start ∧ d.range.stop ≤ range.stop)
    (after : ∀ n ∈ nexts, range.start ≤ n.range.start ∧ range.stop < n.range.stop) :
    SframeInserted fl range data fin
      { fl with frames := prevs ++ ⟨range, data⟩ :: nexts, fin := fin || fl.fin } := by
  have sorted := ok.sorted
  rw [split] at sorted
  obtain ⟨sp, sdn, cross⟩ := framesSorted_append.mp sorted
  obtain ⟨_, sn, _⟩ := framesSorted_append.mp sdn
  have kept : ∀ f ∈ prevs ++ ⟨range, data⟩ :: nexts, f ∈ fl.frames ∨ f = ⟨range, data⟩ := by
    intro f hf
    rw [split]
    simp only [mem_append, mem_cons] at hf ⊢
    tauto
  have newSorted : FramesSorted (prevs ++ ⟨range, data⟩ :: nexts) := by
    refine framesSorted_append.mpr ⟨sp, framesSorted_cons.mpr ⟨after, sn⟩, ?_⟩
    intro p hp g hg
    rcases mem_cons.mp hg with same | hg
    · exact same ▸ before p hp
    · exact cross p hp g (by simp [hg])
  refine ⟨⟨newSorted, ?_, ?_⟩, kept, ?_, ?_, rfl, rfl, rfl, rfl⟩
  · intro f hf
    rcases kept f hf with old | same
    · exact ok.valid f old
    · exact same ▸ valid
  · intro f hf
    rcases kept f hf with old | same
    · exact ok.ahead f old
    · subst same; exact fresh
  · intro x _
    simp only [split, mem_covered_append, mem_covered_cons]
    have swallowed : x ∈ covered dropped → range.start ≤ x ∧ x < range.stop := by
      rintro ⟨d, hd, low, high⟩
      have := inside d hd
      omega
    tauto
  · have top : ∀ f ∈ prevs ++ ⟨range, data⟩ :: nexts,
        f.range.stop ≤ max (sframeCurrEnd fl) range.stop := by
      intro f hf
      rcases kept f hf with old | same
      · have := currEnd_top ok.sorted old; omega
      · rw [same]; simp only; omega
    refine currEnd_eq_of newSorted ?_ top
    by_cases last : sframeCurrEnd fl ≤ range.stop
    · exact ⟨⟨range, data⟩, by simp, by simp only; omega⟩
    · rcases currEnd_cases fl with ⟨_, stays⟩ | ⟨f, member, stop⟩
      · omega
      · refine ⟨f, ?_, by omega⟩
        rw [split] at member
        simp only [mem_append, mem_cons] at member ⊢
        rcases member with hp | hd | hn
        · exact .inl hp
        · have := inside f hd; omega
        · exact .inr (.inr hn)

/-- The new frame is redundant: the kept frames cover it. -/
theorem inserted_redundant (ok : SframeListOk fl) (range : UintRange) (data : Option (List UInt8))
    (fin : Bool) (prevs dropped nexts : List StreamFrame)
    (split : fl.frames = prevs ++ (dropped ++ nexts))
    (inside : ∀ d ∈ dropped, range.start ≤ d.range.start ∧ d.range.stop ≤ range.stop)
    (others : ∀ x, fl.offset ≤ x → range.start ≤ x → x < range.stop → x ∈ covered (prevs ++ nexts))
    (reach : ∃ f ∈ prevs ++ nexts, range.stop ≤ f.range.stop) : SframeInserted fl range data fin
      { fl with frames := prevs ++ nexts, fin := fin || fl.fin } := by
  have sub : (prevs ++ nexts).Sublist fl.frames := by
    rw [split]
    exact (List.Sublist.refl prevs).append (sublist_append_right dropped nexts)
  obtain ⟨high, hHigh, past⟩ := reach
  have sorted : FramesSorted (prevs ++ nexts) := ok.sorted.sublist sub
  have passed := currEnd_top ok.sorted (sub.subset hHigh)
  refine ⟨⟨sorted, fun f hf => ok.valid f (sub.subset hf), fun f hf => ok.ahead f (sub.subset hf)⟩,
    fun f hf => .inl (sub.subset hf), ?_, ?_, rfl, rfl, rfl, rfl⟩
  · intro x low
    rw [split]
    simp only [mem_covered_append] at others ⊢
    have swallowed : x ∈ covered dropped → range.start ≤ x ∧ x < range.stop := by
      rintro ⟨d, hd, low, high⟩
      have := inside d hd
      omega
    have here := others x low
    tauto
  · refine currEnd_eq_of sorted ?_ ?_
    · rcases currEnd_cases fl with ⟨empty, _⟩ | ⟨f, member, stop⟩
      · exact absurd (sub.subset hHigh) (by simp [empty])
      · rw [split] at member
        simp only [mem_append] at member
        rcases member with hp | hd | hn
        · exact ⟨f, by simp [hp], by omega⟩
        · have := inside f hd; exact ⟨high, hHigh, by omega⟩
        · exact ⟨f, by simp [hn], by omega⟩
    · intro f hf
      have := currEnd_top ok.sorted (sub.subset hf)
      omega

theorem offset_le_currEnd (ok : SframeListOk fl) : fl.offset ≤ sframeCurrEnd fl := by
  rcases currEnd_cases fl with ⟨_, same⟩ | ⟨f, member, stop⟩
  · omega
  · have := ok.ahead f member; omega

theorem inserted_behind (ok : SframeListOk fl) {range : UintRange} (data : Option (List UInt8))
    (fin : Bool) (behind : range.stop ≤ fl.offset) :
    SframeInserted fl range data fin { fl with fin := fin || fl.fin } := by
  have low := offset_le_currEnd ok
  refine ⟨{ ok with }, fun f hf => .inl hf, ?_, ?_, rfl, rfl, rfl, rfl⟩
  · intro x hx
    refine ⟨.inl, ?_⟩
    rintro (old | ⟨_, high⟩)
    · exact old
    · omega
  · change sframeCurrEnd fl = _
    omega

theorem inserted_at_end (ok : SframeListOk fl) {range : UintRange} (data : Option (List UInt8))
    (fin : Bool) (valid : range.start ≤ range.stop) (fresh : fl.offset < range.stop)
    (last : ∀ f ∈ fl.frames, f.range.start ≤ range.start ∧ f.range.stop < range.stop) :
    SframeInserted fl range data fin
      { fl with frames := fl.frames ++ [⟨range, data⟩], fin := fin || fl.fin } :=
  inserted_new ok data fin fl.frames [] [] (by simp) valid fresh last (by simp) (by simp)

theorem sorted_split (sorted : FramesSorted frames) (early : StreamFrame → Bool)
    (down : ∀ f g, f.range.start ≤ g.range.start ∧ f.range.stop < g.range.stop →
      early g = true → early f = true) :
    (∀ f ∈ frames.takeWhile early, early f = true) ∧
      ∀ f ∈ frames.dropWhile early, early f = false := by
  refine ⟨all_eq_true.mp all_takeWhile, ?_⟩
  induction frames with
  | nil => simp
  | cons f rest ih =>
    obtain ⟨first, tail⟩ := framesSorted_cons.mp sorted
    cases found : early f with
    | true => simpa [found] using ih tail
    | false =>
      simp only [dropWhile_cons, found, Bool.false_eq_true, if_false, mem_cons, forall_eq_or_imp,
        true_and]
      intro g hg
      cases still : early g with
      | false => rfl
      | true => simp [down f g (first g hg) still] at found

theorem starts_split (sorted : FramesSorted frames) (start : Nat) :
    (∀ f ∈ frames.takeWhile (fun f => f.range.start < start), f.range.start < start) ∧
      ∀ f ∈ frames.dropWhile (fun f => f.range.start < start), start ≤ f.range.start := by
  simpa using sorted_split sorted (fun f => f.range.start < start) fun f g apart => by simp; omega

theorem stops_split (sorted : FramesSorted frames) (stop : Nat) :
    (∀ f ∈ frames.takeWhile (fun f => f.range.stop ≤ stop), f.range.stop ≤ stop) ∧
      ∀ f ∈ frames.dropWhile (fun f => f.range.stop ≤ stop), stop < f.range.stop := by
  simpa using sorted_split sorted (fun f => f.range.stop ≤ stop) fun f g apart => by simp; omega

/-- An insertion fails only for want of memory; in particular its loop always
    finds a frame to insert before. -/
theorem sframeListInsert_inserted (mem : Bool) (ok : SframeListOk fl) (range : UintRange)
    (data : Option (List UInt8)) (fin : Bool) (valid : range.start ≤ range.stop) :
    (sframeListInsert mem fl range data fin = .error .noMemory ∧ mem = false) ∨
      ∃ fl', sframeListInsert mem fl range data fin = .ok fl' ∧
        SframeInserted fl range data fin fl' := by
  unfold sframeListInsert
  by_cases behind : range.stop ≤ fl.offset
  · rw [if_pos behind]
    exact .inr ⟨_, rfl, inserted_behind ok data fin behind⟩
  rw [if_neg behind]
  rcases eq_nil_or_concat' fl.frames with empty | ⟨init, tail, split⟩
  · have none : fl.frames.getLast? = none := by simp [empty]
    rw [none]
    cases mem with
    | false => exact .inl ⟨rfl, rfl⟩
    | true =>
      have stored := inserted_at_end ok data fin valid (by omega) (by simp [empty])
      rw [empty] at stored
      exact .inr ⟨_, rfl, stored⟩
  have last : fl.frames.getLast? = some tail := by simp [split]
  have tailIn : tail ∈ fl.frames := by simp [split]
  rw [last]
  simp only
  by_cases later : tail.range.start < range.start
  · rw [if_pos later]
    by_cases held : range.stop ≤ tail.range.stop
    · rw [if_pos held]
      have stored := inserted_redundant ok range data fin fl.frames [] [] (by simp) (by simp)
        (fun x _ low high => ⟨tail, by simp [tailIn], by omega, by omega⟩)
        ⟨tail, by simp [tailIn], held⟩
      rw [append_nil] at stored
      exact .inr ⟨_, rfl, stored⟩
    · rw [if_neg held]
      cases mem with
      | false => exact .inl ⟨rfl, rfl⟩
      | true =>
        refine .inr ⟨_, rfl, inserted_at_end ok data fin valid (by omega) ?_⟩
        intro f hf
        rw [split] at hf
        rcases mem_append.mp hf with early | same
        · have sorted := ok.sorted
          rw [split] at sorted
          have := (framesSorted_append.mp sorted).2.2 f early tail (by simp)
          omega
        · rw [mem_singleton] at same
          subst same; omega
  rw [if_neg later]
  obtain ⟨early, late⟩ := starts_split ok.sorted range.start
  have whole : fl.frames = _ ++ _ :=
    (takeWhile_append_dropWhile (p := fun f => decide (f.range.start < range.start))
      (l := fl.frames)).symm
  generalize hprevs : fl.frames.takeWhile (fun f => f.range.start < range.start) = prevs
    at early whole ⊢
  generalize hlater : fl.frames.dropWhile (fun f => f.range.start < range.start) = rest
    at late whole ⊢
  -- the tail itself starts at or after the new frame
  have found : rest ≠ [] := by
    rintro rfl
    rw [append_nil] at whole
    exact later (early tail (whole ▸ tailIn))
  rw [if_neg found]
  have sorted := ok.sorted
  rw [whole] at sorted
  obtain ⟨sprevs, srest, cross⟩ := framesSorted_append.mp sorted
  by_cases held : ∃ prev ∈ prevs.getLast?, range.stop ≤ prev.range.stop
  · rw [if_pos held]
    obtain ⟨prev, hprev, past⟩ := held
    have member : prev ∈ prevs := mem_of_getLast? hprev
    have stored := inserted_redundant ok range data fin fl.frames [] [] (by simp) (by simp)
      (fun x _ low high => ⟨prev, by simp [whole, member],
        by have := early prev member; omega, by omega⟩)
      ⟨prev, by simp [whole, member], past⟩
    rw [append_nil] at stored
    exact .inr ⟨_, rfl, stored⟩
  rw [if_neg held]
  cases mem with
  | false => exact .inl ⟨by simp, rfl⟩
  | true =>
    rw [if_neg (by simp)]
    obtain ⟨drops, keeps⟩ := stops_split srest range.stop
    have parts : rest = _ ++ _ :=
      (takeWhile_append_dropWhile (p := fun f => decide (f.range.stop ≤ range.stop))
        (l := rest)).symm
    generalize hdropped : rest.takeWhile (fun f => f.range.stop ≤ range.stop) = dropped
      at drops parts
    generalize hnexts : rest.dropWhile (fun f => f.range.stop ≤ range.stop) = nexts at keeps parts ⊢
    have pieces : fl.frames = prevs ++ (dropped ++ nexts) := by rw [whole, parts]
    have inside : ∀ d ∈ dropped, range.start ≤ d.range.start ∧ d.range.stop ≤ range.stop :=
      fun d hd => ⟨late d (by simp [parts, hd]), drops d hd⟩
    have after : ∀ n ∈ nexts, range.start ≤ n.range.start ∧ range.stop < n.range.stop :=
      fun n hn => ⟨late n (by simp [parts, hn]), keeps n hn⟩
    have before : ∀ p ∈ prevs, p.range.start ≤ range.start ∧ p.range.stop < range.stop := by
      intro p hp
      obtain ⟨front, prev, prevsEq⟩ := eq_nil_or_concat' prevs |>.resolve_left (ne_nil_of_mem hp)
      have short : prev.range.stop < range.stop := by
        by_contra long
        exact held ⟨prev, by simp [prevsEq], by omega⟩
      have := early p hp
      rw [prevsEq] at hp sprevs
      rcases mem_append.mp hp with hp | same
      · have := (framesSorted_append.mp sprevs).2.2 p hp prev (by simp)
        omega
      · rw [mem_singleton] at same
        subst same; omega
    by_cases touch : ∃ prev ∈ prevs.getLast?, ∃ next ∈ nexts.head?,
        next.range.start ≤ prev.range.stop
    · rw [if_pos touch]
      obtain ⟨prev, hprev, next, hnext, meet⟩ := touch
      have inPrevs : prev ∈ prevs := mem_of_getLast? hprev
      have inNexts : next ∈ nexts := mem_of_mem_head? hnext
      refine .inr ⟨_, rfl, inserted_redundant ok range data fin prevs dropped nexts pieces inside ?_
        ⟨next, by simp [inNexts], le_of_lt (after next inNexts).2⟩⟩
      intro x _ low high
      rw [mem_covered_append]
      by_cases first : x < prev.range.stop
      · exact .inl ⟨prev, inPrevs, by have := early prev inPrevs; omega, first⟩
      · exact .inr ⟨next, inNexts, by omega, by have := after next inNexts; omega⟩
    · rw [if_neg touch]
      exact .inr ⟨_, rfl, inserted_new ok data fin prevs dropped nexts pieces valid
        (by omega) before inside after⟩

structure SframeDropped (fl : SframeList) (limit : Nat) (fl' : SframeList) : Prop where
  ok : SframeListOk fl'
  sub : fl'.frames.Sublist fl.frames
  covers : ∀ x, limit ≤ x → (x ∈ covered fl'.frames ↔ x ∈ covered fl.frames)
  currEnd : sframeCurrEnd fl' = sframeCurrEnd fl
  offset : fl'.offset = limit
  fin : fl'.fin = fl.fin
  headLocked : fl'.headLocked = false
  cleanse : fl'.cleanse = fl.cleanse

theorem sframeListDropFrames_dropped (ok : SframeListOk fl) (limit : Nat)
    (low : fl.offset ≤ limit) (high : limit ≤ sframeCurrEnd fl) :
    ∃ fl', sframeListDropFrames fl limit = (true, fl') ∧ SframeDropped fl limit fl' := by
  have empties : fl.frames = [] → sframeCurrEnd fl = fl.offset := by
    intro empty; simp [sframeCurrEnd, empty]
  have tails : ∀ tail ∈ fl.frames.getLast?, ¬ tail.range.stop < limit := by
    intro tail member
    obtain ⟨init, split⟩ := getLast?_eq_some_iff.mp member
    rw [currEnd_of_last split] at high
    omega
  refine ⟨_, if_neg ?_, ?_⟩
  · rintro (back | ⟨tail, member, past⟩ | ⟨empty, moved⟩)
    · omega
    · exact tails tail member past
    · have := empties empty; omega
  · obtain ⟨drops, keeps⟩ := stops_split ok.sorted limit
    have whole := takeWhile_append_dropWhile (p := fun f => decide (f.range.stop ≤ limit))
      (l := fl.frames)
    generalize hdropped : fl.frames.takeWhile (fun f => f.range.stop ≤ limit) = dropped
      at drops whole
    generalize hkept : fl.frames.dropWhile (fun f => f.range.stop ≤ limit) = kept at keeps whole ⊢
    have sub : kept.Sublist fl.frames := whole ▸ sublist_append_right dropped kept
    have sorted : FramesSorted kept := ok.sorted.sublist sub
    refine ⟨⟨sorted, fun f hf => ok.valid f (sub.subset hf), keeps⟩, sub, ?_, ?_, rfl, rfl, rfl, rfl⟩
    · intro x past
      simp only [← whole, mem_covered_append]
      refine ⟨.inr, ?_⟩
      rintro (⟨f, hf, _, stop⟩ | here)
      · have := drops f hf; omega
      · exact here
    · rcases currEnd_cases fl with ⟨empty, same⟩ | ⟨f, member, stop⟩
      · have none : kept = [] := sublist_nil.mp (empty ▸ sub)
        simp only [sframeCurrEnd, none, getLast?_nil] at same ⊢
        simp only [sframeCurrEnd, empty, getLast?_nil] at high ⊢
        omega
      · rw [← whole] at member
        rcases mem_append.mp member with early | later
        · have atEnd : limit = sframeCurrEnd fl := by have := drops f early; omega
          have none : kept = [] := by
            cases kept with
            | nil => rfl
            | cons g rest =>
              have := keeps g (by simp)
              have := currEnd_top ok.sorted (sub.subset (mem_cons_self (a := g) (l := rest)))
              omega
          simp only [sframeCurrEnd, none, getLast?_nil] at atEnd ⊢
          exact atEnd
        · exact currEnd_eq_of sorted ⟨f, later, stop⟩
            (fun g hg => currEnd_top ok.sorted (sub.subset hg))

end Ossl
