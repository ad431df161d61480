import Mathlib.Algebra.Order.BigOperators.Group.List
import Mathlib.Algebra.Order.Ring.Nat
import OpenSSL.Quic.WireRoundTrip

/- Which ACK frames ossl_quic_wire_decode_frame_ack of ssl/quic/quic_wire.c accepts. The fields of
   a frame are read first and judged afterwards; the code does both in one pass. -/
namespace Ossl
open Prod List Spans BigEndian

abbrev AckPair := Nat × Nat

def AckPair.width (p : AckPair) : Nat := p.1 + 2 + p.2

def ackSpan (pairs : List AckPair) : Nat := (pairs.map AckPair.width).sum

structure AckFields where
  frameType : Nat
  largestAckd : Nat
  ackDelayRaw : Nat
  firstAckRange : Nat
  pairs : List AckPair
  counts : Option (Nat × Nat × Nat)

def readAckPairs : Nat → PacketM (List AckPair)
  | 0 => pure []
  | count + 1 => do
    let gap ← packetGetQuicVlint
    let len ← packetGetQuicVlint
    let pairs ← readAckPairs count
    pure ((gap, len) :: pairs)

def readAckCounts (frameType : Nat) : PacketM (Option (Nat × Nat × Nat)) :=
  if frameType = frameTypeAckWithEcn then do
    let ect0 ← packetGetQuicVlint
    let ect1 ← packetGetQuicVlint
    let ecnce ← packetGetQuicVlint
    pure (some (ect0, ect1, ecnce))
  else pure none

def readAckFields : PacketM AckFields := do
  let frameType ← expectFrameHeaderMask frameTypeAckWithoutEcn 1
  let largestAckd ← packetGetQuicVlint
  let ackDelayRaw ← packetGetQuicVlint
  let ackRangeCount ← packetGetQuicVlint
  let firstAckRange ← packetGetQuicVlint
  let pairs ← readAckPairs ackRangeCount
  let counts ← readAckCounts frameType
  pure ⟨frameType, largestAckd, ackDelayRaw, firstAckRange, pairs, counts⟩

/-- Every gap and length keeps the running range between zero and the largest number. -/
def RangesInside : Nat → List AckPair → Prop
  | _, [] => True
  | start, (gap, len) :: pairs =>
    gap + 2 ≤ start ∧ len ≤ start - gap - 2 ∧ RangesInside (start - gap - 2 - len) pairs

def AckFields.Inside (f : AckFields) : Prop :=
  f.firstAckRange ≤ f.largestAckd ∧ RangesInside (f.largestAckd - f.firstAckRange) f.pairs

def walkAckPairs : Nat → Nat → Option (List AckRange) → List AckPair →
    Option (Option (List AckRange))
  | _, _, ackRanges, [] => some ackRanges
  | i, start, ackRanges, (gap, len) :: pairs =>
    let stop := subU64 (subU64 start gap) 2
    if start < addU64 gap 2 ∨ stop < len then none
    else
      let next := putAckRange i start stop len ackRanges
      walkAckPairs (i + 1) next.1 next.2 pairs

variable {start : Nat} {pairs : List AckPair} {pkt rest : Packet} {f : AckFields}

theorem rangesInside_iff : RangesInside start pairs ↔ ackSpan pairs ≤ start := by
  induction pairs generalizing start with
  | nil => simp [RangesInside, ackSpan]
  | cons p pairs ih =>
    rw [RangesInside, ih]
    simp only [ackSpan, map_cons, sum_cons, AckPair.width]
    omega

/-- No number that can be read has more than 62 bits. -/
theorem vlint_read_fits {v : Nat} (run : packetGetQuicVlint.run pkt = some (v, rest)) :
    v < 2 ^ 62 := by
  change packetGetQuicVlint pkt = some (v, rest) at run
  unfold packetGetQuicVlint at run
  dsimp only at run
  split_ifs at run
  obtain ⟨rfl, _⟩ := mk.inj (Option.some.inj run)
  unfold vlintDecodeUnchecked
  generalize pkt.headD 0 = b
  have top : (b.toNat &&& 0xC0) >>> 6 ≤ 3 := by
    have most : b.toNat &&& 0xC0 ≤ 0xC0 := Nat.and_le_right
    rw [Nat.shiftRight_eq_div_pow]
    omega
  have size : vlintDecodeLen b - 1 ≤ 7 := by
    rw [vlintDecodeLen, Nat.one_shiftLeft]
    have := Nat.pow_le_pow_right (n := 2) (by decide) top
    omega
  have high : (b.toNat &&& 0x3F) <<< (8 * (vlintDecodeLen b - 1)) <
      2 ^ (6 + 8 * (vlintDecodeLen b - 1)) := by
    have few : b.toNat &&& 0x3F < 2 ^ 6 := Nat.and_lt_two_pow _ (by decide)
    rw [Nat.shiftLeft_eq, pow_add]
    exact Nat.mul_lt_mul_of_pos_right few (Nat.two_pow_pos _)
  have low : netValue ((pkt.drop 1).take (vlintDecodeLen b - 1)) <
      2 ^ (6 + 8 * (vlintDecodeLen b - 1)) := by
    refine (netValue_lt _).trans_le (Nat.pow_le_pow_right (by decide) ?_)
    have := length_take_le (vlintDecodeLen b - 1) (pkt.drop 1)
    omega
  exact (Nat.or_lt_two_pow high low).trans_le (Nat.pow_le_pow_right (by decide) (by omega))

theorem readAckPairs_fits {count : Nat} (run : (readAckPairs count).run pkt = some (pairs, rest)) :
    ∀ p ∈ pairs, p.1 < 2 ^ 62 ∧ p.2 < 2 ^ 62 := by
  induction count generalizing pkt pairs with
  | zero =>
    obtain ⟨rfl, _⟩ := mk.inj (Option.some.inj run)
    exact fun _ member => nomatch member
  | succ count ih =>
    obtain ⟨⟨gap, pkt₁⟩, first, run⟩ := Option.bind_eq_some_iff.mp run
    obtain ⟨⟨len, pkt₂⟩, second, run⟩ := Option.bind_eq_some_iff.mp run
    obtain ⟨⟨later, pkt₃⟩, third, run⟩ := Option.bind_eq_some_iff.mp run
    obtain ⟨rfl, rfl⟩ := mk.inj (Option.some.inj run)
    intro p member
    rcases mem_cons.mp member with rfl | member
    · exact ⟨vlint_read_fits first, vlint_read_fits second⟩
    · exact ih third p member

/-- The loop reads the pairs and walks over them. -/
theorem decodeAckRanges_walk (count i start : Nat) (ackRanges : Option (List AckRange))
    (pkt : Packet) :
    (decodeAckRanges count i start ackRanges).run pkt =
      ((readAckPairs count).run pkt).bind fun r =>
        (walkAckPairs i start ackRanges r.1).map fun ranges => (ranges, r.2) := by
  induction count generalizing i start ackRanges pkt with
  | zero => rfl
  | succ count ih =>
    rw [decodeAckRanges, readAckPairs]
    simp only [StateT.run_bind]
    cases first : packetGetQuicVlint.run pkt with
    | none => rfl
    | some r =>
      obtain ⟨gap, pkt₁⟩ := r
      simp only [Option.bind_eq_bind, Option.bind_some]
      cases second : packetGetQuicVlint.run pkt₁ with
      | none => rfl
      | some r =>
        obtain ⟨len, pkt₂⟩ := r
        simp only [Option.bind_some]
        by_cases out : start < addU64 gap 2 ∨ subU64 (subU64 start gap) 2 < len
        · have failed : ∀ pairs, walkAckPairs i start ackRanges ((gap, len) :: pairs) = none :=
            fun pairs => if_pos out
          rw [guard, if_neg (not_not_intro out)]
          cases third : (readAckPairs count).run pkt₂ with
          | none => rfl
          | some r => exact congrArg (Option.map _) (failed r.1).symm
        · have walked : ∀ pairs, walkAckPairs i start ackRanges ((gap, len) :: pairs) =
              walkAckPairs (i + 1)
                (putAckRange i start (subU64 (subU64 start gap) 2) len ackRanges).1
                (putAckRange i start (subU64 (subU64 start gap) 2) len ackRanges).2 pairs :=
            fun pairs => if_neg out
          rw [guard, if_pos out]
          refine (ih _ _ _ _).trans ?_
          cases third : (readAckPairs count).run pkt₂ with
          | none => rfl
          | some r => exact congrArg (Option.map _) (walked r.1).symm

def roomAfter (i : Nat) (ackRanges : Option (List AckRange)) : Nat :=
  (ackRanges.map List.length).getD 0 - (i + 1)

variable {i : Nat} {ranges : List AckRange}

/-- The pairs that are stored move the start, and each of the others is held against the start
    of the last one stored. -/
theorem walkAckPairs_isSome {ackRanges : Option (List AckRange)} (fits : start < 2 ^ 62)
    (small : ∀ p ∈ pairs, p.1 < 2 ^ 62) : (walkAckPairs i start ackRanges pairs).isSome ↔
      ackSpan (pairs.take (roomAfter i ackRanges)) ≤ start ∧
        ∀ p ∈ pairs.drop (roomAfter i ackRanges),
          p.width ≤ start - ackSpan (pairs.take (roomAfter i ackRanges)) := by
  induction pairs generalizing i start ackRanges with
  | nil => simp [walkAckPairs, ackSpan]
  | cons p pairs ih =>
    obtain ⟨gap, len⟩ := p
    have gapFits : gap < 2 ^ 62 := small (gap, len) (by simp)
    have small' : ∀ p ∈ pairs, p.1 < 2 ^ 62 := fun p member => small p (by simp [member])
    have step : walkAckPairs i start ackRanges ((gap, len) :: pairs) =
        if start < gap + 2 ∨ start - gap - 2 < len then none
        else walkAckPairs (i + 1) (putAckRange i start (start - gap - 2) len ackRanges).1
          (putAckRange i start (start - gap - 2) len ackRanges).2 pairs := by
      rw [walkAckPairs]
      rw [addU64_exact (by omega)]
      by_cases short : start < gap + 2
      · rw [if_pos (.inl short), if_pos (.inl short)]
      · have inner : subU64 start gap = start - gap := subU64_exact (by omega) (by omega)
        rw [inner, subU64_exact (by omega) (by omega)]
    rw [step]
    by_cases out : start < gap + 2 ∨ start - gap - 2 < len
    · rw [if_pos out]
      simp only [Option.isSome_none, Bool.false_eq_true, false_iff]
      rintro ⟨stored, others⟩
      cases room : roomAfter i ackRanges with
      | zero =>
        rw [room] at others
        have within := others (gap, len) (by simp)
        simp only [take_zero, ackSpan, map_nil, sum_nil, AckPair.width] at within
        omega
      | succ room' =>
        rw [room, take_succ_cons] at stored
        simp only [ackSpan, map_cons, sum_cons, AckPair.width] at stored
        omega
    · rw [if_neg out]
      cases room : roomAfter i ackRanges with
      | zero =>
        have same : putAckRange i start (start - gap - 2) len ackRanges = (start, ackRanges) := by
          cases ackRanges with
          | none => rfl
          | some ranges =>
            have full : ¬ i + 1 < ranges.length := by
              simp only [roomAfter, Option.map_some, Option.getD_some] at room
              omega
            exact if_neg full
        have room' : roomAfter (i + 1) ackRanges = 0 := by
          unfold roomAfter at room ⊢
          omega
        rw [same, ih fits small', room']
        simp only [take_zero, drop_zero, ackSpan, map_nil, sum_nil,
          forall_mem_cons, AckPair.width, zero_le, true_and, Nat.sub_zero]
        exact ⟨fun others => ⟨by omega, others⟩, And.right⟩
      | succ room' =>
        cases ackRanges with
        | none =>
          simp only [roomAfter, Option.map_none, Option.getD_none] at room
          omega
        | some ranges =>
          simp only [roomAfter, Option.map_some, Option.getD_some] at room
          have inside : i + 1 < ranges.length := by omega
          have moved : putAckRange i start (start - gap - 2) len (some ranges) =
              (start - gap - 2 - len,
                some (ranges.set (i + 1) ⟨start - gap - 2 - len, start - gap - 2⟩)) := by
            rw [putAckRange, if_pos inside, subU64_exact (by omega) (by omega)]
          have room'' : roomAfter (i + 1)
              (some (ranges.set (i + 1) ⟨start - gap - 2 - len, start - gap - 2⟩)) = room' := by
            simp only [roomAfter, Option.map_some, Option.getD_some, length_set]
            omega
          rw [moved]
          refine (ih (by dsimp only; omega) small').trans ?_
          rw [room'', take_succ_cons, drop_succ_cons]
          have span : ackSpan ((gap, len) :: pairs.take room') =
              gap + 2 + len + ackSpan (pairs.take room') := rfl
          rw [span]
          have left : start - gap - 2 - len - ackSpan (pairs.take room') =
              start - (gap + 2 + len + ackSpan (pairs.take room')) := by omega
          rw [left]
          exact and_congr_left (fun _ => by omega)

/- What is stored so far: descending ranges that do not touch, none below the start. -/
structure AckStored (start : Nat) (ranges : List AckRange) : Prop where
  apart : Separated ranges.reverse
  above : ∀ r ∈ ranges, start ≤ r.start

theorem ackStored_snoc (stored : AckStored start ranges) {r : AckRange} (valid : r.start ≤ r.stop)
    (below : r.stop + 1 < start) : AckStored r.start (ranges ++ [r]) := by
  constructor
  · rw [reverse_append, reverse_singleton, singleton_append, separated_cons]
    refine ⟨valid, stored.apart, ?_⟩
    intro t member
    have := stored.above t (mem_reverse.mp member)
    omega
  · intro t member
    rcases mem_append.mp member with member | member
    · have := stored.above t member
      omega
    · rw [mem_singleton.mp member]

theorem walkAckPairs_stored {ranges' : List AckRange} (fits : start < 2 ^ 62)
    (small : ∀ p ∈ pairs, p.1 < 2 ^ 62) (stored : AckStored start (ranges.take (i + 1)))
    (run : walkAckPairs i start (some ranges) pairs = some (some ranges')) :
    Separated (ranges'.take (i + 1 + pairs.length)).reverse ∧ ranges'.length = ranges.length := by
  induction pairs generalizing i start ranges with
  | nil =>
    obtain rfl := Option.some.inj (Option.some.inj run)
    exact ⟨stored.apart, rfl⟩
  | cons p pairs ih =>
    obtain ⟨gap, len⟩ := p
    have gapFits : gap < 2 ^ 62 := small (gap, len) (by simp)
    have small' : ∀ p ∈ pairs, p.1 < 2 ^ 62 := fun p member => small p (by simp [member])
    rw [walkAckPairs] at run
    rw [addU64_exact (by omega)] at run
    split_ifs at run with out
    have inner : subU64 start gap = start - gap := subU64_exact (by omega) (by omega)
    rw [inner, subU64_exact (by omega) (by omega)] at run out
    have within : len ≤ start - gap - 2 := by omega
    rw [putAckRange, subU64_exact (by omega) within] at run
    have count : i + 1 + (pairs.length + 1) = i + 1 + 1 + pairs.length := by omega
    rw [length_cons, count]
    by_cases inside : i + 1 < ranges.length
    · rw [if_pos inside] at run
      have stored' : AckStored (start - gap - 2 - len)
          ((ranges.set (i + 1) ⟨start - gap - 2 - len, start - gap - 2⟩).take (i + 1 + 1)) := by
        rw [set_take inside]
        have below : start - gap - 2 + 1 < start := by omega
        exact ackStored_snoc (r := ⟨_, _⟩) stored (Nat.sub_le _ _) below
      obtain ⟨apart, size⟩ := ih (by omega) small' stored' run
      exact ⟨apart, by rw [size, length_set]⟩
    · rw [if_neg inside] at run
      refine ih fits small' ?_ run
      have all : ranges.take (i + 1) = ranges := take_of_length_le (by omega)
      rw [all] at stored
      rw [take_of_length_le (by omega)]
      exact stored

theorem readAckPairs_length {count : Nat}
    (run : (readAckPairs count).run pkt = some (pairs, rest)) : pairs.length = count := by
  induction count generalizing pkt pairs with
  | zero =>
    obtain ⟨rfl, _⟩ := mk.inj (Option.some.inj run)
    rfl
  | succ count ih =>
    obtain ⟨⟨gap, pkt₁⟩, _, run⟩ := Option.bind_eq_some_iff.mp run
    obtain ⟨⟨len, pkt₂⟩, _, run⟩ := Option.bind_eq_some_iff.mp run
    obtain ⟨⟨later, pkt₃⟩, third, run⟩ := Option.bind_eq_some_iff.mp run
    obtain ⟨rfl, rfl⟩ := mk.inj (Option.some.inj run)
    rw [length_cons, ih third]

def ackDecoded (ackDelayExponent : Nat) (ack : Option FrameAck) (f : AckFields)
    (ackRanges : Option (List AckRange)) : Option FrameAck × Nat :=
  let ack := ack.map fun a =>
    { a with
      delayTime := ackDelayDec ackDelayExponent f.ackDelayRaw
      ackRanges := (ackRanges.getD []).take (f.pairs.length + 1) }
  (ack.map fun a =>
    match f.counts with
    | some (ect0, ect1, ecnce) =>
      { a with ect0 := ect0, ect1 := ect1, ecnce := ecnce, ecnPresent := true }
    | none => { a with ecnPresent := false },
    f.pairs.length + 1)

def ackFirstStored (f : AckFields) (ack : Option FrameAck) : Option (List AckRange) :=
  ack.map fun a => a.ackRanges.set 0 ⟨f.largestAckd - f.firstAckRange, f.largestAckd⟩

def judgeAckFields (ackDelayExponent : Nat) (ack : Option FrameAck) (f : AckFields) :
    Option (Option FrameAck × Nat) :=
  if f.largestAckd < f.firstAckRange then none
  else
    (walkAckPairs 0 (f.largestAckd - f.firstAckRange) (ackFirstStored f ack) f.pairs).map
      (ackDecoded ackDelayExponent ack f)

variable (ackDelayExponent : Nat) (ack : Option FrameAck)

theorem judgeAckFields_within (within : ¬ f.largestAckd < f.firstAckRange) :
    judgeAckFields ackDelayExponent ack f =
      (walkAckPairs 0 (f.largestAckd - f.firstAckRange) (ackFirstStored f ack) f.pairs).map
        (ackDecoded ackDelayExponent ack f) := if_neg within

theorem wireDecodeFrameAck_judges (pkt : Packet) :
    (wireDecodeFrameAck ackDelayExponent ack).run pkt =
      (readAckFields.run pkt).bind fun r =>
        (judgeAckFields ackDelayExponent ack r.1).map fun out => (out, r.2) := by
  rw [wireDecodeFrameAck, readAckFields]
  simp only [StateT.run_bind, Option.bind_eq_bind, Option.bind_assoc]
  apply Option.bind_congr
  rintro ⟨frameType, pkt₀⟩ _
  apply Option.bind_congr
  rintro ⟨largestAckd, pkt₁⟩ _
  apply Option.bind_congr
  rintro ⟨ackDelayRaw, pkt₂⟩ _
  apply Option.bind_congr
  rintro ⟨ackRangeCount, pkt₃⟩ _
  apply Option.bind_congr
  rintro ⟨firstAckRange, pkt₄⟩ _
  by_cases out : largestAckd < firstAckRange
  · have failed : ∀ f : AckFields, f.largestAckd = largestAckd → f.firstAckRange = firstAckRange →
        judgeAckFields ackDelayExponent ack f = none := by
      rintro f rfl rfl
      exact if_pos out
    rw [guard, if_neg (not_not_intro out)]
    cases pairsRun : (readAckPairs ackRangeCount).run pkt₄ with
    | none => rfl
    | some r =>
      rw [Option.bind_some]
      cases counts : (readAckCounts frameType).run r.2 with
      | none => rfl
      | some c => exact (congrArg (Option.map _) (failed ⟨_, _, _, _, _, _⟩ rfl rfl)).symm
  · rw [guard, if_pos out]
    simp only [StateT.run_pure, Option.pure_def, Option.bind_some]
    rw [decodeAckRanges_walk, Option.bind_assoc]
    apply Option.bind_congr
    rintro ⟨pairs, pkt₅⟩ pairsRun
    obtain rfl := readAckPairs_length pairsRun
    have judged := fun counts => judgeAckFields_within ackDelayExponent ack
      (f := ⟨frameType, largestAckd, ackDelayRaw, firstAckRange, pairs, counts⟩) out
    simp only [judged, ackFirstStored]
    cases walkAckPairs 0 (largestAckd - firstAckRange)
      (ack.map fun a => a.ackRanges.set 0 ⟨largestAckd - firstAckRange, largestAckd⟩) pairs with
    | none =>
      cases (readAckCounts frameType).run pkt₅ with
      | none => rfl
      | some r => rfl
    | some ranges =>
      simp only [Option.map_some, Option.bind_some]
      unfold readAckCounts
      by_cases ecn : frameType = frameTypeAckWithEcn
      · rw [if_pos ecn, if_pos ecn]
        simp only [StateT.run_bind, Option.bind_eq_bind, Option.bind_assoc]
        rfl
      · rw [if_neg ecn, if_neg ecn]
        rfl

/- The ranges that the array has no room for go below zero together, while none of them does so by
   itself from the start of the last one stored. -/
def Overrun (ack : Option FrameAck) (f : AckFields) : Prop :=
  let start := f.largestAckd - f.firstAckRange
  let room := roomAfter 0 (ack.map FrameAck.ackRanges)
  f.firstAckRange ≤ f.largestAckd ∧ ackSpan (f.pairs.take room) ≤ start ∧ start < ackSpan f.pairs ∧
    ∀ p ∈ f.pairs.drop room, p.width ≤ start - ackSpan (f.pairs.take room)

/-- What the decoder should make of a frame, for whatever it is to fill in. -/
structure AckValidated (ackDelayExponent : Nat) (ack : Option FrameAck) (pkt : Packet) : Prop where
  exact : ((wireDecodeFrameAck ackDelayExponent ack).run pkt).isSome ↔
    ∃ f rest, readAckFields.run pkt = some (f, rest) ∧ f.Inside
  stored : ∀ into total rest, (wireDecodeFrameAck ackDelayExponent ack).run pkt =
    some ((some into, total), rest) → Separated into.ackRanges.reverse

theorem readAckFields_fits (run : readAckFields.run pkt = some (f, rest)) :
    f.largestAckd < 2 ^ 62 ∧ ∀ p ∈ f.pairs, p.1 < 2 ^ 62 := by
  obtain ⟨⟨frameType, pkt₀⟩, _, run⟩ := Option.bind_eq_some_iff.mp run
  obtain ⟨⟨largestAckd, pkt₁⟩, largest, run⟩ := Option.bind_eq_some_iff.mp run
  obtain ⟨⟨ackDelayRaw, pkt₂⟩, _, run⟩ := Option.bind_eq_some_iff.mp run
  obtain ⟨⟨ackRangeCount, pkt₃⟩, _, run⟩ := Option.bind_eq_some_iff.mp run
  obtain ⟨⟨firstAckRange, pkt₄⟩, _, run⟩ := Option.bind_eq_some_iff.mp run
  obtain ⟨⟨pairs, pkt₅⟩, pairsRun, run⟩ := Option.bind_eq_some_iff.mp run
  obtain ⟨⟨counts, pkt₆⟩, _, run⟩ := Option.bind_eq_some_iff.mp run
  obtain ⟨rfl, _⟩ := mk.inj (Option.some.inj run)
  exact ⟨vlint_read_fits largest, fun p member => (readAckPairs_fits pairsRun p member).1⟩

theorem ackFirstStored_room (f : AckFields) (ack : Option FrameAck) :
    roomAfter 0 (ackFirstStored f ack) = roomAfter 0 (ack.map FrameAck.ackRanges) := by
  cases ack with
  | none => rfl
  | some a => simp [roomAfter, ackFirstStored]

theorem ackSpan_split (pairs : List AckPair) (n : Nat) :
    ackSpan pairs = ackSpan (pairs.take n) + ackSpan (pairs.drop n) := by
  conv_lhs => rw [← take_append_drop n pairs]
  rw [ackSpan, map_append, sum_append_nat]
  rfl

theorem width_le_ackSpan {p : AckPair} (member : p ∈ pairs) : p.width ≤ ackSpan pairs :=
  le_sum_of_mem (mem_map_of_mem member)

/-- What is accepted is what stays inside, and what overruns. -/
theorem judgeAckFields_isSome (largest : f.largestAckd < 2 ^ 62)
    (small : ∀ p ∈ f.pairs, p.1 < 2 ^ 62) :
    (judgeAckFields ackDelayExponent ack f).isSome ↔ f.Inside ∨ Overrun ack f := by
  unfold AckFields.Inside Overrun
  rw [rangesInside_iff]
  by_cases out : f.largestAckd < f.firstAckRange
  · rw [judgeAckFields, if_pos out]
    simp only [Option.isSome_none, Bool.false_eq_true, false_iff]
    rintro (inside | over_)
    · exact absurd inside.1 (by omega)
    · exact absurd over_.1 (by omega)
  · rw [judgeAckFields_within ackDelayExponent ack out, Option.isSome_map,
      walkAckPairs_isSome (by omega) small, ackFirstStored_room]
    generalize roomAfter 0 (ack.map FrameAck.ackRanges) = room
    have split := ackSpan_split f.pairs room
    constructor
    · rintro ⟨stored, others⟩
      by_cases inside : ackSpan f.pairs ≤ f.largestAckd - f.firstAckRange
      · exact .inl ⟨by omega, inside⟩
      · exact .inr ⟨by omega, stored, by omega, others⟩
    · rintro (⟨_, inside⟩ | ⟨_, stored, _, others⟩)
      · refine ⟨by omega, fun p member => ?_⟩
        have := width_le_ackSpan member
        omega
      · exact ⟨stored, others⟩

theorem wireDecodeFrameAck_stored {ackDelayExponent : Nat} {ack : Option FrameAck}
    {into : FrameAck} {total : Nat}
    (run : (wireDecodeFrameAck ackDelayExponent ack).run pkt = some ((some into, total), rest)) :
    Separated into.ackRanges.reverse := by
  rw [wireDecodeFrameAck_judges] at run
  obtain ⟨⟨f, pkt'⟩, read, run⟩ := Option.bind_eq_some_iff.mp run
  obtain ⟨out, judged, run⟩ := Option.map_eq_some_iff.mp run
  obtain ⟨rfl, _⟩ := mk.inj run
  obtain ⟨largest, small⟩ := readAckFields_fits read
  rw [judgeAckFields] at judged
  split_ifs at judged with order
  obtain ⟨ranges, walked, decoded⟩ := Option.map_eq_some_iff.mp judged
  cases ack with
  | none => exact nomatch decoded
  | some a =>
    obtain ⟨same, _⟩ := mk.inj decoded
    have ranges' : into.ackRanges = (ranges.getD []).take (f.pairs.length + 1) := by
      obtain rfl := Option.some.inj same
      cases f.counts with
      | none => rfl
      | some c => rfl
    rw [ranges']
    cases ranges with
    | none => exact ⟨(fun _ member => nomatch member), List.Pairwise.nil⟩
    | some ranges =>
      have first : AckStored (f.largestAckd - f.firstAckRange) ((a.ackRanges.set 0
          ⟨f.largestAckd - f.firstAckRange, f.largestAckd⟩).take 1) := by
        cases a.ackRanges with
        | nil => exact ⟨⟨(fun _ member => nomatch member), List.Pairwise.nil⟩, by simp⟩
        | cons r later =>
          refine ⟨⟨?_, pairwise_singleton _ _⟩, ?_⟩
          · intro t member
            rw [mem_singleton.mp (show t ∈ [_] from member)]
            exact Nat.sub_le _ _
          · intro t member
            rw [mem_singleton.mp (show t ∈ [_] from member)]
      have apart := (walkAckPairs_stored (by omega) small first walked).1
      rw [zero_add, add_comm] at apart
      exact apart

theorem not_overrun_inside {ack : Option FrameAck} (inside : f.Inside) : ¬ Overrun ack f := by
  rintro ⟨_, _, below, _⟩
  have := rangesInside_iff.mp inside.2
  omega

theorem wireDecodeFrameAck_isSome (pkt : Packet) :
    ((wireDecodeFrameAck ackDelayExponent ack).run pkt).isSome ↔
      ∃ f rest, readAckFields.run pkt = some (f, rest) ∧ (f.Inside ∨ Overrun ack f) := by
  rw [wireDecodeFrameAck_judges]
  cases read : readAckFields.run pkt with
  | none => simp
  | some r =>
    obtain ⟨f, rest⟩ := r
    obtain ⟨largest, small⟩ := readAckFields_fits read
    rw [Option.bind_some, Option.isSome_map, judgeAckFields_isSome ackDelayExponent ack largest small]
    constructor
    · intro accepted
      exact ⟨f, rest, rfl, accepted⟩
    · rintro ⟨f', rest', same, accepted⟩
      obtain ⟨rfl, _⟩ := mk.inj (Option.some.inj same)
      exact accepted

theorem ackValidated_iff (pkt : Packet) : AckValidated ackDelayExponent ack pkt ↔
      ∀ f rest, readAckFields.run pkt = some (f, rest) → ¬ Overrun ack f := by
  constructor
  · intro validated f rest read over_
    obtain ⟨f', rest', read', inside⟩ := validated.exact.mp
      ((wireDecodeFrameAck_isSome ackDelayExponent ack pkt).mpr ⟨f, rest, read, .inr over_⟩)
    rw [read] at read'
    obtain ⟨rfl, _⟩ := mk.inj (Option.some.inj read')
    exact not_overrun_inside inside over_
  · intro never
    refine ⟨?_, fun into total rest run => wireDecodeFrameAck_stored run⟩
    rw [wireDecodeFrameAck_isSome]
    constructor
    · rintro ⟨f, rest, read, inside | over_⟩
      · exact ⟨f, rest, read, inside⟩
      · exact absurd over_ (never f rest read)
    · rintro ⟨f, rest, read, inside⟩
      exact ⟨f, rest, read, .inl inside⟩

/-- The verdict on a frame is the same for two calls, and right for both, exactly when the frame
    overruns the array of neither. -/
theorem ack_validation_iff (ackDelayExponent : Nat) (ack ack' : Option FrameAck) (pkt : Packet) :
    (((wireDecodeFrameAck ackDelayExponent ack).run pkt).isSome =
        ((wireDecodeFrameAck ackDelayExponent ack').run pkt).isSome ∧
      AckValidated ackDelayExponent ack pkt ∧ AckValidated ackDelayExponent ack' pkt) ↔
    ∀ f rest, readAckFields.run pkt = some (f, rest) → ¬ Overrun ack f ∧ ¬ Overrun ack' f := by
  rw [ackValidated_iff, ackValidated_iff]
  constructor
  · rintro ⟨_, first, second⟩ f rest read
    exact ⟨first f rest read, second f rest read⟩
  · intro never
    have first := fun f rest read => (never f rest read).1
    have second := fun f rest read => (never f rest read).2
    refine ⟨?_, first, second⟩
    rw [Bool.eq_iff_iff, ((ackValidated_iff ackDelayExponent ack pkt).mpr first).exact,
      ((ackValidated_iff ackDelayExponent ack' pkt).mpr second).exact]

def overrunFrame : Packet := [2, 10, 0, 2, 0, 3, 0, 6, 0]

/-- With no room for its ranges the frame is accepted, with room for all of them it is not. -/
theorem ack_validation_depends :
    ¬ ∀ (ackDelayExponent : Nat) (ack ack' : Option FrameAck) (pkt : Packet),
      ((wireDecodeFrameAck ackDelayExponent ack).run pkt).isSome =
        ((wireDecodeFrameAck ackDelayExponent ack').run pkt).isSome := by
  intro same
  exact absurd (same 3 none (some sampleInto) overrunFrame) (by decide +kernel)

end Ossl
