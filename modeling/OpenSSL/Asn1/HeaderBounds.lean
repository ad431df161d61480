import OpenSSL.Asn1.Asn1Lib

/- How far ASN1_get_object of crypto/asn1/asn1_lib.c reads, and what it takes for a header. The
   octets from a pointer on are a list, and a read behind the last has no result. -/
namespace Ossl
open List Option Base128 BigEndian

/- used tells how far the pointer moves. -/
structure Asn1Header where
  length : Nat
  tag : Nat
  xclass : Nat
  used : Nat
  deriving DecidableEq

def readTagRounds : List UInt8 → Nat → Nat → Option (Option (Nat × Nat × List UInt8))
  | [], _, _ => none
  | octet :: p, max, len =>
    let len := (len <<< 7) ||| (octet.toNat &&& 0x7f)
    if max - 1 = 0 then some none
    else if octet.toNat &&& 0x80 ≠ 0 then
      if intMax >>> 7 < len then some none else readTagRounds p (max - 1) len
    else some (some (len, max - 1, p))

def readTag (first : UInt8) (p : List UInt8) (max : Nat) :
    Option (Option (Nat × Nat × List UInt8)) :=
  let i := first.toNat &&& vAsn1PrimitiveTag
  if max - 1 = 0 then some none
  else if i = vAsn1PrimitiveTag then readTagRounds p (max - 1) 0
  else some (some (i, max - 1, p))

def readLength (p : List UInt8) (max : Nat) : Option (Option Asn1Length) :=
  if max < 1 then some none
  else
    match p with
    | [] => none
    | first :: p =>
      if first = 0x80 then some (some ⟨true, 0, p⟩)
      else
        let i := first.toNat &&& 0x7f
        if first.toNat &&& 0x80 ≠ 0 then
          if max - 1 < i + 1 then some none
          else if p.length < i then none
          else
            let skipped := skipZeroes i p
            if 8 < skipped.1 then some none
            else
              let ret := netValue (skipped.2.take skipped.1)
              if longMax < ret then some none
              else some (some ⟨false, ret, skipped.2.drop skipped.1⟩)
        else some (some ⟨false, i, p⟩)

def headerResult (first : UInt8) (inf : Bool) (omax : Int) (header : Asn1Header) :
    Nat × Option Asn1Header :=
  let ret := first.toNat &&& vAsn1Constructed
  let ret := if omax - (header.used : Int) < header.length then ret ||| 0x80 else ret
  (ret ||| (if inf then 1 else 0), some header)

def readHeader (pp : List UInt8) (omax : Int) : Option (Nat × Option Asn1Header) :=
  if omax ≤ 0 then some (0x80, none)
  else
    match pp with
    | [] => none
    | first :: p =>
      match readTag first p omax.toNat with
      | none => none
      | some none => some (0x80, none)
      | some (some (tag, max, p)) =>
        match readLength p max with
        | none => none
        | some none => some (0x80, none)
        | some (some got) =>
          if got.inf ∧ first.toNat &&& vAsn1Constructed = 0 then some (0x80, none)
          else
            some (headerResult first got.inf omax
              ⟨got.length, tag, first.toNat &&& vAsn1Private, pp.length - got.p.length⟩)

inductive TagOctets : List UInt8 → Prop where
  | last {octet : UInt8} : octet.toNat < 128 → TagOctets [octet]
  | more {octet : UInt8} {octets : List UInt8} :
      128 ≤ octet.toNat → TagOctets octets → TagOctets (octet :: octets)

def tagValue (len : Nat) (octets : List UInt8) : Nat :=
  octets.foldl (fun len octet => len * 128 + octet.toNat % 128) len

inductive Identifier (first : UInt8) : List UInt8 → Nat → Prop where
  | low : first.toNat &&& vAsn1PrimitiveTag ≠ vAsn1PrimitiveTag →
      Identifier first [] (first.toNat &&& vAsn1PrimitiveTag)
  | high {octets : List UInt8} : first.toNat &&& vAsn1PrimitiveTag = vAsn1PrimitiveTag →
      TagOctets octets → tagValue 0 octets ≤ intMax → Identifier first octets (tagValue 0 octets)

inductive LengthOctets : List UInt8 → Bool → Nat → Prop where
  | indefinite : LengthOctets [0x80] true 0
  | short {octet : UInt8} : octet.toNat < 128 → LengthOctets [octet] false octet.toNat
  | long {octet : UInt8} {octets : List UInt8} : 128 < octet.toNat →
      octets.length = octet.toNat - 128 → netValue octets ≤ longMax →
      LengthOctets (octet :: octets) false (netValue octets)

def LongForm (octets : List UInt8) : Prop := 128 < (octets.headD 0).toNat

structure Encodes (b : List UInt8) (first : UInt8) (tag length rest : List UInt8) (inf : Bool)
    (header : Asn1Header) : Prop where
  split : b = first :: (tag ++ (length ++ rest))
  identifier : Identifier first tag header.tag
  lengthOctets : LengthOctets length inf header.length
  constructed : inf = true → first.toNat &&& vAsn1Constructed ≠ 0
  xclass : header.xclass = first.toNat &&& vAsn1Private
  used : header.used = 1 + tag.length + length.length

variable {b octets p rest rest' tag tag' : List UInt8} {inf : Bool} {first : UInt8} {omax : Int}

theorem lengthOctets_pos {value : Nat} (length : LengthOctets octets inf value) :
    1 ≤ octets.length := by
  cases length <;> simp

theorem tagValue_ge (len : Nat) (tag : TagOctets octets) : len * 128 ≤ tagValue len octets := by
  induction tag generalizing len with
  | last low => simp [tagValue]
  | more high tag ih =>
    rename_i octet octets
    have step : tagValue len (octet :: octets) = tagValue (len * 128 + octet.toNat % 128) octets :=
      rfl
    rw [step]
    have := ih (len * 128 + octet.toNat % 128)
    omega

theorem octet_mask_high (octet : UInt8) : octet.toNat &&& 0x80 ≠ 0 ↔ 128 ≤ octet.toNat := by
  rw [(octet_masks octet).1]
  simp [follows]

variable {octet : UInt8} {value' : Nat} {length' : List UInt8} {inf' : Bool}

theorem TagOctets.goes (tag : TagOctets octets) (more : 128 ≤ octet.toNat)
    (split : octets ++ rest = octet :: p) :
    ∃ others, octets = octet :: others ∧ TagOctets others := by
  cases tag with
  | last low =>
    cases (cons.inj split).1
    omega
  | more high tag =>
    cases (cons.inj split).1
    exact ⟨_, rfl, tag⟩

theorem TagOctets.only (tag : TagOctets octets) (last : ¬ 128 ≤ octet.toNat)
    (split : octets ++ rest = octet :: p) : octets = [octet] ∧ rest = p := by
  cases tag with
  | last low => exact ⟨by simp [(cons.inj split).1], (cons.inj split).2⟩
  | more high tag =>
    cases (cons.inj split).1
    omega

/-- The octets of a tag are read, if it fits an int and something is left behind them. -/
theorem readTagRounds_spec (p : List UInt8) (max len : Nat) (small : len ≤ intMax >>> 7)
    (got : Nat × Nat × List UInt8) :
    readTagRounds p max len = some (some got) ↔
      ∃ octets, p = octets ++ got.2.2 ∧ TagOctets octets ∧ octets.length < max ∧
        tagValue len octets ≤ intMax ∧ got.1 = tagValue len octets ∧
        got.2.1 = max - octets.length := by
  induction p generalizing max len with
  | nil =>
    refine iff_of_false (by simp [readTagRounds]) ?_
    rintro ⟨octets, split, tag, _⟩
    cases tag <;> simp at split
  | cons octet p ih =>
    rw [readTagRounds]
    simp only [read_digit]
    by_cases more : 128 ≤ octet.toNat
    · rw [if_pos ((octet_mask_high octet).mpr more)]
      by_cases done : max - 1 = 0
      · rw [if_pos done]
        refine iff_of_false (by simp) ?_
        rintro ⟨octets, split, tag, fits, _⟩
        obtain ⟨others, rfl, tagged⟩ := tag.goes more split.symm
        simp only [length_cons] at fits
        omega
      · rw [if_neg done]
        by_cases large : intMax >>> 7 < len * 128 + octet.toNat % 128
        · rw [if_pos large]
          refine iff_of_false (by simp) ?_
          rintro ⟨octets, split, tag, _, value, _⟩
          obtain ⟨others, rfl, tagged⟩ := tag.goes more split.symm
          have least := tagValue_ge (len * 128 + octet.toNat % 128) tagged
          have same : tagValue len (octet :: others) =
              tagValue (len * 128 + octet.toNat % 128) others := rfl
          rw [same] at value
          omega
        · rw [if_neg large, ih (max - 1) _ (by omega)]
          constructor
          · rintro ⟨octets, rfl, tag, fits, value, first, left⟩
            exact ⟨octet :: octets, rfl, .more more tag, by simp; omega, value, first, by
              simp [left]; omega⟩
          · rintro ⟨octets, split, tag, fits, value, first, left⟩
            obtain ⟨others, rfl, tagged⟩ := tag.goes more split.symm
            simp only [length_cons] at fits left
            exact ⟨others, (cons.inj split).2, tagged, by omega, value, first, by omega⟩
    · rw [if_neg fun bit => more ((octet_mask_high octet).mp bit)]
      have value : tagValue len [octet] = len * 128 + octet.toNat % 128 := rfl
      have bound : (intMax >>> 7) * 128 + 127 = intMax := by decide
      by_cases done : max - 1 = 0
      · rw [if_pos done]
        refine iff_of_false (by simp) ?_
        rintro ⟨octets, split, tag, fits, _⟩
        rw [(tag.only more split.symm).1, length_singleton] at fits
        omega
      · rw [if_neg done]
        constructor
        · intro same
          cases same
          exact ⟨[octet], rfl, .last (by omega), by simp; omega, by rw [value]; omega, rfl, rfl⟩
        · rintro ⟨octets, split, tag, fits, _, first, left⟩
          obtain ⟨rfl, rest⟩ := tag.only more split.symm
          rw [value] at first
          rw [length_singleton] at left
          rw [← first, ← left, ← rest]

theorem readTagRounds_inside {max len : Nat} (some_ : 0 < max) (room : max ≤ p.length) :
    readTagRounds p max len ≠ none := by
  induction p generalizing max len with
  | nil => simp at room; omega
  | cons octet p ih =>
    rw [length_cons] at room
    rw [readTagRounds]
    split_ifs with done
    · simp
    · simp
    · exact ih (by omega) (by omega)
    · simp

/-- More octets than a long has are left only of a value that no long holds. -/
theorem skipZeroes_long (i : Nat) (p : List UInt8) (inside : i ≤ p.length)
    (long : 8 < (skipZeroes i p).1) : longMax < netValue (p.take i) := by
  induction i generalizing p with
  | zero => simp [skipZeroes] at long
  | succ i ih =>
    cases p with
    | nil => simp at inside
    | cons octet p =>
      rw [take_succ_cons, netValue_cons]
      by_cases zero : octet = 0
      · rw [skipZeroes, if_pos zero] at long
        have := ih p (by simpa using inside) long
        omega
      · rw [skipZeroes, if_neg zero] at long
        have some_ : 1 ≤ octet.toNat := by
          by_contra none_
          exact zero (UInt8.toNat_inj.mp (show octet.toNat = 0 by omega))
        have size : (p.take i).length = i := length_take_of_le (by simpa using inside)
        have power : 2 ^ 64 ≤ 2 ^ (8 * (p.take i).length) :=
          Nat.pow_le_pow_right (by decide) (by omega)
        have scaled := Nat.mul_le_mul_right (2 ^ (8 * (p.take i).length)) some_
        have bound : longMax < 2 ^ 64 := by decide
        omega

theorem readLong_spec (p : List UInt8) (inside : first.toNat - 128 ≤ p.length) (got : Asn1Length) :
    (if 8 < (skipZeroes (first.toNat - 128) p).1 then some none
      else if longMax < netValue ((skipZeroes (first.toNat - 128) p).2.take
        (skipZeroes (first.toNat - 128) p).1) then some none
      else some (some ⟨false, netValue ((skipZeroes (first.toNat - 128) p).2.take
        (skipZeroes (first.toNat - 128) p).1), (skipZeroes (first.toNat - 128) p).2.drop
        (skipZeroes (first.toNat - 128) p).1⟩)) = some (some got) ↔
      ∃ octets, p = octets ++ got.p ∧ octets.length = first.toNat - 128 ∧
        netValue octets ≤ longMax ∧ got.inf = false ∧ got.length = netValue octets := by
  obtain ⟨_, value, rest⟩ := skipZeroes_value (first.toNat - 128) p inside
  have parts : ∀ octets, p = octets ++ got.p → octets.length = first.toNat - 128 →
      octets = p.take (first.toNat - 128) ∧ got.p = p.drop (first.toNat - 128) := by
    rintro octets rfl size
    simp [← size]
  rw [value, rest]
  by_cases wide : 8 < (skipZeroes (first.toNat - 128) p).1
  · rw [if_pos wide]
    have large := skipZeroes_long _ _ inside wide
    refine iff_of_false (by simp) ?_
    rintro ⟨octets, split, size, fits, _⟩
    rw [(parts octets split size).1] at fits
    omega
  · rw [if_neg wide]
    by_cases large : longMax < netValue (p.take (first.toNat - 128))
    · rw [if_pos large]
      refine iff_of_false (by simp) ?_
      rintro ⟨octets, split, size, fits, _⟩
      rw [(parts octets split size).1] at fits
      omega
    · rw [if_neg large]
      constructor
      · intro same
        have fits : netValue (p.take (first.toNat - 128)) ≤ longMax := by omega
        have whole := (take_append_drop (first.toNat - 128) p).symm
        rw [← some.inj (some.inj same)]
        dsimp only
        exact ⟨p.take (first.toNat - 128), whole, length_take_of_le inside, fits, rfl, rfl⟩
      · rintro ⟨octets, split, size, fits, inf, length⟩
        obtain ⟨taken, left⟩ := parts octets split size
        rw [← left, ← taken, ← length, ← inf]

theorem readLength_spec (p : List UInt8) (max : Nat) (room : max ≤ p.length) (got : Asn1Length) :
    readLength p max = some (some got) ↔
      ∃ octets, p = octets ++ got.p ∧ LengthOctets octets got.inf got.length ∧
        octets.length ≤ max ∧ (LongForm octets → octets.length < max) := by
  obtain ⟨inf, value, rest⟩ := got
  unfold readLength
  by_cases none_ : max < 1
  · rw [if_pos none_]
    refine iff_of_false (by simp) ?_
    rintro ⟨octets, _, length, fits, _⟩
    cases length <;> simp at fits <;> omega
  · rw [if_neg none_]
    cases p with
    | nil => simp at room; omega
    | cons first p =>
      rw [length_cons] at room
      have low : first.toNat &&& 0x7f = first.toNat % 128 := (octet_masks first).2
      have byte := first.toNat_lt
      dsimp only
      by_cases indefinite : first = 0x80
      · subst indefinite
        rw [if_pos rfl]
        constructor
        · rintro ⟨⟩
          exact ⟨[0x80], rfl, .indefinite, by simp; omega, by simp [LongForm]⟩
        · rintro ⟨octets, split, length, _⟩
          cases length with
          | indefinite => rw [(cons.inj split).2]; rfl
          | short low =>
            cases (cons.inj split).1
            simp at low
          | long high =>
            cases (cons.inj split).1
            simp at high
      · rw [if_neg indefinite]
        have other : first.toNat ≠ 128 := fun same =>
          indefinite (UInt8.toNat_inj.mp same)
        by_cases high : 128 ≤ first.toNat
        · rw [if_pos ((octet_mask_high first).mpr high),
            show first.toNat &&& 0x7f = first.toNat - 128 by omega]
          have only : ∀ octets, octets ++ rest = first :: p → LengthOctets octets inf value →
              ∃ others, octets = first :: others ∧ inf = false ∧
                others.length = first.toNat - 128 ∧ netValue others ≤ longMax ∧
                value = netValue others := by
            intro octets split length
            cases length with
            | indefinite =>
              cases (cons.inj split).1
              simp at other
            | short low =>
              cases (cons.inj split).1
              omega
            | long high size fits =>
              cases (cons.inj split).1
              exact ⟨_, rfl, rfl, size, fits, rfl⟩
          by_cases short : max - 1 < first.toNat - 128 + 1
          · rw [if_pos short]
            refine iff_of_false (by simp) ?_
            rintro ⟨octets, split, length, _, more⟩
            obtain ⟨others, rfl, _, size, _⟩ := only octets split.symm length
            have := more (show 128 < first.toNat by omega)
            rw [length_cons] at this
            omega
          · rw [if_neg short, if_neg (by omega), readLong_spec p (by omega)]
            constructor
            · rintro ⟨octets, rfl, size, fits, rfl, rfl⟩
              exact ⟨first :: octets, rfl, .long (by omega) size fits, by simp; omega,
                fun _ => by simp; omega⟩
            · rintro ⟨octets, split, length, _⟩
              obtain ⟨others, rfl, inf_, size, fits, value_⟩ := only octets split.symm length
              exact ⟨others, (cons.inj split).2, size, fits, inf_, value_⟩
        · rw [if_neg fun bit => high ((octet_mask_high first).mp bit), low,
            Nat.mod_eq_of_lt (by omega)]
          constructor
          · intro same
            cases some.inj (some.inj same)
            exact ⟨[first], rfl, .short (by omega), by simp; omega, fun long => by
              simp [LongForm] at long; omega⟩
          · rintro ⟨octets, split, length, _⟩
            cases length with
            | indefinite =>
              cases (cons.inj split).1
              simp at other
            | short low =>
              cases (cons.inj split).1
              rw [(cons.inj split).2]
              rfl
            | long high =>
              cases (cons.inj split).1
              omega

theorem readLength_inside {p : List UInt8} {max : Nat} (room : max ≤ p.length) :
    readLength p max ≠ none := by
  unfold readLength
  by_cases none_ : max < 1
  · simp [none_]
  · rw [if_neg none_]
    cases p with
    | nil => simp at room; omega
    | cons first p =>
      rw [length_cons] at room
      dsimp only
      split_ifs with _ _ short outside
      · simp
      · simp
      · exact absurd outside (by omega)
      all_goals simp

theorem readTag_spec {first : UInt8} {p : List UInt8} {max : Nat} (got : Nat × Nat × List UInt8) :
    readTag first p max = some (some got) ↔
      ∃ octets, p = octets ++ got.2.2 ∧ Identifier first octets got.1 ∧ octets.length + 1 < max ∧
        got.2.1 = max - 1 - octets.length := by
  obtain ⟨tag, left, rest⟩ := got
  unfold readTag
  dsimp only
  by_cases done : max - 1 = 0
  · rw [if_pos done]
    refine iff_of_false (by simp) ?_
    rintro ⟨octets, _, _, fits, _⟩
    omega
  · rw [if_neg done]
    by_cases high : first.toNat &&& vAsn1PrimitiveTag = vAsn1PrimitiveTag
    · rw [if_pos high, readTagRounds_spec p (max - 1) 0 (Nat.zero_le _)]
      constructor
      · rintro ⟨octets, split, tagged, fits, value, rfl, rest_⟩
        exact ⟨octets, split, .high high tagged value, by omega, rest_⟩
      · rintro ⟨octets, split, identifier, fits, rest_⟩
        cases identifier with
        | low other => exact absurd high other
        | high _ tagged value => exact ⟨octets, split, tagged, by omega, value, rfl, rest_⟩
    · rw [if_neg high]
      constructor
      · intro same
        cases some.inj (some.inj same)
        exact ⟨[], rfl, .low high, by simp; omega, rfl⟩
      · rintro ⟨octets, split, identifier, fits, rest_⟩
        cases identifier with
        | low _ =>
          rw [rest_, split]
          rfl
        | high other _ _ => exact absurd other high

theorem readTag_inside {first : UInt8} {p : List UInt8} {max : Nat} (room : max ≤ p.length + 1) :
    readTag first p max ≠ none := by
  unfold readTag
  dsimp only
  split_ifs with done
  · simp
  · exact readTagRounds_inside (by omega) (by omega)
  · simp

variable {length : List UInt8} {header : Asn1Header}

/-- A header within omax is stored, if one octet is left where its length has the long form. -/
theorem readHeader_encodes (room : omax ≤ b.length)
    (encodes : Encodes b first tag length rest inf header) (fits : header.used ≤ omax)
    (more : LongForm length → header.used < omax) :
    readHeader b omax = some (headerResult first inf omax header) := by
  obtain ⟨rfl, identifier, lengthOctets, constructed, xclass, used⟩ := encodes
  simp only [length_cons, length_append] at room
  have some_ := lengthOctets_pos lengthOctets
  have tagged := (@readTag_spec first (tag ++ (length ++ rest)) omax.toNat
    (header.tag, omax.toNat - 1 - tag.length, length ++ rest)).mpr
      ⟨tag, rfl, identifier, by omega, rfl⟩
  have got := (readLength_spec (length ++ rest) (omax.toNat - 1 - tag.length)
    (by rw [length_append]; omega) ⟨inf, header.length, rest⟩).mpr
      ⟨length, rfl, lengthOctets, by omega, fun long => by have := more long; omega⟩
  have whole : ¬ (inf = true ∧ first.toNat &&& vAsn1Constructed = 0) :=
    fun both => constructed both.1 both.2
  have moved : (first :: (tag ++ (length ++ rest))).length - rest.length = header.used := by
    simp only [length_cons, length_append]
    omega
  unfold readHeader
  rw [if_neg (by omega)]
  simp only [tagged, got, if_neg whole, moved, ← xclass]

theorem readHeader_stores (room : omax ≤ b.length) {ret : Nat}
    (stores : readHeader b omax = some (ret, some header)) :
    ∃ first tag length rest inf, Encodes b first tag length rest inf header ∧
      header.used ≤ omax ∧ (LongForm length → header.used < omax) := by
  unfold readHeader at stores
  by_cases none_ : omax ≤ 0
  · simp [none_] at stores
  · rw [if_neg none_] at stores
    cases b with
    | nil => simp at stores
    | cons first p =>
      rw [length_cons] at room
      dsimp only at stores
      split at stores
      · simp at stores
      · simp at stores
      · rename_i tag left q tagged
        obtain ⟨tagOctets, rfl, identifier, some_, rfl⟩ := (readTag_spec _).mp tagged
        rw [length_append] at room
        dsimp only at identifier some_ stores room
        split at stores
        · simp at stores
        · simp at stores
        · rename_i got lengthGot
          obtain ⟨lengthOctets, rfl, length, fits, more⟩ :=
            (readLength_spec _ _ (by omega) got).mp lengthGot
          split at stores
          · simp at stores
          · rename_i whole
            have same : _ = header := some.inj (congrArg Prod.snd (some.inj stores))
            have moved : (first :: (tagOctets ++ (lengthOctets ++ got.p))).length - got.p.length =
                1 + tagOctets.length + lengthOctets.length := by
              simp only [length_cons, length_append]
              omega
            rw [moved] at same
            subst same
            refine ⟨first, tagOctets, lengthOctets, got.p, got.inf,
              ⟨rfl, identifier, length, fun inf ctor => whole ⟨inf, ctor⟩, rfl, rfl⟩, ?_, ?_⟩
            · dsimp only
              omega
            · intro long
              have := more long
              dsimp only
              omega

theorem readHeader_inside (room : omax ≤ b.length) : readHeader b omax ≠ none := by
  unfold readHeader
  by_cases none_ : omax ≤ 0
  · simp [none_]
  · rw [if_neg none_]
    cases b with
    | nil => simp at room; omega
    | cons first p =>
      rw [length_cons] at room
      have inside := @readTag_inside first p omax.toNat (by omega)
      dsimp only
      split
      · contradiction
      · simp
      · rename_i tag left q tagged
        obtain ⟨tagOctets, rfl, identifier, some_, rfl⟩ := (readTag_spec _).mp tagged
        rw [length_append] at room
        dsimp only at some_ room ⊢
        have inside' := @readLength_inside q (omax.toNat - 1 - tagOctets.length) (by omega)
        split
        · contradiction
        · simp
        · split <;> simp

theorem tagOctets_unique (is : TagOctets tag) (is' : TagOctets tag')
    (same : tag ++ rest = tag' ++ rest') : tag = tag' := by
  induction is generalizing tag' with
  | last low =>
    cases is' with
    | last _ =>
      cases (cons.inj same).1
      rfl
    | more high _ =>
      cases (cons.inj same).1
      omega
  | more high _ ih =>
    cases is' with
    | last low =>
      cases (cons.inj same).1
      omega
    | more _ tagged =>
      cases (cons.inj same).1
      rw [ih tagged (cons.inj same).2]

theorem identifier_unique {value : Nat} (is : Identifier first tag value)
    (is' : Identifier first tag' value') (same : tag ++ rest = tag' ++ rest') : tag = tag' := by
  cases is with
  | low low =>
    cases is' with
    | low _ => rfl
    | high high _ _ => exact absurd high low
  | high high tagged _ =>
    cases is' with
    | low low => exact absurd high low
    | high _ tagged' _ => exact tagOctets_unique tagged tagged' same

theorem lengthOctets_unique {value : Nat}
    (is : LengthOctets length inf value) (is' : LengthOctets length' inf' value')
    (same : length ++ rest = length' ++ rest') : length = length' := by
  have first : length.headD 0 = length'.headD 0 := by
    cases is <;> cases is' <;> exact (cons.inj same).1
  have size : length.length = length'.length := by
    cases is with
    | indefinite =>
      cases is' with
      | indefinite => rfl
      | short _ => rfl
      | long high _ _ =>
        cases first
        exact absurd high (by decide)
    | short low =>
      cases is' with
      | indefinite => rfl
      | short _ => rfl
      | long high _ _ =>
        cases first
        omega
    | long high size _ =>
      cases is' with
      | indefinite =>
        cases first
        exact absurd high (by decide)
      | short low =>
        cases first
        omega
      | long _ size' _ =>
        cases first
        simp [size, size']
  exact (append_inj same size).1

theorem encodes_unique {first' : UInt8} {header header' : Asn1Header}
    (is : Encodes b first tag length rest inf header)
    (is' : Encodes b first' tag' length' rest' inf' header') :
    tag = tag' ∧ length = length' ∧ rest = rest' := by
  have same := is.split.symm.trans is'.split
  obtain ⟨rfl, tail⟩ := cons.inj same
  obtain rfl := identifier_unique is.identifier is'.identifier tail
  have tail := append_cancel_left tail
  obtain rfl := lengthOctets_unique is.lengthOctets is'.lengthOctets tail
  exact ⟨rfl, rfl, append_cancel_left tail⟩

theorem Encodes.append (is : Encodes b first tag length rest inf header) (c : List UInt8) :
    Encodes (b ++ c) first tag length (rest ++ c) inf header :=
  { is with split := by simp [is.split] }

theorem Encodes.take
    (is : Encodes b first tag length rest inf header) {n : Nat} (fits : header.used ≤ n) :
    Encodes (b.take n) first tag length (rest.take (n - header.used)) inf header := by
  refine { is with split := ?_ }
  have used := is.used
  have size : (first :: (tag ++ length)).length = header.used := by
    simp only [length_cons, length_append]
    omega
  have whole : b = (first :: (tag ++ length)) ++ rest := by simp [is.split]
  rw [whole, take_append, size, take_of_length_le (by omega)]
  simp

/-- The element goes on behind omax where the bit of an error is set. -/
theorem headerResult_clean (first : UInt8) (inf : Bool) (omax : Int) (header : Asn1Header) :
    (headerResult first inf omax header).1 &&& 0x80 = 0 ↔
      (header.used + header.length : Int) ≤ omax := by
  have constructed : first.toNat &&& vAsn1Constructed = 0 ∨
      first.toNat &&& vAsn1Constructed = 32 := by
    have bit := Nat.and_two_pow first.toNat 5
    rw [show (2 ^ 5 : Nat) = vAsn1Constructed from rfl] at bit
    rw [bit]
    cases first.toNat.testBit 5
    · exact .inl rfl
    · exact .inr rfl
  unfold headerResult
  dsimp only
  by_cases long : omax - (header.used : Int) < header.length
  · rw [if_pos long]
    refine iff_of_false ?_ (by omega)
    rcases constructed with is | is <;> rw [is] <;> cases inf <;> decide
  · rw [if_neg long]
    refine iff_of_true ?_ (by omega)
    rcases constructed with is | is <;> rw [is] <;> cases inf <;> decide

theorem readHeader_cases (room : omax ≤ b.length) : readHeader b omax = some (0x80, none) ∨
      ∃ ret header, readHeader b omax = some (ret, some header) := by
  have inside := readHeader_inside room
  unfold readHeader at inside ⊢
  split
  · exact .inl rfl
  · rename_i some_
    rw [if_neg some_] at inside
    cases b with
    | nil => contradiction
    | cons first p =>
      dsimp only at inside ⊢
      cases tagged : readTag first p omax.toNat with
      | none => simp [tagged] at inside
      | some found =>
        cases found with
        | none => exact .inl rfl
        | some found =>
          obtain ⟨tag, left, q⟩ := found
          rw [tagged] at inside
          dsimp only at inside ⊢
          cases got : readLength q left with
          | none => simp [got] at inside
          | some found =>
            cases found with
            | none => exact .inl rfl
            | some found =>
              dsimp only
              split
              · exact .inl rfl
              · exact .inr ⟨_, _, rfl⟩

theorem readHeader_take (room : omax ≤ b.length) :
    readHeader (b.take omax.toNat) omax = readHeader b omax := by
  by_cases none_ : omax ≤ 0
  · simp [readHeader, none_]
  · have room' : omax ≤ (b.take omax.toNat).length := by
      rw [length_take_of_le (by omega)]
      omega
    have same : ∀ ret header, readHeader (b.take omax.toNat) omax = some (ret, some header) →
        readHeader (b.take omax.toNat) omax = readHeader b omax := by
      intro ret header stores
      obtain ⟨first, tag, length, rest, inf, is, fits, more⟩ := readHeader_stores room' stores
      have whole := is.append (b.drop omax.toNat)
      rw [take_append_drop] at whole
      rw [readHeader_encodes room' is fits more, readHeader_encodes room whole fits more]
    rcases readHeader_cases room' with fails | ⟨ret, header, stores⟩
    · rcases readHeader_cases room with fails' | ⟨ret, header, stores⟩
      · rw [fails, fails']
      · obtain ⟨first, tag, length, rest, inf, is, fits, more⟩ := readHeader_stores room stores
        rw [readHeader_encodes room' (is.take (by omega)) fits more,
          readHeader_encodes room is fits more]
    · exact same ret header stores

def HeaderAccepted (b : List UInt8) (omax : Int) (header : Asn1Header) : Prop :=
  ∃ ret, readHeader b omax = some (ret, some header) ∧ ret &&& 0x80 = 0

def ElementFits (b : List UInt8) : Prop :=
  ∃ first tag length rest inf header, Encodes b first tag length rest inf header ∧
    header.length ≤ rest.length

/- No octet is read from omax on; what is accepted is what begins with an element; and an element is
   accepted whatever is behind it, and where nothing is. -/
structure HeaderExact (b : List UInt8) (omax : Int) : Prop where
  inside : readHeader (b.take omax.toNat) omax ≠ none ∧
    readHeader (b.take omax.toNat) omax = readHeader b omax
  accepts : (∃ header, HeaderAccepted b omax header) ↔ ElementFits (b.take omax.toNat)
  alone : ∀ header, HeaderAccepted b omax header → ∀ c (omax' : Int),
    (header.used + header.length : Int) ≤ omax' →
    omax' ≤ (b.take (header.used + header.length) ++ c).length →
    readHeader (b.take (header.used + header.length) ++ c) omax' = readHeader b omax

def LongZero (b : List UInt8) : Prop :=
  ∃ first tag length rest inf header, Encodes b first tag length rest inf header ∧
    LongForm length ∧ header.length = 0

theorem headerAccepted_iff (room : omax ≤ b.length) (header : Asn1Header) :
    HeaderAccepted b omax header ↔
      ∃ first tag length rest inf, Encodes b first tag length rest inf header ∧
        (header.used + header.length : Int) ≤ omax ∧ (LongForm length → header.used < omax) := by
  constructor
  · rintro ⟨ret, stores, clean⟩
    obtain ⟨first, tag, length, rest, inf, is, fits, more⟩ := readHeader_stores room stores
    have result := readHeader_encodes room is fits more
    rw [stores, some.injEq] at result
    refine ⟨first, tag, length, rest, inf, is, ?_, more⟩
    rw [← headerResult_clean first inf, ← result]
    exact clean
  · rintro ⟨first, tag, length, rest, inf, is, whole, more⟩
    exact ⟨_, readHeader_encodes room is (by omega) more,
      (headerResult_clean first inf omax header).mpr whole⟩

/-- Headers are parsed exactly, but for a zero length in the long form. -/
theorem asn1GetObject_exact (b : List UInt8) (omax : Int) (room : omax ≤ b.length) :
    HeaderExact b omax ↔ ¬ LongZero (b.take omax.toNat) := by
  have size : ((b.take omax.toNat).length : Int) = max omax 0 := by
    rw [length_take]
    omega
  constructor
  · rintro ⟨_, accepts, alone⟩ ⟨first, tag, length, rest, inf, header, is, long, zero⟩
    have whole := is.append (b.drop omax.toNat)
    rw [take_append_drop] at whole
    have used := is.used
    have total := congrArg List.length is.split
    simp only [length_cons, length_append] at total
    by_cases last : rest = []
    · -- the element ends at omax, and is refused
      obtain ⟨header', accepted⟩ :=
        accepts.mpr ⟨first, tag, length, rest, inf, header, is, by omega⟩
      obtain ⟨first', tag', length', rest', inf', is', _, more⟩ :=
        (headerAccepted_iff room header').mp accepted
      obtain ⟨rfl, rfl, _⟩ := encodes_unique is' whole
      have := more long
      have used' := is'.used
      rw [last, length_nil] at total
      omega
    · -- the element is accepted here, and refused where the octets end behind it
      have some_ : 1 ≤ rest.length := length_pos_iff.mpr last
      have accepted := (headerAccepted_iff room header).mpr
        ⟨first, tag, length, _, inf, whole, by omega, fun _ => by omega⟩
      have same := alone header accepted [] header.used (by omega) (by
        rw [length_append, length_take]
        omega)
      rw [zero, Nat.add_zero, append_nil] at same
      obtain ⟨ret, stores, _⟩ := accepted
      rw [stores] at same
      have short : (b.take header.used).length = header.used := by
        rw [length_take]
        omega
      obtain ⟨first', tag', length', rest', inf', is', _, more⟩ := readHeader_stores (by omega) same
      obtain ⟨_, rfl, _⟩ := encodes_unique is' (whole.take (Nat.le_refl _))
      have := more long
      omega
  · intro never
    have long_ : ∀ {first tag length rest inf header}, Encodes b first tag length rest inf header →
        (header.used : Int) ≤ omax → LongForm length → 0 < header.length := by
      intro first tag length rest inf header is fits long
      by_contra zero
      exact never ⟨first, tag, length, _, inf, header, is.take (by omega), long, by omega⟩
    refine ⟨⟨?_, readHeader_take room⟩, ?_, ?_⟩
    · rw [readHeader_take room]
      exact readHeader_inside room
    · constructor
      · rintro ⟨header, accepted⟩
        obtain ⟨first, tag, length, rest, inf, is, whole, more⟩ :=
          (headerAccepted_iff room header).mp accepted
        refine ⟨first, tag, length, _, inf, header, is.take (by omega), ?_⟩
        have total := congrArg List.length is.split
        have used := is.used
        simp only [length_cons, length_append] at total
        rw [length_take]
        omega
      · rintro ⟨first, tag, length, rest, inf, header, is, fits⟩
        have total := congrArg List.length is.split
        have used := is.used
        simp only [length_cons, length_append] at total
        have whole := is.append (b.drop omax.toNat)
        rw [take_append_drop] at whole
        refine ⟨header, (headerAccepted_iff room header).mpr
          ⟨first, tag, length, _, inf, whole, by omega, fun long => ?_⟩⟩
        have := long_ whole (by omega) long
        omega
    · intro header accepted c omax' least most
      obtain ⟨first, tag, length, rest, inf, is, whole, more⟩ :=
        (headerAccepted_iff room header).mp accepted
      rw [readHeader_encodes room is (by omega) more,
        readHeader_encodes most ((is.take (by omega)).append c) (by omega) fun long => by
          have := long_ is (by omega) long
          omega]
      have short : ¬ (omax - (header.used : Int) < header.length) := by omega
      have short' : ¬ (omax' - (header.used : Int) < header.length) := by omega
      simp only [headerResult, if_neg short, if_neg short']

theorem asn1GetObject_exact_sequence :
    HeaderExact [0x30, 0x03, 0x02, 0x01, 0x05, 0xff] 6 ↔
      ¬ LongZero ([0x30, 0x03, 0x02, 0x01, 0x05, 0xff] : List UInt8) :=
  asn1GetObject_exact [0x30, 0x03, 0x02, 0x01, 0x05, 0xff] 6 (by decide)

/-- An empty SEQUENCE with its length in the long form is refused at the end of the input. -/
theorem asn1GetObject_notExact : ¬ HeaderExact [0x30, 0x81, 0x00] 3 := by
  intro exact_
  have begins : ElementFits [0x30, 0x81, 0x00] :=
    ⟨0x30, [], [0x81, 0x00], [], false, ⟨0, 16, 0, 3⟩,
      ⟨rfl, .low (by decide), .long (by decide) rfl (by decide), by decide, rfl, rfl⟩, by decide⟩
  obtain ⟨header, ret, accepted, _⟩ := exact_.accepts.mpr begins
  exact absurd accepted (by
    rw [show readHeader [0x30, 0x81, 0x00] 3 = some (0x80, none) by decide +kernel]
    simp)

end Ossl
