import OpenSSL.MlDsa.EncodersLaws

/- Signatures: what is encoded is decoded, and what is accepted is what the
   decoded signature is encoded to. -/
namespace Ossl
open Prod Nat List Option LittleEndian Codec

/-- A reader takes the bytes of each value that is valid, and nothing else. -/
structure PartCodec {α : Type} (decode : PacketM α) (bytes : α → List UInt8) (valid : α → Prop) :
    Prop where
  reads : ∀ x, valid x → ∀ rest, Reads decode (bytes x) x rest
  exactly : ∀ inp x rest, decode.run inp = some (x, rest) → valid x ∧ inp = bytes x ++ rest

theorem getBytes_part (n : Nat) :
    PartCodec (packetGetBytes n) id fun bytes => bytes.length = n := by
  refine ⟨fun bytes length rest => getBytes_reads length rest, ?_⟩
  intro inp bytes rest run
  rw [StateT.run, packetGetBytes] at run
  split at run
  · cases run
  · rename_i enough
    obtain ⟨rfl, rfl⟩ := mk.inj (some.inj run)
    exact ⟨length_take_of_le (by omega), (take_append_drop n inp).symm⟩

theorem run_bind_some {α β : Type} {first : PacketM α} {next : α → PacketM β} {inp rest : Packet}
    {y : β} (run : (first >>= next).run inp = some (y, rest)) :
    ∃ x mid, first.run inp = some (x, mid) ∧ (next x).run mid = some (y, rest) := by
  rw [StateT.run_bind] at run
  cases one : first.run inp with
  | none =>
    rw [one] at run
    cases run
  | some found =>
    obtain ⟨x, mid⟩ := found
    rw [one] at run
    exact ⟨x, mid, rfl, run⟩

section Polynomials
variable {gamma1 size : Nat} {encode : Nat → Nat → Nat → Nat → List UInt8}
  {decode : List UInt8 → List Nat}

def polyBytes (encode : Nat → Nat → Nat → Nat → List UInt8) : Nat → List Nat → List UInt8
  | 0, _ => []
  | n + 1, p =>
    encode (p.getD 0 0) (p.getD 1 0) (p.getD 2 0) (p.getD 3 0) ++ polyBytes encode n (p.drop 4)

/-- Coefficients that can be packed, 4 to a group. -/
def PolyValid (gamma1 n : Nat) (p : List Nat) : Prop := p.length = 4 * n ∧ ∀ c ∈ p, InGamma gamma1 c

theorem polyBytes_length (codec : GroupCodec gamma1 size encode decode) (n : Nat) (p : List Nat) :
    (polyBytes encode n p).length = n * size := by
  induction n generalizing p with
  | zero => simp [polyBytes]
  | succ n ih =>
    rw [polyBytes, length_append, codec.length, ih, add_mul, one_mul, add_comm]

theorem sigPut_fits {max : Nat} {out bytes : List UInt8}
    (fits : out.length + bytes.length ≤ max) : sigPut max out bytes = some (out ++ bytes) :=
  if_pos fits

theorem polyEncodeGroups_writes (codec : GroupCodec gamma1 size encode decode) {max : Nat}
    (n : Nat) :
    ∀ {p : List Nat} {out : List UInt8}, out.length + n * size ≤ max →
      polyEncodeGroups encode max n p out = some (out ++ polyBytes encode n p) := by
  induction n with
  | zero =>
    intro p out _
    simp [polyEncodeGroups, polyBytes]
  | succ n ih =>
    intro p out fits
    rw [add_mul, one_mul] at fits
    rw [polyEncodeGroups, sigPut_fits (by rw [codec.length]; omega)]
    rw [bind_some, ih (by rw [length_append, codec.length]; omega), polyBytes, append_assoc]

theorem group_of_four {p : List Nat} {n : Nat} (valid : PolyValid gamma1 (n + 1) p) :
    ∃ c0 c1 c2 c3 rest, p = c0 :: c1 :: c2 :: c3 :: rest ∧ PolyValid gamma1 n rest ∧
      InGamma gamma1 c0 ∧ InGamma gamma1 c1 ∧ InGamma gamma1 c2 ∧ InGamma gamma1 c3 := by
  obtain ⟨length, inside⟩ := valid
  match p, length, inside with
  | c0 :: c1 :: c2 :: c3 :: rest, length, inside =>
    refine ⟨c0, c1, c2, c3, rest, rfl, ⟨?_, fun c member => inside c (by simp [member])⟩,
      inside c0 (by simp), inside c1 (by simp), inside c2 (by simp), inside c3 (by simp)⟩
    simp only [length_cons] at length
    omega
  | [], length, _ => simp at length
  | [_], length, _ => simp at length; omega
  | [_, _], length, _ => simp at length; omega
  | [_, _, _], length, _ => simp at length; omega

theorem poly_part (codec : GroupCodec gamma1 size encode decode) (n : Nat) :
    PartCodec (polyDecodeGroups decode size n) (polyBytes encode n) (PolyValid gamma1 n) := by
  induction n with
  | zero =>
    constructor
    · rintro p ⟨length, _⟩ rest
      obtain rfl := length_eq_zero_iff.mp length
      exact reads_pure [] rest
    · intro inp p rest run
      obtain ⟨rfl, rfl⟩ := mk.inj (some.inj run)
      exact ⟨⟨rfl, by simp⟩, rfl⟩
  | succ n ih =>
    constructor
    · intro p valid rest
      obtain ⟨c0, c1, c2, c3, tail, rfl, valid', in0, in1, in2, in3⟩ := group_of_four valid
      have bytes := codec.decodes c0 c1 c2 c3 in0 in1 in2 in3
      have later : Reads (polyDecodeGroups decode size n >>= fun rest =>
          pure (decode (encode c0 c1 c2 c3) ++ rest)) (polyBytes encode n tail)
          (c0 :: c1 :: c2 :: c3 :: tail) rest := by
        have both := reads_bind (f := fun rest => pure (decode (encode c0 c1 c2 c3) ++ rest))
          (ih.reads tail valid' ([] ++ rest)) (reads_pure _ rest)
        rw [append_nil, bytes] at both
        rw [bytes]
        exact both
      exact reads_bind (getBytes_reads (codec.length c0 c1 c2 c3) _) later
    · intro inp p rest run
      obtain ⟨group, mid, one, run⟩ := run_bind_some run
      obtain ⟨tail, last, two, run⟩ := run_bind_some run
      obtain ⟨rfl, rfl⟩ := mk.inj (some.inj run)
      obtain ⟨length, rfl⟩ := (getBytes_part size).exactly _ _ _ one
      obtain ⟨valid, rfl⟩ := ih.exactly _ _ _ two
      obtain ⟨c0, c1, c2, c3, four, ⟨in0, in1, in2, in3⟩, same⟩ := codec.encodes group length
      rw [four]
      refine ⟨⟨?_, ?_⟩, ?_⟩
      · have := valid.1
        simp
        omega
      · intro c member
        simp only [cons_append, nil_append, mem_cons] at member
        rcases member with rfl | rfl | rfl | rfl | member
        · exact in0
        · exact in1
        · exact in2
        · exact in3
        · exact valid.2 c member
      · show id group ++ _ = (encode c0 c1 c2 c3 ++ polyBytes encode n tail) ++ last
        rw [same, append_assoc]
        rfl

end Polynomials

section Hints

/-- The places of the ones of a row, as bytes. -/
def rowBytes (p : List Nat) : List UInt8 :=
  ((List.range mlDsaNumPolyCoefficients).filter fun j => p.getD j 0 ≠ 0).map UInt8.ofNat

/-- A polynomial of zeros and ones. -/
def RowValid (p : List Nat) : Prop := p.length = mlDsaNumPolyCoefficients ∧ ∀ c ∈ p, c ≤ 1

def zeroRow : List Nat := replicate mlDsaNumPolyCoefficients 0

/-- The row with ones at the places of the bytes. -/
def marked (places : List UInt8) (p : List Nat) : List Nat :=
  places.foldl (fun p byte => p.set byte.toNat 1) p

/-- Bytes that ascend, the first above last. -/
def Ascends : Int → List UInt8 → Prop
  | _, [] => True
  | last, byte :: places => last < byte.toNat ∧ Ascends byte.toNat places

theorem marked_length (places : List UInt8) (p : List Nat) :
    (marked places p).length = p.length := by
  induction places generalizing p with
  | nil => rfl
  | cons byte places ih =>
    rw [marked, foldl_cons, ← marked, ih, length_set]

variable {inp places : List UInt8} {p : List Nat} {omega : Nat} {hint : List (List Nat)}

theorem marked_getD {i : Nat} (full : p.length = mlDsaNumPolyCoefficients) :
    (marked places p).getD i 0 = if ∃ byte ∈ places, byte.toNat = i then 1 else p.getD i 0 := by
  induction places generalizing p with
  | nil => simp [marked]
  | cons byte places ih =>
    have small : byte.toNat < p.length := by
      rw [full]
      exact byte.toNat_lt
    rw [marked, foldl_cons, ← marked, ih (by rw [length_set, full])]
    by_cases later : ∃ byte ∈ places, byte.toNat = i
    · have some_ : ∃ b ∈ byte :: places, b.toNat = i := by
        obtain ⟨b, member, same⟩ := later
        exact ⟨b, mem_cons_of_mem _ member, same⟩
      rw [if_pos later, if_pos some_]
    · rw [if_neg later]
      by_cases here : byte.toNat = i
      · rw [if_pos ⟨byte, mem_cons_self, here⟩, ← here]
        simp [getD_eq_getElem?_getD, small]
      · rw [if_neg]
        · simp [getD_eq_getElem?_getD, getElem?_set_ne here]
        · rintro ⟨b, member, same⟩
          rcases mem_cons.mp member with rfl | member
          · exact here same
          · exact later ⟨b, member, same⟩

theorem ascends_pairwise :
    ∀ {last : Int}, Ascends last places → (places.map UInt8.toNat).Pairwise (· < ·) ∧
      ∀ byte ∈ places, last < byte.toNat := by
  induction places with
  | nil => exact fun _ => ⟨List.Pairwise.nil, by simp⟩
  | cons byte places ih =>
    intro last ascends
    obtain ⟨sorted, above⟩ := ih ascends.2
    constructor
    · rw [map_cons, pairwise_cons]
      refine ⟨?_, sorted⟩
      intro n member
      obtain ⟨b, inside, rfl⟩ := mem_map.mp member
      have := above b inside
      omega
    · intro b member
      rcases mem_cons.mp member with rfl | member
      · exact ascends.1
      · exact ascends.1.trans (above b member)

theorem pairwise_ascends : ∀ {last : Int}, (places.map UInt8.toNat).Pairwise (· < ·) →
      (∀ byte ∈ places, last < byte.toNat) → Ascends last places := by
  induction places with
  | nil => exact fun _ _ => trivial
  | cons byte places ih =>
    intro last sorted above
    rw [map_cons, pairwise_cons] at sorted
    refine ⟨above byte mem_cons_self, ih sorted.2 ?_⟩
    intro b member
    have := sorted.1 b.toNat (mem_map_of_mem member)
    omega

theorem rowBytes_toNat (p : List Nat) : (rowBytes p).map UInt8.toNat =
    (List.range mlDsaNumPolyCoefficients).filter fun j => p.getD j 0 ≠ 0 := by
  unfold rowBytes
  rw [List.map_map]
  conv_rhs => rw [← map_id (filter _ _)]
  apply map_congr_left
  intro j member
  have small : j < 256 := mem_range.mp (mem_filter.mp member).1
  show (UInt8.ofNat j).toNat = j
  rw [UInt8.toNat_ofNat', mod_eq_of_lt small]

theorem rowBytes_ascends (p : List Nat) : Ascends (-1) (rowBytes p) := by
  apply pairwise_ascends
  · rw [rowBytes_toNat]
    exact pairwise_lt_range.filter _
  · intro byte _
    omega

theorem zeroRow_getD (i : Nat) : zeroRow.getD i 0 = 0 := by
  simp [zeroRow, getD_eq_getElem?_getD, getElem?_replicate]
  split <;> rfl

theorem marked_iff :
    Ascends (-1) places ∧ p = marked places zeroRow ↔ RowValid p ∧ rowBytes p = places := by
  have full : zeroRow.length = mlDsaNumPolyCoefficients := length_replicate
  constructor
  · rintro ⟨ascends, rfl⟩
    have at_ : ∀ i, (marked places zeroRow).getD i 0 =
        if ∃ byte ∈ places, byte.toNat = i then 1 else 0 := by
      intro i
      rw [marked_getD full, zeroRow_getD]
    refine ⟨⟨by rw [marked_length, full], ?_⟩, ?_⟩
    · intro c member
      obtain ⟨i, inside, rfl⟩ := mem_iff_getElem.mp member
      rw [← getD_eq_getElem _ 0 inside, at_]
      split <;> omega
    · have numbers : (rowBytes (marked places zeroRow)).map UInt8.toNat =
          places.map UInt8.toNat := by
        rw [rowBytes_toNat]
        apply @List.Perm.eq_of_pairwise _ (· < ·)
        · intro a b _ _ less more
          omega
        · exact pairwise_lt_range.filter _
        · exact (ascends_pairwise ascends).1
        · apply (perm_ext_iff_of_nodup _ _).mpr
          · intro i
            simp only [mem_filter, mem_range, at_, decide_eq_true_eq, List.mem_map]
            constructor
            · rintro ⟨_, some_⟩
              by_contra none_
              exact some_ (if_neg none_)
            · rintro ⟨byte, member, rfl⟩
              refine ⟨byte.toNat_lt, ?_⟩
              rw [if_pos ⟨byte, member, rfl⟩]
              decide
          · exact (nodup_range).filter _
          · exact (ascends_pairwise ascends).1.imp ne_of_lt
      exact (List.map_inj_right fun a b => UInt8.toNat_inj.mp).mp numbers
  · rintro ⟨⟨length, binary⟩, rfl⟩
    refine ⟨rowBytes_ascends p, ?_⟩
    apply ext_getElem
    · rw [marked_length, length, full]
    · intro i first second
      rw [← getD_eq_getElem _ 0 first, ← getD_eq_getElem _ 0 second, marked_getD full, zeroRow_getD]
      have places : (∃ byte ∈ rowBytes p, byte.toNat = i) ↔ p.getD i 0 ≠ 0 := by
        have members : i ∈ (rowBytes p).map UInt8.toNat ↔ p.getD i 0 ≠ 0 := by
          rw [rowBytes_toNat, mem_filter, mem_range]
          simp only [decide_eq_true_eq]
          exact ⟨fun both => both.2, fun some_ => ⟨by omega, some_⟩⟩
        rwa [List.mem_map] at members
      have bit : p.getD i 0 ≤ 1 := by
        rw [getD_eq_getElem _ 0 first]
        exact binary _ (getElem_mem first)
      by_cases one : p.getD i 0 = 0
      · rw [if_neg (by rw [places]; exact not_not.mpr one), one]
      · rw [if_pos (places.mpr one)]
        omega

/-- The loop over the places of a row accepts them when they ascend. -/
theorem hintRowDecode_eq {inp : List UInt8} (left : Nat) :
    ∀ {index : Nat} {last : Int} {p : List Nat}, index + left ≤ inp.length → -1 ≤ last →
      (Ascends last ((inp.drop index).take left) →
        hintRowDecode inp left index last p = .ok (marked ((inp.drop index).take left) p)) ∧
      (¬Ascends last ((inp.drop index).take left) →
        hintRowDecode inp left index last p = .error .rejected) := by
  induction left with
  | zero =>
    intro index last p _ _
    exact ⟨fun _ => rfl, fun no => absurd trivial no⟩
  | succ left ih =>
    intro index last p inside start
    have small : index < inp.length := by omega
    have here : inp[index]? = some inp[index] := getElem?_eq_getElem small
    have places : (inp.drop index).take (left + 1) =
        inp[index] :: (inp.drop (index + 1)).take left := by
      rw [drop_eq_getElem_cons small, take_succ_cons]
    rw [hintRowDecode, here, places]
    dsimp only
    obtain ⟨yes, no⟩ := @ih (index + 1) inp[index].toNat (p.set inp[index].toNat 1) (by omega)
      (by omega)
    by_cases above : last < inp[index].toNat
    · rw [if_neg (by omega)]
      constructor
      · intro ascends
        exact yes ascends.2
      · intro breaks
        exact no fun rest => breaks ⟨above, rest⟩
    · rw [if_pos (by omega)]
      exact ⟨fun ascends => absurd ascends.1 above, fun _ => rfl⟩

/-- The limits that follow the places of the rows. -/
def rowLimits : Nat → List (List Nat) → List UInt8
  | _, [] => []
  | index, p :: rows =>
    UInt8.ofNat (index + (rowBytes p).length) :: rowLimits (index + (rowBytes p).length) rows

theorem hintRow_ok {index left : Nat} (inside : index + left ≤ inp.length) :
    hintRowDecode inp left index (-1) zeroRow = .ok p ↔
      RowValid p ∧ rowBytes p = (inp.drop index).take left := by
  obtain ⟨yes, no⟩ := @hintRowDecode_eq inp left index (-1) zeroRow inside (le_refl _)
  rw [← marked_iff]
  by_cases ascends : Ascends (-1) ((inp.drop index).take left)
  · rw [yes ascends]
    constructor
    · intro same
      cases same
      exact ⟨ascends, rfl⟩
    · rintro ⟨_, rfl⟩
      rfl
  · rw [no ascends]
    constructor
    · intro wrong
      cases wrong
    · intro both
      exact absurd both.1 ascends

theorem hintRow_reads {inp : List UInt8} {index left : Nat} (inside : index + left ≤ inp.length) :
    hintRowDecode inp left index (-1) zeroRow ≠ .error .overread := by
  obtain ⟨yes, no⟩ := @hintRowDecode_eq inp left index (-1) zeroRow inside (le_refl _)
  by_cases ascends : Ascends (-1) ((inp.drop index).take left)
  · rw [yes ascends]
    intro wrong
    cases wrong
  · rw [no ascends]
    intro wrong
    cases wrong

theorem take_split {index more last : Nat} (first : index ≤ more) (second : more ≤ last) :
    (inp.drop index).take (last - index) =
      (inp.drop index).take (more - index) ++ (inp.drop more).take (last - more) := by
  have parts : last - index = (more - index) + (last - more) := by omega
  have place : index + (more - index) = more := by omega
  rw [parts, take_add, drop_drop, place]

/-- The limits and places that are accepted are those of the rows they give. -/
theorem hintRowsDecode_ok (length : inp.length = omega) (limits : List UInt8) :
    ∀ {index last : Nat} {rows : List (List Nat)}, index ≤ omega →
      hintRowsDecode inp omega limits index = .ok (rows, last) →
      (∀ p ∈ rows, RowValid p) ∧ limits = rowLimits index rows ∧ index ≤ last ∧ last ≤ omega ∧
        (rows.flatMap rowBytes) = (inp.drop index).take (last - index) := by
  induction limits with
  | nil =>
    intro index last rows small run
    cases run
    simp [rowLimits, small]
  | cons limit limits ih =>
    intro index last rows small run
    rw [hintRowsDecode] at run
    split at run
    · cases run
    · rename_i range
      cases one : hintRowDecode inp (limit.toNat - index) index (-1) zeroRow with
      | error e =>
        have stops : hintRowDecode inp (limit.toNat - index) index (-1)
          (replicate mlDsaNumPolyCoefficients 0) = .error e := one
        rw [stops] at run
        cases run
      | ok p =>
        have goes : hintRowDecode inp (limit.toNat - index) index (-1)
          (replicate mlDsaNumPolyCoefficients 0) = .ok p := one
        rw [goes] at run
        cases two : hintRowsDecode inp omega limits limit.toNat with
        | error e =>
          simp only [bind, Except.bind, two] at run
          cases run
        | ok found =>
          simp only [bind, Except.bind, two] at run
          cases run
          obtain ⟨valid, places⟩ := (hintRow_ok (by omega)).mp one
          obtain ⟨valids, later, low, high, rest⟩ := ih (by omega) two
          have count : index + (rowBytes p).length = limit.toNat := by
            rw [places, length_take_of_le (by rw [length_drop]; omega)]
            omega
          refine ⟨?_, ?_, by omega, high, ?_⟩
          · intro q member
            rcases mem_cons.mp member with rfl | member
            · exact valid
            · exact valids q member
          · rw [rowLimits, count, ← later, UInt8.ofNat_toNat]
          · rw [flatMap_cons, rest, places, ← take_split (by omega) low]

theorem hintRowsDecode_reads {inp : List UInt8} {omega : Nat} (length : inp.length = omega)
    (limits : List UInt8) :
    ∀ {index : Nat}, index ≤ omega → hintRowsDecode inp omega limits index ≠ .error .overread := by
  induction limits with
  | nil =>
    intro index _ wrong
    cases wrong
  | cons limit limits ih =>
    intro index small wrong
    rw [hintRowsDecode] at wrong
    split at wrong
    · cases wrong
    · rename_i range
      have row := @hintRow_reads inp index (limit.toNat - index) (by omega)
      have rest := @ih limit.toNat (by omega)
      change (hintRowDecode inp (limit.toNat - index) index (-1) zeroRow).bind _ = _ at wrong
      cases one : hintRowDecode inp (limit.toNat - index) index (-1) zeroRow with
      | error e =>
        rw [one] at wrong row
        cases wrong
        exact row rfl
      | ok p =>
        rw [one] at wrong
        cases two : hintRowsDecode inp omega limits limit.toNat with
        | error e =>
          rw [two] at wrong rest
          cases wrong
          exact rest rfl
        | ok found =>
          rw [two] at wrong
          cases wrong

/-- Rows with at most omega ones are decoded from their places and limits. -/
theorem hintRowsDecode_rows {inp : List UInt8} {omega : Nat} (length : inp.length = omega)
    (bytes : omega < 256) (rows : List (List Nat)) :
    ∀ {index : Nat} {tail : List UInt8}, (∀ p ∈ rows, RowValid p) →
      inp.drop index = rows.flatMap rowBytes ++ tail →
      index + (rows.flatMap rowBytes).length ≤ omega →
      hintRowsDecode inp omega (rowLimits index rows) index =
        .ok (rows, index + (rows.flatMap rowBytes).length) := by
  induction rows with
  | nil =>
    intro index tail _ _ _
    rfl
  | cons p rows ih =>
    intro index tail valid places few
    rw [flatMap_cons, append_assoc] at places
    rw [flatMap_cons, length_append] at few ⊢
    have limit : (UInt8.ofNat (index + (rowBytes p).length)).toNat =
        index + (rowBytes p).length := by
      rw [UInt8.toNat_ofNat', mod_eq_of_lt (by omega)]
    have mine : rowBytes p = (inp.drop index).take (rowBytes p).length := by
      rw [places, take_left]
    have row : hintRowDecode inp (rowBytes p).length index (-1)
        (replicate mlDsaNumPolyCoefficients 0) = .ok p :=
      (hintRow_ok (by omega)).mpr ⟨valid p mem_cons_self, mine⟩
    have later : inp.drop (index + (rowBytes p).length) = rows.flatMap rowBytes ++ tail := by
      rw [← drop_drop, places, drop_left]
    have rest := ih (fun q member => valid q (mem_cons_of_mem p member)) later (by omega)
    rw [rowLimits, hintRowsDecode, limit, if_neg (by omega), Nat.add_sub_cancel_left, row]
    simp only [bind, Except.bind, rest]
    rw [add_assoc]

theorem hintPadding_ok {inp : List UInt8} (left : Nat) :
    ∀ {index : Nat}, index + left ≤ inp.length →
      (hintPadding inp left index = .ok () ↔ (inp.drop index).take left = replicate left 0) ∧
      hintPadding inp left index ≠ .error .overread := by
  induction left with
  | zero =>
    intro index _
    exact ⟨by simp [hintPadding], fun wrong => by cases wrong⟩
  | succ left ih =>
    intro index inside
    have small : index < inp.length := by omega
    have here : inp[index]? = some inp[index] := getElem?_eq_getElem small
    rw [hintPadding, here, drop_eq_getElem_cons small, take_succ_cons, replicate_succ]
    dsimp only
    obtain ⟨rest, reads⟩ := @ih (index + 1) (by omega)
    by_cases zero : inp[index] = 0
    · rw [if_neg (not_not.mpr zero), zero]
      exact ⟨rest.trans (by simp), reads⟩
    · rw [if_pos zero]
      exact ⟨by simp [zero], fun wrong => by cases wrong⟩

/-- The bytes of a hint: the places, zeros up to omega, and the limits. -/
def hintBytes (omega : Nat) (hint : List (List Nat)) : List UInt8 :=
  hint.flatMap rowBytes ++
    (replicate (omega - (hint.flatMap rowBytes).length) 0 ++ rowLimits 0 hint)

/-- k rows of zeros and ones, with at most omega ones. -/
def HintValid (k omega : Nat) (hint : List (List Nat)) : Prop :=
  hint.length = k ∧ (∀ p ∈ hint, RowValid p) ∧ (hint.flatMap rowBytes).length ≤ omega

theorem rowLimits_length (index : Nat) (rows : List (List Nat)) :
    (rowLimits index rows).length = rows.length := by
  induction rows generalizing index with
  | nil => rfl
  | cons p rows ih => rw [rowLimits, length_cons, length_cons, ih]

theorem hintBytes_length {k : Nat} (valid : HintValid k omega hint) :
    (hintBytes omega hint).length = omega + k := by
  obtain ⟨rows, _, few⟩ := valid
  unfold hintBytes
  rw [length_append, length_append, length_replicate, rowLimits_length, rows]
  omega

theorem hintBitsDecode_ok {limits : List UInt8} (length : inp.length = omega)
    (bytes : omega < 256) : hintBitsDecode inp limits omega = .ok hint ↔
      HintValid limits.length omega hint ∧ inp ++ limits = hintBytes omega hint := by
  unfold hintBitsDecode
  constructor
  · intro run
    cases one : hintRowsDecode inp omega limits 0 with
    | error e =>
      rw [one] at run
      cases run
    | ok found =>
      obtain ⟨rows, last⟩ := found
      rw [one] at run
      simp only [bind, Except.bind] at run
      cases two : hintPadding inp (omega - last) last with
      | error e =>
        rw [two] at run
        cases run
      | ok done =>
        rw [two] at run
        cases run
        obtain ⟨valid, same, _, high, places⟩ :=
          hintRowsDecode_ok length limits (zero_le omega) one
        have zeros := (hintPadding_ok (omega - last) (by omega)).1.mp two
        rw [drop_zero, Nat.sub_zero] at places
        have count : (hint.flatMap rowBytes).length = last := by
          rw [places, length_take_of_le (by omega)]
        refine ⟨⟨?_, valid, by omega⟩, ?_⟩
        · rw [same, rowLimits_length]
        · have all : (inp.drop last).take (omega - last) = inp.drop last :=
            take_of_length_le (by rw [length_drop]; omega)
          rw [all] at zeros
          unfold hintBytes
          rw [count, ← zeros, ← same, places, ← append_assoc, take_append_drop]
  · rintro ⟨⟨count, valid, few⟩, same⟩
    unfold hintBytes at same
    rw [← append_assoc] at same
    have sizes : inp.length = (hint.flatMap rowBytes ++
        replicate (omega - (hint.flatMap rowBytes).length) (0 : UInt8)).length := by
      rw [length_append, length_replicate]
      omega
    obtain ⟨front, rfl⟩ := append_inj same sizes
    have rows := @hintRowsDecode_rows inp omega length bytes hint 0
      (replicate (omega - (hint.flatMap rowBytes).length) 0) valid
      (by rw [drop_zero]; exact front) (by omega)
    rw [zero_add] at rows
    rw [rows]
    simp only [bind, Except.bind]
    have zeros : hintPadding inp (omega - (hint.flatMap rowBytes).length)
        (hint.flatMap rowBytes).length = .ok () := by
      apply (hintPadding_ok _ (by omega)).1.mpr
      rw [front, drop_left, take_of_length_le (by simp)]
    rw [zeros]

theorem hintBitsDecode_reads {inp limits : List UInt8} {omega : Nat} (length : inp.length = omega) :
    hintBitsDecode inp limits omega ≠ .error .overread := by
  have rows := @hintRowsDecode_reads inp omega length limits 0 (zero_le omega)
  unfold hintBitsDecode
  cases one : hintRowsDecode inp omega limits 0 with
  | error e =>
    rw [one] at rows
    intro wrong
    cases wrong
    exact rows rfl
  | ok found =>
    obtain ⟨hint, last⟩ := found
    obtain ⟨_, _, _, high, _⟩ := hintRowsDecode_ok length limits (zero_le omega) one
    have padding := (@hintPadding_ok inp (omega - last) last (by omega)).2
    simp only [bind, Except.bind]
    cases two : hintPadding inp (omega - last) last with
    | error e =>
      rw [two] at padding
      intro wrong
      cases wrong
      exact padding rfl
    | ok done =>
      intro wrong
      cases wrong

theorem hintStore_next (front tail : List UInt8) (n : Nat) (byte : UInt8) :
    hintStore (front ++ (replicate (n + 1) 0 ++ tail)) front.length byte =
      some (front ++ [byte] ++ (replicate n 0 ++ tail)) := by
  unfold hintStore
  rw [if_pos (by simp), set_append_right _ _ (le_refl _), Nat.sub_self, replicate_succ]
  simp

theorem hintRowEncode_writes (p : List Nat) (left : Nat) :
    ∀ {j n : Nat} {front tail : List UInt8},
      (((range' j left).filter fun j => p.getD j 0 ≠ 0)).length ≤ n →
      hintRowEncode p left j (front ++ (replicate n 0 ++ tail)) front.length =
        some (front ++ ((range' j left).filter fun j => p.getD j 0 ≠ 0).map UInt8.ofNat ++
          (replicate (n - ((range' j left).filter fun j => p.getD j 0 ≠ 0).length) 0 ++ tail),
          front.length + ((range' j left).filter fun j => p.getD j 0 ≠ 0).length) := by
  induction left with
  | zero =>
    intro j n front tail _
    simp [hintRowEncode]
  | succ left ih =>
    intro j n front tail few
    rw [hintRowEncode]
    rw [range'_succ] at few ⊢
    by_cases one : p.getD j 0 ≠ 0
    · rw [filter_cons_of_pos (by simpa using one)] at few ⊢
      rw [length_cons] at few
      obtain ⟨m, rfl⟩ := exists_eq_succ_of_ne_zero (by omega : n ≠ 0)
      rw [if_pos one, succ_eq_add_one, hintStore_next]
      have rest := @ih (j + 1) m (front ++ [UInt8.ofNat j]) tail (by omega)
      rw [length_append, length_singleton] at rest
      rw [bind_some, rest]
      simp [add_assoc, add_comm 1]
    · rw [filter_cons_of_neg (by simpa using one)] at few ⊢
      rw [if_neg one]
      exact ih few

theorem hintRowsEncode_writes {omega : Nat} (rows : List (List Nat)) :
    ∀ {front limits : List UInt8}, front.length + (rows.flatMap rowBytes).length ≤ omega →
      hintRowsEncode omega rows limits.length
          (front ++ (replicate (omega - front.length) 0 ++
            (limits ++ replicate rows.length 0))) front.length =
        some (front ++ rows.flatMap rowBytes ++
          (replicate (omega - (front.length + (rows.flatMap rowBytes).length)) 0 ++
            (limits ++ rowLimits front.length rows))) := by
  induction rows with
  | nil =>
    intro front limits _
    simp [hintRowsEncode, rowLimits]
  | cons p rows ih =>
    intro front limits few
    rw [flatMap_cons, length_append] at few
    have range : (range' 0 mlDsaNumPolyCoefficients) = range mlDsaNumPolyCoefficients :=
      range_eq_range'.symm
    have bytes : ((range' 0 mlDsaNumPolyCoefficients).filter fun j =>
        p.getD j 0 ≠ 0).map UInt8.ofNat = rowBytes p := by rw [range]; rfl
    have count : ((range' 0 mlDsaNumPolyCoefficients).filter fun j =>
        p.getD j 0 ≠ 0).length = (rowBytes p).length := by rw [← bytes, length_map]
    have row := @hintRowEncode_writes p mlDsaNumPolyCoefficients 0 (omega - front.length) front
      (limits ++ replicate (p :: rows).length 0) (by rw [count]; omega)
    rw [bytes, count] at row
    rw [hintRowsEncode, row, bind_some]
    dsimp only
    have store := hintStore_next
      (front ++ rowBytes p ++ (replicate (omega - front.length - (rowBytes p).length) 0 ++
        limits)) [] rows.length (UInt8.ofNat (front.length + (rowBytes p).length))
    have place : (front ++ rowBytes p ++
        (replicate (omega - front.length - (rowBytes p).length) (0 : UInt8) ++
          limits)).length = omega + limits.length := by
      simp
      omega
    rw [place, append_nil, append_nil] at store
    have shape : front ++ rowBytes p ++
        (replicate (omega - front.length - (rowBytes p).length) 0 ++
          (limits ++ replicate (p :: rows).length 0)) =
        front ++ rowBytes p ++ (replicate (omega - front.length - (rowBytes p).length) 0 ++
          limits) ++ replicate (rows.length + 1) 0 := by simp
    rw [shape, store, bind_some]
    have rest := @ih (front ++ rowBytes p)
      (limits ++ [UInt8.ofNat (front.length + (rowBytes p).length)])
      (by rw [length_append]; omega)
    rw [length_append, length_append, length_singleton, ← Nat.sub_sub] at rest
    have shape' : front ++ rowBytes p ++
        (replicate (omega - front.length - (rowBytes p).length) 0 ++ limits) ++
        [UInt8.ofNat (front.length + (rowBytes p).length)] ++ replicate rows.length 0 =
        front ++ rowBytes p ++ (replicate (omega - front.length - (rowBytes p).length) 0 ++
          (limits ++ [UInt8.ofNat (front.length + (rowBytes p).length)] ++
            replicate rows.length 0)) := by simp
    rw [shape', rest]
    simp [rowLimits, add_assoc]

theorem hintBitsEncode_writes {k max : Nat} {out : List UInt8} (valid : HintValid k omega hint)
    (fits : out.length + (omega + k) ≤ max) :
    hintBitsEncode max hint omega out = some (out ++ hintBytes omega hint) := by
  have rows := @hintRowsEncode_writes omega hint [] [] (by simpa using valid.2.2)
  simp only [nil_append, length_nil, Nat.sub_zero, zero_add, replicate_append_replicate] at rows
  unfold hintBitsEncode
  rw [rows, bind_some]
  exact sigPut_fits (by rw [← hintBytes, hintBytes_length valid]; exact fits)

end Hints

section Signatures

def ZValid (gamma1 l : Nat) (z : List (List Nat)) : Prop :=
  z.length = l ∧ ∀ p ∈ z, PolyValid gamma1 (mlDsaNumPolyCoefficients / 4) p

structure SigValid (params : MlDsaParams) (sig : MlDsaSig) : Prop where
  cTilde : sig.cTilde.length = params.cTildeLen
  z : ZValid params.gamma1 params.l sig.z
  hint : HintValid params.k params.omega sig.hint

theorem polys_part {decode : PacketM (List Nat)} {bytes : List Nat → List UInt8}
    {valid : List Nat → Prop} (part : PartCodec decode bytes valid) (n : Nat) :
    PartCodec (sigPolysDecode decode n) (fun z => z.flatMap bytes)
      fun z => z.length = n ∧ ∀ p ∈ z, valid p := by
  induction n with
  | zero =>
    constructor
    · rintro z ⟨length, _⟩ rest
      obtain rfl := length_eq_zero_iff.mp length
      exact reads_pure [] rest
    · intro inp z rest run
      obtain ⟨rfl, rfl⟩ := mk.inj (some.inj run)
      exact ⟨⟨rfl, by simp⟩, rfl⟩
  | succ n ih =>
    constructor
    · rintro z ⟨length, inside⟩ rest
      obtain ⟨p, z, rfl⟩ := exists_cons_of_length_eq_add_one length
      have valids : z.length = n ∧ ∀ q ∈ z, valid q :=
        ⟨by simpa using length, fun q member => inside q (mem_cons_of_mem p member)⟩
      have later : Reads (sigPolysDecode decode n >>= fun z => pure (p :: z)) (z.flatMap bytes)
          (p :: z) rest := by
        have both := reads_bind (f := fun z => pure (p :: z)) (ih.reads z valids ([] ++ rest))
          (reads_pure (p :: z) rest)
        rwa [append_nil] at both
      exact reads_bind (part.reads p (inside p mem_cons_self) _) later
    · intro inp z rest run
      obtain ⟨p, mid, one, run⟩ := run_bind_some run
      obtain ⟨z', last, two, run⟩ := run_bind_some run
      obtain ⟨rfl, rfl⟩ := mk.inj (some.inj run)
      obtain ⟨valid', rfl⟩ := part.exactly _ _ _ one
      obtain ⟨⟨length, inside⟩, rfl⟩ := ih.exactly _ _ _ two
      refine ⟨⟨by rw [length_cons, length], ?_⟩, ?_⟩
      · intro q member
        rcases mem_cons.mp member with rfl | member
        · exact valid'
        · exact inside q member
      · rw [flatMap_cons, append_assoc]

/-- What is used of the constants of an algorithm. -/
structure MlDsaParams.Packs (params : MlDsaParams) (size : Nat)
    (encode : Nat → Nat → Nat → Nat → List UInt8) (decode : List UInt8 → List Nat) : Prop where
  codec : GroupCodec params.gamma1 size encode decode
  encodeFn : params.encodeFn = polyEncodeGroups encode params.sigLen (mlDsaNumPolyCoefficients / 4)
  decodeFn : params.decodeFn = polyDecodeGroups decode size (mlDsaNumPolyCoefficients / 4)
  small : params.omega < 256
  sigLen : params.cTildeLen + (params.l * (mlDsaNumPolyCoefficients / 4 * size) +
    (params.omega + params.k)) = params.sigLen

theorem params_pack (alg : MlDsaAlg) : ∃ size encode decode, alg.params.Packs size encode decode := by
  cases alg with
  | mlDsa44 => exact ⟨9, encodeGroup17, decodeGroup17, group17, rfl, rfl, by decide, rfl⟩
  | mlDsa65 => exact ⟨10, encodeGroup19, decodeGroup19, group19, rfl, rfl, by decide, rfl⟩
  | mlDsa87 => exact ⟨10, encodeGroup19, decodeGroup19, group19, rfl, rfl, by decide, rfl⟩

variable {params : MlDsaParams} {size : Nat} {encode : Nat → Nat → Nat → Nat → List UInt8}
  {decode : List UInt8 → List Nat}

def zBytes (encode : Nat → Nat → Nat → Nat → List UInt8) (z : List (List Nat)) : List UInt8 :=
  z.flatMap (polyBytes encode (mlDsaNumPolyCoefficients / 4))

theorem zBytes_length (packs : params.Packs size encode decode) (z : List (List Nat)) :
    (zBytes encode z).length = z.length * (mlDsaNumPolyCoefficients / 4 * size) := by
  induction z with
  | nil => simp [zBytes]
  | cons p z ih =>
    rw [zBytes, flatMap_cons, length_append, polyBytes_length packs.codec, ← zBytes, ih,
      length_cons, add_mul, one_mul, add_comm]

/-- The bytes of a signature, in the order they are written. -/
def sigBytes (params : MlDsaParams) (encode : Nat → Nat → Nat → Nat → List UInt8)
    (sig : MlDsaSig) : List UInt8 :=
  sig.cTilde ++ (zBytes encode sig.z ++ hintBytes params.omega sig.hint)

variable {sig : MlDsaSig}

theorem sigBytes_length (packs : params.Packs size encode decode) (valid : SigValid params sig) :
    (sigBytes params encode sig).length = params.sigLen := by
  rw [sigBytes, length_append, length_append, zBytes_length packs,
    hintBytes_length valid.hint, valid.cTilde, valid.z.1]
  exact packs.sigLen

theorem sigPolysEncode_writes (packs : params.Packs size encode decode) (z : List (List Nat)) :
    ∀ {out : List UInt8}, out.length + (zBytes encode z).length ≤ params.sigLen →
      sigPolysEncode params.encodeFn z out = some (out ++ zBytes encode z) := by
  induction z with
  | nil =>
    intro out _
    simp [sigPolysEncode, zBytes]
  | cons p z ih =>
    intro out fits
    have first := polyBytes_length packs.codec (mlDsaNumPolyCoefficients / 4) p
    rw [zBytes, flatMap_cons, ← zBytes, length_append, first] at fits
    rw [sigPolysEncode, packs.encodeFn,
      polyEncodeGroups_writes packs.codec _ (by omega), bind_some, ← packs.encodeFn,
      ih (by rw [length_append, first]; omega), zBytes, zBytes, flatMap_cons,
      append_assoc]

theorem sigEncode_writes (packs : params.Packs size encode decode) (valid : SigValid params sig) :
    sigEncode params sig = some (sigBytes params encode sig) := by
  have total := sigBytes_length packs valid
  have hint := hintBytes_length valid.hint
  rw [sigBytes, length_append, length_append] at total
  unfold sigEncode
  rw [sigPut_fits (by rw [length_nil]; omega), nil_append]
  simp only [bind_eq_bind, bind_some]
  rw [sigPolysEncode_writes packs sig.z (by omega), bind_some,
    hintBitsEncode_writes valid.hint (by rw [length_append]; omega), sigBytes,
    append_assoc]

/-- The parts a signature is read from, in front of what remains. -/
theorem sigRead_part (packs : params.Packs size encode decode) :
    PartCodec (sigRead params)
      (fun parts => parts.1 ++ (zBytes encode parts.2.1 ++ (parts.2.2.1 ++ parts.2.2.2)))
      fun parts => parts.1.length = params.cTildeLen ∧ ZValid params.gamma1 params.l parts.2.1 ∧
        parts.2.2.1.length = params.omega ∧ parts.2.2.2.length = params.k := by
  have part := polys_part (poly_part packs.codec (mlDsaNumPolyCoefficients / 4)) params.l
  rw [← packs.decodeFn] at part
  constructor
  · rintro ⟨cTilde, z, inp, limits⟩ ⟨length, valid, length', length''⟩ rest
    refine reads_bind (getBytes_reads length _) (reads_bind (part.reads z valid _)
      (reads_bind (getBytes_reads length' _) ?_))
    have both := reads_bind (f := fun limits => pure (cTilde, z, inp, limits))
      (getBytes_reads length'' ([] ++ rest)) (reads_pure (cTilde, z, inp, limits) rest)
    rwa [append_nil] at both
  · intro bytes parts rest run
    obtain ⟨cTilde, mid, one, run⟩ := run_bind_some run
    obtain ⟨z, mid', two, run⟩ := run_bind_some run
    obtain ⟨inp, mid'', three, run⟩ := run_bind_some run
    obtain ⟨limits, last, four, run⟩ := run_bind_some run
    obtain ⟨rfl, rfl⟩ := mk.inj (some.inj run)
    obtain ⟨length, rfl⟩ := (getBytes_part params.cTildeLen).exactly _ _ _ one
    obtain ⟨valid, rfl⟩ := part.exactly _ _ _ two
    obtain ⟨length', rfl⟩ := (getBytes_part params.omega).exactly _ _ _ three
    obtain ⟨length'', rfl⟩ := (getBytes_part params.k).exactly _ _ _ four
    exact ⟨⟨length, valid, length', length''⟩, by simp [zBytes]⟩

/-- A string is accepted exactly when it is the encoding of the signature it gives. -/
theorem sigDecode_ok (packs : params.Packs size encode decode) {inp : List UInt8} :
    sigDecode params inp = .ok sig ↔ SigValid params sig ∧ inp = sigBytes params encode sig := by
  have part := sigRead_part packs
  unfold sigDecode
  constructor
  · intro run
    cases one : (sigRead params).run inp with
    | none =>
      rw [one] at run
      cases run
    | some found =>
      obtain ⟨⟨cTilde, z, places, limits⟩, rest⟩ := found
      rw [one] at run
      dsimp only at run
      obtain ⟨⟨length, valid, length', length''⟩, same⟩ := part.exactly _ _ _ one
      cases two : hintBitsDecode places limits params.omega with
      | error e =>
        rw [two] at run
        cases run
      | ok hint =>
        rw [two] at run
        dsimp only at run
        split at run
        · cases run
        · rename_i all
          cases run
          obtain ⟨valid', bytes⟩ := (hintBitsDecode_ok length' packs.small).mp two
          obtain rfl := length_eq_zero_iff.mp (not_not.mp all)
          rw [length''] at valid'
          refine ⟨⟨length, valid, valid'⟩, ?_⟩
          rw [same, append_nil, sigBytes, ← bytes]
  · rintro ⟨⟨length, valid, hint⟩, rfl⟩
    have size := hintBytes_length hint
    obtain ⟨places, limits, split_, length', length''⟩ : ∃ places limits,
        hintBytes params.omega sig.hint = places ++ limits ∧ places.length = params.omega ∧
          limits.length = params.k :=
      ⟨_, _, (take_append_drop params.omega _).symm,
        length_take_of_le (by omega), by rw [length_drop]; omega⟩
    have read := part.reads (sig.cTilde, sig.z, places, limits) ⟨length, valid, length', length''⟩
      []
    unfold Reads at read
    rw [append_nil] at read
    have decoded : hintBitsDecode places limits params.omega = .ok sig.hint :=
      (hintBitsDecode_ok length' packs.small).mpr ⟨length''.symm ▸ hint, split_.symm⟩
    rw [sigBytes, split_, read]
    dsimp only
    rw [decoded]
    rfl

theorem sigDecode_reads (packs : params.Packs size encode decode) (inp : List UInt8) :
    sigDecode params inp ≠ .error .overread := by
  have part := sigRead_part packs
  unfold sigDecode
  cases one : (sigRead params).run inp with
  | none =>
    intro wrong
    cases wrong
  | some found =>
    obtain ⟨⟨cTilde, z, places, limits⟩, rest⟩ := found
    obtain ⟨⟨_, _, length', _⟩, _⟩ := part.exactly _ _ _ one
    have reads := @hintBitsDecode_reads places limits params.omega length'
    dsimp only
    cases two : hintBitsDecode places limits params.omega with
    | error e =>
      rw [two] at reads
      intro wrong
      cases wrong
      exact reads rfl
    | ok hint =>
      dsimp only
      split
      · intro wrong
        cases wrong
      · intro wrong
        cases wrong

end Signatures

/-- Every signature is decoded from its encoding, every accepted string is the
    encoding of the signature decoded from it, and no string is read past its end. -/
theorem ml_dsa_sig_encoding_is_bijective (alg : MlDsaAlg) :
    (∀ sig, SigValid alg.params sig → ∃ out, sigEncode alg.params sig = some out ∧
      out.length = alg.params.sigLen ∧ sigDecode alg.params out = .ok sig) ∧
    (∀ inp sig, sigDecode alg.params inp = .ok sig →
      SigValid alg.params sig ∧ sigEncode alg.params sig = some inp) ∧
    ∀ inp, sigDecode alg.params inp ≠ .error .overread := by
  obtain ⟨size, encode, decode, packs⟩ := params_pack alg
  refine ⟨?_, ?_, sigDecode_reads packs⟩
  · intro sig valid
    exact ⟨_, sigEncode_writes packs valid, sigBytes_length packs valid,
      (sigDecode_ok packs).mpr ⟨valid, rfl⟩⟩
  · intro inp sig accepted
    obtain ⟨valid, rfl⟩ := (sigDecode_ok packs).mp accepted
    exact ⟨valid, sigEncode_writes packs valid⟩

end Ossl
