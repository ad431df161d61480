import OpenSSL.Ssl.CbcPadLaws
import OpenSSL.Ssl.Ssl3Cbc

/- Hashed block by block under masks, the record has the MAC that its data has. -/
namespace Ossl
open Nat UInt64 List MerkleDamgard

section Lengths

/-- Four bytes are enough for a length below 2 ^ 32. -/
theorem lengthBytes_eq (md : RecordMd) {bits : Nat} (small : bits < 2 ^ 32) :
    lengthBytes md bits = hashLength md bits := by
  have low : (range md.mdLengthSize).map (fun j => UInt8.ofNat (bits / 256 ^ j)) =
      [UInt8.ofNat bits, UInt8.ofNat (bits / 2 ^ 8), UInt8.ofNat (bits / 2 ^ 16),
        UInt8.ofNat (bits / 2 ^ 24)] ++ replicate (md.mdLengthSize - 4) 0 := by
    have size : md.mdLengthSize = 4 + (md.mdLengthSize - 4) := by
      cases md <;> rfl
    have above : (range (md.mdLengthSize - 4)).map
        (fun j => UInt8.ofNat (bits / 256 ^ (4 + j))) = replicate (md.mdLengthSize - 4) 0 := by
      apply ext_getElem
      · simp
      · intro j _ _
        have big : 2 ^ 32 ≤ 256 ^ (4 + j) := by
          rw [pow_add]
          exact Nat.le_mul_of_pos_right _ (Nat.pow_pos (by decide))
        simp [div_eq_of_lt (lt_of_lt_of_le small big)]
    rw [size, range_add, map_append, map_map]
    rw [Nat.add_sub_cancel_left]
    congr 1
    · simp [range_succ]
  unfold lengthBytes hashLength
  rw [low]
  cases md <;> rfl

end Lengths

section Options
variable {α β : Type}

variable {g : α → Option β} {xs : List α}

theorem mapM_answers (answers : ∀ x ∈ xs, (g x).isSome = true) : (xs.mapM g).isSome = true := by
  induction xs with
  | nil => rfl
  | cons x xs ih =>
    obtain ⟨y, is⟩ := Option.isSome_iff_exists.mp (answers x mem_cons_self)
    obtain ⟨ys, are⟩ := Option.isSome_iff_exists.mp
      (ih fun z member => answers z (mem_cons_of_mem x member))
    simp [mapM_cons, is, are]

theorem mapM_each {h : α → β} (each : ∀ x ∈ xs, g x = some (h x)) :
    xs.mapM g = some (xs.map h) := by
  induction xs with
  | nil => rfl
  | cons x xs ih =>
    have rest := ih fun z member => each z (mem_cons_of_mem x member)
    simp [mapM_cons, each x mem_cons_self, rest]

end Options

section Bytes

variable {i k : Nat}

theorem eq8S_eq (small : i < 2 ^ 64) (small' : k < 2 ^ 64) :
    constantTimeEq8S (ofNat i) (ofNat k) = if i = k then 255 else 0 := by
  have same : ofNat i = ofNat k ↔ i = k := by
    rw [← UInt64.toNat_inj, toNat_ofNat', toNat_ofNat', mod_eq_of_lt small, mod_eq_of_lt small']
  rw [constantTimeEq8S, eqS_eq]
  unfold ones
  simp only [same]
  split <;> rfl

theorem ge8S_eq (small : i < 2 ^ 64) (small' : k < 2 ^ 64) :
    constantTimeGe8S (ofNat i) (ofNat k) = if k ≤ i then 255 else 0 := by
  have le : ofNat k ≤ ofNat i ↔ k ≤ i := by
    rw [le_iff_toNat_le, toNat_ofNat', toNat_ofNat', mod_eq_of_lt small, mod_eq_of_lt small']
  rw [constantTimeGe8S, geS_eq]
  unfold ones
  simp only [le]
  split <;> rfl

theorem and_255 (a : UInt8) : a &&& 255 = a := by
  have all : a.toBitVec &&& 255#8 = a.toBitVec := BitVec.and_allOnes
  apply UInt8.toBitVec_inj.mp
  simpa using all

/-- The masks put the end of the message into its two blocks and leave the others. -/
theorem macBlockByte_eq (md : RecordMd) (e : MacEnd) {j : Nat} (smallI : i < 2 ^ 32)
    (smallJ : j < 2 ^ 32) (smallA : e.indexA < 2 ^ 32) (smallB : e.indexB < 2 ^ 32)
    (smallC : e.c < 2 ^ 32) (b : UInt8) : macBlockByte md e i j b =
      if i = e.indexB ∧ md.mdBlockSize - md.mdLengthSize ≤ j then
        e.lengthBytes.getD (j - (md.mdBlockSize - md.mdLengthSize)) 0
      else if i = e.indexA then if j < e.c then b else if j = e.c then 0x80 else 0
      else if i = e.indexB then 0 else b := by
  unfold macBlockByte
  rw [eq8S_eq (by omega) (by omega), eq8S_eq (by omega) (by omega), ge8S_eq (by omega) (by omega),
    ge8S_eq (by omega) (by omega)]
  have none_ : ~~~(0 : UInt8) = 255 := by decide
  have all : ~~~(255 : UInt8) = 0 := by decide
  by_cases isA : i = e.indexA
  · have masks (b : UInt8) : (constantTimeSelect8 (255 &&& if e.c ≤ j then 255 else 0) 0x80 b &&&
        ~~~(255 &&& if e.c + 1 ≤ j then 255 else 0)) =
        if j < e.c then b else if j = e.c then 0x80 else 0 := by
      rcases lt_trichotomy j e.c with less | same | more
      · rw [if_neg (by omega), if_neg (by omega), if_pos less, UInt8.and_zero, select8_none, none_,
          and_255]
      · rw [if_pos (by omega), if_neg (by omega), if_neg (by omega), if_pos same, UInt8.and_zero,
          and_255, select8_ones, none_, and_255]
      · rw [if_pos (by omega), if_pos (by omega), if_neg (by omega), if_neg (by omega), and_255,
          all, UInt8.and_zero]
    have wide (x : UInt8) : x ||| 255 = 255 := by
      have all : x.toBitVec ||| 255#8 = 255#8 := BitVec.or_allOnes
      apply UInt8.toBitVec_inj.mp
      simpa using all
    simp only [if_pos isA, masks, wide, and_255]
    by_cases isB : i = e.indexB
    · by_cases last : md.mdBlockSize - md.mdLengthSize ≤ j
      · simp only [isB, ge_iff_le, last, and_self, if_true, select8_ones]
      · simp [last]
    · simp [isB, select8_none]
  · simp only [if_neg isA, UInt8.zero_and, select8_none, none_, and_255, UInt8.or_zero]
    by_cases isB : i = e.indexB
    · by_cases last : md.mdBlockSize - md.mdLengthSize ≤ j
      · simp [isB, last, select8_ones]
      · simp [isB, last, all]
    · simp [isB, select8_none, none_, and_255]

end Bytes

/- The message that the inner hash is about, and where it ends. -/
structure MacRecord (md : RecordMd) where
  header : List UInt8
  data : List UInt8
  dataSize : Nat
  header_ : header.length = 13
  bounded : data.length < 2 ^ 20
  least : data.length ≤ dataSize + md.mdSize + 256
  most : dataSize + md.mdSize + 1 ≤ data.length

namespace MacRecord
variable {md : RecordMd} (r : MacRecord md) (f : MdFunctions md)

def message : List UInt8 := r.header ++ r.data.take r.dataSize

def macEndOffset : Nat := r.dataSize + 13

def bits : Nat := 8 * r.macEndOffset + 8 * md.mdBlockSize

def macEnd : MacEnd where
  c := r.macEndOffset % md.mdBlockSize
  indexA := r.macEndOffset / md.mdBlockSize
  indexB := (r.macEndOffset + md.mdLengthSize) / md.mdBlockSize
  lengthBytes := lengthBytes md r.bits

def padded : List UInt8 := r.message ++ f.scheme.padding (md.mdBlockSize + r.macEndOffset)

theorem message_length : r.message.length = r.macEndOffset := by
  have most := r.most
  simp only [message, length_append, r.header_, length_take, macEndOffset]
  omega

theorem small : r.macEndOffset < 2 ^ 21 := by
  have most := r.most
  have bounded := r.bounded
  unfold macEndOffset
  omega

theorem indexB_pos : (md.mdBlockSize + r.macEndOffset + md.mdLengthSize) / md.mdBlockSize =
    r.macEnd.indexB + 1 := by
  have some_ : 0 < md.mdBlockSize := by cases md <;> decide
  rw [add_assoc, add_comm, add_div_right _ some_]
  rfl

theorem padded_ends : r.macEndOffset + 1 + f.scheme.zeros (md.mdBlockSize + r.macEndOffset) +
    md.mdLengthSize = (r.macEnd.indexB + 1) * md.mdBlockSize := by
  have ends := ends_block f.scheme (md.mdBlockSize + r.macEndOffset)
  have block : f.scheme.block = md.mdBlockSize := rfl
  have length : f.scheme.lengthSize = md.mdLengthSize := rfl
  rw [block, length, r.indexB_pos] at ends
  simp only [Scheme.padding, length_cons, length_append, length_replicate,
    f.scheme.encoded, length] at ends
  rw [Nat.add_mul, Nat.one_mul] at ends
  omega

theorem padded_length : (r.padded f).length = (r.macEnd.indexB + 1) * md.mdBlockSize := by
  rw [← r.padded_ends f, padded, length_append, r.message_length, Scheme.padding,
    length_cons, length_append, length_replicate, f.scheme.encoded]
  have : f.scheme.lengthSize = md.mdLengthSize := rfl
  omega

variable {i k n : Nat}

theorem padded_get (inside : k < (r.macEnd.indexB + 1) * md.mdBlockSize) : (r.padded f).getD k 0 =
      if k < r.macEndOffset then r.message.getD k 0
      else if k = r.macEndOffset then 0x80
      else if k + md.mdLengthSize < (r.macEnd.indexB + 1) * md.mdBlockSize then 0
      else (lengthBytes md r.bits).getD
        (k + md.mdLengthSize - (r.macEnd.indexB + 1) * md.mdBlockSize) 0 := by
  have ends := r.padded_ends f
  have length := r.message_length
  have bits : 8 * (md.mdBlockSize + r.macEndOffset) = r.bits := by
    unfold MacRecord.bits
    omega
  have low : r.bits < 2 ^ 32 := by
    have := r.small
    have : md.mdBlockSize ≤ 128 := by cases md <;> decide
    omega
  rw [padded]
  by_cases message : k < r.macEndOffset
  · rw [if_pos message, getD_append _ _ _ _ (by omega)]
  · rw [if_neg message, getD_append_right _ _ _ _ (by omega), length, Scheme.padding]
    by_cases first : k = r.macEndOffset
    · rw [if_pos first, first, Nat.sub_self, getD_cons_zero]
    · rw [if_neg first]
      obtain ⟨j, is⟩ : ∃ j, k - r.macEndOffset = j + 1 := ⟨k - r.macEndOffset - 1, by omega⟩
      rw [is, getD_cons_succ]
      by_cases zero : k + md.mdLengthSize < (r.macEnd.indexB + 1) * md.mdBlockSize
      · rw [if_pos zero, getD_append _ _ _ _ (by rw [length_replicate]; omega),
          getD_replicate _ (by omega)]
      · rw [if_neg zero, getD_append_right _ _ _ _ (by rw [length_replicate]; omega),
          length_replicate, bits, lengthBytes_eq md low]
        have place : j - f.scheme.zeros (md.mdBlockSize + r.macEndOffset) =
            k + md.mdLengthSize - (r.macEnd.indexB + 1) * md.mdBlockSize := by omega
        rw [place]
        rfl

theorem message_get (inside : k < r.macEndOffset) :
    r.message.getD k 0 = if k < 13 then r.header.getD k 0 else r.data.getD (k - 13) 0 := by
  have most := r.most
  have header_ := r.header_
  unfold macEndOffset at inside
  rw [message]
  by_cases first : k < 13
  · rw [if_pos first, getD_append _ _ _ _ (by omega)]
  · rw [if_neg first, getD_append_right _ _ _ _ (by omega), header_,
      getD_eq_getElem _ _ (by rw [length_take]; omega), getElem_take,
      getD_eq_getElem _ _ (by omega)]

theorem read_some (k : Nat) : ∃ b, macRead r.header r.data r.data.length k = some b ∧
    (k < r.macEndOffset → b = r.message.getD k 0) := by
  have most := r.most
  have header_ := r.header_
  unfold macRead
  by_cases first : k < 13
  · rw [if_pos first]
    refine ⟨r.header.getD k 0, ?_, fun inside => by rw [r.message_get inside, if_pos first]⟩
    rw [getD_eq_getElem _ _ (by omega), getElem?_eq_getElem]
  · rw [if_neg first]
    by_cases next : k < r.data.length + 13
    · rw [if_pos next]
      refine ⟨r.data.getD (k - 13) 0, ?_, fun inside => by rw [r.message_get inside, if_neg first]⟩
      rw [getD_eq_getElem _ _ (by omega), getElem?_eq_getElem]
    · rw [if_neg next]
      refine ⟨0, rfl, fun inside => ?_⟩
      unfold macEndOffset at inside
      omega

theorem macEnd_facts : r.macEndOffset = md.mdBlockSize * r.macEnd.indexA + r.macEnd.c ∧
    r.macEnd.c < md.mdBlockSize ∧
    (r.macEnd.indexB = r.macEnd.indexA ∧ r.macEnd.c + md.mdLengthSize < md.mdBlockSize ∨
      r.macEnd.indexB = r.macEnd.indexA + 1 ∧ md.mdBlockSize ≤ r.macEnd.c + md.mdLengthSize) := by
  simp only [macEnd]
  generalize r.macEndOffset = length
  cases md <;> simp only [RecordMd.mdBlockSize, RecordMd.mdLengthSize] <;> omega

theorem macBlock_some (i k : Nat) :
    ∃ block, macBlock md r.macEnd r.header r.data r.data.length k i = some block := by
  rw [macBlock, ← Option.isSome_iff_exists]
  apply mapM_answers
  intro j _
  obtain ⟨b, read, _⟩ := r.read_some (k + j)
  rw [read]
  rfl

theorem macBlock_eq (within : i ≤ r.macEnd.indexB) :
    macBlock md r.macEnd r.header r.data r.data.length (md.mdBlockSize * i) i =
      some (f.scheme.blockAt (r.padded f) i) := by
  obtain ⟨ends, cut, indexB⟩ := r.macEnd_facts
  have small := r.small
  have sizes : 64 ≤ md.mdBlockSize ∧ md.mdBlockSize ≤ 128 ∧ md.mdLengthSize < md.mdBlockSize := by
    cases md <;> decide
  have total : (r.macEnd.indexB + 1) * md.mdBlockSize =
      md.mdBlockSize * r.macEnd.indexB + md.mdBlockSize := by ring
  have length := r.padded_length f
  have inside := Nat.mul_le_mul_left md.mdBlockSize within
  have fewA : r.macEnd.indexA ≤ md.mdBlockSize * r.macEnd.indexA :=
    Nat.le_mul_of_pos_left _ (by omega)
  have bytes : f.scheme.blockAt (r.padded f) i = (List.range md.mdBlockSize).map fun j =>
      (r.padded f).getD (md.mdBlockSize * i + j) 0 := by
    rw [taken_bytes (by omega), Scheme.blockAt, mul_comm]
    rfl
  rw [bytes, macBlock]
  apply mapM_each
  intro j member
  have less : j < md.mdBlockSize := mem_range.mp member
  obtain ⟨b, read, message⟩ := r.read_some (md.mdBlockSize * i + j)
  have get := r.padded_get f (k := md.mdBlockSize * i + j) (by omega)
  have ended := r.padded_ends f
  rw [read, Option.map_some, macBlockByte_eq md r.macEnd (by omega) (by omega) (by omega) (by omega)
    (by omega), get]
  congr 1
  by_cases last : i = r.macEnd.indexB ∧ md.mdBlockSize - md.mdLengthSize ≤ j
  · rw [if_pos last, if_neg (by rw [last.1] ; omega), if_neg (by rw [last.1]; omega),
      if_neg (by rw [last.1]; omega)]
    have place : j - (md.mdBlockSize - md.mdLengthSize) = md.mdBlockSize * i + j + md.mdLengthSize -
        (r.macEnd.indexB + 1) * md.mdBlockSize := by
      rw [last.1]
      omega
    rw [place]
    rfl
  · rw [if_neg last]
    by_cases isA : i = r.macEnd.indexA
    · rw [if_pos isA]
      have next : r.macEnd.indexB = r.macEnd.indexA + 1 →
          md.mdBlockSize * r.macEnd.indexB = md.mdBlockSize * r.macEnd.indexA + md.mdBlockSize := by
        intro is
        rw [is]
        ring
      have here : md.mdBlockSize * i = md.mdBlockSize * r.macEnd.indexA := by rw [isA]
      rcases Nat.lt_trichotomy j r.macEnd.c with before | at_c | past
      · rw [if_pos before, if_pos (by omega), message (by omega)]
      · rw [if_neg (by omega), if_pos at_c, if_neg (by omega), if_pos (by omega)]
      · rw [if_neg (by omega), if_neg (by omega), if_neg (by omega), if_neg (by omega),
          if_pos (by omega)]
    · rw [if_neg isA]
      by_cases isB : i = r.macEnd.indexB
      · have next : md.mdBlockSize * r.macEnd.indexB =
            md.mdBlockSize * r.macEnd.indexA + md.mdBlockSize := by
          rw [show r.macEnd.indexB = r.macEnd.indexA + 1 by omega]
          ring
        have here : md.mdBlockSize * i = md.mdBlockSize * r.macEnd.indexB := by rw [isB]
        rw [if_pos isB, if_neg (by omega), if_neg (by omega), if_pos (by omega)]
      · rw [if_neg isB]
        have before := Nat.mul_le_mul_left md.mdBlockSize (show i + 1 ≤ r.macEnd.indexA by omega)
        rw [Nat.mul_add, Nat.mul_one] at before
        rw [if_pos (by omega), message (by omega)]

theorem indexB_bound : r.macEnd.indexB < 2 ^ 22 := by
  have small := r.small
  have : r.macEnd.indexB ≤ r.macEndOffset + md.mdLengthSize := div_le_self _ _
  have : md.mdLengthSize ≤ 16 := by cases md <;> decide
  omega

theorem indexB_small : r.macEnd.indexB < 2 ^ 32 := lt_trans r.indexB_bound (by decide)

/-- Nothing is kept of the blocks after the last one. -/
theorem macBlocks_after (k : Nat) (s : f.State) {macOut : List UInt8} (past : r.macEnd.indexB < i)
    (small : i + n ≤ 2 ^ 32) (length : macOut.length = md.mdSize) :
    macBlocks f r.macEnd r.header r.data r.data.length n i k s macOut = some macOut := by
  induction n generalizing i k s with
  | zero => rfl
  | succ n ih =>
    obtain ⟨block, made⟩ := r.macBlock_some i k
    have enough := f.enough (f.transform s block)
    rw [macBlocks, made]
    dsimp only
    rw [eq8S_eq (by omega) (by omega), if_neg (by omega)]
    have kept : zipWith (fun out b => out ||| (b &&& 0)) macOut
        ((f.finalRaw (f.transform s block) ++
          block.drop (f.finalRaw (f.transform s block)).length).take md.mdSize) = macOut := by
      apply ext_getElem
      · simp
        omega
      · intro j _ _
        simp
    rw [kept]
    exact ih _ _ (by omega) (by omega)

theorem macBlocks_keep (s : f.State) (before : i ≤ r.macEnd.indexB)
    (reached : r.macEnd.indexB < i + n) (small : i + n ≤ 2 ^ 32) :
    macBlocks f r.macEnd r.header r.data r.data.length n i (md.mdBlockSize * i) s
        (replicate md.mdSize 0) =
      some (f.scheme.digest (f.scheme.absorb (r.padded f) i (r.macEnd.indexB + 1 - i) s)) := by
  induction n generalizing i s with
  | zero => omega
  | succ n ih =>
    have enough := f.enough (f.transform s (f.scheme.blockAt (r.padded f) i))
    rw [macBlocks, r.macBlock_eq f before]
    dsimp only
    rw [eq8S_eq (by omega) (by omega),
      show r.macEnd.indexB + 1 - i = r.macEnd.indexB - i + 1 by omega, absorb_succ,
      take_append_of_le_length enough]
    change _ = some (f.scheme.digest (f.scheme.absorb (r.padded f) (i + 1) _
      (f.transform s (f.scheme.blockAt (r.padded f) i))))
    generalize f.transform s (f.scheme.blockAt (r.padded f) i) = s' at *
    by_cases last : i = r.macEnd.indexB
    · have kept : zipWith (fun out b => out ||| (b &&& 255)) (replicate md.mdSize 0)
          ((f.finalRaw s').take md.mdSize) = (f.finalRaw s').take md.mdSize := by
        apply ext_getElem
        · simp
        · intro j _ _
          simp [and_255]
      rw [if_pos last, kept, last, Nat.sub_self,
        r.macBlocks_after f _ s' (by omega) (by omega) (by rw [length_take]; omega)]
      rfl
    · have kept : zipWith (fun out b => out ||| (b &&& 0)) (replicate md.mdSize 0)
          ((f.finalRaw s').take md.mdSize) = replicate md.mdSize 0 := by
        apply ext_getElem
        · simp
          omega
        · intro j _ _
          simp
      rw [if_neg last, kept,
        show md.mdBlockSize * i + md.mdBlockSize = md.mdBlockSize * (i + 1) by ring,
        ih s' (by omega) (by omega) (by omega),
        show r.macEnd.indexB + 1 - (i + 1) = r.macEnd.indexB - i by omega]

theorem block_read (some_ : 0 < i) (before : md.mdBlockSize * (i + 1) ≤ r.macEndOffset) :
    readBytes r.data (md.mdBlockSize * i - 13) md.mdBlockSize =
      some (f.scheme.blockAt (r.padded f) i) := by
  have sizes : 64 ≤ md.mdBlockSize := by cases md <;> decide
  have most := r.most
  have first := Nat.le_mul_of_pos_right md.mdBlockSize some_
  rw [Nat.mul_add, Nat.mul_one] at before
  have ended := r.padded_ends f
  have isEnd : r.macEndOffset = r.dataSize + 13 := rfl
  have length : (r.padded f).length = (r.macEnd.indexB + 1) * md.mdBlockSize := r.padded_length f
  rw [readBytes, if_pos (by omega)]
  congr 1
  rw [Scheme.blockAt, mul_comm i]
  change _ = ((r.padded f).drop (md.mdBlockSize * i)).take md.mdBlockSize
  rw [← taken_bytes (by omega), ← taken_bytes (by omega)]
  apply map_congr_left
  intro j member
  have less := mem_range.mp member
  rw [r.padded_get f (by omega), if_pos (by omega), r.message_get (by omega), if_neg (by omega)]
  congr 1
  omega

theorem first_read (before : md.mdBlockSize ≤ r.macEndOffset) :
    ∃ first rest, readBytes r.header 0 13 = some first ∧
      readBytes r.data 0 (md.mdBlockSize - 13) = some rest ∧
      first ++ rest = f.scheme.blockAt (r.padded f) 0 := by
  have sizes : 64 ≤ md.mdBlockSize := by cases md <;> decide
  have most := r.most
  have header_ := r.header_
  have isEnd : r.macEndOffset = r.dataSize + 13 := rfl
  refine ⟨r.header, r.data.take (md.mdBlockSize - 13), ?_, ?_, ?_⟩
  · rw [readBytes, if_pos (by omega), drop_zero, ← header_, take_length]
  · rw [readBytes, if_pos (by omega), drop_zero]
  · rw [Scheme.blockAt, Nat.zero_mul, drop_zero]
    change _ = (r.padded f).take md.mdBlockSize
    rw [padded, message, append_assoc, take_append, header_,
      take_of_length_le (show r.header.length ≤ md.mdBlockSize by omega),
      take_append_of_le_length (by rw [length_take]; omega), take_take,
      min_eq_left (by omega)]

/-- The blocks that no padding reaches are those of the message. -/
theorem startingBlocks_absorb {blocks : Nat} (s : f.State) (some_ : 0 < blocks)
    (before : md.mdBlockSize * blocks ≤ r.macEndOffset) :
    startingBlocks f r.header r.data blocks s = some (f.scheme.absorb (r.padded f) 0 blocks s) := by
  obtain ⟨first, rest, readFirst, readRest, block⟩ :=
    r.first_read f (le_trans (Nat.le_mul_of_pos_right _ some_) before)
  have run (n i : Nat) (from_ : 0 < i) (within : md.mdBlockSize * (i + n) ≤ r.macEndOffset)
      (s : f.State) : (range' i n).foldlM (fun s i =>
        (readBytes r.data (md.mdBlockSize * i - 13) md.mdBlockSize).map (f.transform s)) s =
      some (f.scheme.absorb (r.padded f) i n s) := by
    induction n generalizing i s with
    | zero => rfl
    | succ n ih =>
      have least := mul_le_mul_left md.mdBlockSize (show i + 1 ≤ i + (n + 1) by omega)
      rw [range'_succ, foldlM_cons, r.block_read f from_ (by omega), absorb_succ]
      exact ih (i + 1) (by omega) (by rwa [show i + 1 + n = i + (n + 1) by omega]) _
  rw [startingBlocks, readFirst, readRest]
  dsimp only
  rw [block, run (blocks - 1) 1 (by omega) (by rwa [show 1 + (blocks - 1) = blocks by omega])]
  obtain ⟨n, rfl⟩ := exists_eq_succ_of_ne_zero (pos_iff_ne_zero.mp some_)
  rw [succ_sub_one, succ_eq_add_one, absorb_succ]
  rfl

end MacRecord

theorem digest_numbers {md : RecordMd} {dataSize size : Nat}
    (least : size ≤ dataSize + md.mdSize + 256) (most : dataSize + md.mdSize + 1 ≤ size)
    {start : Nat}
    (is : start = if (size + 13 - md.mdSize - 1 + 1 + md.mdLengthSize + md.mdBlockSize - 1) /
      md.mdBlockSize > varianceBlocks md then (size + 13 - md.mdSize - 1 + 1 + md.mdLengthSize +
        md.mdBlockSize - 1) / md.mdBlockSize - varianceBlocks md else 0) :
    md.mdBlockSize * start ≤ dataSize + 13 ∧
      start ≤ (dataSize + 13 + md.mdLengthSize) / md.mdBlockSize ∧
      (dataSize + 13 + md.mdLengthSize) / md.mdBlockSize < start + (varianceBlocks md + 1) := by
  by_cases more : (size + 13 - md.mdSize - 1 + 1 + md.mdLengthSize + md.mdBlockSize - 1) /
      md.mdBlockSize > varianceBlocks md
  · rw [if_pos more] at is
    unfold varianceBlocks at is more ⊢
    cases md <;> simp only [RecordMd.mdBlockSize, RecordMd.mdLengthSize, RecordMd.mdSize] at * <;>
      omega
  · rw [if_neg more] at is
    cases md <;> simp only [RecordMd.mdBlockSize, RecordMd.mdLengthSize, RecordMd.mdSize] at * <;>
      omega

/-- The record has the MAC that its data has, and nothing behind the record is read. -/
theorem record_mac_is_hmac {md : RecordMd} (f : MdFunctions md) {header data macSecret : List UInt8}
    {dataSize : Nat} (header_ : header.length = 13) (secret : macSecret.length ≤ md.mdBlockSize)
    (bounded : data.length < 2 ^ 20) (least : data.length ≤ dataSize + md.mdSize + 256)
    (most : dataSize + md.mdSize + 1 ≤ data.length) :
    ssl3CbcDigestRecord f header data dataSize data.length macSecret =
      some (f.scheme.hmac macSecret (header ++ data.take dataSize)) := by
  let r : MacRecord md := ⟨header, data, dataSize, header_, bounded, least, most⟩
  have sizes : 64 ≤ md.mdBlockSize ∧ md.mdBlockSize ≤ 128 := by cases md <;> decide
  rw [ssl3CbcDigestRecord, if_neg (by omega)]
  dsimp only
  rw [if_neg (by omega)]
  generalize isStart : (if (data.length + 13 - md.mdSize - 1 + 1 + md.mdLengthSize +
    md.mdBlockSize - 1) / md.mdBlockSize > varianceBlocks md then _ else 0) = start
  obtain ⟨before, reached, within⟩ := digest_numbers least most isStart.symm
  have key (mask : UInt8) : ((macSecret ++ replicate md.mdBlockSize 0).take md.mdBlockSize).map
      (· ^^^ mask) = f.scheme.keyBlock macSecret mask := by
    rw [Scheme.keyBlock, take_append, take_of_length_le secret, take_replicate,
      Nat.min_eq_left (sub_le _ _)]
    rfl
  have outer : (f.scheme.keyBlock macSecret 0x36).map (· ^^^ 0x6a) =
      f.scheme.keyBlock macSecret 0x5c := by
    simp only [Scheme.keyBlock, map_map]
    apply map_congr_left
    intro b _
    have both : (0x36 : UInt8) ^^^ 0x6a = 0x5c := by decide
    simp only [Function.comp_apply, UInt8.xor_assoc, both]
  have some_ : 0 < md.mdBlockSize := by omega
  have block : (f.scheme.keyBlock macSecret 0x36).length = md.mdBlockSize := by
    simp only [Scheme.keyBlock, length_map, length_append, length_replicate]
    change _ + (md.mdBlockSize - _) = _
    omega
  have inner : f.scheme.hash (f.scheme.keyBlock macSecret 0x36 ++ r.message) =
      f.scheme.digest (f.scheme.absorb (r.padded f) 0 (r.macEnd.indexB + 1)
        (f.transform f.init (f.scheme.keyBlock macSecret 0x36))) := by
    have whole : (f.scheme.keyBlock macSecret 0x36 ++ r.message).length =
        md.mdBlockSize + r.macEndOffset := by
      rw [length_append, block, r.message_length]
    have blocks : (md.mdBlockSize + (r.macEnd.indexB + 1) * md.mdBlockSize) / md.mdBlockSize =
        r.macEnd.indexB + 1 + 1 := by
      rw [Nat.add_comm, add_div_right _ some_, Nat.mul_div_cancel _ some_]
    rw [Scheme.hash, whole, append_assoc]
    change f.scheme.digest (f.scheme.absorb (_ ++ r.padded f) 0
      ((_ ++ r.padded f).length / _) _) = _
    rw [length_append, block, r.padded_length f]
    change f.scheme.digest (f.scheme.absorb _ 0
      ((md.mdBlockSize + (r.macEnd.indexB + 1) * md.mdBlockSize) / md.mdBlockSize) _) = _
    rw [blocks, absorb_block f.scheme block]
    rfl
  have begun : (if md.mdBlockSize * start > 0 then startingBlocks f header data
      (md.mdBlockSize * start / md.mdBlockSize)
      (f.transform f.init (f.scheme.keyBlock macSecret 0x36))
      else some (f.transform f.init (f.scheme.keyBlock macSecret 0x36))) =
      some (f.scheme.absorb (r.padded f) 0 start
        (f.transform f.init (f.scheme.keyBlock macSecret 0x36))) := by
    rw [Nat.mul_div_cancel_left _ some_]
    by_cases none_ : start = 0
    · rw [none_]
      rfl
    · rw [if_pos (Nat.mul_pos some_ (Nat.pos_of_ne_zero none_))]
      exact r.startingBlocks_absorb f _ (Nat.pos_of_ne_zero none_) before
  have ended := r.indexB_small
  have few : varianceBlocks md ≤ 10 := by cases md <;> decide
  have kept := r.macBlocks_keep f (n := varianceBlocks md + 1) (i := start)
    (f.scheme.absorb (r.padded f) 0 start (f.transform f.init (f.scheme.keyBlock macSecret 0x36)))
    reached within (by have := r.indexB_bound; have : start ≤ r.macEnd.indexB := reached; omega)
  have joined := absorb_add f.scheme (r.padded f) 0 start (r.macEnd.indexB + 1 - start)
    (f.transform f.init (f.scheme.keyBlock macSecret 0x36))
  rw [Nat.zero_add, show start + (r.macEnd.indexB + 1 - start) = r.macEnd.indexB + 1 by
    have : start ≤ r.macEnd.indexB := reached
    omega] at joined
  rw [← joined, ← inner] at kept
  rw [key, begun]
  dsimp only
  erw [kept]
  rw [outer]
  rfl

def sumFunctions : MdFunctions .md5 where
  State := UInt8
  init := 0
  transform := fun s block => block.foldl (· + ·) s
  finalRaw := fun s => replicate 16 s
  enough := fun s => by rw [length_replicate]; rfl

theorem record_mac_is_hmac_short :
    ssl3CbcDigestRecord sumFunctions (replicate 13 1) (replicate 40 2) 10 40 [3, 4] =
      some (sumFunctions.scheme.hmac [3, 4] (replicate 13 1 ++ (replicate 40 2).take 10)) :=
  record_mac_is_hmac sumFunctions rfl (by decide) (by decide) (by decide) (by decide)

theorem long_record_refused :
    ¬∀ (header data macSecret : List UInt8) (dataSize : Nat), header.length = 13 →
      macSecret.length ≤ RecordMd.md5.mdBlockSize →
      data.length ≤ dataSize + RecordMd.md5.mdSize + 256 →
      dataSize + RecordMd.md5.mdSize + 1 ≤ data.length →
      ssl3CbcDigestRecord sumFunctions header data dataSize data.length macSecret =
        some (sumFunctions.scheme.hmac macSecret (header ++ data.take dataSize)) := by
  intro claimed
  obtain ⟨data, length⟩ : ∃ data : List UInt8, data.length = 2 ^ 20 :=
    ⟨replicate (2 ^ 20) 0, length_replicate⟩
  have is := claimed (replicate 13 0) data [] (2 ^ 20 - 17) rfl (by decide)
    (by rw [length]; decide) (by rw [length]; decide)
  rw [length, ssl3CbcDigestRecord, if_pos (by decide)] at is
  contradiction

end Ossl
