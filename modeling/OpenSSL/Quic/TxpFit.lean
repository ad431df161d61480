import OpenSSL.Quic.TxpCrypto

/- How a frame of ssl/quic/quic_txp.c is fitted into the space left of a packet: the longest payload
   whose header, with the length field that the encoder will choose, still fits. -/
namespace Ossl
open List

/- A payload of `n` bytes that the frame may carry: no more than there is, none only where there
   is none, of a length that can be encoded, and within the space with its header. -/
structure LengthFits (spaceLeft origLen baseHdrLen n : Nat) : Prop where
  available : n ≤ origLen
  some_ : 0 < n ∨ origLen = 0
  encodes : n ≤ vlintMax
  room : baseHdrLen + vlintEncodeLen n + n ≤ spaceLeft

def SizesFit (origLen baseHdrLen : Nat) : Prop := baseHdrLen + 8 + min origLen vlintMax < 2 ^ 64

instance (origLen baseHdrLen : Nat) : Decidable (SizesFit origLen baseHdrLen) :=
  inferInstanceAs (Decidable (_ < _))

def chooseFit (fits : List FrameFit) : FrameFit :=
  fits.foldr
    (fun fit chosen => if fit.valid ∧ chosen.payloadLen ≤ fit.payloadLen then fit else chosen)
    ⟨false, 0, 0⟩

theorem determineLen_chooses (spaceLeft origLen baseHdrLen : Nat) :
    determineLen spaceLeft origLen baseHdrLen = chooseFit
      (lengthFields.map fun field => tryLen spaceLeft origLen baseHdrLen field.1 field.2) := by
  simp [determineLen, chooseFit, foldr_map]

variable {fits : List FrameFit}

theorem chooseFit_invalid (none_ : (chooseFit fits).valid = false) :
    ∀ fit ∈ fits, fit.valid = false := by
  induction fits with
  | nil => simp
  | cons first rest ih =>
    by_cases taken : first.valid ∧ (chooseFit rest).payloadLen ≤ first.payloadLen
    · have chosen : chooseFit (first :: rest) = first := if_pos taken
      simp [chosen, taken.1] at none_
    · have passed : chooseFit (first :: rest) = chooseFit rest := if_neg taken
      rw [passed] at none_
      intro fit member
      rcases mem_cons.mp member with rfl | later
      · by_contra valid
        have empty : ∀ rest : List FrameFit, (chooseFit rest).valid = false →
            (chooseFit rest).payloadLen = 0 := by
          intro rest
          induction rest with
          | nil => simp [chooseFit]
          | cons other others more =>
            simp only [chooseFit, foldr_cons] at more ⊢
            split
            · rename_i picked
              simp [picked.1]
            · exact more
        simp [empty rest none_] at taken
        exact valid taken
      · exact ih none_ fit later

theorem chooseFit_valid (some_ : (chooseFit fits).valid = true) : chooseFit fits ∈ fits := by
  induction fits with
  | nil => simp [chooseFit] at some_
  | cons first rest ih =>
    by_cases taken : first.valid ∧ (chooseFit rest).payloadLen ≤ first.payloadLen
    · have chosen : chooseFit (first :: rest) = first := if_pos taken
      simp [chosen]
    · have passed : chooseFit (first :: rest) = chooseFit rest := if_neg taken
      rw [passed] at some_ ⊢
      exact mem_cons_of_mem first (ih some_)

/-- Of the fits in the order of their headers, the choice has the most payload, and of those with
    as much the least header. -/
theorem chooseFit_greatest (ordered : fits.Pairwise fun fit later => fit.hdrLen ≤ later.hdrLen) :
    ∀ fit ∈ fits, fit.valid = true →
      fit.payloadLen ≤ (chooseFit fits).payloadLen ∧
      ((chooseFit fits).payloadLen = fit.payloadLen → (chooseFit fits).hdrLen ≤ fit.hdrLen) := by
  induction fits with
  | nil => simp
  | cons first rest ih =>
    obtain ⟨least, ordered⟩ := pairwise_cons.mp ordered
    intro fit member valid
    by_cases taken : first.valid ∧ (chooseFit rest).payloadLen ≤ first.payloadLen
    · have chosen : chooseFit (first :: rest) = first := if_pos taken
      rw [chosen]
      rcases mem_cons.mp member with rfl | later
      · exact ⟨le_refl _, fun _ => le_refl _⟩
      · exact ⟨le_trans (ih ordered fit later valid).1 taken.2, fun _ => least fit later⟩
    · have passed : chooseFit (first :: rest) = chooseFit rest := if_neg taken
      rw [passed]
      rcases mem_cons.mp member with rfl | later
      · have less : fit.payloadLen < (chooseFit rest).payloadLen := by
          simpa [valid] using taken
        exact ⟨less.le, fun same => absurd same (by omega)⟩
      · exact ih ordered fit later valid

variable {spaceLeft origLen baseHdrLen : Nat}

theorem lengthFields_bounds : ∀ field ∈ lengthFields, field.1 ≤ 8 ∧ field.2 ≤ vlintMax := by decide

variable {field : Nat × Nat}

theorem tryLen_eq (sizes : SizesFit origLen baseHdrLen) (member : field ∈ lengthFields) :
    tryLen spaceLeft origLen baseHdrLen field.1 field.2 =
      ⟨decide (origLen = 0 ∧ baseHdrLen + field.1 ≤ spaceLeft ∨
          0 < min (min origLen field.2) (spaceLeft - (baseHdrLen + field.1))),
        baseHdrLen + field.1, min (min origLen field.2) (spaceLeft - (baseHdrLen + field.1))⟩ := by
  obtain ⟨width, most⟩ := lengthFields_bounds field member
  unfold SizesFit at sizes
  have hdr : addU64 baseHdrLen field.1 = baseHdrLen + field.1 := addU64_exact (by omega)
  have capped : (if field.2 < origLen then field.2 else origLen) = min origLen field.2 := by
    split <;> omega
  have total : addU64 (min origLen field.2) (baseHdrLen + field.1) =
      min origLen field.2 + (baseHdrLen + field.1) := addU64_exact (by omega)
  simp only [tryLen, hdr, capped, total]
  by_cases empty : origLen = 0 ∧ baseHdrLen + field.1 ≤ spaceLeft
  · simp [empty.1, empty.2]
  · have cut : (if spaceLeft < min origLen field.2 + (baseHdrLen + field.1) then
        (if baseHdrLen + field.1 ≤ spaceLeft then spaceLeft - (baseHdrLen + field.1) else 0)
        else min origLen field.2) =
        min (min origLen field.2) (spaceLeft - (baseHdrLen + field.1)) := by
      split_ifs <;> omega
    simp [empty, cut]

theorem tryLen_fits (sizes : SizesFit origLen baseHdrLen) (member : field ∈ lengthFields)
    (valid : (tryLen spaceLeft origLen baseHdrLen field.1 field.2).valid = true) :
    LengthFits spaceLeft origLen baseHdrLen
      (tryLen spaceLeft origLen baseHdrLen field.1 field.2).payloadLen := by
  obtain ⟨width, most⟩ := lengthFields_bounds field member
  rw [tryLen_eq sizes member] at valid ⊢
  simp only [decide_eq_true_eq] at valid ⊢
  have narrow : vlintEncodeLen (min (min origLen field.2) (spaceLeft - (baseHdrLen + field.1))) ≤
      field.1 := vlintEncodeLen_field member (by omega)
  exact ⟨by omega, by omega, by omega, by omega⟩

/-- The field of the size that the encoder gives a payload takes as much. -/
theorem tryLen_reaches (sizes : SizesFit origLen baseHdrLen) {n : Nat}
    (fits : LengthFits spaceLeft origLen baseHdrLen n) :
    ∃ field ∈ lengthFields, field.1 = vlintEncodeLen n ∧
      (tryLen spaceLeft origLen baseHdrLen field.1 field.2).valid = true ∧
      n ≤ (tryLen spaceLeft origLen baseHdrLen field.1 field.2).payloadLen := by
  obtain ⟨available, some_, encodes, room⟩ := fits
  have own : ∃ field ∈ lengthFields, field.1 = vlintEncodeLen n ∧ n ≤ field.2 := by
    unfold vlintMax at encodes
    unfold vlintEncodeLen vlintMax
    split_ifs
    · exact ⟨(1, 2 ^ 6 - 1), by decide, rfl, by dsimp only; omega⟩
    · exact ⟨(2, 2 ^ 14 - 1), by decide, rfl, by dsimp only; omega⟩
    · exact ⟨(4, 2 ^ 30 - 1), by decide, rfl, by dsimp only; omega⟩
    · exact ⟨(8, 2 ^ 62 - 1), by decide, rfl, by dsimp only; omega⟩
  obtain ⟨field, member, width, most⟩ := own
  refine ⟨field, member, width, ?_⟩
  rw [tryLen_eq sizes member, decide_eq_true_eq]
  dsimp only
  omega

theorem fits_ordered (sizes : SizesFit origLen baseHdrLen) :
    (lengthFields.map fun field =>
      tryLen spaceLeft origLen baseHdrLen field.1 field.2).Pairwise
        fun fit later => fit.hdrLen ≤ later.hdrLen := by
  rw [pairwise_map]
  have widths : lengthFields.Pairwise fun field later => field.1 ≤ later.1 := by decide
  refine widths.imp_of_mem fun {field later} member member' order => ?_
  simp only [tryLen_eq sizes member, tryLen_eq sizes member']
  omega

/-- The frame is given the greatest payload that fits, if one does, and the header length is the
    one that this payload will be encoded with. -/
theorem determineLen_optimal (spaceLeft origLen baseHdrLen : Nat)
    (sizes : SizesFit origLen baseHdrLen) :
    ((determineLen spaceLeft origLen baseHdrLen).valid = true ↔
      ∃ n, LengthFits spaceLeft origLen baseHdrLen n) ∧
    ((determineLen spaceLeft origLen baseHdrLen).valid = true →
      IsGreatest {n | LengthFits spaceLeft origLen baseHdrLen n}
        (determineLen spaceLeft origLen baseHdrLen).payloadLen ∧
      (determineLen spaceLeft origLen baseHdrLen).hdrLen =
        baseHdrLen + vlintEncodeLen (determineLen spaceLeft origLen baseHdrLen).payloadLen) := by
  rw [determineLen_chooses]
  have ordered := @fits_ordered spaceLeft origLen baseHdrLen sizes
  have best := chooseFit_greatest ordered
  simp only [forall_mem_map] at best
  have taken : (chooseFit (lengthFields.map fun field =>
      tryLen spaceLeft origLen baseHdrLen field.1 field.2)).valid = true →
      ∃ field ∈ lengthFields, tryLen spaceLeft origLen baseHdrLen field.1 field.2 =
        chooseFit (lengthFields.map fun field =>
          tryLen spaceLeft origLen baseHdrLen field.1 field.2) :=
    fun valid => mem_map.mp (chooseFit_valid valid)
  have refused : (chooseFit (lengthFields.map fun field =>
      tryLen spaceLeft origLen baseHdrLen field.1 field.2)).valid = false →
      ∀ field ∈ lengthFields, (tryLen spaceLeft origLen baseHdrLen field.1 field.2).valid = false :=
    fun none_ => forall_mem_map.mp (chooseFit_invalid none_)
  generalize chooseFit (lengthFields.map fun field =>
    tryLen spaceLeft origLen baseHdrLen field.1 field.2) = chosen at best taken refused ⊢
  refine ⟨⟨fun valid => ?_, fun ⟨n, fits⟩ => ?_⟩, fun valid => ?_⟩
  · obtain ⟨field, member, is⟩ := taken valid
    exact ⟨_, tryLen_fits sizes member (by rw [is]; exact valid)⟩
  · obtain ⟨field, member, _, valid, _⟩ := tryLen_reaches sizes fits
    by_contra none_
    have invalid := refused (Bool.eq_false_of_not_eq_true none_) field member
    rw [valid] at invalid
    contradiction
  · obtain ⟨field, member, is⟩ := taken valid
    have fits : LengthFits spaceLeft origLen baseHdrLen chosen.payloadLen := by
      rw [← is] at valid ⊢
      exact tryLen_fits sizes member valid
    have greatest : ∀ n, LengthFits spaceLeft origLen baseHdrLen n → n ≤ chosen.payloadLen := by
      intro n other
      obtain ⟨own, member', _, valid', reaches⟩ := tryLen_reaches sizes other
      exact Nat.le_trans reaches (best own member' valid').1
    refine ⟨⟨fits, greatest⟩, ?_⟩
    -- the field of the encoder's own size takes as much, so it is not passed for a wider one
    obtain ⟨own, member', width, valid', reaches⟩ := tryLen_reaches sizes fits
    have most := greatest _ (tryLen_fits sizes member' valid')
    have narrow := (best own member' valid').2 (Nat.le_antisymm reaches most)
    have wide := vlintEncodeLen_field (v := chosen.payloadLen) member (by
      rw [← is, tryLen_eq sizes member]
      dsimp only
      omega)
    have hdr : chosen.hdrLen = baseHdrLen + field.1 := by rw [← is, tryLen_eq sizes member]
    rw [tryLen_eq sizes member'] at narrow
    dsimp only at narrow
    omega

theorem determineLen_optimal_64 :
    SizesFit 64 20 ∧ (determineLen 85 64 20).valid = true ∧
      (determineLen 85 64 20).payloadLen = 63 ∧
      (determineLen 85 64 20).hdrLen = 20 + vlintEncodeLen (determineLen 85 64 20).payloadLen :=
  ⟨by decide, by decide, by decide, ((determineLen_optimal 85 64 20 (by decide)).2 (by decide)).2⟩

/-- A length that no field holds is cut to the longest that one does, and the header's length wraps
    around at the end of a size_t. -/
theorem determineLen_unencodable :
    (determineLen (2 ^ 63) (2 ^ 62) 0).payloadLen = 2 ^ 62 - 1 ∧
    ¬ (((determineLen (2 ^ 63) (2 ^ 62) 0).valid = true ↔
        ∃ n, n ≤ 2 ^ 62 ∧ (0 < n ∨ 2 ^ 62 = 0) ∧ 0 + vlintEncodeLen n + n ≤ 2 ^ 63) ∧
      ((determineLen (2 ^ 63) (2 ^ 62) 0).valid = true →
        IsGreatest {n | n ≤ 2 ^ 62 ∧ (0 < n ∨ 2 ^ 62 = 0) ∧ 0 + vlintEncodeLen n + n ≤ 2 ^ 63}
          (determineLen (2 ^ 63) (2 ^ 62) 0).payloadLen ∧
        (determineLen (2 ^ 63) (2 ^ 62) 0).hdrLen =
          0 + vlintEncodeLen (determineLen (2 ^ 63) (2 ^ 62) 0).payloadLen)) ∧
    ((determineLen 10 5 (2 ^ 64 - 1)).valid = true ∧
      ¬ ∃ n, n ≤ 5 ∧ (0 < n ∨ 5 = 0) ∧ 2 ^ 64 - 1 + vlintEncodeLen n + n ≤ 10) := by
  have cut : (determineLen (2 ^ 63) (2 ^ 62) 0).payloadLen = 2 ^ 62 - 1 := by decide
  refine ⟨cut, fun claim => ?_, by decide, fun fit => ?_⟩
  · have greatest := (claim.2 (by decide)).1.2
      (show 2 ^ 62 ∈ _ from ⟨by decide, by decide, by decide⟩)
    rw [cut] at greatest
    exact absurd greatest (by decide)
  · obtain ⟨n, _, _, fits⟩ := fit
    omega

end Ossl
