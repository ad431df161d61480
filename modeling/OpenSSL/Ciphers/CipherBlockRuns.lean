import OpenSSL.Ciphers.CipherBlockLaws

/- Runs of updates and the final call. What a run writes and whether it fails is
   a function of the joined input, and decryption undoes encryption. -/
namespace Ossl
open Prod Option Nat List

/-- The input with the padding of its last block. -/
def pkcs7 (blksz : Nat) (bytes : List UInt8) : List UInt8 :=
  let n := blksz - bytes.length % blksz
  bytes ++ replicate n (UInt8.ofNat n)

def pkcs7Unpad (blksz : Nat) (bytes : List UInt8) : Option (List UInt8) :=
  let plain := bytes.take (bytes.length - (bytes.getLastD 0).toNat)
  if bytes = pkcs7 blksz plain then some plain else none

section Padding
variable {blksz : Nat}

theorem pad_size (positive : 0 < blksz) (bytes : List UInt8) :
    0 < blksz - bytes.length % blksz ∧ blksz - bytes.length % blksz ≤ blksz := by
  have := mod_lt bytes.length positive
  omega

theorem pkcs7_length (bytes : List UInt8) :
    (pkcs7 blksz bytes).length = bytes.length + (blksz - bytes.length % blksz) := by
  simp [pkcs7]

theorem dvd_pkcs7 (positive : 0 < blksz) (bytes : List UInt8) :
    blksz ∣ (pkcs7 blksz bytes).length := by
  have size := mod_lt bytes.length positive
  have whole := div_add_mod bytes.length blksz
  rw [pkcs7_length]
  refine ⟨bytes.length / blksz + 1, ?_⟩
  rw [mul_add, mul_one]
  omega

variable {front : List UInt8}

theorem pkcs7_append (whole : blksz ∣ front.length) (bytes : List UInt8) :
    pkcs7 blksz (front ++ bytes) = front ++ pkcs7 blksz bytes := by
  obtain ⟨q, product⟩ := whole
  simp [pkcs7, product]

theorem pkcs7_last (positive : 0 < blksz) (small : blksz < 256) (plain : List UInt8) :
    ((pkcs7 blksz plain).getLastD 0).toNat = blksz - plain.length % blksz := by
  obtain ⟨some_, few⟩ := pad_size positive plain
  unfold pkcs7
  generalize blksz - plain.length % blksz = n at some_ few
  obtain ⟨m, rfl⟩ := exists_eq_succ_of_ne_zero (by omega : n ≠ 0)
  simp [replicate_succ', ← append_assoc]
  omega

theorem pkcs7Unpad_iff (positive : 0 < blksz) (small : blksz < 256) {bytes plain : List UInt8} :
    pkcs7Unpad blksz bytes = some plain ↔ bytes = pkcs7 blksz plain := by
  unfold pkcs7Unpad
  constructor
  · intro unpad
    dsimp only at unpad
    split at unpad
    · rename_i padded
      exact some.inj unpad ▸ padded
    · cases unpad
  · rintro rfl
    have last := pkcs7_last positive small plain
    have front : (pkcs7 blksz plain).take
        ((pkcs7 blksz plain).length - ((pkcs7 blksz plain).getLastD 0).toNat) = plain := by
      rw [last, pkcs7_length, Nat.add_sub_cancel]
      exact take_left' rfl
    rw [front, if_pos rfl]

/-- Whole blocks in front of the last one play no part in its padding. -/
theorem pkcs7Unpad_append (positive : 0 < blksz) (small : blksz < 256) {last : List UInt8}
    (whole : blksz ∣ front.length) (block : last.length = blksz) :
    pkcs7Unpad blksz (front ++ last) = (pkcs7Unpad blksz last).map (front ++ ·) := by
  cases unpad : pkcs7Unpad blksz last with
  | some plain =>
    apply (pkcs7Unpad_iff positive small).mpr
    rw [(pkcs7Unpad_iff positive small).mp unpad]
    exact (pkcs7_append whole plain).symm
  | none =>
    cases unpad' : pkcs7Unpad blksz (front ++ last) with
    | none => rfl
    | some plain =>
      have padded := (pkcs7Unpad_iff positive small).mp unpad'
      have size := congrArg length padded
      rw [pkcs7_length, length_append, block] at size
      have split_ : plain = front ++ plain.drop front.length := by
        have start : (front ++ last).take front.length = front := take_left
        rw [padded, pkcs7, take_append_of_le_length (by omega)] at start
        conv_lhs => rw [← take_append_drop front.length plain, start]
      rw [split_, pkcs7_append whole] at padded
      rw [(pkcs7Unpad_iff positive small).mpr (append_cancel_left padded)] at unpad
      cases unpad

theorem unpadLoop_eq {buf : List UInt8} {pad left len : Nat} (few : left ≤ len) :
    unpadLoop buf pad left len =
      if ∀ i, len - left ≤ i → i < len → (buf.getD i 0).toNat = pad then some (len - left)
      else none := by
  induction left generalizing len with
  | zero =>
    rw [if_pos (fun i low high => by omega)]
    rfl
  | succ left ih =>
    rw [unpadLoop]
    by_cases last : (buf.getD (len - 1) 0).toNat = pad
    · have split_ : (∀ i, len - (left + 1) ≤ i → i < len → (buf.getD i 0).toNat = pad) ↔
          ∀ i, len - 1 - left ≤ i → i < len - 1 → (buf.getD i 0).toNat = pad := by
        constructor
        · intro all i low high
          exact all i (by omega) (by omega)
        · intro all i low high
          by_cases top : i = len - 1
          · rw [top, last]
          · exact all i (by omega) (by omega)
      rw [if_neg (not_not.mpr last), ih (by omega)]
      simp only [split_]
      rw [Nat.sub_sub, add_comm 1 left]
    · rw [if_pos last, if_neg]
      intro all
      exact last (all (len - 1) (by omega) (by omega))

/-- ossl_cipher_unpadblock takes the padding off a whole block. -/
theorem unpadblock_eq (positive : 0 < blksz) (small : blksz < 256) {block : List UInt8}
    (size : block.length = blksz) :
    unpadblock block blksz blksz = match pkcs7Unpad blksz block with
      | none => .error .badDecrypt
      | some plain => .ok plain.length := by
  have last : block.getLastD 0 = block.getD (blksz - 1) 0 := by
    rw [getLastD_eq_getLast?, getLast?_eq_getElem?, size, getD_eq_getElem?_getD]
  unfold unpadblock
  rw [if_neg (not_not.mpr rfl)]
  generalize value : (block.getD (blksz - 1) 0).toNat = pad
  by_cases range : pad = 0 ∨ pad > blksz
  · rw [if_pos range]
    cases unpad : pkcs7Unpad blksz block with
    | none => rfl
    | some plain =>
      exfalso
      have ending := pkcs7_last positive small plain
      obtain ⟨some_, few⟩ := pad_size positive plain
      rw [← (pkcs7Unpad_iff positive small).mp unpad, last, value] at ending
      omega
  · have front : (block.take (blksz - pad)).length = blksz - pad := length_take_of_le (by omega)
    have ends : (∀ i, blksz - pad ≤ i → i < blksz → (block.getD i 0).toNat = pad) ↔
        block = pkcs7 blksz (block.take (blksz - pad)) := by
      have size' : blksz - (blksz - pad) % blksz = pad := by
        rw [mod_eq_of_lt (by omega)]
        omega
      unfold pkcs7
      rw [front, size']
      constructor
      · intro all
        apply ext_getElem
        · simp
          omega
        · intro i first second
          by_cases low : i < blksz - pad
          · rw [getElem_append_left (by omega), getElem_take]
          · rw [getElem_append_right (by omega), getElem_replicate]
            have byte := all i (by omega) (by omega)
            rw [getD_eq_getElem _ _ first] at byte
            rw [← byte, UInt8.ofNat_toNat]
      · intro padded i low high
        have inside : i < block.length := by omega
        have byte : block[i] = UInt8.ofNat pad := by
          have same := getElem_of_eq padded inside
          rw [same, getElem_append_right (by omega), getElem_replicate]
        rw [getD_eq_getElem _ _ inside, byte]
        simp
        omega
    rw [if_neg range, unpadLoop_eq (by omega)]
    unfold pkcs7Unpad
    rw [last, value, size]
    by_cases all : ∀ i, blksz - pad ≤ i → i < blksz → (block.getD i 0).toNat = pad
    · rw [if_pos all, if_pos (ends.mp all)]
      exact congrArg Except.ok front.symm
    · rw [if_neg all, if_neg (fun padded => all (ends.mpr padded))]

end Padding
section Runs
variable {σ : Type} {hw : HwCipher σ} {enc pad : Bool} {k : Nat} {s : σ}

/-- What the mode writes for whole blocks. -/
def crypt (hw : HwCipher σ) (enc : Bool) (s : σ) (bytes : List UInt8) : List UInt8 :=
  ((hw enc s bytes).map fst).getD []

/-- What a run writes, and its error, for the whole of its input. -/
def blockSpec (hw : HwCipher σ) (enc pad : Bool) (blksz : Nat) (s : σ) (input : List UInt8) :
    List UInt8 × Option CipherError :=
  let whole := input.length / blksz * blksz
  if enc ∧ pad then (crypt hw enc s (pkcs7 blksz input), none)
  else if ¬pad then
    (crypt hw enc s (input.take whole),
      if whole = input.length then none else some .wrongFinalBlockLength)
  else
    let kept := (input.length - 1) / blksz * blksz
    if input.length = 0 ∨ whole ≠ input.length then
      (crypt hw enc s (input.take kept), some .wrongFinalBlockLength)
    else
      match pkcs7Unpad blksz (crypt hw enc s input) with
      | none => (crypt hw enc s (input.take kept), some .badDecrypt)
      | some plain => (plain, none)

/-- Each update has room for what it writes. -/
def SufficientOutsize (hold : Bool) (blksz : Nat) : Nat → List (List UInt8 × Nat) → Prop
  | _, [] => True
  | consumed, (input, outsize) :: calls =>
    emitted hold blksz (consumed + input.length) - emitted hold blksz consumed ≤ outsize ∧
      SufficientOutsize hold blksz (consumed + input.length) calls

/-- The context and the output once the updates have consumed the input. -/
structure Consumed (hw : HwCipher σ) (enc pad : Bool) (blksz : Nat) (s : σ)
    (ctx : ProvCipherCtx σ) (input out : List UInt8) : Prop where
  keySet : ctx.keySet = true
  direction : ctx.enc = enc
  padding : ctx.pad = pad
  blocksize : ctx.blocksize = blksz
  cells : ctx.buf.length = genericBlockSize
  bufsz : ctx.bufsz = input.length - emitted (!enc && pad) blksz input.length
  held : ctx.held = input.drop (emitted (!enc && pad) blksz input.length)
  output : hw enc s (input.take (emitted (!enc && pad) blksz input.length)) = some (out, ctx.chain)

variable {blksz : Nat} {ctx : ProvCipherCtx σ} {input out : List UInt8}

theorem consumed_ready (positive : 0 < blksz) (small : blksz ≤ genericBlockSize)
    (consumed : Consumed hw enc pad blksz s ctx input out) : ctx.Ready := by
  have rest := @emitted_rest (!enc && pad) blksz positive input.length
  refine ⟨consumed.keySet, ?_, ?_, ?_⟩
  · rw [consumed.blocksize, consumed.cells]
    exact small
  · rw [consumed.bufsz, consumed.blocksize]
    exact rest
  · intro free
    have hold : (!enc && pad) = false := by
      rw [← consumed.direction, ← consumed.padding]
      exact free
    rw [consumed.bufsz, consumed.blocksize, hold, emitted_rest_free]
    exact mod_lt _ positive

variable {outsize : Nat}

theorem update_consumes {more : List UInt8} (chains : HwChains hw enc (2 ^ k))
    (small : 2 ^ k ≤ genericBlockSize) (consumed : Consumed hw enc pad (2 ^ k) s ctx input out)
    (room : emitted (!enc && pad) (2 ^ k) (input.length + more.length) -
      emitted (!enc && pad) (2 ^ k) input.length ≤ outsize) :
    ∃ ctx' out', blockUpdate hw ctx outsize more = .ok (ctx', out') ∧
      Consumed hw enc pad (2 ^ k) s ctx' (input ++ more) (out ++ out') := by
  have positive : 0 < 2 ^ k := Nat.two_pow_pos k
  have ready := consumed_ready positive small consumed
  have holds : ctx.holds = (!enc && pad) := by
    rw [← consumed.direction, ← consumed.padding]
    rfl
  have laws : HwChains hw ctx.enc ctx.blocksize := by
    rw [consumed.direction, consumed.blocksize]
    exact chains
  have few := @emitted_le (!enc && pad) (2 ^ k) input.length
  have dvd := @dvd_emitted (!enc && pad) (2 ^ k) input.length
  have output := consumed.output
  have held := consumed.held
  generalize hold : (!enc && pad) = h at *
  generalize done : emitted h (2 ^ k) input.length = e at *
  have length : (ctx.held ++ more).length = input.length - e + more.length := by
    rw [held, length_append, length_drop]
  have total : emitted h (2 ^ k) (input.length + more.length) =
      e + emitted h (2 ^ k) (ctx.held ++ more).length := by
    have parts : input.length + more.length = e + (ctx.held ++ more).length := by omega
    rw [parts]
    apply emitted_add positive dvd
    by_cases empty : (ctx.held ++ more).length = 0
    · right
      cases h with
      | false => exact .inl rfl
      | true =>
        right
        have last : emitted true (2 ^ k) input.length ≤ input.length - 1 := by
          unfold emitted
          rw [if_pos rfl]
          exact div_mul_le_self _ _
        omega
    · exact .inl (by omega)
  obtain ⟨ctx', out', call, turns⟩ := @blockUpdate_turns σ hw ctx k outsize more laws
    consumed.blocksize ready (by rw [holds, consumed.blocksize]; omega)
  obtain ⟨like, wrote, _, bufsz, held'⟩ := turns
  rw [holds, consumed.blocksize] at wrote bufsz held'
  rw [consumed.direction] at wrote
  generalize next : emitted h (2 ^ k) (ctx.held ++ more).length = e' at *
  have few' : e' ≤ (ctx.held ++ more).length := next ▸ emitted_le _
  have dvd' : 2 ^ k ∣ e' := next ▸ dvd_emitted _
  have joined : input ++ more = input.take e ++ (ctx.held ++ more) := by
    rw [held, ← append_assoc, take_append_drop]
  have taken : (input.take e).length = e := length_take_of_le few
  refine ⟨ctx', out', call, like.keySet.trans consumed.keySet, like.enc.trans consumed.direction,
    like.pad.trans consumed.padding, like.blocksize.trans consumed.blocksize,
    like.cells.trans consumed.cells, ?_, ?_, ?_⟩ <;> rw [hold, length_append, total]
  · rw [bufsz, length]
    omega
  · have back : (input ++ more).drop (e + e') = (ctx.held ++ more).drop e' := by
      rw [joined, ← drop_drop, drop_left' taken]
    rw [held', back]
  · have front : (input ++ more).take (e + e') = input.take e ++ (ctx.held ++ more).take e' := by
      rw [joined, take_append, taken, Nat.add_sub_cancel_left,
        take_of_length_le (by omega : (input.take e).length ≤ e + e')]
    rw [front, chains.chain _ _ _ _ _ (by rwa [taken]) _ output, wrote]
    · rfl
    · rwa [length_take_of_le few']

theorem updates_consume (chains : HwChains hw enc (2 ^ k)) (small : 2 ^ k ≤ genericBlockSize)
    (calls : List (List UInt8 × Nat)) :
    ∀ {ctx : ProvCipherCtx σ} {input out : List UInt8},
      Consumed hw enc pad (2 ^ k) s ctx input out →
      SufficientOutsize (!enc && pad) (2 ^ k) input.length calls →
      ∃ ctx' out', blockUpdates hw ctx calls = .ok (ctx', out') ∧
        Consumed hw enc pad (2 ^ k) s ctx' (input ++ (calls.map fst).flatten) (out ++ out') := by
  induction calls with
  | nil =>
    intro ctx input out consumed _
    exact ⟨ctx, [], rfl, by simpa using consumed⟩
  | cons call calls ih =>
    intro ctx input out consumed sufficient
    obtain ⟨ctx', out', update, consumed'⟩ := update_consumes chains small consumed sufficient.1
    obtain ⟨ctx'', out'', rest, consumed''⟩ :=
      ih consumed' (by rw [length_append]; exact sufficient.2)
    refine ⟨ctx'', out' ++ out'', ?_, ?_⟩
    · simp only [blockUpdates, update, rest, bind, Except.bind]
    · simpa using consumed''

theorem crypt_append {first second : List UInt8} {s' : σ} (chains : HwChains hw enc blksz)
    (whole : blksz ∣ first.length) (whole' : blksz ∣ second.length)
    (call : hw enc s first = some (out, s')) :
    crypt hw enc s (first ++ second) = out ++ crypt hw enc s' second := by
  obtain ⟨out', s'', call', _⟩ := chains.whole s' second whole'
  unfold crypt
  rw [chains.chain _ _ _ _ _ whole whole' call, call']
  rfl

/-- A block is held back in full exactly when the input is whole blocks, and some. -/
theorem held_full_iff {blksz n : Nat} (positive : 0 < blksz) :
    n - (n - 1) / blksz * blksz = blksz ↔ ¬(n = 0 ∨ n / blksz * blksz ≠ n) := by
  have before := div_add_mod' (n - 1) blksz
  constructor
  · intro full
    have whole : n = ((n - 1) / blksz + 1) * blksz := by
      rw [add_mul, one_mul]
      omega
    have exactly : n / blksz = (n - 1) / blksz + 1 := by
      conv_lhs => rw [whole]
      exact Nat.mul_div_cancel _ positive
    rintro (zero | part)
    · omega
    · rw [exactly] at part
      exact part whole.symm
  · intro whole
    have dvd : n % blksz = 0 := by
      have := div_add_mod' n blksz
      omega
    have last : (n - 1) % blksz = blksz - 1 := by
      obtain ⟨q, rfl⟩ := dvd_of_mod_eq_zero dvd
      obtain ⟨p, rfl⟩ := exists_eq_succ_of_ne_zero (by rintro rfl; omega : q ≠ 0)
      have parts : blksz * (p + 1) - 1 = blksz * p + (blksz - 1) := by
        rw [mul_add, mul_one]
        omega
      rw [succ_eq_add_one, parts, mul_add_mod, mod_eq_of_lt (by omega)]
    omega

theorem final_finishes (chains : HwChains hw enc (2 ^ k)) (small : 2 ^ k ≤ genericBlockSize)
    (consumed : Consumed hw enc pad (2 ^ k) s ctx input out) (room : 2 ^ k ≤ outsize) :
    (match blockFinal hw ctx outsize with
      | .error e => (out, some e)
      | .ok last => (out ++ last, none)) = blockSpec hw enc pad (2 ^ k) s input := by
  have positive : 0 < 2 ^ k := Nat.two_pow_pos k
  have output := consumed.output
  have bufsz := consumed.bufsz
  have held := consumed.held
  have written :
      crypt hw enc s (input.take (emitted (!enc && pad) (2 ^ k) input.length)) = out := by
    rw [crypt, output]
    rfl
  have few := @emitted_le (!enc && pad) (2 ^ k) input.length
  have dvd := @dvd_emitted (!enc && pad) (2 ^ k) input.length
  have taken : (input.take (emitted (!enc && pad) (2 ^ k) input.length)).length = _ :=
    length_take_of_le few
  have size : out.length = emitted (!enc && pad) (2 ^ k) input.length := by
    obtain ⟨out', s', call, length⟩ := chains.whole s _ (by rwa [taken])
    rw [output] at call
    obtain ⟨rfl, rfl⟩ := mk.inj (some.inj call)
    rw [length, taken]
  unfold blockFinal blockSpec
  dsimp only
  rw [if_neg (by simp [consumed.keySet]), consumed.direction, consumed.padding, consumed.blocksize]
  cases pad with
  | false =>
    have free : (!enc && false) = false := by simp
    rw [free, emitted_rest_free] at bufsz
    rw [free] at written
    have whole := div_add_mod' input.length (2 ^ k)
    have size' := mod_lt input.length positive
    have spec : emitted false (2 ^ k) input.length = input.length / 2 ^ k * 2 ^ k := rfl
    rw [spec] at written
    rw [bufsz]
    by_cases ends : input.length % 2 ^ k = 0
    · have all : input.length / 2 ^ k * 2 ^ k = input.length := by omega
      cases enc <;> simp [ends, all, positive.ne]
      · simp [← written, all]
      · simp [← written, all]
    · have part : ¬input.length / 2 ^ k * 2 ^ k = input.length := by omega
      cases enc <;> simp [ends, part, written, size'.ne]
  | true =>
    have fits : ctx.bufsz ≤ 2 ^ k := by
      rw [bufsz]
      exact emitted_rest positive _
    have joined : input = input.take (emitted (!enc && true) (2 ^ k) input.length) ++ ctx.held := by
      rw [held, take_append_drop]
    have length : ctx.held.length = ctx.bufsz := by
      rw [held, length_drop, bufsz]
    cases enc with
    | true =>
      have hold : (!true && true) = false := rfl
      rw [hold] at bufsz written size taken joined dvd output
      have padded : pkcs7 (2 ^ k) input = input.take (emitted false (2 ^ k) input.length) ++
          (ctx.held ++ replicate (2 ^ k - ctx.bufsz) (UInt8.ofNat (2 ^ k - ctx.bufsz))) := by
        have rest : input.length % 2 ^ k = ctx.bufsz := by
          rw [bufsz]
          exact (emitted_rest_free input.length).symm
        unfold pkcs7
        rw [rest, ← append_assoc]
        exact congrArg (· ++ _) joined
      generalize filler : replicate (2 ^ k - ctx.bufsz) (UInt8.ofNat (2 ^ k - ctx.bufsz)) =
        tail at padded
      have tail_length : tail.length = 2 ^ k - ctx.bufsz := by
        rw [← filler, length_replicate]
      obtain ⟨buf, copy, _, bytes⟩ := @memcpyBuf_fits ctx.buf tail ctx.bufsz
        (by rw [tail_length, consumed.cells]; omega)
      have block : (ctx.held ++ tail).length = 2 ^ k := by
        rw [length_append, length, tail_length]
        omega
      have first : buf.take (2 ^ k) = ctx.held ++ tail := by
        have all : ctx.bufsz + tail.length = 2 ^ k := by omega
        rw [all] at bytes
        exact bytes
      obtain ⟨last, s', call, _⟩ := chains.whole ctx.chain (ctx.held ++ tail) (by rw [block])
      have padding : padblock ctx.buf ctx.bufsz (2 ^ k) = .ok buf := by
        unfold padblock
        rw [filler, copy]
      have total : crypt hw true s (pkcs7 (2 ^ k) input) = out ++ last := by
        rw [padded, crypt_append chains (by rw [taken]; exact dvd) (by rw [block]) output]
        unfold crypt
        rw [call]
        rfl
      simp [padding, bind, Except.bind, not_lt.mpr room, first, call, total]
    | false =>
      have hold : (!false && true) = true := rfl
      have emits : emitted true (2 ^ k) input.length = (input.length - 1) / 2 ^ k * 2 ^ k := rfl
      have full := @held_full_iff (2 ^ k) input.length positive
      rw [hold, emits] at bufsz written size taken joined dvd output
      rw [← bufsz] at full
      by_cases whole : ctx.bufsz = 2 ^ k
      · have block : ctx.held.length = 2 ^ k := length.trans whole
        have same : ctx.buf.take (2 ^ k) = ctx.held := by
          rw [ProvCipherCtx.held, whole]
        obtain ⟨last, s', call, wrote⟩ := chains.whole ctx.chain ctx.held (by rw [block])
        have total : crypt hw false s input = out ++ last := by
          conv_lhs => rw [joined]
          rw [crypt_append chains (by rwa [taken]) (by rw [block]) output]
          unfold crypt
          rw [call]
          rfl
        have below : 2 ^ k < 256 := small.trans_lt (by decide)
        have unpads := unpadblock_eq positive below (wrote.trans block)
        have joins := pkcs7Unpad_append positive below (by rw [size]; exact dvd) (wrote.trans block)
        rw [if_neg (full.mp whole), total, joins]
        cases unpad : pkcs7Unpad (2 ^ k) last with
        | none =>
          rw [unpad] at unpads
          simp [whole, same, call, unpads, bind, Except.bind, written]
        | some plain =>
          rw [unpad] at unpads
          have padded := (pkcs7Unpad_iff positive below).mp unpad
          have start : last.take plain.length = plain := by
            rw [padded]
            exact take_left' rfl
          have short : plain.length ≤ outsize := by
            have := congrArg List.length padded
            rw [pkcs7_length, wrote, block] at this
            omega
          simp [whole, same, call, unpads, bind, Except.bind, start, not_lt.mpr short]
      · have part := not_not.mp (mt full.mpr whole)
        rw [if_pos part]
        simp [whole, written]

theorem fresh_consumed (pad : Bool) (s : σ) (buf : List UInt8) (chains : HwChains hw enc (2 ^ k))
    (cells : buf.length = genericBlockSize) :
    Consumed hw enc pad (2 ^ k) s (.fresh enc pad (2 ^ k) buf s) [] [] := by
  have none_ : emitted (!enc && pad) (2 ^ k) 0 = 0 := le_zero.mp (emitted_le 0)
  refine ⟨rfl, rfl, rfl, rfl, cells, ?_, ?_, ?_⟩
  · simp [none_, ProvCipherCtx.fresh]
  · simp [none_, ProvCipherCtx.fresh, ProvCipherCtx.held]
  · simp [none_, ProvCipherCtx.fresh, chains.nothing]

theorem run_spec {buf : List UInt8} {calls : List (List UInt8 × Nat)} {outsize : Nat}
    (chains : HwChains hw enc (2 ^ k)) (small : 2 ^ k ≤ genericBlockSize)
    (cells : buf.length = genericBlockSize)
    (sufficient : SufficientOutsize (!enc && pad) (2 ^ k) 0 calls) (room : 2 ^ k ≤ outsize) :
    blockRun hw (.fresh enc pad (2 ^ k) buf s) calls outsize =
      blockSpec hw enc pad (2 ^ k) s (calls.map fst).flatten := by
  obtain ⟨ctx', out, updates, consumed⟩ :=
    updates_consume chains small calls (fresh_consumed pad s buf chains cells) sufficient
  unfold blockRun
  rw [updates]
  exact final_finishes chains small consumed room

theorem sufficient_append {hold : Bool} {consumed : Nat} {first rest : List (List UInt8 × Nat)}
    (sufficient : SufficientOutsize hold blksz consumed (first ++ rest)) :
    SufficientOutsize hold blksz consumed first := by
  induction first generalizing consumed with
  | nil => trivial
  | cons call first ih => exact ⟨sufficient.1, ih sufficient.2⟩

theorem spec_error {e : CipherError} (fails : (blockSpec hw enc pad blksz s input).2 = some e) :
    e = .wrongFinalBlockLength ∨ e = .badDecrypt := by
  unfold blockSpec at fails
  dsimp only at fails
  split at fails
  · cases fails
  · split at fails
    · split at fails
      · cases fails
      · exact .inl (some.inj fails).symm
    · split at fails
      · exact .inl (some.inj fails).symm
      · split at fails
        · exact .inr (some.inj fails).symm
        · cases fails

/-- A decryption that expects padding succeeds exactly on what is padded. -/
theorem spec_unpads {plain : List UInt8} (chains : HwChains hw false (2 ^ k))
    (small : 2 ^ k ≤ genericBlockSize) : blockSpec hw false true (2 ^ k) s input = (plain, none) ↔
      2 ^ k ∣ input.length ∧ crypt hw false s input = pkcs7 (2 ^ k) plain := by
  have positive : 0 < 2 ^ k := Nat.two_pow_pos k
  have below : 2 ^ k < 256 := small.trans_lt (by decide)
  have whole : input.length / 2 ^ k * 2 ^ k = input.length ↔ 2 ^ k ∣ input.length := by
    constructor
    · intro all
      exact ⟨input.length / 2 ^ k, by rw [mul_comm]; exact all.symm⟩
    · exact Nat.div_mul_cancel
  unfold blockSpec
  rw [if_neg (by simp), if_neg (by simp)]
  by_cases bad : input.length = 0 ∨ input.length / 2 ^ k * 2 ^ k ≠ input.length
  · rw [if_pos bad]
    constructor
    · intro same
      cases congrArg snd same
    · rintro ⟨dvd, padded⟩
      have none_ : input = [] :=
        length_eq_zero_iff.mp (bad.resolve_right (not_not.mpr (whole.mpr dvd)))
      have empty : crypt hw false s input = [] := by
        rw [none_, crypt, chains.nothing]
        rfl
      have size := congrArg length padded
      rw [empty, pkcs7_length, length_nil] at size
      omega
  · rw [if_neg bad]
    have dvd := whole.mp (not_not.mp (not_or.mp bad).2)
    rw [← pkcs7Unpad_iff positive below]
    cases pkcs7Unpad (2 ^ k) (crypt hw false s input) <;> simp [dvd]

theorem spec_inverts (chains : ∀ enc, HwChains hw enc (2 ^ k)) (small : 2 ^ k ≤ genericBlockSize)
    (inverse : ∀ s bytes, 2 ^ k ∣ bytes.length → crypt hw false s (crypt hw true s bytes) = bytes)
    (whole : pad = true ∨ 2 ^ k ∣ input.length) :
    blockSpec hw false pad (2 ^ k) s (blockSpec hw true pad (2 ^ k) s input).1 = (input, none) := by
  have positive : 0 < 2 ^ k := Nat.two_pow_pos k
  have size : ∀ bytes, 2 ^ k ∣ bytes.length → (crypt hw true s bytes).length = bytes.length := by
    intro bytes dvd
    obtain ⟨out, s', call, length⟩ := (chains true).whole s bytes dvd
    unfold crypt
    rw [call]
    exact length
  cases pad with
  | true =>
    have padded := dvd_pkcs7 positive input
    apply (spec_unpads (chains false) small).mpr
    have sent : (blockSpec hw true true (2 ^ k) s input).1 =
        crypt hw true s (pkcs7 (2 ^ k) input) := rfl
    rw [sent, size _ padded]
    exact ⟨padded, inverse s _ padded⟩
  | false =>
    have dvd := whole.resolve_left (by simp)
    have all := Nat.div_mul_cancel dvd
    have sent : (blockSpec hw true false (2 ^ k) s input).1 = crypt hw true s input := by
      simp [blockSpec, all]
    rw [sent]
    have same : (crypt hw true s input).length / 2 ^ k * 2 ^ k =
        (crypt hw true s input).length := by
      rw [size input dvd, all]
    simp [blockSpec, same, inverse s input dvd]

/-- What a run of updates and the final call writes, and whether it fails,
    depends on the joined input alone. -/
theorem block_cipher_as_one_call (hw : HwCipher σ) (k : Nat) (small : 2 ^ k ≤ genericBlockSize)
    (chains : ∀ enc, HwChains hw enc (2 ^ k)) (enc pad : Bool) (s : σ) (buf : List UInt8)
    (cells : buf.length = genericBlockSize) (calls : List (List UInt8 × Nat)) (outsize : Nat)
    (sufficient : SufficientOutsize (!enc && pad) (2 ^ k) 0 calls) (room : 2 ^ k ≤ outsize) :
    let ctx := ProvCipherCtx.fresh enc pad (2 ^ k) buf s
    let input := (calls.map fst).flatten
    blockRun hw ctx calls outsize = blockSpec hw enc pad (2 ^ k) s input ∧
    (∀ once, input.length ≤ once →
      blockRun hw ctx [(input, once)] outsize = blockRun hw ctx calls outsize) ∧
    (∀ done rest, calls = done ++ rest → ∃ ctx' out,
      blockUpdates hw ctx done = .ok (ctx', out) ∧ ctx'.bufsz ≤ 2 ^ k) ∧
    (∀ e, (blockRun hw ctx calls outsize).2 = some e →
      e = .wrongFinalBlockLength ∨ e = .badDecrypt) ∧
    (enc = false → pad = true → ∀ plain, blockRun hw ctx calls outsize = (plain, none) ↔
      2 ^ k ∣ input.length ∧ crypt hw false s input = pkcs7 (2 ^ k) plain) ∧
    ((∀ s bytes, 2 ^ k ∣ bytes.length → crypt hw false s (crypt hw true s bytes) = bytes) →
      pad = true ∨ 2 ^ k ∣ input.length →
      blockSpec hw false pad (2 ^ k) s (blockSpec hw true pad (2 ^ k) s input).1 =
        (input, none)) := by
  have spec := @run_spec σ hw enc pad k s buf calls outsize (chains enc) small cells sufficient room
  refine ⟨spec, ?_, ?_, ?_, ?_, ?_⟩
  · intro once enough
    have sufficient' : SufficientOutsize (!enc && pad) (2 ^ k) 0
        [((calls.map fst).flatten, once)] := by
      refine ⟨?_, trivial⟩
      have := @emitted_le (!enc && pad) (2 ^ k) (0 + (calls.map fst).flatten.length)
      omega
    rw [spec, run_spec (chains enc) small cells sufficient' room]
    simp
  · intro done rest split_
    subst split_
    obtain ⟨ctx', out, updates, consumed⟩ := updates_consume (chains enc) small done
      (fresh_consumed pad s buf (chains enc) cells) (sufficient_append sufficient)
    refine ⟨ctx', out, updates, ?_⟩
    have ready := consumed_ready (Nat.two_pow_pos k) small consumed
    rw [← consumed.blocksize]
    exact ready.small
  · intro e fails
    rw [spec] at fails
    exact spec_error fails
  · rintro rfl rfl plain
    rw [spec]
    exact spec_unpads (chains false) small
  · exact fun inverse whole => spec_inverts chains small inverse whole

end Runs

/-- The null cipher, which writes what it reads. -/
def nullCipher : HwCipher Unit := fun _ s bytes => some (bytes, s)

theorem nullCipher_chains (enc : Bool) (blksz : Nat) : HwChains nullCipher enc blksz :=
  ⟨fun _ => rfl, fun _ bytes _ => ⟨bytes, (), rfl, rfl⟩, by
    rintro _ first second _ _ _ _ call
    cases call
    rfl⟩

/-- A decryption in four updates, the second of which is empty. -/
theorem block_cipher_as_one_call_split :
    blockRun nullCipher (.fresh false true (2 ^ 2) (replicate 16 0) ())
      [([1, 2, 3], 8), ([], 0), ([4, 5, 6, 7, 8], 8), ([4, 4, 4, 4], 8)] 4 =
        ([1, 2, 3, 4, 5, 6, 7, 8], none) :=
  (block_cipher_as_one_call nullCipher 2 (by decide) (fun enc => nullCipher_chains enc _) false
    true () (replicate 16 0) rfl _ 4 (by simp [SufficientOutsize, emitted])
    (by decide)).1.trans (by decide)

/-- With blocks of 32 bytes the buffer has no room for the 20 bytes of a first
    update, and the one call on all 32 bytes needs none. -/
theorem block_size_32_overruns :
    let ctx := ProvCipherCtx.fresh true false (2 ^ 5) (replicate 16 0) ()
    let first := replicate 20 (1 : UInt8)
    let second := replicate 12 (1 : UInt8)
    (∀ enc, HwChains nullCipher enc (2 ^ 5)) ∧
      blockRun nullCipher ctx [(first, 64), (second, 64)] 32 = ([], some .overrun) ∧
      blockRun nullCipher ctx [(first ++ second, 64)] 32 = (first ++ second, none) :=
  ⟨fun enc => nullCipher_chains enc _, by decide +kernel, by decide +kernel⟩

end Ossl
