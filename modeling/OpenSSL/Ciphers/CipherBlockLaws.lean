import OpenSSL.Ciphers.CipherBlock

/- What one update of a block cipher does with the bytes it holds and those it
   is given, and what the padding of the last block amounts to. -/
namespace Ossl
open List Nat

theorem memcpyBuf_fits {buf bytes : List UInt8} {i : Nat} (fits : i + bytes.length ≤ buf.length) :
    ∃ buf', memcpyBuf buf i bytes = .ok buf' ∧ buf'.length = buf.length ∧
      buf'.take (i + bytes.length) = buf.take i ++ bytes := by
  have kept : (buf.take i).length = i := length_take_of_le (by omega)
  refine ⟨buf.take i ++ bytes ++ buf.drop (i + bytes.length), if_pos fits, ?_, ?_⟩
  · simp only [length_append, kept, length_drop]
    omega
  · exact take_left' (by rw [length_append, kept])

theorem wholeBlocks_eq {n k : Nat} : wholeBlocks n (2 ^ k) = n / 2 ^ k * 2 ^ k := by
  apply eq_of_testBit_eq
  intro i
  unfold wholeBlocks
  rw [testBit_ldiff, testBit_two_pow_sub_one, testBit_mul_two_pow,
    testBit_div_two_pow]
  by_cases low : i < k
  · simp [low]
  · have high : k ≤ i := by omega
    simp [low, high]

/-- How many of n bytes are written out: all whole blocks, or all but the last
    block, whole or not, when it is held back. -/
def emitted (hold : Bool) (blksz n : Nat) : Nat :=
  if hold then (n - 1) / blksz * blksz else n / blksz * blksz

section Emitted
variable {hold : Bool} {blksz : Nat}

theorem emitted_le (n : Nat) : emitted hold blksz n ≤ n := by
  unfold emitted
  split
  · exact (div_mul_le_self _ _).trans (sub_le n 1)
  · exact div_mul_le_self _ _

theorem dvd_emitted (n : Nat) : blksz ∣ emitted hold blksz n := by
  unfold emitted
  split <;> exact dvd_mul_left _ _

theorem emitted_rest (positive : 0 < blksz) (n : Nat) : n - emitted hold blksz n ≤ blksz := by
  unfold emitted
  split
  · have := div_add_mod' (n - 1) blksz
    have := mod_lt (n - 1) positive
    omega
  · have := div_add_mod' n blksz
    have := mod_lt n positive
    omega

theorem emitted_rest_free (n : Nat) :
    n - emitted false blksz n = n % blksz := by
  have := div_add_mod' n blksz
  unfold emitted
  simp only [Bool.false_eq_true, if_false]
  omega

variable {n : Nat}

theorem emitted_small (small : n < blksz ∨ hold = true ∧ n = blksz) : emitted hold blksz n = 0 := by
  unfold emitted
  rcases small with less | ⟨rfl, rfl⟩
  · rw [div_eq_of_lt less, div_eq_of_lt (by omega)]
    simp
  · rw [if_pos rfl]
    rcases Nat.eq_zero_or_pos n with zero | positive
    · rw [zero, mul_zero]
    · rw [div_eq_of_lt (by omega), zero_mul]

/-- Whole blocks in front are all written out, if bytes follow that may be held. -/
theorem emitted_add {m : Nat} (positive : 0 < blksz) (whole : blksz ∣ m)
    (follows : 0 < n ∨ hold = false ∨ m = 0) :
    emitted hold blksz (m + n) = m + emitted hold blksz n := by
  obtain ⟨q, rfl⟩ := whole
  unfold emitted
  cases hold with
  | false =>
    simp only [Bool.false_eq_true, if_false]
    rw [mul_add_div positive, add_mul, mul_comm q]
  | true =>
    simp only [if_true]
    rcases follows with some_ | never | none_
    · rw [Nat.add_sub_assoc (by omega), Nat.mul_add_div positive, add_mul, mul_comm q]
    · cases never
    · rw [none_, zero_add, zero_add]

end Emitted

/-- A mode that works on whole blocks with a chaining state. -/
structure HwChains {σ : Type} (hw : HwCipher σ) (enc : Bool) (blksz : Nat) : Prop where
  nothing : ∀ s, hw enc s [] = some ([], s)
  whole : ∀ s input, blksz ∣ input.length →
    ∃ out s', hw enc s input = some (out, s') ∧ out.length = input.length
  chain : ∀ s first second out s', blksz ∣ first.length → blksz ∣ second.length →
    hw enc s first = some (out, s') →
    hw enc s (first ++ second) = (hw enc s' second).map fun r => (out ++ r.1, r.2)

section Updates
variable {σ : Type} {hw : HwCipher σ}

/-- What keeps through the updates of a context: its flags and the size of its buffer. -/
structure ProvCipherCtx.Like (ctx ctx' : ProvCipherCtx σ) : Prop where
  keySet : ctx'.keySet = ctx.keySet
  enc : ctx'.enc = ctx.enc
  pad : ctx'.pad = ctx.pad
  blocksize : ctx'.blocksize = ctx.blocksize
  cells : ctx'.buf.length = ctx.buf.length

def ProvCipherCtx.holds (ctx : ProvCipherCtx σ) : Bool := !ctx.enc && ctx.pad

def ProvCipherCtx.held (ctx : ProvCipherCtx σ) : List UInt8 := ctx.buf.take ctx.bufsz

/-- What an update makes of the bytes: it writes out the first of them and holds the rest. -/
structure ProvCipherCtx.Turns (hw : HwCipher σ) (ctx ctx' : ProvCipherCtx σ)
    (bytes out : List UInt8) : Prop where
  like : ctx.Like ctx'
  output : hw ctx.enc ctx.chain (bytes.take (emitted ctx.holds ctx.blocksize bytes.length)) =
    some (out, ctx'.chain)
  length : out.length = emitted ctx.holds ctx.blocksize bytes.length
  bufsz : ctx'.bufsz = bytes.length - emitted ctx.holds ctx.blocksize bytes.length
  held : ctx'.held = bytes.drop (emitted ctx.holds ctx.blocksize bytes.length)

theorem trailingdata_keeps {buf input : List UInt8} {bufsz blksz : Nat}
    (fits : bufsz + input.length ≤ blksz) (cells : blksz ≤ buf.length) :
    ∃ buf', trailingdata buf bufsz blksz input = .ok (buf', bufsz + input.length, []) ∧
      buf'.length = buf.length ∧
      buf'.take (bufsz + input.length) = buf.take bufsz ++ input := by
  unfold trailingdata
  by_cases empty : input.length = 0
  · have nil : input = [] := length_eq_zero_iff.mp empty
    subst nil
    exact ⟨buf, rfl, rfl, by simp⟩
  · obtain ⟨buf', copy, length, bytes⟩ := memcpyBuf_fits (fits.trans cells)
    rw [if_neg empty, if_neg (by omega), copy]
    exact ⟨buf', rfl, length, bytes⟩

variable {ctx : ProvCipherCtx σ}

theorem updateNext_emits {outsize outlint inl : Nat} (positive : 0 < ctx.blocksize)
    (room : outlint + emitted ctx.holds ctx.blocksize inl ≤ outsize) :
    updateNext ctx outsize outlint (inl / ctx.blocksize * ctx.blocksize) inl =
      .ok (emitted ctx.holds ctx.blocksize inl) := by
  have least := div_mul_le_self inl ctx.blocksize
  have rest := div_add_mod' inl ctx.blocksize
  have size := mod_lt inl positive
  generalize whole : inl / ctx.blocksize * ctx.blocksize = w at least rest
  unfold updateNext
  by_cases some_ : w > 0
  · rw [if_pos some_]
    have dvd : ctx.blocksize ∣ w := whole ▸ dvd_mul_left _ _
    have block : ctx.blocksize ≤ w := le_of_dvd some_ dvd
    by_cases held : ¬ctx.enc = true ∧ ctx.pad = true ∧ w = inl
    · have all : emitted ctx.holds ctx.blocksize inl = w - ctx.blocksize := by
        have holds : ctx.holds = true := by simp [ProvCipherCtx.holds, held.1, held.2.1]
        obtain ⟨q, product⟩ := dvd
        have least_block : (inl - 1) / ctx.blocksize = q - 1 := by
          obtain ⟨p, rfl⟩ := exists_eq_succ_of_ne_zero (by rintro rfl; omega : q ≠ 0)
          have last : inl - 1 = ctx.blocksize * p + (ctx.blocksize - 1) := by
            rw [← held.2.2, product, mul_succ]
            omega
          rw [last, mul_add_div positive, div_eq_of_lt (by omega)]
          simp
        unfold emitted
        rw [holds, if_pos rfl, least_block, product, Nat.sub_mul, Nat.one_mul, Nat.mul_comm]
      rw [all] at room ⊢
      rw [if_neg (by omega), if_pos held, if_neg (by omega)]
    · have all : emitted ctx.holds ctx.blocksize inl = w := by
        unfold emitted
        split
        · rename_i holds
          have flags : ¬ctx.enc = true ∧ ctx.pad = true := by
            simpa [ProvCipherCtx.holds] using holds
          have short : w ≠ inl := fun same => held ⟨flags.1, flags.2, same⟩
          have same : (inl - 1) / ctx.blocksize = inl / ctx.blocksize := by
            have first : inl = ctx.blocksize * (inl / ctx.blocksize) + inl % ctx.blocksize :=
              (div_add_mod _ _).symm
            have last : inl - 1 =
                ctx.blocksize * (inl / ctx.blocksize) + (inl % ctx.blocksize - 1) := by omega
            rw [last, mul_add_div positive,
              div_eq_of_lt (by omega : inl % ctx.blocksize - 1 < ctx.blocksize), add_zero]
          rw [same, whole]
        · exact whole
      rw [all] at room ⊢
      rw [if_neg (fun both => held both.1), if_neg held, if_neg (by omega)]
  · have zero : w = 0 := by omega
    have none_ : emitted ctx.holds ctx.blocksize inl = 0 := emitted_small (.inl (by omega))
    rw [if_neg some_, none_, zero]

/-- With nothing in the buffer the input decides what is written out. -/
theorem updateBlocks_turns {ctx : ProvCipherCtx σ} {k outsize outlint : Nat} {input : List UInt8}
    (chains : HwChains hw ctx.enc ctx.blocksize) (power : ctx.blocksize = 2 ^ k)
    (cells : ctx.blocksize ≤ ctx.buf.length) (empty : ctx.bufsz = 0)
    (room : outlint + emitted ctx.holds ctx.blocksize input.length ≤ outsize) :
    ∃ ctx' out, updateBlocks hw ctx outsize outlint input
        (wholeBlocks input.length ctx.blocksize) = .ok (ctx', out) ∧
      ctx.Turns hw ctx' input out := by
  have positive : 0 < ctx.blocksize := by
    rw [power]
    exact Nat.two_pow_pos k
  have whole : wholeBlocks input.length ctx.blocksize =
      input.length / ctx.blocksize * ctx.blocksize := by
    rw [power]
    exact wholeBlocks_eq
  have next : updateNext ctx outsize outlint (wholeBlocks input.length ctx.blocksize)
      input.length = .ok (emitted ctx.holds ctx.blocksize input.length) := by
    rw [whole]
    exact updateNext_emits positive room
  generalize amount : emitted ctx.holds ctx.blocksize input.length = n at next room
  have few : n ≤ input.length := amount ▸ emitted_le input.length
  have dvd : ctx.blocksize ∣ n := amount ▸ dvd_emitted input.length
  have rest : input.length - n ≤ ctx.blocksize := amount ▸ emitted_rest positive input.length
  have taken : (input.take n).length = n := length_take_of_le few
  obtain ⟨out, chain, call, length⟩ := chains.whole ctx.chain (input.take n) (by rwa [taken])
  have dropped : (input.drop n).length = input.length - n := length_drop
  obtain ⟨buf, trailing, size, bytes⟩ := @trailingdata_keeps ctx.buf (input.drop n) ctx.bufsz
    ctx.blocksize (by rw [empty, dropped]; omega) cells
  refine ⟨{ ctx with chain := chain, buf := buf, bufsz := ctx.bufsz + (input.drop n).length }, out,
    ?_, ⟨rfl, rfl, rfl, rfl, size⟩, ?_, ?_, ?_, ?_⟩
  · unfold updateBlocks
    rw [next]
    simp only [bind, Except.bind, trailing]
    by_cases some_ : n > 0
    · rw [if_pos some_, call]
      rfl
    · have zero : n = 0 := by omega
      rw [zero, take_zero, chains.nothing] at call
      obtain ⟨rfl, rfl⟩ := Prod.mk.inj (Option.some.inj call)
      rw [if_neg some_]
      rfl
  · rw [amount, call]
  · rw [amount, length, taken]
  · rw [amount, ← dropped]
    rw [empty, zero_add]
  · rw [amount]
    show buf.take (ctx.bufsz + (input.drop n).length) = _
    rw [bytes, empty, take_zero, nil_append]

theorem fillblock_fills {buf input : List UInt8} {bufsz k : Nat} (small : bufsz ≤ 2 ^ k)
    (cells : 2 ^ k ≤ buf.length) :
    ∃ buf' n, n = min (2 ^ k - bufsz) input.length ∧
      fillblock buf bufsz (2 ^ k) input =
        .ok (buf', bufsz + n, input.drop n, wholeBlocks (input.drop n).length (2 ^ k)) ∧
      buf'.length = buf.length ∧ buf'.take (bufsz + n) = buf.take bufsz ++ input.take n := by
  have least : (if input.length < 2 ^ k - bufsz then input.length else 2 ^ k - bufsz) =
      min (2 ^ k - bufsz) input.length := by
    split <;> omega
  generalize amount : min (2 ^ k - bufsz) input.length = n at least
  have taken : (input.take n).length = n := length_take_of_le (by omega)
  obtain ⟨buf', copy, length, bytes⟩ := @memcpyBuf_fits buf (input.take n) bufsz (by omega)
  rw [taken] at bytes
  refine ⟨buf', n, rfl, ?_, length, bytes⟩
  unfold fillblock
  have mask : 2 ^ k &&& (2 ^ k - 1) = 0 := by
    rw [and_two_pow_sub_one_eq_mod, mod_self]
  rw [if_neg (not_not.mpr small), if_neg (not_not.mpr ⟨Nat.two_pow_pos k, mask⟩)]
  simp only [least, copy]

/-- A context between updates: the buffer has room for a block, and is full only
    when a block is held back. -/
structure ProvCipherCtx.Ready (ctx : ProvCipherCtx σ) : Prop where
  keySet : ctx.keySet = true
  cells : ctx.blocksize ≤ ctx.buf.length
  small : ctx.bufsz ≤ ctx.blocksize
  free : ctx.holds = false → ctx.bufsz < ctx.blocksize

theorem held_length (ready : ctx.Ready) : ctx.held.length = ctx.bufsz :=
  length_take_of_le (ready.small.trans ready.cells)

/-- An update turns the bytes it holds and those it is given into output and held bytes. -/
theorem blockUpdate_turns {ctx : ProvCipherCtx σ} {k outsize : Nat} {input : List UInt8}
    (chains : HwChains hw ctx.enc ctx.blocksize) (power : ctx.blocksize = 2 ^ k)
    (ready : ctx.Ready)
    (room : emitted ctx.holds ctx.blocksize (ctx.held ++ input).length ≤ outsize) :
    ∃ ctx' out, blockUpdate hw ctx outsize input = .ok (ctx', out) ∧
      ctx.Turns hw ctx' (ctx.held ++ input) out := by
  have positive : 0 < ctx.blocksize := by
    rw [power]
    exact Nat.two_pow_pos k
  have length := held_length ready
  unfold blockUpdate
  rw [if_neg (by simp [ready.keySet])]
  by_cases empty : ctx.bufsz = 0
  · have nothing : ctx.held = [] := by simp [ProvCipherCtx.held, empty]
    have fill : updateFill ctx input =
        .ok (ctx.buf, ctx.bufsz, input, wholeBlocks input.length ctx.blocksize) :=
      if_neg (not_not.mpr empty)
    have flush : updateFlush hw ctx outsize input = .ok (ctx, []) := if_neg (by omega)
    rw [nothing, nil_append] at room ⊢
    obtain ⟨ctx', out, blocks, turns⟩ := @updateBlocks_turns σ hw ctx k outsize 0 input chains
      power ready.cells empty (by omega)
    refine ⟨ctx', out, ?_, turns⟩
    simp only [fill, bind, Except.bind, flush, length_nil, blocks, nil_append]
  · obtain ⟨buf, n, least, fills, size, bytes⟩ :=
      @fillblock_fills ctx.buf input ctx.bufsz k (power ▸ ready.small) (power ▸ ready.cells)
    rw [← power] at fills least
    have fill : updateFill ctx input = _ := (if_pos empty).trans fills
    have small := ready.small
    rw [length_append, length] at room
    simp only [fill, bind, Except.bind]
    generalize state : ({ ctx with buf := buf, bufsz := ctx.bufsz + n } : ProvCipherCtx σ) = filled
    have like : ctx.Like filled := by
      subst state
      exact ⟨rfl, rfl, rfl, rfl, size⟩
    have chain : filled.chain = ctx.chain := by subst state; rfl
    have full : filled.bufsz = ctx.bufsz + n := by subst state; rfl
    have inside : filled.held = ctx.held ++ input.take n := by subst state; exact bytes
    by_cases quiet : input.drop n = [] ∧ (ctx.bufsz + n < ctx.blocksize ∨ ctx.holds = true)
    · obtain ⟨nothing, waits⟩ := quiet
      have all : input.length ≤ n := by simpa using nothing
      have none_ : emitted ctx.holds ctx.blocksize (ctx.held ++ input).length = 0 := by
        apply emitted_small
        rw [length_append, length]
        rcases waits with part | holds
        · exact .inl (by omega)
        · by_cases part : ctx.bufsz + input.length < ctx.blocksize
          · exact .inl part
          · exact .inr ⟨holds, by omega⟩
      have flush : updateFlush hw filled outsize [] = .ok (filled, []) := by
        apply if_neg
        rw [full, like.blocksize, like.enc, like.pad]
        rintro ⟨whole, out⟩
        have holds := waits.resolve_left (by omega)
        simp [ProvCipherCtx.holds] at holds
        simp [holds] at out
      have zero : wholeBlocks 0 ctx.blocksize = 0 := by
        rw [power, wholeBlocks_eq]
        simp
      have blocks : updateBlocks hw filled outsize 0 [] 0 = .ok (filled, []) := rfl
      refine ⟨filled, [], ?_, like, ?_, ?_, ?_, ?_⟩
      · rw [nothing]
        simp only [flush, length_nil, zero, blocks, nil_append]
      · rw [none_, take_zero, chains.nothing, chain]
      · rw [none_, length_nil]
      · rw [none_, full, length_append, length]
        omega
      · rw [none_, drop_zero, inside, take_of_length_le all]
    · have whole : ctx.bufsz + n = ctx.blocksize := by
        by_contra part
        exact quiet ⟨drop_eq_nil_of_le (by omega), .inl (by omega)⟩
      have goes : 0 < (input.drop n).length ∨ ctx.holds = false := by
        by_contra stays
        obtain ⟨nothing, holds⟩ := not_or.mp stays
        exact quiet ⟨length_eq_zero_iff.mp (by omega), .inr (by simpa using holds)⟩
      have split_ : ctx.held ++ input = filled.held ++ input.drop n := by
        rw [inside, append_assoc, take_append_drop]
      have block : filled.held.length = ctx.blocksize := by
        rw [inside, length_append, length, length_take]
        omega
      have total : emitted ctx.holds ctx.blocksize (ctx.held ++ input).length =
          ctx.blocksize + emitted ctx.holds ctx.blocksize (input.drop n).length := by
        rw [split_, length_append, block]
        exact emitted_add positive (dvd_refl _) (goes.imp_right .inl)
      obtain ⟨first, chain', call, wrote⟩ := chains.whole ctx.chain filled.held (by rw [block])
      have flush : updateFlush hw filled outsize (input.drop n) =
          .ok ({ filled with bufsz := 0, chain := chain' }, first) := by
        have asked : filled.bufsz = filled.blocksize ∧
            (filled.enc = true ∨ (input.drop n).length > 0 ∨ ¬filled.pad = true) := by
          rw [full, like.blocksize, like.enc, like.pad]
          refine ⟨whole, ?_⟩
          rcases goes with some_ | free
          · exact .inr (.inl some_)
          · by_cases enc : ctx.enc = true
            · exact .inl enc
            · simp [ProvCipherCtx.holds, enc] at free
              simp [free]
        unfold updateFlush
        rw [if_pos asked, like.blocksize,
          if_neg (by rw [length_append, length] at total; omega), like.enc, chain]
        have same : filled.buf.take ctx.blocksize = filled.held := by
          rw [ProvCipherCtx.held, full, whole]
        rw [same, call]
      have laws : HwChains hw filled.enc filled.blocksize := by
        rw [like.enc, like.blocksize]
        exact chains
      have holds : filled.holds = ctx.holds := by
        unfold ProvCipherCtx.holds
        rw [like.enc, like.pad]
      obtain ⟨ctx', out, blocks, turns⟩ := @updateBlocks_turns σ hw
        { filled with bufsz := 0, chain := chain' } k outsize first.length (input.drop n) laws
        (like.blocksize.trans power) (by rw [like.blocksize, like.cells]; exact ready.cells) rfl
        (by
          show first.length + emitted filled.holds filled.blocksize _ ≤ outsize
          rw [holds, like.blocksize, wrote, block]
          rw [length_append, length] at total
          omega)
      have amount : emitted filled.holds filled.blocksize (input.drop n).length =
          emitted ctx.holds ctx.blocksize (input.drop n).length := by
        rw [holds, like.blocksize]
      have output := turns.output
      have count := turns.length
      have bufsz := turns.bufsz
      have rest := turns.held
      change hw filled.enc chain' ((input.drop n).take (emitted filled.holds filled.blocksize _)) =
        _ at output
      change _ = emitted filled.holds filled.blocksize _ at count
      change _ = _ - emitted filled.holds filled.blocksize _ at bufsz
      change _ = (input.drop n).drop (emitted filled.holds filled.blocksize _) at rest
      rw [amount] at output count bufsz rest
      generalize more : emitted ctx.holds ctx.blocksize (input.drop n).length = e at *
      have few : e ≤ (input.drop n).length := more ▸ emitted_le _
      have dvd : ctx.blocksize ∣ e := more ▸ dvd_emitted _
      refine ⟨ctx', first ++ out, ?_, ?_, ?_, ?_, ?_, ?_⟩
      · have written : updateBlocks hw { filled with bufsz := 0, chain := chain' } outsize
            first.length (input.drop n) (wholeBlocks (input.drop n).length ctx.blocksize) =
            .ok (ctx', out) := by
          rw [← like.blocksize]
          exact blocks
        simp only [flush, written]
      · have kept := turns.like
        exact ⟨kept.keySet.trans like.keySet, kept.enc.trans like.enc, kept.pad.trans like.pad,
          kept.blocksize.trans like.blocksize, kept.cells.trans like.cells⟩
      · have front : (ctx.held ++ input).take (ctx.blocksize + e) =
            filled.held ++ (input.drop n).take e := by
          rw [split_, take_append, block, take_of_length_le (by omega), Nat.add_sub_cancel_left]
        rw [total, front, chains.chain _ _ _ _ _ (by rw [block]) _ call, ← like.enc, output]
        · rfl
        · rwa [length_take_of_le few]
      · rw [total, length_append, wrote, block, count]
      · rw [total, bufsz, split_, length_append, block]
        omega
      · have front : filled.held.drop (ctx.blocksize + e) = [] := drop_eq_nil_of_le (by omega)
        rw [total, rest, split_, drop_append, block, front, nil_append, Nat.add_sub_cancel_left]

end Updates
end Ossl
