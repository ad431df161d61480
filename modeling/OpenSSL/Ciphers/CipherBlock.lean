import Mathlib.Data.List.Basic
import Mathlib.Data.Nat.Bitwise
import Mathlib.Tactic.Common

/- Updates of a block cipher: a partial block waits in the buffer of the context, and a decryption
   that expects padding holds its last block back. The mode is hw cipher, which works on whole
   blocks from a chaining state. -/
namespace Ossl

inductive CipherError where
  | noKeySet
  | operationFailed
  | outputBufferTooSmall
  | internalError
  | wrongFinalBlockLength
  | badDecrypt
  | assertion
  | overrun
  | unread
  deriving DecidableEq

def genericBlockSize : Nat := 16

/-- hw cipher: the direction, the chaining state and the input give the output
    and the next state, or a failure. -/
abbrev HwCipher (σ : Type) := Bool → σ → List UInt8 → Option (List UInt8 × σ)

/-- A cipher context outside TLS. The buffer has genericBlockSize cells, of which
    bufsz hold input. -/
structure ProvCipherCtx (σ : Type) where
  keySet : Bool
  enc : Bool
  pad : Bool
  blocksize : Nat
  buf : List UInt8
  bufsz : Nat
  chain : σ

/-- memcpy into the buffer, from cell i on. -/
def memcpyBuf (buf : List UInt8) (i : Nat) (bytes : List UInt8) :
    Except CipherError (List UInt8) :=
  if i + bytes.length ≤ buf.length then
    .ok (buf.take i ++ bytes ++ buf.drop (i + bytes.length))
  else .error .overrun

/-- The largest multiple of the block size up to n, by the mask of the code. -/
def wholeBlocks (n blksz : Nat) : Nat := Nat.ldiff n (blksz - 1)

/-- The buffer and its bytes, what is left of the input, and nextblocks. -/
def fillblock (buf : List UInt8) (bufsz blksz : Nat) (input : List UInt8) :
    Except CipherError (List UInt8 × Nat × List UInt8 × Nat) :=
  if ¬bufsz ≤ blksz then .error .assertion
  else if ¬(0 < blksz ∧ blksz &&& (blksz - 1) = 0) then .error .assertion
  else
    let bufremain := blksz - bufsz
    let bufremain := if input.length < bufremain then input.length else bufremain
    match memcpyBuf buf bufsz (input.take bufremain) with
    | .error e => .error e
    | .ok buf =>
      let input := input.drop bufremain
      .ok (buf, bufsz + bufremain, input, wholeBlocks input.length blksz)

def trailingdata (buf : List UInt8) (bufsz blksz : Nat) (input : List UInt8) :
    Except CipherError (List UInt8 × Nat × List UInt8) :=
  if input.length = 0 then .ok (buf, bufsz, input)
  else if bufsz + input.length > blksz then .error .internalError
  else
    match memcpyBuf buf bufsz input with
    | .error e => .error e
    | .ok buf => .ok (buf, bufsz + input.length, [])

def padblock (buf : List UInt8) (bufsz blksz : Nat) : Except CipherError (List UInt8) :=
  memcpyBuf buf bufsz (List.replicate (blksz - bufsz) (UInt8.ofNat (blksz - bufsz)))

/-- The loop of ossl_cipher_unpadblock, with left rounds to go. -/
def unpadLoop (buf : List UInt8) (pad : Nat) : Nat → Nat → Option Nat
  | 0, len => some len
  | left + 1, len =>
    if (buf.getD (len - 1) 0).toNat ≠ pad then none else unpadLoop buf pad left (len - 1)

def unpadblock (buf : List UInt8) (bufsz blksz : Nat) : Except CipherError Nat :=
  if bufsz ≠ blksz then .error .internalError
  else
    let pad := (buf.getD (blksz - 1) 0).toNat
    if pad = 0 ∨ pad > blksz then .error .badDecrypt
    else
      match unpadLoop buf pad pad bufsz with
      | none => .error .badDecrypt
      | some len => .ok len

section Calls
variable {σ : Type} (hw : HwCipher σ)

/-- The part of an update that fills the buffer. -/
def updateFill (ctx : ProvCipherCtx σ) (input : List UInt8) :
    Except CipherError (List UInt8 × Nat × List UInt8 × Nat) :=
  if ctx.bufsz ≠ 0 then fillblock ctx.buf ctx.bufsz ctx.blocksize input
  else .ok (ctx.buf, ctx.bufsz, input, wholeBlocks input.length ctx.blocksize)

/-- The part of an update that writes out a full buffer. -/
def updateFlush (ctx : ProvCipherCtx σ) (outsize : Nat) (input : List UInt8) :
    Except CipherError (ProvCipherCtx σ × List UInt8) :=
  if ctx.bufsz = ctx.blocksize ∧ (ctx.enc ∨ input.length > 0 ∨ ¬ctx.pad) then
    if outsize < ctx.blocksize then .error .outputBufferTooSmall
    else
      match hw ctx.enc ctx.chain (ctx.buf.take ctx.blocksize) with
      | none => .error .operationFailed
      | some (out, chain) => .ok ({ ctx with bufsz := 0, chain := chain }, out)
  else .ok (ctx, [])

/-- The part of an update that fixes how much of the input is written out. -/
def updateNext (ctx : ProvCipherCtx σ) (outsize outlint nextblocks inl : Nat) :
    Except CipherError Nat :=
  if nextblocks > 0 then
    let held := ¬ctx.enc ∧ ctx.pad ∧ nextblocks = inl
    if held ∧ ¬inl ≥ ctx.blocksize then .error .outputBufferTooSmall
    else
      let nextblocks := if held then nextblocks - ctx.blocksize else nextblocks
      if outsize < outlint + nextblocks then .error .outputBufferTooSmall else .ok nextblocks
  else .ok nextblocks

/-- The part of an update that writes out whole blocks of the input and keeps
    the rest. -/
def updateBlocks (ctx : ProvCipherCtx σ) (outsize outlint : Nat) (input : List UInt8)
    (nextblocks : Nat) : Except CipherError (ProvCipherCtx σ × List UInt8) := do
  let nextblocks ← updateNext ctx outsize outlint nextblocks input.length
  let (chain, out) ←
    if nextblocks > 0 then
      match hw ctx.enc ctx.chain (input.take nextblocks) with
      | none => .error .operationFailed
      | some (out, chain) => .ok (chain, out)
    else .ok (ctx.chain, [])
  let (buf, bufsz, rest) ← trailingdata ctx.buf ctx.bufsz ctx.blocksize (input.drop nextblocks)
  if rest.length = 0 then .ok ({ ctx with chain := chain, buf := buf, bufsz := bufsz }, out)
  else .error .unread

/-- ossl_cipher_generic_block_update outside TLS, with the bytes it writes. -/
def blockUpdate (ctx : ProvCipherCtx σ) (outsize : Nat) (input : List UInt8) :
    Except CipherError (ProvCipherCtx σ × List UInt8) :=
  if ¬ctx.keySet then .error .noKeySet
  else do
    let (buf, bufsz, input, nextblocks) ← updateFill ctx input
    let (ctx, flushed) ← updateFlush hw { ctx with buf := buf, bufsz := bufsz } outsize input
    let (ctx, out) ← updateBlocks hw ctx outsize flushed.length input nextblocks
    .ok (ctx, flushed ++ out)

/-- ossl_cipher_generic_block_final outside TLS, with the bytes it writes. -/
def blockFinal (ctx : ProvCipherCtx σ) (outsize : Nat) : Except CipherError (List UInt8) :=
  let blksz := ctx.blocksize
  if ¬ctx.keySet then .error .noKeySet
  else if ctx.enc then
    if ¬ctx.pad ∧ ctx.bufsz = 0 then .ok []
    else if ¬ctx.pad ∧ ctx.bufsz ≠ blksz then .error .wrongFinalBlockLength
    else do
      let buf ← if ctx.pad then padblock ctx.buf ctx.bufsz blksz else .ok ctx.buf
      if outsize < blksz then .error .outputBufferTooSmall
      else
        match hw ctx.enc ctx.chain (buf.take blksz) with
        | none => .error .operationFailed
        | some (out, _) => .ok out
  else if ctx.bufsz ≠ blksz then
    if ctx.bufsz = 0 ∧ ¬ctx.pad then .ok [] else .error .wrongFinalBlockLength
  else
    match hw ctx.enc ctx.chain (ctx.buf.take blksz) with
    | none => .error .operationFailed
    | some (out, _) => do
      let bufsz ← if ctx.pad then unpadblock out ctx.bufsz blksz else .ok ctx.bufsz
      if outsize < bufsz then .error .outputBufferTooSmall else .ok (out.take bufsz)

/-- A sequence of updates, each with its outsize, and all they write. -/
def blockUpdates (ctx : ProvCipherCtx σ) :
    List (List UInt8 × Nat) → Except CipherError (ProvCipherCtx σ × List UInt8)
  | [] => .ok (ctx, [])
  | (input, outsize) :: calls => do
    let (ctx, out) ← blockUpdate hw ctx outsize input
    let (ctx, more) ← blockUpdates ctx calls
    .ok (ctx, out ++ more)

def blockRun (ctx : ProvCipherCtx σ) (calls : List (List UInt8 × Nat)) (outsize : Nat) :
    List UInt8 × Option CipherError :=
  match blockUpdates hw ctx calls with
  | .error e => ([], some e)
  | .ok (ctx, out) =>
    match blockFinal hw ctx outsize with
    | .error e => (out, some e)
    | .ok last => (out ++ last, none)

end Calls

/-- A context as initialised, with the key set and nothing in the buffer. -/
def ProvCipherCtx.fresh {σ : Type} (enc pad : Bool) (blksz : Nat) (buf : List UInt8) (chain : σ) :
    ProvCipherCtx σ := ⟨true, enc, pad, blksz, buf, 0, chain⟩

end Ossl
