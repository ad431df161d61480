import OpenSSL.WpacketSub

/- Programs that write nested sub-packets. -/
namespace Ossl
open Prod List BigEndian Codec RingWindow

inductive WpacketOp where
  | putBytes (val size : Nat)
  | memcpy (src : List UInt8)
  | memset (ch : Int) (len : Nat)
  | setFlags (flags : Nat)
  | startSubPacketLen (lenbytes : Nat)
  | startQuicSubPacketBound (maxLen : Nat)
  | close
  | finish

def applyWpacketOp : WpacketOp → WpacketM Unit
  | .putBytes val size => wpacketPutBytes val size
  | .memcpy src => wpacketMemcpy src
  | .memset ch len => wpacketMemset ch len
  | .setFlags flags => wpacketSetFlags flags
  | .startSubPacketLen lenbytes => wpacketStartSubPacketLen true lenbytes
  | .startQuicSubPacketBound maxLen => wpacketStartQuicSubPacketBound true maxLen
  | .close => wpacketClose
  | .finish => wpacketFinish

def runWpacketOps : List WpacketOp → WpacketM Unit
  | [] => pure ()
  | op :: ops => do
    applyWpacketOp op
    runWpacketOps ops

/- A well-nested program. What a sub-packet holds is a program of its own. -/
inductive WpacketProgram where
  | done
  | putBytes (val size : Nat) (next : WpacketProgram)
  | memcpy (src : List UInt8) (next : WpacketProgram)
  | memset (ch : Int) (len : Nat) (next : WpacketProgram)
  | setFlags (flags : Nat) (next : WpacketProgram)
  | sub (lenbytes : Nat) (body next : WpacketProgram)
  | quicSub (maxLen : Nat) (body next : WpacketProgram)

namespace WpacketProgram

def ops : WpacketProgram → List WpacketOp
  | done => []
  | putBytes val size next => .putBytes val size :: next.ops
  | memcpy src next => .memcpy src :: next.ops
  | memset ch len next => .memset ch len :: next.ops
  | setFlags flags next => .setFlags flags :: next.ops
  | sub lenbytes body next => .startSubPacketLen lenbytes :: (body.ops ++ .close :: next.ops)
  | quicSub maxLen body next =>
    .startQuicSubPacketBound maxLen :: (body.ops ++ .close :: next.ops)

def flagsAfter (flags : Nat) : WpacketProgram → Nat
  | done => flags
  | putBytes _ _ next | memcpy _ next | memset _ _ next | sub _ _ next | quicSub _ _ next =>
    next.flagsAfter flags
  | setFlags flags next => next.flagsAfter flags

def closing (body : WpacketProgram) : Nat := body.flagsAfter 0
def quicClosing (body : WpacketProgram) : Nat := body.flagsAfter wpacketFlagsQuicVlint

def bytes : WpacketProgram → List UInt8
  | done => []
  | putBytes val size next => netBytes size val ++ next.bytes
  | memcpy src next => src ++ next.bytes
  | memset ch len next => replicate len (UInt8.ofInt ch) ++ next.bytes
  | setFlags _ next => next.bytes
  | sub lenbytes body next => wpacketEnclosed lenbytes body.closing body.bytes ++ next.bytes
  | quicSub maxLen body next =>
    wpacketEnclosed (vlintEncodeLen maxLen) body.quicClosing body.bytes ++ next.bytes

def Fits : WpacketProgram → Prop
  | done => True
  | putBytes _ _ next | memcpy _ next | memset _ _ next | setFlags _ next => next.Fits
  | sub lenbytes body next =>
    WpacketFits lenbytes body.closing body.bytes.length ∧ body.Fits ∧ next.Fits
  | quicSub maxLen body next =>
    WpacketFits (vlintEncodeLen maxLen) body.quicClosing body.bytes.length ∧ body.Fits ∧ next.Fits

def Wide : WpacketProgram → Prop
  | done => True
  | putBytes _ _ next | memcpy _ next | memset _ _ next | setFlags _ next => next.Wide
  | sub lenbytes body next => VlintWide lenbytes body.closing ∧ body.Wide ∧ next.Wide
  | quicSub _ body next => body.Wide ∧ next.Wide

end WpacketProgram

theorem runOps_append (xs ys : List WpacketOp) :
    runWpacketOps (xs ++ ys) = runWpacketOps xs >>= fun _ => runWpacketOps ys := by
  induction xs with
  | nil => rfl
  | cons op xs ih =>
    rw [cons_append, runWpacketOps, runWpacketOps, ih, bind_assoc]

theorem reaches_trans {a b c : Wpacket} {out out' : List UInt8} {subs subs' : List WpacketSub}
    (first : WpacketReaches a b out subs) (second : WpacketReaches b c out' subs') :
    WpacketReaches a c out' subs' :=
  { second with kept := wpacketKept_trans first.kept second.kept }

variable {nul pkt pkt' : Wpacket} {sub : WpacketSub} {parents : List WpacketSub}
    {program : WpacketProgram} {len lenbytes : Nat}

theorem close_runs {parent : WpacketSub} (subs : pkt.subs = sub :: parent :: parents)
    (run : (wpacketClose).run pkt = some ((), pkt')) :
    (wpacketInternClose sub (parent :: parents) true).run pkt = some ((), pkt') := by
  rw [StateT.run, wpacketClose, subs] at run
  exact run

variable {field : List UInt8} {flags maxLen : Nat} {op : WpacketOp} {dest : Option Nat} {mem : Bool}

theorem nested_reaches {opened filled closed : Wpacket} {bytes : List UInt8} {flags' : Nat}
    (opening : WpacketReaches pkt opened (wpacketOut pkt ++ field)
      (⟨if field.length = 0 then 0 else pkt.written, field.length, pkt.written + field.length,
        flags⟩ :: sub :: parents))
    (filling : WpacketReaches opened filled (wpacketOut opened ++ bytes)
      (⟨if field.length = 0 then 0 else pkt.written, field.length, pkt.written + field.length,
        flags'⟩ :: sub :: parents)) (wide : VlintWide field.length flags')
    (run : wpacketClose.run filled = some ((), closed)) :
    WpacketReaches filled closed (wpacketOut pkt ++ wpacketEnclosed field.length flags' bytes)
        (sub :: parents) ∧ WpacketFits field.length flags' bytes.length := by
  have out := filling.out
  rw [opening.out, append_assoc] at out
  have length := out_length pkt
  exact close_reaches filling.ready out rfl (by rw [length])
    (fun some => by rw [length]; exact if_neg some) wide (close_runs filling.subs run)

theorem quic_wide {n : Nat} (len : n = vlintEncodeLen maxLen)
    (encodes : vlintEncodeLen maxLen ≠ 0) (flags : Nat) : VlintWide n flags := by
  intro _
  rw [len]
  exact mem_cons_of_mem 0 (vlintEncodeLen_wide encodes)

/-- What a program on the innermost sub-packet puts out, and what it leaves the flags at. -/
theorem program_reaches (ready : WpacketReady pkt) (subs : pkt.subs = sub :: parents)
    (wide : program.Wide) (run : (runWpacketOps program.ops).run pkt = some ((), pkt')) :
    WpacketReaches pkt pkt' (wpacketOut pkt ++ program.bytes)
        ({ sub with flags := program.flagsAfter sub.flags } :: parents) ∧ program.Fits := by
  induction program generalizing pkt pkt' sub parents with
  | done =>
    obtain ⟨_, rfl⟩ := mk.inj (Option.some.inj run)
    exact ⟨⟨ready, (append_nil _).symm, subs, wpacketKept_refl pkt⟩, trivial⟩
  | putBytes val size next ih =>
    obtain ⟨_, mid, first, rest⟩ := runs_bind run
    have put := putBytes_reaches ready first
    obtain ⟨reached, fits⟩ := ih put.ready (put.subs.trans subs) wide rest
    rw [put.out, append_assoc] at reached
    exact ⟨reaches_trans put reached, fits⟩
  | memcpy src next ih =>
    obtain ⟨_, mid, first, rest⟩ := runs_bind run
    have put := memcpy_reaches ready first
    obtain ⟨reached, fits⟩ := ih put.ready (put.subs.trans subs) wide rest
    rw [put.out, append_assoc] at reached
    exact ⟨reaches_trans put reached, fits⟩
  | memset ch len next ih =>
    obtain ⟨_, mid, first, rest⟩ := runs_bind run
    have put := memset_reaches ready first
    obtain ⟨reached, fits⟩ := ih put.ready (put.subs.trans subs) wide rest
    rw [put.out, append_assoc] at reached
    exact ⟨reaches_trans put reached, fits⟩
  | setFlags flags next ih =>
    obtain ⟨_, mid, first, rest⟩ := runs_bind run
    have put := setFlags_reaches ready subs first
    obtain ⟨reached, fits⟩ := ih put.ready put.subs wide rest
    rw [put.out] at reached
    exact ⟨reaches_trans put reached, fits⟩
  | sub lenbytes body next ihBody ihNext =>
    obtain ⟨wideHere, wideBody, wideNext⟩ := wide
    obtain ⟨_, opened, start, inside⟩ := runs_bind run
    obtain ⟨_, filled, fill, rest⟩ := runs_bind (runOps_append _ _ ▸ inside)
    obtain ⟨_, closed, close, after⟩ := runs_bind rest
    obtain ⟨field, rfl, opening⟩ := start_reaches ready start
    rw [subs] at opening
    obtain ⟨filling, fitsBody⟩ := ihBody opening.ready opening.subs wideBody fill
    obtain ⟨reached, fitsHere⟩ := nested_reaches opening filling wideHere close
    obtain ⟨final, fitsNext⟩ := ihNext reached.ready reached.subs wideNext after
    rw [reached.out, append_assoc] at final
    have closing := reaches_trans (reaches_trans opening filling) reached
    exact ⟨reaches_trans closing final, fitsHere, fitsBody, fitsNext⟩
  | quicSub maxLen body next ihBody ihNext =>
    obtain ⟨wideBody, wideNext⟩ := wide
    obtain ⟨_, opened, start, inside⟩ := runs_bind run
    obtain ⟨_, filled, fill, rest⟩ := runs_bind (runOps_append _ _ ▸ inside)
    obtain ⟨_, closed, close, after⟩ := runs_bind rest
    obtain ⟨encodes, field, len, opening⟩ := startQuic_reaches ready start
    rw [subs, ← len] at opening
    obtain ⟨filling, fitsBody⟩ := ihBody opening.ready opening.subs wideBody fill
    obtain ⟨reached, fitsHere⟩ := nested_reaches opening filling (quic_wide len encodes _) close
    obtain ⟨final, fitsNext⟩ := ihNext reached.ready reached.subs wideNext after
    rw [reached.out, append_assoc] at final
    rw [len] at final fitsHere
    have closing := reaches_trans (reaches_trans opening filling) reached
    exact ⟨reaches_trans closing final, fitsHere, fitsBody, fitsNext⟩

/-- Every state a run passes through is ready and has kept what lies beyond its limit. -/
def WpacketSafe (pkt : Wpacket) (ops : List WpacketOp) : Prop :=
  ∀ before, before <+: ops → ∀ mid, (runWpacketOps before).run pkt = some ((), mid) →
    WpacketReady mid ∧ WpacketKept pkt mid

theorem safe_nil (ready : WpacketReady pkt) : WpacketSafe pkt [] := by
  intro before is mid run
  obtain rfl := prefix_nil.mp is
  obtain ⟨_, rfl⟩ := mk.inj (Option.some.inj run)
  exact ⟨ready, wpacketKept_refl pkt⟩

theorem safe_cons {ops : List WpacketOp} (ready : WpacketReady pkt)
    (later : ∀ mid, (applyWpacketOp op).run pkt = some ((), mid) →
      WpacketKept pkt mid ∧ WpacketSafe mid ops) : WpacketSafe pkt (op :: ops) := by
  intro before is mid run
  cases prefix_cons_iff.mp is with
  | inl empty =>
    subst empty
    obtain ⟨_, rfl⟩ := mk.inj (Option.some.inj run)
    exact ⟨ready, wpacketKept_refl pkt⟩
  | inr more =>
    obtain ⟨rest, rfl, is'⟩ := more
    obtain ⟨_, next, first, run'⟩ := runs_bind run
    obtain ⟨kept, safe⟩ := later next first
    obtain ⟨ready', kept'⟩ := safe rest is' mid run'
    exact ⟨ready', wpacketKept_trans kept kept'⟩

theorem safe_append {xs ys : List WpacketOp} (first : WpacketSafe pkt xs)
    (later : ∀ mid, (runWpacketOps xs).run pkt = some ((), mid) → WpacketSafe mid ys) :
    WpacketSafe pkt (xs ++ ys) := by
  intro before is mid run
  cases prefix_or_prefix_of_prefix is (prefix_append xs ys) with
  | inl short => exact first before short mid run
  | inr long =>
    obtain ⟨rest, rfl⟩ := long
    have is' := (prefix_append_right_inj xs).mp is
    obtain ⟨_, next, one, two⟩ := runs_bind (runOps_append _ _ ▸ run)
    have kept := (first xs prefix_rfl next one).2
    obtain ⟨ready', kept'⟩ := later next one rest is' mid two
    exact ⟨ready', wpacketKept_trans kept kept'⟩

theorem program_safe (ready : WpacketReady pkt) (subs : pkt.subs = sub :: parents)
    (wide : program.Wide) : WpacketSafe pkt program.ops := by
  induction program generalizing pkt sub parents with
  | done => exact safe_nil ready
  | putBytes val size next ih =>
    apply safe_cons ready
    intro mid first
    have put := putBytes_reaches ready first
    exact ⟨put.kept, ih put.ready (put.subs.trans subs) wide⟩
  | memcpy src next ih =>
    apply safe_cons ready
    intro mid first
    have put := memcpy_reaches ready first
    exact ⟨put.kept, ih put.ready (put.subs.trans subs) wide⟩
  | memset ch len next ih =>
    apply safe_cons ready
    intro mid first
    have put := memset_reaches ready first
    exact ⟨put.kept, ih put.ready (put.subs.trans subs) wide⟩
  | setFlags flags next ih =>
    apply safe_cons ready
    intro mid first
    have put := setFlags_reaches ready subs first
    exact ⟨put.kept, ih put.ready put.subs wide⟩
  | sub lenbytes body next ihBody ihNext =>
    obtain ⟨wideHere, wideBody, wideNext⟩ := wide
    apply safe_cons ready
    intro opened start
    obtain ⟨field, rfl, opening⟩ := start_reaches ready start
    rw [subs] at opening
    refine ⟨opening.kept, safe_append (ihBody opening.ready opening.subs wideBody) ?_⟩
    intro filled fill
    have filling := (program_reaches opening.ready opening.subs wideBody fill).1
    apply safe_cons filling.ready
    intro closed close
    have reached := (nested_reaches opening filling wideHere close).1
    exact ⟨reached.kept, ihNext reached.ready reached.subs wideNext⟩
  | quicSub maxLen body next ihBody ihNext =>
    obtain ⟨wideBody, wideNext⟩ := wide
    apply safe_cons ready
    intro opened start
    obtain ⟨encodes, field, len, opening⟩ := startQuic_reaches ready start
    rw [subs, ← len] at opening
    refine ⟨opening.kept, safe_append (ihBody opening.ready opening.subs wideBody) ?_⟩
    intro filled fill
    have filling := (program_reaches opening.ready opening.subs wideBody fill).1
    apply safe_cons filling.ready
    intro closed close
    have reached := (nested_reaches opening filling (quic_wide len encodes _) close).1
    exact ⟨reached.kept, ihNext reached.ready reached.subs wideNext⟩

/-- A writer without a buffer that is as far as one that has a buffer. -/
structure WpacketShadow (pkt nul : Wpacket) : Prop where
  buf : nul.buf = .null
  forward : nul.endfirst = false
  curr : nul.curr = pkt.curr
  written : nul.written = pkt.written
  subs : nul.subs = pkt.subs
  maxsize : pkt.maxsize ≤ nul.maxsize
  size : nul.maxsize < 2 ^ 64

theorem allocateBytes_shadow (ready : WpacketReady pkt) (shadow : WpacketShadow pkt nul)
    (run : (wpacketAllocateBytes len).run pkt = some (dest, pkt')) :
    ∃ nul', (wpacketAllocateBytes len).run nul = some (none, nul') ∧ WpacketShadow pkt' nul' := by
  obtain ⟨_, positive, ready', written, _⟩ := allocateBytes_allocated ready run
  obtain ⟨kept, subs⟩ := allocateBytes_kept ready run
  have fits := ready'.fits
  have bound := shadow.maxsize
  have size := shadow.size
  rw [written, kept.maxsize] at fits
  have stacked : pkt.subs.isEmpty = false := by
    obtain ⟨_, _, reserved, _⟩ := runs_bind run
    rw [StateT.run, wpacketReserveBytes] at reserved
    split_ifs at reserved with bad
    simpa using fun empty => bad (.inl (by simp [empty]))
  have free : ¬ subU64 nul.maxsize nul.written < len := by
    rw [shadow.written, subU64_exact size (by omega)]
    omega
  have sum : addU64 pkt.written len = pkt.written + len := addU64_exact (by omega)
  have grow : wpacketGrow nul len = some nul := by
    rw [wpacketGrow, shadow.buf]
  have nowhere : wpacketGetCurr nul = none := by
    rw [wpacketGetCurr, shadow.buf]
  have reserve : (wpacketReserveBytes len).run nul = some (none, nul) := by
    rw [StateT.run, wpacketReserveBytes, shadow.subs, stacked, if_neg (by simpa using positive),
      if_neg free, grow]
    dsimp only
    rw [nowhere]
    rfl
  refine ⟨{ nul with written := addU64 nul.written len, curr := addU64 nul.curr len }, ?_,
    shadow.buf, shadow.forward, ?_, ?_, ?_, ?_, size⟩
  · rw [wpacketAllocateBytes, StateT.run_bind, reserve]
    rfl
  · rw [ready'.curr, shadow.curr, ready.curr, sum, written]
  · rw [shadow.written, sum, written]
  · rw [subs]
    exact shadow.subs
  · rw [kept.maxsize]
    exact bound

theorem fill_shadow (ready : WpacketReady pkt) (shadow : WpacketShadow pkt nul)
    {bytes : List UInt8} (run : (wpacketFill len bytes).run pkt = some (dest, pkt')) :
    ∃ nul', (wpacketFill len bytes).run nul = some (none, nul') ∧ WpacketShadow pkt' nul' := by
  obtain ⟨p, mid, allocated, later⟩ := runs_bind run
  obtain ⟨nul', same, shadow'⟩ := allocateBytes_shadow ready shadow allocated
  obtain ⟨rfl, rfl⟩ := mk.inj (Option.some.inj later)
  refine ⟨nul', ?_, ?_⟩
  · rw [wpacketFill, StateT.run_bind, same]
    rfl
  · cases p with
    | none => exact shadow'
    | some p => exact { shadow' with }

theorem fillOnly_shadow (ready : WpacketReady pkt) (shadow : WpacketShadow pkt nul)
    {bytes : List UInt8}
    (run : (if len = 0 then pure () else do let _ ← wpacketFill len bytes : WpacketM Unit).run pkt =
      some ((), pkt')) :
    ∃ nul', (if len = 0 then pure () else do let _ ← wpacketFill len bytes : WpacketM Unit).run nul =
      some ((), nul') ∧ WpacketShadow pkt' nul' := by
  by_cases empty : len = 0
  · rw [if_pos empty] at run ⊢
    obtain ⟨_, rfl⟩ := mk.inj (Option.some.inj run)
    exact ⟨nul, rfl, shadow⟩
  · rw [if_neg empty] at run ⊢
    obtain ⟨dest, mid, filled, later⟩ := runs_bind run
    obtain ⟨_, rfl⟩ := mk.inj (Option.some.inj later)
    obtain ⟨nul', same, shadow'⟩ := fill_shadow ready shadow filled
    exact ⟨nul', runs_seq same rfl, shadow'⟩

theorem putBytes_shadow (ready : WpacketReady pkt) (shadow : WpacketShadow pkt nul)
    {val size : Nat} (run : (wpacketPutBytes val size).run pkt = some ((), pkt')) :
    ∃ nul', (wpacketPutBytes val size).run nul = some ((), nul') ∧ WpacketShadow pkt' nul' := by
  obtain ⟨_, start, small, rest⟩ := runs_bind run
  obtain ⟨eight, rfl⟩ := guard_passes small
  obtain ⟨dest, mid, filled, later⟩ := runs_bind rest
  obtain ⟨_, rfl⟩ := guard_passes later
  obtain ⟨nul', same, shadow'⟩ := fill_shadow ready shadow filled
  exact ⟨nul', runs_seq (guard_runs eight nul)
    (runs_seq same (guard_runs (.inl rfl) nul')), shadow'⟩

theorem setFlags_shadow (shadow : WpacketShadow pkt nul)
    (run : (wpacketSetFlags flags).run pkt = some ((), pkt')) :
    ∃ nul', (wpacketSetFlags flags).run nul = some ((), nul') ∧ WpacketShadow pkt' nul' := by
  rw [StateT.run, wpacketSetFlags] at run
  split at run
  · contradiction
  · rename_i sub parents subs
    obtain ⟨_, rfl⟩ := mk.inj (Option.some.inj run)
    refine ⟨{ nul with subs := { sub with flags := flags } :: parents }, ?_, shadow.buf,
      shadow.forward, shadow.curr, shadow.written, rfl, shadow.maxsize, shadow.size⟩
    rw [StateT.run, wpacketSetFlags, shadow.subs, subs]

theorem start_shadow (ready : WpacketReady pkt) (shadow : WpacketShadow pkt nul)
    (run : (wpacketStartSubPacketLen mem lenbytes).run pkt = some ((), pkt')) :
    ∃ nul', (wpacketStartSubPacketLen mem lenbytes).run nul = some ((), nul') ∧
      WpacketShadow pkt' nul' := by
  rw [StateT.run, wpacketStartSubPacketLen] at run
  dsimp only at run
  split_ifs at run with empty backward unallocated plain
  · obtain ⟨_, rfl⟩ := mk.inj (Option.some.inj run)
    refine ⟨{ nul with subs := ⟨0, lenbytes, addU64 nul.written lenbytes, 0⟩ :: nul.subs }, ?_,
      shadow.buf, shadow.forward, shadow.curr, shadow.written, ?_, shadow.maxsize, shadow.size⟩
    · rw [StateT.run, wpacketStartSubPacketLen, shadow.subs, if_neg empty,
        if_neg (by simp [shadow.forward]), if_neg unallocated]
      simp only [if_pos plain]
    · simp only [shadow.written, shadow.subs]
  · split at run
    · contradiction
    · rename_i dest grown allocated
      obtain ⟨_, rfl⟩ := mk.inj (Option.some.inj run)
      have opened : WpacketReady { pkt with
          subs := ⟨pkt.written, lenbytes, addU64 pkt.written lenbytes, 0⟩ :: pkt.subs } :=
        { ready with }
      have shadowed : WpacketShadow { pkt with
          subs := ⟨pkt.written, lenbytes, addU64 pkt.written lenbytes, 0⟩ :: pkt.subs }
          { nul with
            subs := ⟨nul.written, lenbytes, addU64 nul.written lenbytes, 0⟩ :: nul.subs } :=
        { shadow with subs := by rw [shadow.written, shadow.subs] }
      obtain ⟨nul', same, shadow'⟩ := allocateBytes_shadow opened shadowed allocated
      refine ⟨nul', ?_, shadow'⟩
      rw [StateT.run, wpacketStartSubPacketLen, shadow.subs, if_neg empty,
        if_neg (by simp [shadow.forward]), if_neg unallocated]
      simp only [if_neg plain]
      rw [← shadow.subs, same]

theorem putLength_data {mid : Wpacket} {packlen : Nat}
    (run : (wpacketPutLength sub packlen).run pkt = some ((), mid)) :
    ∃ data, mid = { pkt with data := data } := by
  rw [StateT.run, wpacketPutLength] at run
  dsimp only at run
  split_ifs at run
  · obtain ⟨_, rfl⟩ := mk.inj (Option.some.inj run)
    exact ⟨_, rfl⟩
  · obtain ⟨_, rfl⟩ := mk.inj (Option.some.inj run)
    exact ⟨_, rfl⟩
  · split at run
    · contradiction
    · obtain ⟨_, rfl⟩ := mk.inj (Option.some.inj run)
      exact ⟨_, rfl⟩

theorem internClose_shadow (forward : pkt.endfirst = false) (shadow : WpacketShadow pkt nul)
    (run : (wpacketInternClose sub parents true).run pkt = some ((), pkt')) :
    ∃ nul', (wpacketInternClose sub parents true).run nul = some ((), nul') ∧
      WpacketShadow pkt' nul' := by
  obtain ⟨written, pkt1, total, rest1⟩ := runs_bind run
  obtain ⟨rfl, rfl⟩ := mk.inj (Option.some.inj total)
  obtain ⟨_, pkt2, allowed, rest2⟩ := runs_bind rest1
  obtain ⟨holds, rfl⟩ := guard_passes allowed
  obtain ⟨sub', pkt3, handled, rest3⟩ := runs_bind rest2
  obtain ⟨_, mid, wrote, last⟩ := runs_bind rest3
  obtain ⟨_, rfl⟩ := mk.inj (Option.some.inj last)
  have closes : ∀ nul3 nul4, (wpacketAbandon sub (subU64 pkt2.written sub.pwritten) true).run nul =
      some (sub', nul3) → (wpacketWriteLength sub' parents
        (subU64 pkt2.written sub.pwritten)).run nul3 = some ((), nul4) →
      (wpacketInternClose sub parents true).run nul = some ((), { nul4 with subs := parents }) := by
    intro nul3 nul4 first second
    have total : wpacketGetTotalWritten.run nul = some (pkt2.written, nul) := by
      rw [← shadow.written]
      rfl
    exact runs_seq total (runs_seq (guard_runs holds nul) (runs_seq first (runs_seq second rfl)))
  have shut : ∀ {pkt nul : Wpacket}, WpacketShadow pkt nul →
      WpacketShadow { pkt with subs := parents } { nul with subs := parents } := fun shadow =>
    { shadow with subs := rfl }
  have abandons : ∃ nul3, (wpacketAbandon sub (subU64 pkt2.written sub.pwritten) true).run nul =
      some (sub', nul3) ∧ WpacketShadow pkt3 nul3 ∧ pkt3.endfirst = false := by
    rw [StateT.run, wpacketAbandon] at handled ⊢
    by_cases abandoned : subU64 pkt2.written sub.pwritten = 0 ∧
        sub.flags &&& wpacketFlagsAbandonOnZeroLength ≠ 0
    · rw [if_pos abandoned] at handled ⊢
      obtain ⟨rfl, rfl⟩ := mk.inj (Option.some.inj handled)
      refine ⟨_, rfl, ?_⟩
      rw [shadow.curr, shadow.written]
      split_ifs
      · exact ⟨{ shadow with curr := rfl, written := rfl },
          forward⟩
      · exact ⟨shadow, forward⟩
    · rw [if_neg abandoned] at handled ⊢
      obtain ⟨rfl, rfl⟩ := mk.inj (Option.some.inj handled)
      exact ⟨nul, rfl, shadow, forward⟩
  obtain ⟨nul3, first, shadow3, forward3⟩ := abandons
  rw [StateT.run, wpacketWriteLength] at wrote
  by_cases field : 0 < sub'.lenbytes
  · rw [if_pos field] at wrote
    refine ⟨_, closes nul3 nul3 first ?_, shut ?_⟩
    · rw [StateT.run, wpacketWriteLength, if_pos field, StateT.run, wpacketPutLength,
        wpacketBuffered, shadow3.buf]
      rfl
    · obtain ⟨data, rfl⟩ := putLength_data wrote
      exact { shadow3 with }
  · rw [if_neg field, if_neg (by simp [forward3])] at wrote
    obtain ⟨_, rfl⟩ := mk.inj (Option.some.inj wrote)
    refine ⟨_, closes nul3 nul3 first ?_, shut shadow3⟩
    rw [StateT.run, wpacketWriteLength, if_neg field, if_neg (by simp [shadow3.forward])]

theorem startQuic_shadow (ready : WpacketReady pkt) (shadow : WpacketShadow pkt nul)
    (run : (wpacketStartQuicSubPacketBound mem maxLen).run pkt = some ((), pkt')) :
    ∃ nul', (wpacketStartQuicSubPacketBound mem maxLen).run nul = some ((), nul') ∧
      WpacketShadow pkt' nul' := by
  obtain ⟨_, pkt1, encodes, rest⟩ := runs_bind run
  obtain ⟨some, rfl⟩ := guard_passes encodes
  obtain ⟨_, mid, started, last⟩ := runs_bind rest
  obtain ⟨_, rfl⟩ := mk.inj (Option.some.inj last)
  obtain ⟨nul', same, shadow'⟩ := start_shadow ready shadow started
  refine ⟨_, runs_seq (guard_runs some nul) (runs_seq same rfl), ?_⟩
  dsimp only
  rw [shadow'.subs]
  cases mid.subs with
  | nil => exact shadow'
  | cons sub parents =>
    exact { shadow' with subs := rfl }

/-- The writer without a buffer follows every operation that succeeds. -/
theorem op_shadow (ready : WpacketReady pkt) (shadow : WpacketShadow pkt nul)
    (run : (applyWpacketOp op).run pkt = some ((), pkt')) :
    ∃ nul', (applyWpacketOp op).run nul = some ((), nul') ∧ WpacketShadow pkt' nul' := by
  cases op with
  | putBytes val size => exact putBytes_shadow ready shadow run
  | memcpy src => exact fillOnly_shadow ready shadow run
  | memset ch len => exact fillOnly_shadow ready shadow run
  | setFlags flags => exact setFlags_shadow shadow run
  | startSubPacketLen lenbytes => exact start_shadow ready shadow run
  | startQuicSubPacketBound maxLen => exact startQuic_shadow ready shadow run
  | close =>
    show ∃ nul', wpacketClose nul = some ((), nul') ∧ WpacketShadow pkt' nul'
    have run : wpacketClose pkt = some ((), pkt') := run
    rw [wpacketClose] at run ⊢
    rw [shadow.subs]
    split at run
    · exact internClose_shadow ready.forward shadow run
    · contradiction
  | finish =>
    show ∃ nul', wpacketFinish nul = some ((), nul') ∧ WpacketShadow pkt' nul'
    have run : wpacketFinish pkt = some ((), pkt') := run
    rw [wpacketFinish] at run ⊢
    rw [shadow.subs]
    split at run
    · exact internClose_shadow ready.forward shadow run
    · contradiction

theorem ops_shadow {ops : List WpacketOp}
    (ready : ∀ before, before <+: ops → ∀ mid, (runWpacketOps before).run pkt = some ((), mid) →
      WpacketReady mid) (shadow : WpacketShadow pkt nul)
    (run : (runWpacketOps ops).run pkt = some ((), pkt')) :
    ∃ nul', (runWpacketOps ops).run nul = some ((), nul') ∧ WpacketShadow pkt' nul' := by
  induction ops generalizing pkt nul with
  | nil =>
    obtain ⟨_, rfl⟩ := mk.inj (Option.some.inj run)
    exact ⟨nul, rfl, shadow⟩
  | cons op ops ih =>
    obtain ⟨_, mid, first, rest⟩ := runs_bind run
    obtain ⟨next, same, shadow'⟩ := op_shadow (ready [] nil_prefix pkt rfl) shadow first
    have later : ∀ before, before <+: ops → ∀ final,
        (runWpacketOps before).run mid = some ((), final) → WpacketReady final := by
      intro before is final run
      apply ready (op :: before) (cons_prefix_cons.mpr ⟨rfl, is⟩) final
      exact runs_seq first run
    obtain ⟨nul', same', shadow''⟩ := ih later shadow' rest
    exact ⟨nul', runs_seq same same', shadow''⟩

inductive WpacketStart where
  | staticLen (data : Nat → UInt8) (len : Nat)
  | bufMem (mem : BufMem) (data : Nat → UInt8)

namespace WpacketStart

def init : WpacketStart → Nat → Option Wpacket
  | staticLen data len, lenbytes => wpacketInitStaticLen true data len lenbytes
  | bufMem mem data, lenbytes => wpacketInitLen true mem data lenbytes

def Valid : WpacketStart → Prop
  | staticLen _ len => len < 2 ^ 64
  | bufMem mem _ => mem.length ≤ mem.max ∧ mem.max < 2 ^ 32

def data : WpacketStart → Nat → UInt8
  | staticLen data _ | bufMem _ data => data

/- The bytes there are before the first call. A BUF_MEM that grows clears those it adds. -/
def Has : WpacketStart → Nat → Prop
  | staticLen _ _, _ => True
  | bufMem mem _, i => i < mem.length

end WpacketStart

def runWpacket (init : Option Wpacket) (ops : List WpacketOp) : Option Wpacket :=
  init.bind fun pkt => ((runWpacketOps ops).run pkt).map snd

theorem maxmaxsize_lt (lenbytes : Nat) : maxmaxsize lenbytes < 2 ^ 64 := by
  have top : maxU64 = 2 ^ 64 - 1 := rfl
  rw [maxmaxsize]
  split_ifs with wide
  · omega
  · have few : lenbytes ∈ [1, 2, 3, 4, 5, 6, 7] := by
      simp only [mem_cons, not_mem_nil, or_false]
      omega
    simp only [mem_cons, not_mem_nil, or_false] at few
    rcases few with rfl | rfl | rfl | rfl | rfl | rfl | rfl <;> decide

theorem internInit_reaches {start : Wpacket} (ready : WpacketReady start)
    (fresh : start.written = 0) (run : wpacketInternInitLen true start lenbytes = some pkt) :
    ∃ field : List UInt8, field.length = lenbytes ∧
      WpacketReaches start pkt field [⟨0, lenbytes, lenbytes, 0⟩] := by
  have bound := ready.size
  rw [wpacketInternInitLen, if_neg Bool.true_eq_false_eq_False] at run
  by_cases plain : lenbytes = 0
  · rw [if_pos plain] at run
    obtain rfl := Option.some.inj run
    rw [plain]
    refine ⟨[], rfl, ⟨ready.forward, ready.buffered, rfl, Nat.zero_le _, bound, ?_⟩, rfl, rfl,
      wpacketKept_same rfl rfl rfl⟩
    intro mem kind
    exact ⟨Nat.zero_le _, (ready.grown mem kind).2⟩
  · rw [if_neg plain] at run
    split at run
    · contradiction
    · rename_i dest grown allocated
      obtain rfl := Option.some.inj run
      have opened : WpacketReady { start with
          curr := 0, written := 0, subs := [⟨0, lenbytes, lenbytes, 0⟩] } :=
        ⟨ready.forward, ready.buffered, rfl, Nat.zero_le _, bound,
          fun mem kind => ⟨Nat.zero_le _, (ready.grown mem kind).2⟩⟩
      obtain ⟨_, _, ready', written, _⟩ := allocateBytes_allocated opened allocated
      obtain ⟨⟨maxsize, longer, outside⟩, subs⟩ := allocateBytes_kept opened allocated
      refine ⟨wpacketOut grown, ?_, ready', rfl, subs, maxsize, longer, outside⟩
      rw [out_length, written]
      exact zero_add _

/-- The writer that a program starts from. -/
theorem init_reaches {start : WpacketStart} (valid : start.Valid)
    (run : start.init lenbytes = some pkt) :
    ∃ field : List UInt8, field.length = lenbytes ∧ ∃ fresh : Wpacket,
      WpacketReaches fresh pkt field [⟨0, lenbytes, lenbytes, 0⟩] ∧ fresh.data = start.data ∧
        ∀ i, start.Has i → ∀ mem, fresh.buf = .buf mem → i < mem.length := by
  have most := maxmaxsize_lt lenbytes
  cases start with
  | staticLen data len =>
    have run : wpacketInitStaticLen true data len lenbytes = some pkt := run
    rw [wpacketInitStaticLen] at run
    by_cases empty : len = 0
    · rw [if_pos empty] at run
      contradiction
    rw [if_neg empty] at run
    have ready : WpacketReady ⟨.staticbuf, data, 0, 0,
        if maxmaxsize lenbytes < len then maxmaxsize lenbytes else len, [], false⟩ := by
      refine ⟨rfl, by simp, rfl, Nat.zero_le _, ?_, ?_⟩
      · split_ifs <;> assumption
      · intro mem kind
        contradiction
    obtain ⟨field, len', reached⟩ := internInit_reaches ready rfl run
    refine ⟨field, len', _, reached, rfl, ?_⟩
    intro i _ mem kind
    contradiction
  | bufMem mem data =>
    have run : wpacketInitLen true mem data lenbytes = some pkt := run
    have ready : WpacketReady ⟨.buf mem, data, 0, 0, maxmaxsize lenbytes, [], false⟩ := by
      refine ⟨rfl, by simp, rfl, Nat.zero_le _, most, ?_⟩
      intro mem' same
      obtain rfl := WpacketBuf.buf.inj same
      exact ⟨Nat.zero_le _, valid⟩
    obtain ⟨field, len', reached⟩ := internInit_reaches ready rfl run
    refine ⟨field, len', _, reached, rfl, ?_⟩
    intro i has mem' same
    obtain rfl := WpacketBuf.buf.inj same
    exact has

theorem finish_runs (subs : pkt.subs = [sub]) (run : wpacketFinish.run pkt = some ((), pkt')) :
    (wpacketInternClose sub [] true).run pkt = some ((), pkt') := by
  rw [StateT.run, wpacketFinish, subs] at run
  exact run

/-- A whole program: what is put out before the outermost sub-packet is finished, and after. -/
theorem whole_reaches (ready : WpacketReady pkt) (out : wpacketOut pkt = field)
    (subs : pkt.subs = [⟨0, field.length, field.length, 0⟩])
    (wideHere : VlintWide field.length program.closing) (wide : program.Wide)
    (run : (runWpacketOps program.ops).run pkt = some ((), pkt')) :
    WpacketReady pkt' ∧ program.Fits ∧ ∀ final, wpacketFinish.run pkt' = some ((), final) →
      WpacketReaches pkt' final (wpacketEnclosed field.length program.closing program.bytes) [] ∧
        WpacketFits field.length program.closing program.bytes.length := by
  obtain ⟨filling, fits⟩ := program_reaches ready subs wide run
  refine ⟨filling.ready, fits, ?_⟩
  intro final finish
  have put := filling.out
  rw [out, ← nil_append (field ++ _)] at put
  exact close_reaches filling.ready put rfl (zero_add _).symm (fun _ => rfl) wideHere
    (finish_runs filling.subs finish)

/-- With a buffer a program that succeeds puts out what was asked for, and the lengths of all bodies
    fit their fields; without one it counts the same. No program writes a byte the buffer has beyond
    the limit. -/
theorem wpacket_writes_nested (start : WpacketStart) (lenbytes : Nat) (program : WpacketProgram)
    (valid : start.Valid) (wideHere : VlintWide lenbytes program.closing) (wide : program.Wide) :
    (∀ before, before <+: program.ops ++ [.finish] → ∀ mid,
      runWpacket (start.init lenbytes) before = some mid →
      ∀ i, mid.maxsize ≤ i → start.Has i → mid.data i = start.data i) ∧
    ∀ pkt, runWpacket (start.init lenbytes) (program.ops ++ [.finish]) = some pkt →
      readCells pkt.data 0 pkt.written = wpacketEnclosed lenbytes program.closing program.bytes ∧
      WpacketFits lenbytes program.closing program.bytes.length ∧ program.Fits ∧
      (lenbytes = 0 → (runWpacket (wpacketInitNull true 0) (program.ops ++ [.finish])).map
        (·.written) = some pkt.written) := by
  have safe : ∀ first, start.init lenbytes = some first →
      WpacketSafe first (program.ops ++ [.finish]) := by
    intro first init
    obtain ⟨field, rfl, fresh, reached, _⟩ := init_reaches valid init
    apply safe_append (program_safe reached.ready reached.subs wide)
    intro mid run
    obtain ⟨ready, _, finishes⟩ :=
      whole_reaches reached.ready reached.out reached.subs wideHere wide run
    apply safe_cons ready
    intro final finish
    have last := (finishes final finish).1
    exact ⟨last.kept, safe_nil last.ready⟩
  constructor
  · intro before is mid run i beyond has
    obtain ⟨first, init, rest⟩ := Option.bind_eq_some_iff.mp run
    obtain ⟨⟨_, _⟩, run', rfl⟩ := Option.map_eq_some_iff.mp rest
    obtain ⟨field, _, fresh, reached, same, there⟩ := init_reaches valid init
    have kept := wpacketKept_trans reached.kept (safe first init before is _ run').2
    rw [← same]
    apply kept.outside
    · rw [← kept.maxsize]
      exact beyond
    · exact there i has
  · intro pkt run
    obtain ⟨first, init, rest⟩ := Option.bind_eq_some_iff.mp run
    obtain ⟨⟨_, _⟩, run', rfl⟩ := Option.map_eq_some_iff.mp rest
    obtain ⟨field, rfl, fresh, reached, _⟩ := init_reaches valid init
    obtain ⟨_, mid, inside, closing⟩ := runs_bind (runOps_append _ _ ▸ run')
    obtain ⟨_, final, finish, last⟩ := runs_bind closing
    obtain ⟨_, rfl⟩ := mk.inj (Option.some.inj last)
    obtain ⟨_, fits, finishes⟩ :=
      whole_reaches reached.ready reached.out reached.subs wideHere wide inside
    obtain ⟨done, fitsHere⟩ := finishes _ finish
    refine ⟨done.out, fitsHere, fits, ?_⟩
    intro plain
    have stack : first.subs = [⟨0, 0, 0, 0⟩] := by
      rw [reached.subs, plain]
    have shadow : WpacketShadow first
        ⟨.null, fun _ => 0, 0, 0, maxmaxsize 0, [⟨0, 0, 0, 0⟩], false⟩ := by
      have none : first.written = 0 := by
        rw [← out_length, reached.out]
        exact plain
      have room := reached.ready.size
      have top : maxmaxsize 0 = 2 ^ 64 - 1 := rfl
      refine ⟨rfl, rfl, ?_, none.symm, stack.symm, ?_, maxmaxsize_lt 0⟩
      · rw [reached.ready.curr]
        exact none.symm
      · dsimp only
        omega
    obtain ⟨nul, counted, shadowed⟩ := ops_shadow
      (fun before is mid run => (safe first init before is mid run).1) shadow run'
    have null : wpacketInitNull true 0 =
        some ⟨.null, fun _ => 0, 0, 0, maxmaxsize 0, [⟨0, 0, 0, 0⟩], false⟩ := rfl
    rw [runWpacket, null, Option.bind_some, counted]
    exact congrArg some shadowed.written

def sampleProgram : WpacketProgram :=
  .putBytes 0x16 1 (.sub 2 (.memcpy [1, 2] (.quicSub 63 (.memset 7 3 .done)
    (.sub 4 (.setFlags wpacketFlagsAbandonOnZeroLength .done) (.putBytes 0x304 2 .done)))) .done)

theorem wpacket_writes_nested_sample :
    (runWpacket ((WpacketStart.staticLen (fun _ => 0xff) 64).init 0)
      (sampleProgram.ops ++ [.finish])).isSome ∧
    ∀ pkt, runWpacket ((WpacketStart.staticLen (fun _ => 0xff) 64).init 0)
        (sampleProgram.ops ++ [.finish]) = some pkt →
      readCells pkt.data 0 pkt.written = [0x16, 0, 8, 1, 2, 3, 7, 7, 7, 3, 4] := by
  constructor
  · decide +kernel
  · intro pkt run
    have short : (WpacketStart.staticLen (fun _ => 0xff) 64).Valid := by
      show 64 < 2 ^ 64
      decide
    have wide : sampleProgram.Wide := ⟨by decide, ⟨trivial, by decide, trivial, trivial⟩, trivial⟩
    have whole := wpacket_writes_nested (.staticLen (fun _ => 0xff) 64) 0 sampleProgram short
      (by decide) wide
    exact (whole.2 pkt run).1

/-- A QUIC length on three bytes runs over the limit, a growing BUF_MEM clears what lies beyond it,
    a length of 2^62 passes for one of a byte, and without a buffer no length is checked and no
    outermost one counted. -/
theorem wpacket_nested_limits :
    (runWpacket ((WpacketStart.staticLen (fun _ => 0xff) 3).init 0)
      ((WpacketProgram.sub 3 (.setFlags wpacketFlagsQuicVlint .done) .done).ops ++
        [.finish])).map (fun pkt => (pkt.maxsize, pkt.data 7)) = some (3, 0) ∧
    (runWpacket ((WpacketStart.bufMem ⟨200, 200, [true]⟩ (fun _ => 0xff)).init 1)
      ((WpacketProgram.memset 1 210 .done).ops ++ [.finish])).map
        (fun pkt => (pkt.maxsize, pkt.data 300)) = some (256, 0) ∧
    (runWpacket ((WpacketStart.staticLen (fun _ => 0xff) (2 ^ 63)).init 0)
      ((WpacketProgram.quicSub 0 (.memset 1 (2 ^ 62) .done) .done).ops ++ [.finish])).map
        (·.written) = some (2 ^ 62 + 1) ∧
    (runWpacket (wpacketInitNull true 0)
      ((WpacketProgram.sub 1 (.memset 1 256 .done) .done).ops ++ [.finish])).map
        (·.written) = some 257 ∧
    (runWpacket ((WpacketStart.staticLen (fun _ => 0xff) 64).init 2)
      ((WpacketProgram.putBytes 1 1 .done).ops ++ [.finish])).map (·.written) = some 3 ∧
    (runWpacket (wpacketInitNull true 2)
      ((WpacketProgram.putBytes 1 1 .done).ops ++ [.finish])).map (·.written) = some 1 := by
  refine ⟨?_, ?_, ?_, ?_, ?_, ?_⟩ <;> decide +kernel

end Ossl
