import Mathlib.Data.Nat.Bitwise
import Mathlib.Logic.Function.Basic
import OpenSSL.Lib.CarryChain
import OpenSSL.Bn.Bignum

/- The big numbers of a program, any of which may be the result and an operand at once. -/
namespace Ossl
open List CarryChain

abbrev BnStore := Nat → Bignum

namespace Bignum

def poke (a : Bignum) (i : Nat) (w : UInt64) : Bignum :=
  { a with d := a.d.set i w, fits := by rw [length_set]; exact a.fits }

def withTop (a : Bignum) (top : Nat) : Bignum :=
  if fits : top ≤ a.d.length then { a with top := top, fits := fits } else a

def withNeg (a : Bignum) (neg : Bool) : Bignum := { a with neg := neg }

end Bignum

def bnZero (a : Bignum) : Bignum := { a with top := 0, neg := false, fits := Nat.zero_le _ }

def change (s : BnStore) (r : Nat) (f : Bignum → Bignum) : BnStore := Function.update s r (f (s r))

def word (s : BnStore) (a i : Nat) : UInt64 := (s a).d.getD i 0

def poke (s : BnStore) (r i : Nat) (w : UInt64) : BnStore := change s r fun a => a.poke i w

section Loops
variable {C : Type}

def upLoop (f : UInt64 → UInt64 → C → UInt64 × C) (r a b o : Nat) :
    Nat → Nat → C → BnStore → BnStore × C
  | 0, _, c, s => (s, c)
  | n + 1, i, c, s =>
    let (w, c) := f (word s a (i + o)) (word s b i) c
    upLoop f r a b o n (i + 1) c (poke s r i w)

def downLoop (f : UInt64 → C → UInt64 × C) (r a o : Nat) : Nat → C → BnStore → BnStore × C
  | 0, c, s => (s, c)
  | i + 1, c, s =>
    let (w, c) := f (word s a i) c
    downLoop f r a o i c (poke s r (i + o) w)

end Loops

def splice (d : List UInt64) (i : Nat) (ws : List UInt64) : List UInt64 :=
  d.take i ++ ws ++ d.drop (i + ws.length)

section Splices
variable {d ws : List UInt64} {i j : Nat}

theorem splice_length (room : i + ws.length ≤ d.length) : (splice d i ws).length = d.length := by
  simp [splice]
  omega

theorem splice_take (room : i ≤ d.length) (below : j ≤ i) : (splice d i ws).take j = d.take j := by
  rw [splice, append_assoc, take_append_of_le_length
    (by rw [length_take]; omega), take_take, min_eq_left below]

theorem splice_written (room : i ≤ d.length) :
    (splice d i ws).take (i + ws.length) = d.take i ++ ws := by
  rw [splice]
  apply take_left'
  rw [length_append, length_take, min_eq_left room]

theorem splice_drop (room : i ≤ d.length) (above : i + ws.length ≤ j) :
    (splice d i ws).drop j = d.drop j := by
  rw [splice, drop_append, drop_of_length_le
    (by rw [length_append, length_take]; omega), nil_append, drop_drop]
  congr 1
  rw [length_append, length_take]
  omega

theorem set_splice (room : i < d.length) (w : UInt64) : d.set i w = splice d i [w] := by
  rw [splice, set_eq_take_append_cons_drop, if_pos room, append_assoc]
  rfl

end Splices

structure WroteWords (s s' : BnStore) (r : Nat) (i : Nat) (ws : List UInt64) : Prop where
  d : (s' r).d = splice (s r).d i ws
  room : i + ws.length ≤ (s r).d.length
  top : ∀ x, (s' x).top = (s x).top
  neg : ∀ x, (s' x).neg = (s x).neg
  others : ∀ x, x ≠ r → s' x = s x

section Writes
variable {s s' : BnStore} {r i : Nat} {ws : List UInt64} (wrote : WroteWords s s' r i ws)
include wrote

theorem WroteWords.length (a : Nat) : (s' a).d.length = (s a).d.length := by
  by_cases same : a = r
  · rw [same, wrote.d, splice_length wrote.room]
  · rw [wrote.others a same]

/- Words past those written are as they were, whichever number they belong to. -/
variable {j k : Nat} {s2 : BnStore} {vs : List UInt64}

theorem WroteWords.drop_above (a : Nat) (above : i + ws.length ≤ j) :
    (s' a).d.drop j = (s a).d.drop j := by
  have room := wrote.room
  by_cases same : a = r
  · rw [same, wrote.d, splice_drop (by omega) above]
  · rw [wrote.others a same]

theorem WroteWords.take_below (a : Nat) (below : j ≤ i) : (s' a).d.take j = (s a).d.take j := by
  have room := wrote.room
  by_cases same : a = r
  · rw [same, wrote.d, splice_take (by omega) below]
  · rw [wrote.others a same]

theorem WroteWords.written : (s' r).d.take (i + ws.length) = (s r).d.take i ++ ws := by
  have room := wrote.room
  rw [wrote.d, splice_written (by omega)]

theorem WroteWords.behind (next : WroteWords s' s2 r k vs) (touch : i + ws.length = k) :
    WroteWords s s2 r i (ws ++ vs) where
  d := by
    subst touch
    rw [next.d, splice, wrote.written, wrote.drop_above r (by omega), splice, length_append]
    simp [add_assoc]
  room := by
    have room := next.room
    rw [wrote.length] at room
    rw [length_append]
    omega
  top := fun x => (next.top x).trans (wrote.top x)
  neg := fun x => (next.neg x).trans (wrote.neg x)
  others := fun x other => (next.others x other).trans (wrote.others x other)

theorem WroteWords.before (next : WroteWords s' s2 r k vs) (touch : k + vs.length = i) :
    WroteWords s s2 r k (vs ++ ws) where
  d := by
    have room := wrote.room
    subst touch
    rw [next.d, splice, wrote.take_below r (by omega), wrote.d, splice, append_assoc,
      drop_append_of_le_length (by rw [length_append, length_take]; omega),
      drop_append, drop_of_length_le (by rw [length_take]; omega),
      length_take, min_eq_left (by omega), Nat.sub_self, splice, length_append]
    simp [add_assoc]
  room := by
    have room := wrote.room
    rw [length_append]
    omega
  top := fun x => (next.top x).trans (wrote.top x)
  neg := fun x => (next.neg x).trans (wrote.neg x)
  others := fun x other => (next.others x other).trans (wrote.others x other)

end Writes

variable {i r : Nat}

theorem wrote_nothing (s : BnStore) (room : i ≤ (s r).d.length) : WroteWords s s r i [] where
  d := by simp [splice]
  room := by simpa using room
  top := fun _ => rfl
  neg := fun _ => rfl
  others := fun _ _ => rfl

theorem poke_wrote (s : BnStore) (room : i < (s r).d.length) (w : UInt64) :
    WroteWords s (poke s r i w) r i [w] := by
  have self : poke s r i w r = (s r).poke i w := Function.update_self r _ s
  have others (x : Nat) (other : x ≠ r) : poke s r i w x = s x := Function.update_of_ne other _ _
  refine ⟨?_, room, ?_, ?_, others⟩
  · rw [self]
    exact set_splice room w
  · intro x
    by_cases same : x = r
    · rw [same, self]
      rfl
    · rw [others x same]
  · intro x
    by_cases same : x = r
    · rw [same, self]
      rfl
    · rw [others x same]

theorem take_cons_drop {d : List UInt64} {n : Nat} (within : i < d.length) :
    (d.drop i).take (n + 1) = d.getD i 0 :: (d.drop (i + 1)).take n := by
  rw [drop_eq_getElem_cons within, take_succ_cons, getD_eq_getElem _ _ within]

section Passes
variable {C : Type}

/-- In place or not, a loop upwards passes over the words that were there before it. -/
theorem upLoop_wrote (f : UInt64 → UInt64 → C → UInt64 × C) (r a b o : Nat) (n i : Nat) (c : C)
    (s : BnStore) (roomR : i + n ≤ (s r).d.length) (roomA : i + o + n ≤ (s a).d.length)
    (roomB : i + n ≤ (s b).d.length) :
    let pass := up f (((s a).d.drop (i + o)).take n) (((s b).d.drop i).take n) c
    (upLoop f r a b o n i c s).2 = pass.2 ∧ WroteWords s (upLoop f r a b o n i c s).1 r i pass.1 := by
  induction n generalizing i c s with
  | zero => exact ⟨rfl, wrote_nothing s roomR⟩
  | succ n ih =>
    rw [take_cons_drop (by omega : i + o < (s a).d.length),
      take_cons_drop (by omega : i < (s b).d.length), up_cons, upLoop]
    generalize is : f (word s a (i + o)) (word s b i) c = step
    have same : f ((s a).d.getD (i + o) 0) ((s b).d.getD i 0) c = step := is
    rw [same]
    obtain ⟨w, c1⟩ := step
    have wrote := poke_wrote s (by omega : i < (s r).d.length) w
    obtain ⟨carry, rest⟩ := ih (i + 1) c1 (poke s r i w)
      (by rw [wrote.length]; omega) (by rw [wrote.length]; omega) (by rw [wrote.length]; omega)
    rw [show i + 1 + o = i + o + 1 by omega, wrote.drop_above a (j := i + o + 1)
      (by rw [length_singleton]; omega), wrote.drop_above b (le_refl (i + 1))] at carry rest
    exact ⟨carry, wrote.behind rest rfl⟩

/-- In place or not, a loop downwards passes over the words that were there before it. -/
theorem downLoop_wrote (f : UInt64 → C → UInt64 × C) (r a o : Nat) (n : Nat) (c : C) (s : BnStore)
    (roomR : n + o ≤ (s r).d.length) (roomA : n ≤ (s a).d.length) :
    let pass := down f ((s a).d.take n) c
    (downLoop f r a o n c s).2 = pass.2 ∧ WroteWords s (downLoop f r a o n c s).1 r o pass.1 := by
  induction n generalizing c s with
  | zero => exact ⟨rfl, wrote_nothing s (by omega)⟩
  | succ n ih =>
    rw [take_succ_eq_append_getElem (by omega : n < (s a).d.length), down_append, downLoop]
    generalize is : f (word s a n) c = step
    have same : down f [(s a).d[n]] c = ([step.1], step.2) := by
      rw [← is, word, getD_eq_getElem _ _ (by omega)]
      rfl
    rw [same]
    obtain ⟨w, c1⟩ := step
    have wrote := poke_wrote s (by omega : n + o < (s r).d.length) w
    obtain ⟨carry, rest⟩ := ih c1 (poke s r (n + o) w)
      (by rw [wrote.length]; omega) (by rw [wrote.length]; omega)
    rw [wrote.take_below a (by omega : n ≤ n + o)] at carry rest
    refine ⟨carry, wrote.before rest ?_⟩
    rw [down_length, length_take]
    omega

end Passes

end Ossl
