import OpenSSL.Bn.Store

/- Adding, subtracting and shifting big numbers, and their arithmetic with one word. -/
namespace Ossl
open Nat UInt64 CarryChain

section Words

/- A comparison as the word that C makes of it. -/
def flag (p : Prop) [Decidable p] : UInt64 := if p then 1 else 0

def addStep (a b c : UInt64) : UInt64 × UInt64 :=
  let t := a + c
  let c := flag (t < c)
  let l := t + b
  (l, c + flag (l < t))

def subStep (a b c : UInt64) : UInt64 × UInt64 :=
  let t2 := a - c
  let c := flag (t2 > a)
  let t1 := t2 - b
  (t1, c + flag (t1 > t2))

def carryStep (t1 carry : UInt64) : UInt64 × UInt64 :=
  let t2 := t1 + carry
  (t2, carry &&& flag (t2 = 0))

def borrowStep (t1 borrow : UInt64) : UInt64 × UInt64 := (t1 - borrow, borrow &&& flag (t1 = 0))

def bnUmultLohi (a b : UInt64) : UInt64 × UInt64 :=
  (ofNat (a.toNat * b.toNat), ofNat (a.toNat * b.toNat / 2 ^ 64))

def mulStep (w a c : UInt64) : UInt64 × UInt64 :=
  let (low, high) := bnUmultLohi w a
  let ret := low + c
  (ret, high + flag (ret < low))

def bnDivWords (h l d : UInt64) : UInt64 :=
  if d = 0 then 0 - 1 else ofNat ((h.toNat * 2 ^ 64 + l.toNat) / d.toNat)

end Words

def ucmpLoop (a b : List UInt64) : Nat → Int
  | 0 => 0
  | i + 1 =>
    let t1 := a.getD i 0
    let t2 := b.getD i 0
    if t1 ≠ t2 then if t1 > t2 then 1 else -1 else ucmpLoop a b i

def bnUcmp (a b : Bignum) : Int :=
  let i := (a.top : Int) - b.top
  if i ≠ 0 then i else ucmpLoop a.d b.d a.top

def uaddLonger (r a b : Nat) (s : BnStore) : Bool × BnStore :=
  let max := (s a).top
  let min := (s b).top
  if bnWexpand (s r) (max + 1) = none then (false, s)
  else
    let s := change s r fun x => (bnExpanded x (max + 1)).withTop max
    let (s, carry) := upLoop addStep r a b 0 min 0 0 s
    let (s, carry) := upLoop (fun t1 _ carry => carryStep t1 carry) r a a 0 (max - min) min carry s
    let s := poke s r max carry
    (true, change s r fun x => (x.withTop (max + carry.toNat)).withNeg false)

def bnUadd (r a b : Nat) (s : BnStore) : Bool × BnStore :=
  if (s a).top < (s b).top then uaddLonger r b a s else uaddLonger r a b s

def bnUsub (r a b : Nat) (s : BnStore) : Bool × BnStore :=
  let max := (s a).top
  let min := (s b).top
  if max < min then (false, s)
  else if bnWexpand (s r) max = none then (false, s)
  else
    let s := change s r (bnExpanded · max)
    let (s, borrow) := upLoop subStep r a b 0 min 0 0 s
    let (s, _) := upLoop (fun t1 _ borrow => borrowStep t1 borrow) r a a 0 (max - min) min borrow s
    (true, change s r fun x => (x.withTop (correctedTop x.d max)).withNeg false)

def bnAddOrSub (adds : Bool) (negB : Bool) (r a b : Nat) (s : BnStore) : Bool × BnStore :=
  let aNeg := (s a).neg
  if adds then
    let (ret, s) := bnUadd r a b s
    (ret, change s r (·.withNeg aNeg))
  else
    let cmpRes := bnUcmp (s a) (s b)
    if cmpRes > 0 then
      let (ret, s) := bnUsub r a b s
      (ret, change s r (·.withNeg aNeg))
    else if cmpRes < 0 then
      let (ret, s) := bnUsub r b a s
      (ret, change s r (·.withNeg negB))
    else (true, change (change s r bnZero) r (·.withNeg false))

def bnAdd (r a b : Nat) (s : BnStore) : Bool × BnStore :=
  bnAddOrSub ((s a).neg = (s b).neg) (s b).neg r a b s

def bnSub (r a b : Nat) (s : BnStore) : Bool × BnStore :=
  bnAddOrSub ((s a).neg ≠ (s b).neg) (!(s b).neg) r a b s

def lshift1Step (t c : UInt64) : UInt64 × UInt64 := ((t <<< 1) ||| c, t >>> 63)

def rshift1Step (t c : UInt64) : UInt64 × UInt64 := ((t >>> 1) ||| c, t <<< 63)

def bnLshift1 (r a : Nat) (s : BnStore) : Bool × BnStore :=
  if bnWexpand (s r) ((s a).top + 1) = none then (false, change s r (·.withNeg (s a).neg))
  else
    let s :=
      if r ≠ a then change s r fun x =>
        (bnExpanded (x.withNeg (s a).neg) ((s a).top + 1)).withTop (s a).top
      else change s r (bnExpanded · ((s a).top + 1))
    let top := (s a).top
    let (s, c) := upLoop (fun t _ c => lshift1Step t c) r a a 0 top 0 0 s
    let s := poke s r top c
    (true, change s r fun x => x.withTop (x.top + c.toNat))

def bnRshift1 (r a : Nat) (s : BnStore) : Bool × BnStore :=
  let i := (s a).top
  if i = 0 then (true, change s r bnZero)
  else if a ≠ r ∧ bnWexpand (s r) i = none then (false, s)
  else
    let s := if a ≠ r then change s r fun x => (bnExpanded x i).withNeg (s a).neg else s
    let s := change s r (·.withTop i)
    let t := word s a (i - 1)
    let s := poke s r (i - 1) (t >>> 1)
    let s := change s r fun x => x.withTop (x.top - (flag (t = 1)).toNat)
    let (s, _) := downLoop rshift1Step r a 0 (i - 1) (t <<< 63) s
    (true, change s r fun x => if x.top = 0 then x.withNeg false else x)

def shiftMask (bits : UInt64) : UInt64 :=
  let mask := (0 : UInt64) - bits
  mask ||| (mask >>> 8)

def lshiftStep (lb rb rmask f l : UInt64) : UInt64 × UInt64 :=
  ((l <<< lb) ||| ((f >>> rb) &&& rmask), f)

def rshiftStep (rb lb mask m l : UInt64) : UInt64 × UInt64 :=
  ((l >>> rb) ||| ((m <<< lb) &&& mask), m)

def bnLshiftFixedTop (r a n : Nat) (s : BnStore) : Bool × BnStore :=
  let nw := n / 64
  if bnWexpand (s r) ((s a).top + nw + 1) = none then (false, s)
  else
    let s := change s r (bnExpanded · ((s a).top + nw + 1))
    let top := (s a).top
    let s :=
      if top ≠ 0 then
        let lb := ofNat (n % 64)
        let rb := (64 - lb) % 64
        let rmask := shiftMask rb
        let l := word s a (top - 1)
        let s := poke s r (nw + top) ((l >>> rb) &&& rmask)
        let (s, l) := downLoop (lshiftStep lb rb rmask) r a (nw + 1) (top - 1) l s
        poke s r nw (l <<< lb)
      else poke s r nw 0
    let s := (upLoop (fun _ _ _ => (0, ())) r r r 0 nw 0 () s).1
    (true, change s r fun x => (x.withNeg (s a).neg).withTop (top + nw + 1))

def bnLshift (r a : Nat) (n : Int) (s : BnStore) : Bool × BnStore :=
  if n < 0 then (false, s)
  else
    let (ret, s) := bnLshiftFixedTop r a n.toNat s
    (ret, change s r bnCorrectTop)

def bnRshiftFixedTop (r a n : Nat) (s : BnStore) : Bool × BnStore :=
  let nw := n / 64
  if (s a).top ≤ nw then (true, change s r bnZero)
  else
    let rb := ofNat (n % 64)
    let lb := (64 - rb) % 64
    let mask := shiftMask lb
    let top := (s a).top - nw
    if r ≠ a ∧ bnWexpand (s r) top = none then (false, s)
    else
      let s := if r ≠ a then change s r (bnExpanded · top) else s
      let l := word s a nw
      let (s, l) := upLoop (fun m _ l => rshiftStep rb lb mask m l) r a a (nw + 1) (top - 1) 0 l s
      let s := poke s r (top - 1) (l >>> rb)
      (true, change s r fun x => (x.withNeg (s a).neg).withTop top)

def bnRshift (r a : Nat) (n : Int) (s : BnStore) : Bool × BnStore :=
  if n < 0 then (false, s)
  else
    let (ret, s) := bnRshiftFixedTop r a n.toNat s
    (ret, change s r bnCorrectTop)

def bnSetWord (a : Bignum) (w : UInt64) : Bignum :=
  (((bnExpanded a 1).withNeg false).poke 0 w).withTop (if w ≠ 0 then 1 else 0)

def addWordLoop : List UInt64 → UInt64 → List UInt64 × UInt64
  | [], w => ([], w)
  | x :: xs, w =>
    if w = 0 then (x :: xs, w)
    else
      let l := x + w
      let (ls, w) := addWordLoop xs (flag (w > l))
      (l :: ls, w)

def subWordLoop : List UInt64 → UInt64 → List UInt64 × Nat
  | [], _ => ([], 0)
  | x :: xs, w =>
    if x ≥ w then ((x - w) :: xs, 0)
    else
      let (ls, i) := subWordLoop xs 1
      ((x - w) :: ls, i + 1)

def addWordPlain (a : Bignum) (w : UInt64) : Bool × Bignum :=
  if w = 0 then (true, a)
  else if a.top = 0 then (true, bnSetWord a w)
  else
    let (words, w) := addWordLoop a.words w
    let a := bnSetWords a words a.neg
    if w ≠ 0 then
      if bnWexpand a (a.top + 1) = none then (false, a)
      else (true, ((bnExpanded a (a.top + 1)).withTop (a.top + 1)).poke a.top w)
    else (true, a)

def subWordPlain (a : Bignum) (w : UInt64) : Bignum :=
  if w = 0 then a
  else if a.top = 0 then
    let a := bnSetWord a w
    a.withNeg (a.top ≠ 0)
  else if a.top = 1 ∧ a.d.getD 0 0 < w then (a.poke 0 (w - a.d.getD 0 0)).withNeg true
  else
    let (words, i) := subWordLoop a.words w
    let a := bnSetWords a words a.neg
    if a.d.getD i 0 = 0 ∧ i = a.top - 1 then a.withTop (a.top - 1) else a

def bnAddWord (a : Nat) (w : UInt64) (s : BnStore) : Bool × BnStore :=
  if w ≠ 0 ∧ (s a).top ≠ 0 ∧ (s a).neg then
    let x := subWordPlain ((s a).withNeg false) w
    (true, change s a fun _ => if x.top ≠ 0 then x.withNeg (!x.neg) else x)
  else ((addWordPlain (s a) w).1, change s a fun x => (addWordPlain x w).2)

def bnSubWord (a : Nat) (w : UInt64) (s : BnStore) : Bool × BnStore :=
  if w ≠ 0 ∧ (s a).top ≠ 0 ∧ (s a).neg then
    let (i, x) := addWordPlain ((s a).withNeg false) w
    (i, change s a fun _ => x.withNeg true)
  else (true, change s a (subWordPlain · w))

def bnMulWord (a : Nat) (w : UInt64) (s : BnStore) : Bool × BnStore :=
  if (s a).top = 0 then (true, s)
  else if w = 0 then (true, change s a bnZero)
  else
    let top := (s a).top
    let (s, ll) := upLoop (fun x _ c => mulStep w x c) a a a 0 top 0 0 s
    if ll ≠ 0 then
      if bnWexpand (s a) (top + 1) = none then (false, s)
      else (true, poke (change s a fun x => (bnExpanded x (top + 1)).withTop (top + 1)) a top ll)
    else (true, s)

def divStep (w l ret : UInt64) : UInt64 × UInt64 :=
  let d := bnDivWords ret l w
  (d, l - d * w)

def bnDivWord (a : Nat) (w : UInt64) (s : BnStore) : UInt64 × BnStore :=
  if w = 0 then (0 - 1, s)
  else if (s a).top = 0 then (0, s)
  else
    let j := 64 - bnNumBitsWord w
    let w := w <<< ofNat j
    match bnLshift a a j s with
    | (false, s) => (0 - 1, s)
    | (true, s) =>
      let (s, ret) := downLoop (divStep w) a a 0 (s a).top 0 s
      let s := change s a fun x =>
        if 0 < x.top ∧ x.d.getD (x.top - 1) 0 = 0 then x.withTop (x.top - 1) else x
      (ret >>> ofNat j, change s a fun x => if x.top = 0 then x.withNeg false else x)

def bnDup (a : Bignum) : Option Bignum :=
  if bnWexpand bnNew a.top = none then none else some (bnSetWords bnNew a.words a.neg)

def modWordHalves (w x ret : UInt64) : UInt64 :=
  let ret := ((ret <<< 32) ||| ((x >>> 32) &&& 0xffffffff)) % w
  ((ret <<< 32) ||| (x &&& 0xffffffff)) % w

def bnModWord (a : Bignum) (w : UInt64) : UInt64 :=
  if w = 0 then 0 - 1
  else if w > (1 : UInt64) <<< 32 then
    match bnDup a with
    | none => 0 - 1
    | some tmp => (bnDivWord 0 w fun _ => tmp).1
  else a.words.foldr (modWordHalves w) 0

theorem flag_toNat (p : Prop) [Decidable p] : (flag p).toNat = if p then 1 else 0 := by
  by_cases yes : p
  · rw [flag, if_pos yes, if_pos yes]
    rfl
  · rw [flag, if_neg yes, if_neg yes]
    rfl

theorem flag_le (p : Prop) [Decidable p] : (flag p).toNat ≤ 1 := by
  rw [flag_toNat]
  split <;> omega

theorem bit_cases {c : UInt64} (bit : c.toNat ≤ 1) : c = 0 ∨ c = 1 := by
  have : c.toNat = 0 ∨ c.toNat = 1 := by omega
  exact this.imp (fun is => UInt64.toNat_inj.mp is) (fun is => UInt64.toNat_inj.mp is)

theorem and_flag {c : UInt64} (bit : c.toNat ≤ 1) (p : Prop) [Decidable p] :
    (c &&& flag p).toNat = if p then c.toNat else 0 := by
  have two := bit_cases bit
  by_cases yes : p
  · rw [flag, if_pos yes, if_pos yes]
    rcases two with rfl | rfl <;> rfl
  · rw [flag, if_neg yes, if_neg yes]
    rcases two with rfl | rfl <;> rfl

theorem addStep_spec (a b c : UInt64) (bit : c.toNat ≤ 1) :
    (addStep a b c).2.toNat ≤ 1 ∧
      (addStep a b c).1.toNat + 2 ^ 64 * (addStep a b c).2.toNat = a.toNat + b.toNat + c.toNat := by
  have wa := a.toNat_lt
  have wb := b.toNat_lt
  simp only [addStep, UInt64.toNat_add, flag_toNat, lt_iff_toNat_lt]
  split <;> split <;> omega

theorem subStep_spec (a b c : UInt64) (bit : c.toNat ≤ 1) :
    (subStep a b c).2.toNat ≤ 1 ∧
      (subStep a b c).1.toNat + b.toNat + c.toNat = a.toNat + 2 ^ 64 * (subStep a b c).2.toNat := by
  have wa := a.toNat_lt
  have wb := b.toNat_lt
  simp only [subStep, UInt64.toNat_add, UInt64.toNat_sub, flag_toNat, GT.gt, lt_iff_toNat_lt]
  split <;> split <;> omega

variable (t x c : UInt64)

theorem carryStep_spec (bit : c.toNat ≤ 1) : (carryStep t c).2.toNat ≤ 1 ∧
      (carryStep t c).1.toNat + 2 ^ 64 * (carryStep t c).2.toNat = t.toNat + c.toNat := by
  have word := t.toNat_lt
  simp only [carryStep, and_flag bit, UInt64.toNat_add, ← UInt64.toNat_inj, UInt64.toNat_zero]
  split <;> omega

theorem borrowStep_spec (bit : c.toNat ≤ 1) : (borrowStep t c).2.toNat ≤ 1 ∧
      (borrowStep t c).1.toNat + c.toNat = t.toNat + 2 ^ 64 * (borrowStep t c).2.toNat := by
  have word := t.toNat_lt
  simp only [borrowStep, and_flag bit, UInt64.toNat_sub, ← UInt64.toNat_inj, UInt64.toNat_zero]
  split <;> omega

theorem mulStep_spec (w a c : UInt64) :
    (mulStep w a c).1.toNat + 2 ^ 64 * (mulStep w a c).2.toNat = w.toNat * a.toNat + c.toNat := by
  have ww := w.toNat_lt
  have wa := a.toNat_lt
  have wc := c.toNat_lt
  have product : w.toNat * a.toNat ≤ (2 ^ 64 - 1) * (2 ^ 64 - 1) :=
    Nat.mul_le_mul (by omega) (by omega)
  simp only [mulStep, bnUmultLohi, UInt64.toNat_add, flag_toNat, lt_iff_toNat_lt, toNat_ofNat']
  generalize w.toNat * a.toNat = p at *
  split <;> omega

theorem or_add {x y : UInt64} {k : Nat} (high : 2 ^ k ∣ x.toNat) (low : y.toNat < 2 ^ k) :
    (x ||| y).toNat = x.toNat + y.toNat := by
  obtain ⟨q, is⟩ := high
  rw [UInt64.toNat_or, is, two_pow_add_eq_or_of_lt low]

theorem lshift1Step_spec (bit : c.toNat ≤ 1) : (lshift1Step t c).2.toNat ≤ 1 ∧
      (lshift1Step t c).1.toNat + 2 ^ 64 * (lshift1Step t c).2.toNat = 2 * t.toNat + c.toNat := by
  have word := t.toNat_lt
  have doubled : (t <<< 1).toNat = 2 * t.toNat % 2 ^ 64 := by
    rw [UInt64.toNat_shiftLeft, shiftLeft_eq]
    simp [mul_comm]
  have high : (t >>> 63).toNat = t.toNat / 2 ^ 63 := by
    rw [UInt64.toNat_shiftRight, shiftRight_eq_div_pow]
    simp
  rw [lshift1Step]
  have even : 2 ^ 1 ∣ (t <<< 1).toNat := by
    rw [doubled]
    omega
  rw [or_add even (by omega), doubled, high]
  omega

theorem rshift1Step_spec (bit : 2 ^ 63 ∣ c.toNat) : 2 ^ 63 ∣ (rshift1Step t c).2.toNat ∧
      2 * (rshift1Step t c).1.toNat + (rshift1Step t c).2.toNat / 2 ^ 63 =
        2 ^ 64 * (c.toNat / 2 ^ 63) + 1 * t.toNat := by
  have word := t.toNat_lt
  have half : (t >>> 1).toNat = t.toNat / 2 := by
    rw [UInt64.toNat_shiftRight, shiftRight_eq_div_pow]
    simp
  have carried : (t <<< 63).toNat = t.toNat % 2 * 2 ^ 63 := by
    rw [UInt64.toNat_shiftLeft, shiftLeft_eq]
    simp
    omega
  rw [rshift1Step]
  rw [UInt64.or_comm, or_add bit (by omega), carried, half]
  omega

variable {bits : Nat}

theorem shiftMask_ones (some_ : 0 < bits) (small : bits < 64) :
    shiftMask (ofNat bits) = 0 - 1 := by
  have all : ∀ k : Fin 64, 0 < k.val → shiftMask (ofNat k.val) = 0 - 1 := by
    decide +kernel
  exact all ⟨bits, small⟩ some_

theorem and_ones : x &&& (0 - 1) = x := by
  apply UInt64.toBitVec_inj.mp
  simp

theorem shiftLeft_toNat (small : bits < 64) :
    (x <<< ofNat bits).toNat = x.toNat * 2 ^ bits % 2 ^ 64 := by
  rw [UInt64.toNat_shiftLeft, shiftLeft_eq, toNat_ofNat', mod_eq_of_lt
    (by omega : bits < 2 ^ 64), mod_eq_of_lt small]

theorem shiftRight_toNat (small : bits < 64) :
    (x >>> ofNat bits).toNat = x.toNat / 2 ^ bits := by
  rw [UInt64.toNat_shiftRight, shiftRight_eq_div_pow, toNat_ofNat', mod_eq_of_lt
    (by omega : bits < 2 ^ 64), mod_eq_of_lt small]

theorem high_half (x : UInt64) : (x >>> 32).toNat = x.toNat / 2 ^ 32 :=
  shiftRight_toNat x (show 32 < 64 by decide)

theorem low_half (x : UInt64) : (x &&& 0xffffffff).toNat = x.toNat % 2 ^ 32 := by
  have mask : (0xffffffff : UInt64).toNat = 2 ^ 32 - 1 := rfl
  rw [UInt64.toNat_and, mask, and_two_pow_sub_one_eq_mod]

theorem otherBits (some_ : 0 < bits) (small : bits < 64) :
    (64 - ofNat bits) % 64 = ofNat (64 - bits) := by
  have all : ∀ k : Fin 64, 0 < k.val →
      (64 - ofNat k.val) % 64 = ofNat (64 - k.val) := by
    decide +kernel
  exact all ⟨bits, small⟩ some_

theorem shifted_out (f : UInt64) (small : bits < 64) :
    ((f >>> ((64 - ofNat bits) % 64)) &&& shiftMask ((64 - ofNat bits) % 64)).toNat =
      f.toNat / 2 ^ (64 - bits) := by
  have word := f.toNat_lt
  by_cases none_ : bits = 0
  · subst none_
    have zero : shiftMask ((64 - ofNat 0) % 64) = 0 := by decide
    rw [zero, UInt64.and_zero, UInt64.toNat_zero, div_eq_of_lt word]
  · rw [otherBits (by omega) small, shiftMask_ones (by omega) (by omega), and_ones,
      shiftRight_toNat f (by omega)]

theorem shifted_down (m : UInt64) (small : bits < 64) :
    ((m <<< ((64 - ofNat bits) % 64)) &&& shiftMask ((64 - ofNat bits) % 64)).toNat =
      m.toNat * 2 ^ (64 - bits) % 2 ^ 64 := by
  by_cases none_ : bits = 0
  · subst none_
    have zero : shiftMask ((64 - ofNat 0) % 64) = 0 := by decide
    rw [zero, UInt64.and_zero, UInt64.toNat_zero, Nat.sub_zero, mul_mod_left]
  · rw [otherBits (by omega) small, shiftMask_ones (by omega) (by omega), and_ones,
      shiftLeft_toNat m (by omega)]

theorem mul_pow_split (x : Nat) {k : Nat} (small : k ≤ 64) :
    x * 2 ^ k = 2 ^ 64 * (x / 2 ^ (64 - k)) + x * 2 ^ k % 2 ^ 64 := by
  have whole : (2 : Nat) ^ 64 = 2 ^ (64 - k) * 2 ^ k := by
    rw [← pow_add, Nat.sub_add_cancel small]
  have pos : 0 < 2 ^ k := Nat.pow_pos (by decide)
  have quotient : x * 2 ^ k / 2 ^ 64 = x / 2 ^ (64 - k) := by
    rw [whole, Nat.mul_div_mul_right _ _ pos]
  rw [← quotient, div_add_mod]

theorem lshiftStep_spec (small : bits < 64) (f l : UInt64) :
    let rb := (64 - ofNat bits) % 64
    let step := lshiftStep (ofNat bits) rb (shiftMask rb) f l
    2 ^ 64 * step.1.toNat + step.2.toNat * 2 ^ bits % 2 ^ 64 =
      2 ^ 64 * (l.toNat * 2 ^ bits % 2 ^ 64) + 2 ^ bits * f.toNat := by
  have split := mul_pow_split f.toNat (le_of_lt small)
  have whole : (2 : Nat) ^ 64 = 2 ^ bits * 2 ^ (64 - bits) := by
    rw [← pow_add, Nat.add_sub_cancel' (le_of_lt small)]
  have high : 2 ^ bits ∣ (l <<< ofNat bits).toNat := by
    rw [shiftLeft_toNat l small]
    exact (dvd_mod_iff ⟨_, whole⟩).mpr (dvd_mul_left _ _)
  have low : f.toNat / 2 ^ (64 - bits) < 2 ^ bits := by
    rw [Nat.div_lt_iff_lt_mul (Nat.pow_pos (by decide)), ← whole]
    exact f.toNat_lt
  dsimp only [lshiftStep]
  rw [or_add high (by rw [shifted_out f small]; exact low), shifted_out f small,
    shiftLeft_toNat l small, mul_comm (2 ^ bits) f.toNat]
  omega

theorem rshiftStep_spec (small : bits < 64) (m l : UInt64) :
    let lb := (64 - ofNat bits) % 64
    let step := rshiftStep (ofNat bits) lb (shiftMask lb) m l
    step.1.toNat + 2 ^ 64 * (step.2.toNat / 2 ^ bits) =
      2 ^ (64 - bits) * m.toNat + l.toNat / 2 ^ bits := by
  have split := mul_pow_split m.toNat (sub_le 64 bits)
  rw [Nat.sub_sub_self (le_of_lt small)] at split
  have whole : (2 : Nat) ^ 64 = 2 ^ (64 - bits) * 2 ^ bits := by
    rw [← pow_add, Nat.sub_add_cancel (le_of_lt small)]
  have high : 2 ^ (64 - bits) ∣
      ((m <<< ((64 - ofNat bits) % 64)) &&& shiftMask ((64 - ofNat bits) % 64)).toNat := by
    rw [shifted_down m small]
    exact (dvd_mod_iff ⟨_, whole⟩).mpr (dvd_mul_left _ _)
  have low : (l >>> ofNat bits).toNat < 2 ^ (64 - bits) := by
    rw [shiftRight_toNat l small, Nat.div_lt_iff_lt_mul (Nat.pow_pos (by decide)), ← whole]
    exact l.toNat_lt
  dsimp only [rshiftStep]
  rw [UInt64.or_comm, or_add high low, shifted_down m small, shiftRight_toNat l small,
    mul_comm (2 ^ (64 - bits)) m.toNat]
  omega

/-- A word of the quotient, with the remainder so far. -/
theorem divStep_spec {w : UInt64} (l : UInt64) {ret : UInt64} (less : ret < w) :
    (divStep w l ret).2 < w ∧
      w.toNat * (divStep w l ret).1.toNat + (divStep w l ret).2.toNat =
        2 ^ 64 * ret.toNat + 1 * l.toNat := by
  rw [lt_iff_toNat_lt] at less ⊢
  have ww := w.toNat_lt
  have wl := l.toNat_lt
  have pos : 0 < w.toNat := by omega
  have nonzero : w ≠ 0 := by
    intro is
    rw [is] at pos
    exact absurd pos (by decide)
  rw [divStep, bnDivWords, if_neg nonzero]
  have division := div_add_mod (ret.toNat * 2 ^ 64 + l.toNat) w.toNat
  have rest := mod_lt (ret.toNat * 2 ^ 64 + l.toNat) pos
  have small : (ret.toNat * 2 ^ 64 + l.toNat) / w.toNat < 2 ^ 64 := by
    rw [div_lt_iff_lt_mul pos]
    nlinarith
  rw [UInt64.toNat_sub, UInt64.toNat_mul, toNat_ofNat', mod_eq_of_lt small, mul_comm _ w.toNat]
  generalize w.toNat * ((ret.toNat * 2 ^ 64 + l.toNat) / w.toNat) = p at *
  generalize (ret.toNat * 2 ^ 64 + l.toNat) % w.toNat = m at *
  omega

end Ossl
