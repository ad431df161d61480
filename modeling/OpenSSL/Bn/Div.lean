import OpenSSL.Bn.WordLaws

/- Division of big numbers: bn_div.c without assembler for the long division. Both numbers are read
   to the end before one of the results is written, so that a result may be one of them. -/
namespace Ossl
open CarryChain

def alignStep (lshift rshift rmask n m : UInt64) : UInt64 × UInt64 :=
  ((n <<< lshift) ||| m, (n >>> rshift) &&& rmask)

def bnLeftAlign (d : List UInt64) : List UInt64 × Nat :=
  let rshift := bnNumBitsWord (d.getD (d.length - 1) 0)
  let lshift := 64 - rshift
  let rshift := UInt64.ofNat (rshift % 64)
  let rmask := shiftMask rshift
  ((up (fun n _ m => alignStep (UInt64.ofNat lshift) rshift rmask n m) d d 0).1, lshift)

/- The quotient is lowered until it fits the second word of the divisor as well. -/
def estimateLoop (d0 d1 n2 : UInt64) : Nat → (q rem t2l t2h : UInt64) → Option UInt64
  | 0, _, _, _, _ => none
  | rounds + 1, q, rem, t2l, t2h =>
    if t2h < rem ∨ t2h = rem ∧ t2l ≤ n2 then some q
    else
      let q := q - 1
      let rem := rem + d0
      if rem < d0 then some q
      else
        let t2h := if t2l < d1 then t2h - 1 else t2h
        estimateLoop d0 d1 n2 rounds q rem (t2l - d1) t2h

/- The loop has no bound in C: two rounds are enough for a divisor that is aligned. -/
def divEstimate (d0 d1 n0 n1 n2 : UInt64) : Option UInt64 :=
  if n0 = d0 then some (0 - 1)
  else
    let q := bnDivWords n0 n1 d0
    let rem := n1 - q * d0
    let (t2l, t2h) := bnUmultLohi d1 q
    estimateLoop d0 d1 n2 2 q rem t2l t2h

/- What happens in one round: the words from wnum to wnumtop before and after it, the word of the
   quotient that is estimated and the one that is stored. -/
structure DivRound where
  window : List UInt64
  estimate : UInt64
  q : UInt64
  left : List UInt64

/- The words of tmp and of wnum are each read before they are written, so that a loop over them in
   place is a pass. -/
def divRound (sdiv window : List UInt64) : Option DivRound :=
  let divN := sdiv.length
  let d0 := sdiv.getD (divN - 1) 0
  let d1 := if divN = 1 then 0 else sdiv.getD (divN - 2) 0
  let n0 := window.getD divN 0
  let n1 := window.getD (divN - 1) 0
  let n2 := if divN = 1 then 0 else window.getD (divN - 2) 0
  match divEstimate d0 d1 n0 n1 n2 with
  | none => none
  | some estimate =>
    let (tmp, l0) := up (fun a _ c => mulStep estimate a c) sdiv sdiv 0
    let (wnum, borrow) := up subStep window (tmp ++ [l0]) 0
    let q := estimate - borrow
    let mask := 0 - borrow
    let (low, carry) := up addStep (wnum.take divN) (sdiv.map (· &&& mask)) 0
    some ⟨window, estimate, q, low ++ [wnum.getD divN 0 + carry]⟩

def divRounds (sdiv : List UInt64) : Nat → List UInt64 → Option (List UInt64 × List DivRound)
  | 0, snum => some (snum, [])
  | i + 1, snum =>
    match divRound sdiv ((snum.drop i).take (sdiv.length + 1)) with
    | none => none
    | some round =>
      match divRounds sdiv i (splice snum i round.left) with
      | none => none
      | some (snum, rounds) => some (snum, rounds ++ [round])

structure DivResult where
  dv : Option Bignum
  rm : Option Bignum
  rounds : List DivRound

/- Two numbers that nothing else uses: the first gets the result. -/
def pair (r a : Bignum) : BnStore
  | 0 => r
  | _ => a

def bnDivFixedTop (dv rm : Option Bignum) (num divisor : Bignum) : Option DivResult :=
  if bnWexpand bnNew divisor.top = none then none
  else
    let (sdiv, normShift) := bnLeftAlign divisor.words
    match bnLshiftFixedTop 0 1 normShift (pair bnNew num) with
    | (false, _) => none
    | (true, s) =>
      let snum := (s 0).words
      let divN := sdiv.length
      if snum.length ≤ divN ∧ bnWexpand (s 0) (divN + 1) = none then none
      else
        let snum :=
          if snum.length ≤ divN then snum ++ List.replicate (divN - snum.length + 1) 0 else snum
        let loop := snum.length - divN
        if bnWexpand (dv.getD bnNew) loop = none ∨ bnWexpand bnNew (divN + 1) = none then none
        else
          match divRounds sdiv loop snum with
          | none => none
          | some (snum, rounds) =>
            let res (r : Bignum) :=
              bnSetWords (bnExpanded r loop) (rounds.map (·.q)) (num.neg ^^ divisor.neg)
            let snum := bnSetWords bnNew (snum.take divN) num.neg
            let shifted (r : Bignum) := bnRshiftFixedTop 0 1 normShift (pair r snum)
            if rm.any fun r => !(shifted r).1 then none
            else some ⟨dv.map res, rm.map fun r => (shifted r).2 0, rounds⟩

def bnDiv (dv rm : Option Bignum) (num divisor : Bignum) : Option DivResult :=
  if divisor.top = 0 then none
  else if divisor.d.getD (divisor.top - 1) 0 = 0 then none
  else
    match bnDivFixedTop dv rm num divisor with
    | none => none
    | some result =>
      some ⟨result.dv.map bnCorrectTop, result.rm.map bnCorrectTop, result.rounds⟩

end Ossl
