import Mathlib.Data.List.GetD
import Mathlib.Data.List.TakeWhile
import Mathlib.Tactic.Ring
import OpenSSL.X509.IpAsc

/- The grammar of addresses, and the members of a text as its groups. -/
namespace Ossl
open List Option Decimal

def Ipv4Text (s bytes : List UInt8) : Prop :=
  ∃ a b c d : UInt8, s = decimal a.toNat ++ dotChar :: (decimal b.toNat ++ dotChar ::
    (decimal c.toNat ++ dotChar :: decimal d.toNat)) ∧ bytes = [a, b, c, d]

def HexText (s bytes : List UInt8) : Prop :=
  s ≠ [] ∧ s.length ≤ 4 ∧ ∃ digits, s.mapM hexchar2int = some digits ∧
    bytes = [UInt8.ofNat (digits.foldl (fun v x => v * 16 + x) 0 / 256),
      UInt8.ofNat (digits.foldl (fun v x => v * 16 + x) 0)]

/- Groups in a row, the last of which may be an IPv4 address when nothing follows. -/
inductive Groups (final : Bool) : List (List UInt8) → List UInt8 → Prop
  | none_ : Groups final [] []
  | hex {e b : List UInt8} {es : List (List UInt8)} {bs : List UInt8} :
    HexText e b → Groups final es bs → Groups final (e :: es) (b ++ bs)
  | v4 {e b : List UInt8} : final = true → Ipv4Text e b → Groups final [e] b

def joined : List (List UInt8) → List UInt8
  | [] => []
  | [e] => e
  | e :: es => e ++ colonChar :: joined es

def Ipv6Text (s bytes : List UInt8) : Prop :=
  (∃ es, Groups true es bytes ∧ bytes.length = 16 ∧ s = joined es) ∨
  ∃ ls rs a b, Groups false ls a ∧ Groups true rs b ∧ a.length + b.length ≤ 14 ∧
    s = joined ls ++ colonChar :: colonChar :: joined rs ∧
    bytes = a ++ replicate (16 - (a.length + b.length)) 0 ++ b

section Ipv4

def StopsAt (s : List UInt8) : Prop := peekChar s = dotChar ∨ peekChar s = 0

theorem digit_test {c : UInt8} : (0x30 ≤ c ∧ c ≤ 0x39) ↔ ∃ d < 10, c = digit d := by
  constructor
  · rintro ⟨least, most⟩
    have low : 48 ≤ c.toNat := UInt8.le_iff_toNat_le.mp least
    have high : c.toNat ≤ 57 := UInt8.le_iff_toNat_le.mp most
    obtain ⟨is, small⟩ := digit_of low high
    exact ⟨_, small, is⟩
  · rintro ⟨d, small, rfl⟩
    have value := digit_toNat small
    constructor
    · rw [UInt8.le_iff_toNat_le, value]
      change 48 ≤ _
      omega
    · rw [UInt8.le_iff_toNat_le, value]
      change _ ≤ 57
      omega

variable {d : Nat} {b : UInt8}

theorem component_cons (small : d < 10) (s : List UInt8) (out : Nat) :
    getIpv4Component (digit d :: s) out =
      if out * 10 + d > 255 then none
      else if peekChar s = dotChar ∨ peekChar s = 0 then some (UInt8.ofNat (out * 10 + d), s)
      else if out * 10 + d = 0 then none else getIpv4Component s (out * 10 + d) := by
  have value := digit_toNat small
  rw [getIpv4Component, if_neg (not_not_intro (digit_test.mpr ⟨d, small, rfl⟩)), value]
  simp only [Nat.add_sub_cancel_left]

theorem decimal_step {out d : Nat} (small : d < 10) :
    leading out ++ [digit d] = decimal (out * 10 + d) := by
  by_cases zero : out * 10 + d = 0
  · obtain ⟨rfl, rfl⟩ : out = 0 ∧ d = 0 := by omega
    rfl
  · rw [decimal, if_neg zero, leading_pos (pos_of_ne_zero zero),
      show (out * 10 + d) / 10 = out by omega, show (out * 10 + d) % 10 = d by omega]

variable {rest s : List UInt8}

theorem component_sound {out : Nat} (read : getIpv4Component s out = some (b, rest)) :
    ∃ t, s = t ++ rest ∧ leading out ++ t = decimal b.toNat ∧ StopsAt rest := by
  induction s generalizing out with
  | nil => nomatch read
  | cons c s ih =>
    by_cases isDigit : 0x30 ≤ c ∧ c ≤ 0x39
    · obtain ⟨d, small, rfl⟩ := digit_test.mp isDigit
      rw [component_cons small] at read
      by_cases large : out * 10 + d > 255
      · rw [if_pos large] at read
        contradiction
      · rw [if_neg large] at read
        have step := @decimal_step out d small
        by_cases stops : peekChar s = dotChar ∨ peekChar s = 0
        · rw [if_pos stops, Option.some.injEq, Prod.mk.injEq] at read
          obtain ⟨rfl, rfl⟩ := read
          refine ⟨[digit d], rfl, ?_, stops⟩
          rw [step, UInt8.toNat_ofNat', Nat.mod_eq_of_lt (by omega)]
        · rw [if_neg stops] at read
          by_cases zero : out * 10 + d = 0
          · rw [if_pos zero] at read
            contradiction
          · rw [if_neg zero] at read
            obtain ⟨t, is, whole, ends⟩ := ih read
            refine ⟨digit d :: t, by rw [is]; rfl, ?_, ends⟩
            rw [decimal, if_neg zero] at step
            rw [← singleton_append, ← append_assoc, step, whole]
    · rw [getIpv4Component, if_pos isDigit] at read
      contradiction

theorem digit_stop (small : d < 10) (s : List UInt8) :
    ¬(peekChar (digit d :: s) = dotChar ∨ peekChar (digit d :: s) = 0) := by
  have value := digit_toNat small
  change ¬(digit d = dotChar ∨ digit d = 0)
  rintro (is | is)
  · rw [is] at value
    change 46 = _ at value
    omega
  · rw [is] at value
    change 0 = _ at value
    omega

theorem component_complete (b : UInt8) (stops : StopsAt rest) :
    getIpv4Component (decimal b.toNat ++ rest) 0 = some (b, rest) := by
  have byte := b.toNat_lt
  have final {out d : Nat} (small : d < 10) (is : out * 10 + d = b.toNat) :
      getIpv4Component (digit d :: rest) out = some (b, rest) := by
    have ended : peekChar rest = dotChar ∨ peekChar rest = 0 := stops
    rw [component_cons small, is, if_neg (by omega), if_pos ended, UInt8.ofNat_toNat]
  have more {out d : Nat} (small : d < 10) (pos : 0 < out * 10 + d) (within : out * 10 + d ≤ 255)
      {e : Nat} (small' : e < 10) (s : List UInt8) :
      getIpv4Component (digit d :: digit e :: s) out =
        getIpv4Component (digit e :: s) (out * 10 + d) := by
    rw [component_cons small, if_neg (by omega), if_neg (digit_stop small' s), if_neg (by omega)]
  by_cases one : b.toNat < 10
  · have text : decimal b.toNat = [digit b.toNat] := by
      have := @decimal_step 0 _ one
      rw [zero_mul, zero_add] at this
      rw [← this]
      rfl
    rw [text]
    exact final one (by omega)
  · by_cases two : b.toNat < 100
    · have text : decimal b.toNat = [digit (b.toNat / 10), digit (b.toNat % 10)] := by
        rw [decimal, if_neg (by omega), leading_pos (by omega), leading_pos (by omega),
          show b.toNat / 10 / 10 = 0 by omega, show b.toNat / 10 % 10 = b.toNat / 10 by omega]
        rfl
      rw [text]
      change getIpv4Component (digit (b.toNat / 10) :: digit (b.toNat % 10) :: rest) 0 = _
      rw [more (by omega) (by omega) (by omega) (by omega)]
      exact final (by omega) (by omega)
    · have text : decimal b.toNat =
          [digit (b.toNat / 100), digit (b.toNat / 10 % 10), digit (b.toNat % 10)] := by
        rw [decimal, if_neg (by omega), leading_pos (by omega), leading_pos (by omega),
          leading_pos (by omega), show b.toNat / 10 / 10 / 10 = 0 by omega,
          show b.toNat / 10 / 10 % 10 = b.toNat / 100 by omega]
        rfl
      rw [text]
      change getIpv4Component
        (digit (b.toNat / 100) :: digit (b.toNat / 10 % 10) :: digit (b.toNat % 10) :: rest) 0 = _
      rw [more (by omega) (by omega) (by omega) (by omega),
        more (by omega) (by omega) (by omega) (by omega)]
      exact final (by omega) (by omega)

theorem stops_dot (s : List UInt8) : StopsAt (dotChar :: s) := .inl rfl

theorem stops_nil : StopsAt [] := .inr rfl

theorem dot_some (read : getIpv4Dot s = some rest) : s = dotChar :: rest := by
  unfold getIpv4Dot at read
  by_cases is : peekChar s ≠ dotChar
  · rw [if_pos is] at read
    contradiction
  · rw [if_neg is, some.injEq] at read
    cases s with
    | nil => exact absurd (by decide) is
    | cons c s =>
      have head : c = dotChar := not_not.mp is
      rw [head, ← read]
      rfl

theorem component_first (read : getIpv4Component s 0 = some (b, rest)) :
    s = decimal b.toNat ++ rest := by
  obtain ⟨t, is, whole, _⟩ := component_sound read
  rw [leading_zero, nil_append] at whole
  rw [is, whole]

/-- Exactly the texts of four octets are read. -/
theorem ipv4FromAsc_iff {bytes : List UInt8} (text : 0 ∉ s) :
    ipv4FromAsc s = some bytes ↔ Ipv4Text s bytes := by
  constructor
  · intro read
    simp only [ipv4FromAsc, bind_eq_bind, bind_eq_some_iff, Prod.exists] at read
    obtain ⟨a, s1, readA, s2, dotA, b, s3, readB, s4, dotB, c, s5, readC, s6, dotC, d, s7, readD,
      ended⟩ := read
    by_cases more : peekChar s7 ≠ 0
    · rw [if_pos more] at ended
      contradiction
    · rw [if_neg more, Option.some.injEq] at ended
      have whole := component_first readA
      rw [dot_some dotA, component_first readB, dot_some dotB, component_first readC, dot_some dotC,
        component_first readD] at whole
      have none_ : s7 = [] := by
        cases s7 with
        | nil => rfl
        | cons c s7 =>
          have zero : c = 0 := not_not.mp more
          exact absurd (by rw [whole, zero]; simp) text
      rw [none_, append_nil] at whole
      exact ⟨a, b, c, d, whole, ended.symm⟩
  · rintro ⟨a, b, c, d, rfl, rfl⟩
    have dotted (s : List UInt8) : getIpv4Dot (dotChar :: s) = some s := rfl
    have last : getIpv4Component (decimal d.toNat) 0 = some (d, []) := by
      simpa using component_complete d stops_nil
    simp only [ipv4FromAsc, bind_eq_bind, component_complete _ (stops_dot _),
      bind_some, dotted, last]
    rfl

end Ipv4

section Members

variable {es : List (List UInt8)}

theorem joined_cons (e : List UInt8) (more : es ≠ []) :
    joined (e :: es) = e ++ colonChar :: joined es := by
  cases es with
  | nil => exact absurd rfl more
  | cons e' es => rfl

theorem joined_append {ls rs : List (List UInt8)} (someL : ls ≠ []) (someR : rs ≠ []) :
    joined (ls ++ rs) = joined ls ++ colonChar :: joined rs := by
  induction ls with
  | nil => exact absurd rfl someL
  | cons e ls ih =>
    cases ls with
    | nil => exact joined_cons e someR
    | cons e' ls =>
      rw [cons_append, joined_cons e (by simp), ih (by simp), joined_cons e (by simp)]
      simp

/-- Every text is a list of members without colons. -/
theorem members_exist (s : List UInt8) :
    ∃ es, es ≠ [] ∧ s = joined es ∧ ∀ e ∈ es, colonChar ∉ e := by
  induction s with
  | nil => exact ⟨[[]], by simp, rfl, by simp⟩
  | cons c s ih =>
    obtain ⟨es, some_, is, plain⟩ := ih
    by_cases colon : c = colonChar
    · refine ⟨[] :: es, by simp, ?_, ?_⟩
      · rw [joined_cons [] some_, colon, is]
        rfl
      · intro e member
        rcases mem_cons.mp member with rfl | rest
        · simp
        · exact plain e rest
    · cases es with
      | nil => exact absurd rfl some_
      | cons e es =>
        refine ⟨(c :: e) :: es, by simp, ?_, ?_⟩
        · rw [is]
          cases es with
          | nil => rfl
          | cons e' es => rfl
        · intro e' member
          rcases mem_cons.mp member with rfl | rest
          · rw [mem_cons]
            rintro (same | inside)
            · exact colon same.symm
            · exact plain e mem_cons_self inside
          · exact plain e' (mem_cons_of_mem e rest)

variable {e : List UInt8}

theorem starts_plain (plain : colonChar ∉ e) : memberStarts colonChar e = [] := by
  induction e with
  | nil => rfl
  | cons c e ih =>
    rw [mem_cons, not_or] at plain
    rw [memberStarts, if_neg (Ne.symm plain.1), ih plain.2]

theorem starts_colon (plain : colonChar ∉ e) (s : List UInt8) :
    memberStarts colonChar (e ++ colonChar :: s) = s :: memberStarts colonChar s := by
  induction e with
  | nil => simp [memberStarts]
  | cons c e ih =>
    rw [mem_cons, not_or] at plain
    rw [cons_append, memberStarts, if_neg (Ne.symm plain.1), ih plain.2]

theorem member_taken (plain : colonChar ∉ e) (es : List (List UInt8)) :
    (joined (e :: es)).takeWhile (· ≠ colonChar) = e := by
  have all : ∀ c ∈ e, (decide (c ≠ colonChar)) = true := by
    intro c member
    rw [decide_eq_true_eq]
    rintro rfl
    exact plain member
  cases es with
  | nil =>
    exact takeWhile_eq_self_iff.mpr all
  | cons e' es =>
    rw [joined_cons e (by simp), takeWhile_append_of_pos all]
    simp

def runMembers : List (List UInt8) → Ipv6Stat → Option Ipv6Stat
  | [], st => some st
  | e :: es, st => (confMember colonChar ipv6Cb st (joined (e :: es))).bind (runMembers es)

theorem confParse_runs (some_ : es ≠ []) (plain : ∀ e ∈ es, colonChar ∉ e) (st : Ipv6Stat) :
    confParseList (joined es) colonChar ipv6Cb st = runMembers es st := by
  induction es generalizing st with
  | nil => exact absurd rfl some_
  | cons e es ih =>
    have here := plain e mem_cons_self
    rw [confParseList, foldlM_cons, runMembers]
    cases es with
    | nil =>
      rw [show joined [e] = e from rfl, starts_plain here]
      rfl
    | cons e' es =>
      rw [show memberStarts colonChar (joined (e :: e' :: es)) =
        joined (e' :: es) :: memberStarts colonChar (joined (e' :: es)) from starts_colon here _]
      congr 1
      funext st'
      exact ih (by simp) (fun x member => plain x (mem_cons_of_mem e member)) st'

end Members

section Hex

theorem hexchar_small {c : UInt8} {x : Nat} (is : hexchar2int c = some x) : x < 16 := by
  unfold hexchar2int at is
  split at is
  · rename_i range
    have := UInt8.le_iff_toNat_le.mp range.2
    rw [← some.inj is]
    change _ ≤ 57 at this
    omega
  · split at is
    · rename_i range
      have := UInt8.le_iff_toNat_le.mp range.2
      rw [← some.inj is]
      change _ ≤ 102 at this
      omega
    · split at is
      · rename_i range
        have := UInt8.le_iff_toNat_le.mp range.2
        rw [← some.inj is]
        change _ ≤ 70 at this
        omega
      · contradiction

variable {e : List UInt8}

theorem hexLoop_reads (rest : List UInt8) {num : Nat} (small : (num + 1) * 16 ^ e.length ≤ 2 ^ 32) :
    hexLoop (e ++ rest) e.length num =
      (e.mapM hexchar2int).map (foldl (fun v x => v * 16 + x) num) := by
  induction e generalizing num with
  | nil =>
    cases rest with
    | nil => rfl
    | cons c rest => rfl
  | cons c e ih =>
    have nonzero : ((c :: e).length : Int) ≠ 0 := by
      rw [length_cons]
      omega
    rw [cons_append, hexLoop, if_neg nonzero, mapM_cons]
    cases is : hexchar2int c with
    | none => rfl
    | some x =>
      have digit := hexchar_small is
      rw [length_cons, pow_succ] at small
      have next : (num * 16 + x + 1) * 16 ^ e.length ≤ 2 ^ 32 := by
        calc (num * 16 + x + 1) * 16 ^ e.length
            ≤ ((num + 1) * 16) * 16 ^ e.length := Nat.mul_le_mul_right _ (by omega)
          _ = (num + 1) * (16 ^ e.length * 16) := by ring
          _ ≤ 2 ^ 32 := small
      have pos : 0 < 16 ^ e.length := Nat.pow_pos (by decide)
      have fits : num * 16 + x < 2 ^ 32 := by
        have := Nat.le_mul_of_pos_right (num * 16 + x + 1) pos
        omega
      have shorter : ((c :: e).length : Int) - 1 = e.length := by
        rw [length_cons]
        omega
      dsimp only
      rw [Nat.mod_eq_of_lt fits, shorter, ih next]
      cases e.mapM hexchar2int with
      | none => rfl
      | some digits => rfl

theorem ipv6Hex_iff (some_ : e ≠ []) (short : e.length ≤ 4) (rest : List UInt8) {b : List UInt8} :
    ipv6Hex (e ++ rest) e.length = some b ↔ HexText e b := by
  have small : (0 + 1) * 16 ^ e.length ≤ 2 ^ 32 := by
    have := Nat.pow_le_pow_right (n := 16) (by decide) short
    omega
  rw [ipv6Hex, if_neg (by omega), hexLoop_reads rest small]
  constructor
  · intro read
    cases are : e.mapM hexchar2int with
    | none =>
      rw [are] at read
      contradiction
    | some digits =>
      rw [are] at read
      exact ⟨some_, short, digits, are, (some.inj read).symm⟩
  · rintro ⟨_, _, digits, are, rfl⟩
    rw [are]
    rfl

end Hex

section Runs

variable {e : List UInt8}

variable {b : List UInt8}

theorem hexText_length (hex : HexText e b) : b.length = 2 := by
  obtain ⟨_, _, digits, _, rfl⟩ := hex
  rfl

theorem ipv4Text_length (v4 : Ipv4Text e b) : b.length = 4 ∧ 4 < e.length := by
  obtain ⟨w, x, y, z, rfl, rfl⟩ := v4
  refine ⟨rfl, ?_⟩
  have some_ (v : UInt8) := length_pos_of_ne_nil (decimal_ne_nil v.toNat)
  have := some_ y
  have := some_ z
  simp only [length_append, length_cons]
  omega

theorem groups_even {final : Bool} {es : List (List UInt8)} {bs : List UInt8}
    (groups : Groups final es bs) : bs.length % 2 = 0 ∧ (bs = [] ↔ es = []) := by
  induction groups with
  | none_ => simp
  | hex hex _ ih =>
    have two := hexText_length hex
    refine ⟨by rw [length_append]; omega, ?_⟩
    constructor
    · intro none_
      rw [append_eq_nil_iff] at none_
      rw [none_.1] at two
      contradiction
    · intro none_
      contradiction
  | v4 _ v4 =>
    have four := (ipv4Text_length v4).1
    refine ⟨by omega, ?_⟩
    constructor
    · rintro rfl
      contradiction
    · intro none_
      contradiction

/- A member that the reader can take: no colon, no end of string, and a length that is an int. -/
structure Plain (e : List UInt8) : Prop where
  colon : colonChar ∉ e
  text : 0 ∉ e
  short : e.length < 2 ^ 31

theorem intOf_short {n : Nat} (short : n < 2 ^ 31) : intOf n = n := by
  rw [intOf, Nat.mod_eq_of_lt (by omega), if_pos short]

theorem member_empty (es : List (List UInt8)) (st : Ipv6Stat) :
    confMember colonChar ipv6Cb st (joined ([] :: es)) = ipv6Cb [] 0 st := by
  rw [confMember, member_taken (by simp)]
  rfl

/-- A member with something in it is a group, or an address at the end. -/
theorem member_part (plain : Plain e) (some_ : e ≠ []) (es : List (List UInt8))
    (st st' : Ipv6Stat) : confMember colonChar ipv6Cb st (joined (e :: es)) = some st' ↔
      st.tmp.length ≠ 16 ∧ ∃ b, (HexText e b ∨ es = [] ∧ Ipv4Text e b ∧ st.tmp.length ≤ 12) ∧
        st' = { st with tmp := st.tmp ++ b } := by
  have pos := length_pos_of_ne_nil some_
  have tail : ∃ rest, joined (e :: es) = e ++ rest ∧ (es = [] → rest = []) ∧
      (es ≠ [] → ∃ s, rest = colonChar :: s) := by
    by_cases last : es = []
    · exact ⟨[], by rw [last, append_nil]; rfl, fun _ => rfl, fun more => absurd last more⟩
    · exact ⟨_, joined_cons e last, fun is => absurd is last, fun _ => ⟨_, rfl⟩⟩
  obtain ⟨rest, is, atEnd, more⟩ := tail
  rw [confMember, member_taken plain.colon, if_neg some_, intOf_short plain.short, is, ipv6Cb]
  by_cases full : st.tmp.length = 16
  · rw [if_pos full]
    exact iff_of_false (by simp) fun parts => parts.1 full
  · rw [if_neg full, if_neg (by omega)]
    by_cases long : e.length > 4
    · rw [if_pos (by omega)]
      by_cases wide : st.tmp.length > 12
      · rw [if_pos wide]
        refine iff_of_false (by simp) ?_
        rintro ⟨_, b, hex | ⟨_, _, room⟩, _⟩
        · have := hex.2.1
          omega
        · omega
      · rw [if_neg wide, Int.toNat_natCast]
        by_cases last : es = []
        · rw [atEnd last, append_nil, if_neg (by simp), map_eq_some_iff]
          constructor
          · rintro ⟨b, read, rfl⟩
            exact ⟨full, b, .inr ⟨last, (ipv4FromAsc_iff plain.text).mp read, by omega⟩, rfl⟩
          · rintro ⟨_, b, hex | ⟨_, v4, _⟩, rfl⟩
            · have := hex.2.1
              omega
            · exact ⟨b, (ipv4FromAsc_iff plain.text).mpr v4, rfl⟩
        · obtain ⟨s, rfl⟩ := more last
          have next : (e ++ colonChar :: s).getD e.length 0 ≠ 0 := by
            rw [getD_append_right _ _ _ _ (le_refl _), Nat.sub_self, getD_cons_zero]
            decide
          rw [if_pos next]
          refine iff_of_false (by simp) ?_
          rintro ⟨_, b, hex | ⟨ends, _⟩, _⟩
          · have := hex.2.1
            omega
          · exact last ends
    · rw [if_neg (by omega), map_eq_some_iff]
      constructor
      · rintro ⟨b, read, rfl⟩
        exact ⟨full, b, .inl ((ipv6Hex_iff some_ (by omega) rest).mp read), rfl⟩
      · rintro ⟨_, b, hex | ⟨_, v4, _⟩, rfl⟩
        · exact ⟨b, (ipv6Hex_iff some_ (by omega) rest).mpr hex, rfl⟩
        · have := (ipv4Text_length v4).2
          omega

theorem run_groups {ls rest : List (List UInt8)} (plain : ∀ e ∈ ls, Plain e)
    (filled : ∀ e ∈ ls, e ≠ []) {st st' : Ipv6Stat} (even : st.tmp.length % 2 = 0)
    (room : st.tmp.length ≤ 16) : runMembers (ls ++ rest) st = some st' ↔
      ∃ bs, Groups (rest.isEmpty) ls bs ∧ st.tmp.length + bs.length ≤ 16 ∧
        runMembers rest { st with tmp := st.tmp ++ bs } = some st' := by
  induction ls generalizing st with
  | nil =>
    constructor
    · intro ran
      exact ⟨[], Groups.none_, by simpa using room, by simpa using ran⟩
    · rintro ⟨bs, groups, _, ran⟩
      cases groups
      simpa using ran
  | cons e ls ih =>
    have plainE := plain e mem_cons_self
    have filledE := filled e mem_cons_self
    have plainL : ∀ x ∈ ls, Plain x := fun x m => plain x (mem_cons_of_mem e m)
    have filledL : ∀ x ∈ ls, x ≠ [] := fun x m => filled x (mem_cons_of_mem e m)
    rw [cons_append, runMembers, bind_eq_some_iff]
    constructor
    · rintro ⟨mid, here, ran⟩
      obtain ⟨notFull, b, part, rfl⟩ := (member_part plainE filledE _ st mid).mp here
      rcases part with hex | ⟨last, v4, twelve⟩
      · have two := hexText_length hex
        obtain ⟨bs, groups, within, ran⟩ :=
          (ih plainL filledL (by simp only [length_append]; omega)
            (by simp only [length_append]; omega)).mp ran
        simp only [length_append] at within
        refine ⟨b ++ bs, Groups.hex hex groups, by rw [length_append]; omega, ?_⟩
        simpa using ran
      · obtain ⟨rfl, rfl⟩ := append_eq_nil_iff.mp last
        have four := (ipv4Text_length v4).1
        exact ⟨b, Groups.v4 rfl v4, by omega, ran⟩
    · rintro ⟨bs, groups, within, ran⟩
      cases groups with
      | @hex _ b _ bs hex groups =>
        have two := hexText_length hex
        rw [length_append] at within
        refine ⟨{ st with tmp := st.tmp ++ b },
          (member_part plainE filledE _ st _).mpr ⟨by omega, b, .inl hex, rfl⟩, ?_⟩
        refine (ih plainL filledL (by simp only [length_append]; omega)
          (by simp only [length_append]; omega)).mpr ⟨bs, groups, ?_, ?_⟩
        · simp only [length_append]
          omega
        · simpa using ran
      | v4 final v4 =>
        have four := (ipv4Text_length v4).1
        have last : rest = [] := isEmpty_iff.mp final
        subst last
        exact ⟨_, (member_part plainE filledE _ st _).mpr
          ⟨by omega, bs, .inr ⟨rfl, v4, by omega⟩, rfl⟩, ran⟩

end Runs

section Zeros

variable {es : List (List UInt8)}

theorem groups_filled {final : Bool} {bs : List UInt8} (groups : Groups final es bs) :
    ∀ e ∈ es, e ≠ [] := by
  induction groups with
  | none_ => simp
  | hex hex _ ih =>
    intro e member
    rcases mem_cons.mp member with rfl | rest
    · exact hex.1
    · exact ih e rest
  | v4 _ v4 =>
    intro e member
    have long := (ipv4Text_length v4).2
    rw [mem_singleton.mp member]
    rintro rfl
    contradiction

theorem filled_front (es : List (List UInt8)) : ∃ ls rest, es = ls ++ rest ∧ (∀ e ∈ ls, e ≠ []) ∧
    (rest = [] ∨ ∃ more, rest = [] :: more) := by
  induction es with
  | nil => exact ⟨[], [], rfl, by simp, .inl rfl⟩
  | cons e es ih =>
    obtain ⟨ls, rest, is, filled, ends⟩ := ih
    by_cases empty : e = []
    · exact ⟨[], e :: es, rfl, by simp, .inr ⟨es, by rw [empty]⟩⟩
    · refine ⟨e :: ls, rest, by rw [is]; rfl, ?_, ends⟩
      intro x member
      rcases mem_cons.mp member with rfl | inside
      · exact empty
      · exact filled x inside

theorem empty_front (es : List (List UInt8)) : ∃ k rest, es = replicate k [] ++ rest ∧
    ∀ more, rest ≠ [] :: more := by
  induction es with
  | nil => exact ⟨0, [], rfl, by simp⟩
  | cons e es ih =>
    obtain ⟨k, rest, is, ends⟩ := ih
    by_cases empty : e = []
    · refine ⟨k + 1, rest, ?_, ends⟩
      rw [empty, is]
      rfl
    · refine ⟨0, e :: es, rfl, ?_⟩
      intro more same
      exact empty (cons.inj same).1

variable {a : List UInt8}

theorem run_first_zero : runMembers ([] :: es) ⟨a, none, 0⟩ =
      if a.length = 16 then none else runMembers es ⟨a, some a.length, 1⟩ := by
  rw [runMembers, member_empty, ipv6Cb]
  by_cases full : a.length = 16
  · rw [if_pos full, if_pos full]
    rfl
  · rw [if_neg full, if_neg full, if_pos rfl]
    rfl

theorem run_zeros (room : a.length ≠ 16) (rest : List (List UInt8)) (k n : Nat) :
    runMembers (replicate k [] ++ rest) ⟨a, some a.length, n⟩ =
      runMembers rest ⟨a, some a.length, n + k⟩ := by
  induction k generalizing n with
  | zero => rfl
  | succ k ih =>
    rw [replicate_succ, cons_append, runMembers, member_empty, ipv6Cb]
    rw [if_neg room, if_pos rfl]
    simp only [ne_eq, not_true_eq_false, if_false, bind_some]
    rw [ih, add_assoc, add_comm 1 k]

theorem run_late_zero {st : Ipv6Stat} {pos : Nat} (is : st.zeroPos = some pos)
    (late : pos ≠ st.tmp.length) : runMembers ([] :: es) st = none := by
  rw [runMembers, member_empty, ipv6Cb]
  by_cases full : st.tmp.length = 16
  · rw [if_pos full]
    rfl
  · rw [if_neg full, if_pos rfl, is]
    simp only [ne_eq, late, not_false_eq_true, if_true]
    rfl

/-- The members that are read: groups alone, or empty members in one place among them. -/
theorem run_shape (plain : ∀ e ∈ es, Plain e) (st : Ipv6Stat) :
    runMembers es ⟨[], none, 0⟩ = some st ↔
      (∃ a, Groups true es a ∧ a.length ≤ 16 ∧ st = ⟨a, none, 0⟩) ∨
      ∃ ls k rs a b, es = ls ++ (replicate (k + 1) [] ++ rs) ∧ Groups false ls a ∧
        Groups true rs b ∧ a.length ≠ 16 ∧ a.length + b.length ≤ 16 ∧
        st = ⟨a ++ b, some a.length, k + 1⟩ := by
  constructor
  · intro ran
    obtain ⟨ls, rest, rfl, filled, ends⟩ := filled_front es
    have plainL : ∀ e ∈ ls, Plain e := fun e m => plain e (mem_append_left _ m)
    obtain ⟨a, groups, within, ran⟩ := (run_groups plainL filled rfl (Nat.zero_le _)).mp ran
    rw [length_nil, zero_add] at within
    rcases ends with rfl | ⟨more, rfl⟩
    · left
      rw [append_nil]
      exact ⟨a, groups, within, (some.inj ran).symm⟩
    · right
      change runMembers ([] :: more) ⟨a, none, 0⟩ = _ at ran
      rw [run_first_zero] at ran
      by_cases full : a.length = 16
      · rw [if_pos full] at ran
        contradiction
      · rw [if_neg full] at ran
        obtain ⟨k, qs, rfl, stops⟩ := empty_front more
        rw [run_zeros full, add_comm] at ran
        obtain ⟨rs, rest, rfl, filledR, ends⟩ := filled_front qs
        have plainR : ∀ e ∈ rs, Plain e := fun e m => plain e
          (mem_append_right _ (mem_cons_of_mem _ (mem_append_right _ (mem_append_left _ m))))
        obtain ⟨b, groupsR, within', ran⟩ := (run_groups plainR filledR
          (by exact (groups_even groups).1) within).mp ran
        rcases ends with rfl | ⟨late, rfl⟩
        · refine ⟨ls, k, rs, a, b, ?_, groups, groupsR, full, within', (some.inj ran).symm⟩
          rw [append_nil]
          rfl
        · have some_ : rs ≠ [] := by
            rintro rfl
            exact stops late rfl
          have nonempty : b ≠ [] := fun none_ => some_ ((groups_even groupsR).2.mp none_)
          have pos := length_pos_of_ne_nil nonempty
          rw [run_late_zero rfl (by simp only [length_append]; omega)] at ran
          contradiction
  · rintro (⟨a, groups, within, rfl⟩ | ⟨ls, k, rs, a, b, rfl, groups, groupsR, room, within, rfl⟩)
    · have ran := (@run_groups es [] plain (groups_filled groups) ⟨[], none, 0⟩ ⟨a, none, 0⟩
        rfl (Nat.zero_le _)).mpr ⟨a, groups, by simpa using within, rfl⟩
      rwa [append_nil] at ran
    · have plainL : ∀ e ∈ ls, Plain e := fun e m => plain e (mem_append_left _ m)
      have plainR : ∀ e ∈ rs, Plain e := fun e m => plain e
        (mem_append_right _ (mem_append_right _ m))
      refine (run_groups plainL (groups_filled groups) rfl (Nat.zero_le _)).mpr
        ⟨a, groups, by rw [length_nil]; omega, ?_⟩
      change runMembers ([] :: (replicate k [] ++ rs)) ⟨a, none, 0⟩ = _
      rw [run_first_zero, if_neg room, run_zeros room, add_comm]
      have ran := (@run_groups rs [] plainR (groups_filled groupsR)
        ⟨a, some a.length, k + 1⟩ ⟨a ++ b, some a.length, k + 1⟩ (groups_even groups).1
        (by dsimp only; omega)).mpr ⟨b, groupsR, within, rfl⟩
      rwa [append_nil] at ran

end Zeros

end Ossl
