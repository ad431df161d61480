import Mathlib.Tactic.IntervalCases
import OpenSSL.X509.IpAscLaws

/- The text of an address is read exactly, but for a single colon. -/
namespace Ossl
open Nat List Decimal

section Reading

def members (s : List UInt8) : List (List UInt8) :=
  (s :: memberStarts colonChar s).map (takeWhile (· ≠ colonChar))

variable {es : List (List UInt8)} {e s v : List UInt8} {c : UInt8}

theorem members_joined (some_ : es ≠ []) (plain : ∀ e ∈ es, colonChar ∉ e) :
    members (joined es) = es := by
  induction es with
  | nil => exact absurd rfl some_
  | cons e es ih =>
    have here := plain e mem_cons_self
    rw [members, map_cons, member_taken here]
    cases es with
    | nil =>
      rw [show joined [e] = e from rfl, starts_plain here]
      rfl
    | cons e' es =>
      rw [joined_cons e (by simp), starts_colon here]
      congr 1
      exact ih (by simp) fun x member => plain x (mem_cons_of_mem e member)

def zeroShape (ls rs : List (List UInt8)) : List (List UInt8) :=
  (if ls = [] then [[]] else ls) ++ [] :: (if rs = [] then [[]] else rs)

theorem joined_shape (ls rs : List (List UInt8)) :
    joined (zeroShape ls rs) = joined ls ++ colonChar :: colonChar :: joined rs := by
  have right : joined ([] :: (if rs = [] then [[]] else rs)) =
      colonChar :: joined rs := by
    by_cases noneR : rs = []
    · rw [if_pos noneR, noneR]
      rfl
    · rw [if_neg noneR, joined_cons [] noneR, nil_append]
  rw [zeroShape, joined_append (by split <;> simp_all) (by simp), right]
  by_cases noneL : ls = []
  · rw [if_pos noneL, noneL]
    rfl
  · rw [if_neg noneL]

/- How many empty members the reader takes, by what stands around them. -/
def ZerosTaken (n : Nat) (ls rs : List (List UInt8)) : Prop :=
  (n = 1 ∧ ls ≠ [] ∧ rs ≠ []) ∨ (n = 2 ∧ (ls = [] ∨ rs = [])) ∨ (n = 3 ∧ ls = [] ∧ rs = [])

variable {ls rs : List (List UInt8)}

theorem zerosTaken_iff : (∃ n, es = ls ++ (replicate n [] ++ rs) ∧ ZerosTaken n ls rs) ↔
      es = zeroShape ls rs ∨ (es = [[], []] ∧ ls = [] ∧ rs = []) := by
  constructor
  · rintro ⟨n, rfl, ⟨rfl, someL, someR⟩ | ⟨rfl, side⟩ | ⟨rfl, rfl, rfl⟩⟩
    · left
      rw [zeroShape, if_neg someL, if_neg someR]
      rfl
    · by_cases noneL : ls = []
      · by_cases noneR : rs = []
        · right
          exact ⟨by rw [noneL, noneR]; rfl, noneL, noneR⟩
        · left
          rw [zeroShape, if_pos noneL, if_neg noneR, noneL]
          rfl
      · left
        have noneR : rs = [] := side.resolve_left noneL
        rw [zeroShape, if_neg noneL, if_pos noneR, noneR]
        rfl
    · left
      rfl
  · rintro (rfl | ⟨rfl, rfl, rfl⟩)
    · by_cases noneL : ls = []
      · by_cases noneR : rs = []
        · exact ⟨3, by rw [noneL, noneR]; rfl, .inr (.inr ⟨rfl, noneL, noneR⟩)⟩
        · refine ⟨2, ?_, .inr (.inl ⟨rfl, .inl noneL⟩)⟩
          rw [zeroShape, if_pos noneL, if_neg noneR, noneL]
          rfl
      · by_cases noneR : rs = []
        · refine ⟨2, ?_, .inr (.inl ⟨rfl, .inr noneR⟩)⟩
          rw [zeroShape, if_neg noneL, if_pos noneR, noneR]
          rfl
        · refine ⟨1, ?_, .inl ⟨rfl, noneL, noneR⟩⟩
          rw [zeroShape, if_neg noneL, if_neg noneR]
          rfl
    · exact ⟨2, rfl, .inr (.inl ⟨rfl, .inl rfl⟩)⟩

theorem ipv6FromAsc_joined (some_ : es ≠ []) (plain : ∀ e ∈ es, Plain e) :
    ipv6FromAsc (joined es) = some v ↔
      (Groups true es v ∧ v.length = 16) ∨
      ∃ n ls rs a b, es = ls ++ (replicate n [] ++ rs) ∧ ZerosTaken n ls rs ∧
        Groups false ls a ∧ Groups true rs b ∧ a.length + b.length ≤ 14 ∧
        v = a ++ replicate (16 - (a.length + b.length)) 0 ++ b := by
  have runs := confParse_runs some_ (fun e m => (plain e m).colon) ⟨[], none, 0⟩
  rw [ipv6FromAsc, runs]
  constructor
  · intro read
    cases ran : runMembers es ⟨[], none, 0⟩ with
    | none =>
      rw [ran] at read
      contradiction
    | some st =>
      rw [ran] at read
      rcases (run_shape plain st).mp ran with ⟨a, groups, _, rfl⟩ |
        ⟨ls, k, rs, a, b, is, groupsL, groupsR, _, within, rfl⟩
      · by_cases all : a.length = 16
        · simp only [ne_eq, all, not_true_eq_false, if_false, Option.some.injEq] at read
          rw [← read]
          exact .inl ⟨groups, all⟩
        · simp only [ne_eq, all, not_false_eq_true, if_true] at read
          contradiction
      · right
        have evenL := groups_even groupsL
        have evenR := groups_even groupsR
        have emptyL : a.length = 0 ↔ ls = [] := by rw [length_eq_zero_iff, evenL.2]
        have emptyR : b.length = 0 ↔ rs = [] := by rw [length_eq_zero_iff, evenR.2]
        simp only [length_append, take_left, drop_left] at read
        split_ifs at read with full many alone between ends
        refine ⟨k + 1, ls, rs, a, b, is, ?_, groupsL, groupsR, by omega, ?_⟩
        · simp only [ZerosTaken, ne_eq, ← emptyL, ← emptyR]
          omega
        · exact (Option.some.inj read).symm
  · rintro (⟨groups, all⟩ | ⟨n, ls, rs, a, b, is, taken, groupsL, groupsR, room, rfl⟩)
    · rw [(run_shape plain _).mpr (.inl ⟨v, groups, by omega, rfl⟩)]
      simp only [ne_eq, all, not_true_eq_false, if_false]
    · have evenL := groups_even groupsL
      have evenR := groups_even groupsR
      have emptyL : a.length = 0 ↔ ls = [] := by rw [length_eq_zero_iff, evenL.2]
      have emptyR : b.length = 0 ↔ rs = [] := by rw [length_eq_zero_iff, evenR.2]
      simp only [ZerosTaken, ne_eq, ← emptyL, ← emptyR] at taken
      obtain ⟨k, rfl⟩ : ∃ k, n = k + 1 := ⟨n - 1, by omega⟩
      rw [(run_shape plain _).mpr (.inr ⟨ls, k, rs, a, b, is, groupsL, groupsR, by omega,
        by omega, rfl⟩)]
      simp only [length_append, take_left, drop_left]
      rw [if_neg (by omega), if_neg (by omega), if_neg (by omega), if_neg (by omega),
        if_neg (by omega)]

theorem hexText_plain {b : List UInt8} (hex : HexText e b) : Plain e := by
  obtain ⟨_, short, digits, are, _⟩ := hex
  have digit {c : UInt8} (member : c ∈ e) : hexchar2int c ≠ none := by
    intro none_
    obtain ⟨pre, post, rfl⟩ := append_of_mem member
    rw [mapM_append, mapM_cons, none_] at are
    cases first : pre.mapM hexchar2int with
    | none =>
      rw [first] at are
      contradiction
    | some xs =>
      rw [first] at are
      contradiction
  exact ⟨fun member => digit member rfl, fun member => digit member rfl, by omega⟩

theorem decimal_plain (b : UInt8) (other : c = colonChar ∨ c = 0) : c ∉ decimal b.toNat := by
  intro member
  obtain ⟨d, small, rfl⟩ := mem_decimal member
  have value := digit_toNat small
  rcases other with is | is
  · rw [is] at value
    change 58 = _ at value
    omega
  · rw [is] at value
    change 0 = _ at value
    omega

theorem ipv4Text_without (v4 : Ipv4Text s v) (other : c = colonChar ∨ c = 0) : c ∉ s := by
  obtain ⟨w, x, y, z, rfl, _⟩ := v4
  have dot : c ≠ dotChar := by
    rcases other with rfl | rfl
    · decide
    · decide
  simp only [mem_append, mem_cons, not_or]
  exact ⟨decimal_plain w other, dot, decimal_plain x other, dot, decimal_plain y other, dot,
    decimal_plain z other⟩

theorem decimal_octet (b : UInt8) : (decimal b.toNat).length ≤ 3 := by
  have byte := b.toNat_lt
  rw [decimal]
  split
  · exact (by decide : 1 ≤ 3)
  · rw [leading, length_map, length_reverse, digits_length_le_iff (by decide)]
    omega

theorem ipv4Text_plain (v4 : Ipv4Text s v) : Plain s := by
  refine ⟨ipv4Text_without v4 (.inl rfl), ipv4Text_without v4 (.inr rfl), ?_⟩
  obtain ⟨w, x, y, z, rfl, _⟩ := v4
  have := decimal_octet w
  have := decimal_octet x
  have := decimal_octet y
  have := decimal_octet z
  simp only [length_append, length_cons]
  omega

theorem groups_plain {final : Bool} {bs : List UInt8} (groups : Groups final es bs) :
    ∀ e ∈ es, Plain e := by
  induction groups with
  | none_ => simp
  | hex hex _ ih =>
    intro e member
    rcases mem_cons.mp member with rfl | rest
    · exact hexText_plain hex
    · exact ih e rest
  | v4 _ v4 =>
    intro e member
    rw [mem_singleton.mp member]
    exact ipv4Text_plain v4

theorem shape_plain (plainL : ∀ e ∈ ls, Plain e) (plainR : ∀ e ∈ rs, Plain e) :
    ∀ e ∈ zeroShape ls rs, Plain e := by
  have empty : Plain [] := ⟨by simp, by simp, by decide⟩
  intro e member
  rw [zeroShape, mem_append, mem_cons] at member
  rcases member with left | rfl | right
  · split at left
    · rwa [mem_singleton.mp left]
    · exact plainL e left
  · exact empty
  · split at right
    · rwa [mem_singleton.mp right]
    · exact plainR e right

theorem joined_mem (member : e ∈ es) (inside : c ∈ e) : c ∈ joined es := by
  induction es with
  | nil => nomatch member
  | cons x es ih =>
    by_cases last : es = []
    · rw [last] at member ⊢
      rw [mem_singleton.mp member] at inside
      exact inside
    · rw [joined_cons x last, mem_append, mem_cons]
      rcases mem_cons.mp member with rfl | rest
      · exact .inl inside
      · exact .inr (.inr (ih rest))

theorem member_length (member : e ∈ es) : e.length ≤ (joined es).length := by
  induction es with
  | nil => nomatch member
  | cons x es ih =>
    by_cases last : es = []
    · rw [last] at member ⊢
      rw [mem_singleton.mp member]
      exact le_refl _
    · rw [joined_cons x last, length_append, length_cons]
      rcases mem_cons.mp member with rfl | rest
      · omega
      · have := ih rest
        omega

/-- What is read with a colon is an address, or nothing but the colon. -/
theorem ipv6FromAsc_iff (text : 0 ∉ s) (short : s.length < 2 ^ 31) :
    ipv6FromAsc s = some v ↔ Ipv6Text s v ∨ (s = [colonChar] ∧ v = replicate 16 0) := by
  obtain ⟨es, some_, rfl, colonFree⟩ := members_exist s
  have are := members_joined some_ colonFree
  have plain : ∀ e ∈ es, Plain e := by
    intro e member
    have within := member_length member
    exact ⟨colonFree e member, fun zero => text (joined_mem member zero), by omega⟩
  rw [ipv6FromAsc_joined some_ plain]
  constructor
  · rintro (⟨groups, all⟩ | ⟨n, ls, rs, a, b, is, taken, groupsL, groupsR, room, rfl⟩)
    · exact .inl (.inl ⟨es, groups, all, rfl⟩)
    · rcases zerosTaken_iff.mp ⟨n, is, taken⟩ with rfl | ⟨rfl, rfl, rfl⟩
      · exact .inl (.inr ⟨ls, rs, a, b, groupsL, groupsR, room, joined_shape ls rs, rfl⟩)
      · cases groupsL
        cases groupsR
        exact .inr ⟨rfl, rfl⟩
  · rintro ((⟨es', groups, all, same⟩ | ⟨ls, rs, a, b, groupsL, groupsR, room, same, rfl⟩) |
      ⟨same, rfl⟩)
    · left
      have some' : es' ≠ [] := by
        rintro rfl
        cases groups
        contradiction
      have here := members_joined some' fun e member => (groups_plain groups e member).colon
      rw [← same, are] at here
      rw [here]
      exact ⟨groups, all⟩
    · right
      have plain' := shape_plain (groups_plain groupsL) (groups_plain groupsR)
      have here := members_joined (by simp [zeroShape]) fun e member => (plain' e member).colon
      rw [joined_shape, ← same, are] at here
      obtain ⟨n, is, taken⟩ := zerosTaken_iff.mpr (.inl here)
      exact ⟨n, ls, rs, a, b, is, taken, groupsL, groupsR, room, rfl⟩
    · right
      rw [same] at are
      have here : es = [[], []] := are.symm
      obtain ⟨n, is, taken⟩ := zerosTaken_iff.mpr (.inr ⟨here, rfl, rfl⟩)
      exact ⟨n, [], [], [], [], is, taken, Groups.none_, Groups.none_, by decide, rfl⟩

end Reading

section Exact

theorem groups_length {final : Bool} {e : List UInt8} {bs : List UInt8}
    (groups : Groups final [e] bs) : bs.length ≤ 4 := by
  cases groups with
  | hex hex rest =>
    cases rest
    rw [append_nil, hexText_length hex]
    decide
  | v4 _ v4 => exact (ipv4Text_length v4).1.le

variable {s v : List UInt8}

theorem ipv6Text_colon (v6 : Ipv6Text s v) : colonChar ∈ s := by
  rcases v6 with ⟨es, groups, all, rfl⟩ | ⟨ls, rs, a, b, _, _, _, rfl, _⟩
  · cases es with
    | nil =>
      cases groups
      contradiction
    | cons e es =>
      cases es with
      | nil =>
        have := groups_length groups
        omega
      | cons e' es =>
        rw [joined_cons e (by simp)]
        simp
  · simp

theorem ipv6Text_length (v6 : Ipv6Text s v) : v.length = 16 := by
  rcases v6 with ⟨es, groups, all, rfl⟩ | ⟨ls, rs, a, b, _, _, room, rfl, rfl⟩
  · exact all
  · simp only [length_append, length_replicate]
    omega

theorem a2iIpadd_iff {s v : List UInt8} (text : 0 ∉ s)
    (short : colonChar ∈ s → s.length < 2 ^ 31) : a2iIpadd s = some v ↔
      Ipv4Text s v ∨ Ipv6Text s v ∨ (s = [colonChar] ∧ v = replicate 16 0) := by
  rw [a2iIpadd]
  by_cases colon : colonChar ∈ s
  · rw [if_pos colon, ipv6FromAsc_iff text (short colon)]
    exact ⟨.inr, fun parts => parts.resolve_left fun v4 =>
      ipv4Text_without v4 (.inl rfl) colon⟩
  · rw [if_neg colon, ipv4FromAsc_iff text]
    refine ⟨.inl, fun parts => parts.resolve_right ?_⟩
    rintro (v6 | ⟨rfl, _⟩)
    · exact colon (ipv6Text_colon v6)
    · exact colon (by simp)

/- What ossl_a2i_ipadd is for: four bytes for one grammar, sixteen for the other, else none. -/
def TextExact (s : List UInt8) : Prop :=
  ∀ v, ((a2iIpadd s = some v ∧ v.length = 4) ↔ Ipv4Text s v) ∧
    ((a2iIpadd s = some v ∧ v.length = 16) ↔ Ipv6Text s v) ∧
    (a2iIpadd s = some v → v.length = 4 ∨ v.length = 16)

theorem colon_alone (v : List UInt8) : ¬Ipv6Text [colonChar] v := by
  rintro (⟨es, groups, all, same⟩ | ⟨ls, rs, a, b, _, _, _, same, _⟩)
  · have some_ : es ≠ [] := by
      rintro rfl
      cases groups
      contradiction
    have here := members_joined some_ fun e member => (groups_plain groups e member).colon
    rw [← same] at here
    have empty : [] ∈ es := by
      rw [← here]
      decide
    exact groups_filled groups [] empty rfl
  · have := congrArg length same
    simp only [length_append, length_cons, length_nil] at this
    omega

end Exact

section Printed

theorem hexchar_upper {d : Nat} (small : d < 16) : hexchar2int (hexUpper d) = some d := by
  interval_cases d <;> rfl

theorem upper_digits {ds : List Nat} (small : ∀ d ∈ ds, d < 16) :
    (ds.map hexUpper).mapM hexchar2int = some ds := by
  induction ds with
  | nil => rfl
  | cons d ds ih =>
    rw [map_cons, mapM_cons, hexchar_upper (small d mem_cons_self),
      ih fun x member => small x (mem_cons_of_mem d member)]
    rfl

/-- A numeral that was printed is the text of its two bytes. -/
theorem hexNumeral_text (a b : UInt8) : HexText (hexNumeral (a.toNat * 256 + b.toNat)) [a, b] := by
  have byteA := a.toNat_lt
  have byteB := b.toNat_lt
  have bytes {v : Nat} (is : v = a.toNat * 256 + b.toNat) :
      [a, b] = [UInt8.ofNat (v / 256), UInt8.ofNat v] := by
    have high : UInt8.ofNat (v / 256) = a := by
      rw [is, show (a.toNat * 256 + b.toNat) / 256 = a.toNat by omega, UInt8.ofNat_toNat]
    have low : UInt8.ofNat v = b := by
      apply UInt8.toNat_inj.mp
      rw [UInt8.toNat_ofNat', is]
      omega
    rw [high, low]
  rw [hexNumeral]
  by_cases zero : a.toNat * 256 + b.toNat = 0
  · rw [if_pos zero]
    exact ⟨by simp, by decide, [0], rfl, bytes zero.symm⟩
  · rw [if_neg zero]
    refine ⟨?_, ?_, _, upper_digits ?_, bytes ?_⟩
    · rw [ne_eq, map_eq_nil_iff, reverse_eq_nil_iff]
      exact digits_ne_nil_iff_ne_zero.mpr zero
    · rw [length_map, length_reverse, digits_length_le_iff (by decide)]
      omega
    · intro d member
      exact digits_lt_base (by decide) (mem_reverse.mp member)
    · rw [foldl_reverse]
      calc _ = ofDigits 16 (digits 16 (a.toNat * 256 + b.toNat)) := by
            rw [ofDigits_eq_foldr]
            congr 1
            funext x v
            simp only [cast_id]
            ring
        _ = a.toNat * 256 + b.toNat := ofDigits_digits _ _

def printedGroups : List UInt8 → List (List UInt8)
  | a :: b :: p => hexNumeral (a.toNat * 256 + b.toNat) :: printedGroups p
  | _ => []

variable {p : List UInt8}

theorem printed_groups (n : Nat) (even : p.length = 2 * n) :
    Groups true (printedGroups p) p ∧ ipv6Groups p = joined (printedGroups p) := by
  induction n generalizing p with
  | zero =>
    rw [eq_nil_of_length_eq_zero even]
    exact ⟨Groups.none_, rfl⟩
  | succ n ih =>
    match p, even with
    | a :: b :: p, even =>
      have rest : p.length = 2 * n := by
        simp only [length_cons] at even
        omega
      obtain ⟨groups, text⟩ := ih rest
      refine ⟨Groups.hex (hexNumeral_text a b) groups, ?_⟩
      match p, rest with
      | [], _ => rfl
      | c :: p, rest =>
        have more : printedGroups (c :: p) ≠ [] := by
          intro none_
          have := (groups_even groups).2.mpr none_
          contradiction
        rw [ipv6Groups, printedGroups, joined_cons _ more, text]

/-- The text of four or sixteen bytes is read as these bytes. -/
theorem printed_reads (length : p.length = 4 ∨ p.length = 16) :
    ∃ t, ipaddrToAsc p = some t ∧ a2iIpadd t = some p := by
  rcases length with four | sixteen
  · match p, four with
    | [a, b, c, d], _ =>
      have v4 : Ipv4Text _ [a, b, c, d] := ⟨a, b, c, d, rfl, rfl⟩
      have noColon := ipv4Text_without v4 (.inl rfl)
      refine ⟨_, rfl, ?_⟩
      rw [a2iIpadd, if_neg noColon]
      exact (ipv4FromAsc_iff (ipv4Text_without v4 (.inr rfl))).mpr v4
  · obtain ⟨groups, text⟩ := printed_groups 8 sixteen
    have v6 : Ipv6Text (ipv6Groups p) p := .inl ⟨_, groups, sixteen, text⟩
    have some_ : printedGroups p ≠ [] := by
      intro none_
      have := (groups_even groups).2.mpr none_
      rw [this] at sixteen
      contradiction
    refine ⟨ipv6Groups p, ?_, ?_⟩
    · match p, sixteen with
      | a :: b :: c :: d :: e :: p, sixteen => exact if_pos sixteen
    · rw [a2iIpadd, if_pos (ipv6Text_colon v6), text]
      exact (ipv6FromAsc_joined some_ (groups_plain groups)).mpr (.inl ⟨groups, sixteen⟩)

end Printed

/-- The text of an address is parsed exactly when it is no colon alone, and a text that was printed
is parsed as the bytes it was printed for. -/
theorem ip_text_exact {s : List UInt8} (text : 0 ∉ s)
    (short : colonChar ∈ s → s.length < 2 ^ 31) : (TextExact s ↔ s ≠ [colonChar]) ∧
      ∀ p : List UInt8, p.length = 4 ∨ p.length = 16 →
        ∃ t, ipaddrToAsc p = some t ∧ a2iIpadd t = some p := by
  refine ⟨⟨?_, ?_⟩, fun p => printed_reads⟩
  · rintro exact_ rfl
    exact colon_alone _ ((exact_ (replicate 16 0)).2.1.mp ⟨by decide, rfl⟩)
  · intro other v
    have read := @a2iIpadd_iff s v text short
    have four (v4 : Ipv4Text s v) : v.length = 4 := by
      obtain ⟨_, _, _, _, _, rfl⟩ := v4
      rfl
    have sixteen : Ipv6Text s v → v.length = 16 := ipv6Text_length
    refine ⟨⟨?_, fun v4 => ⟨read.mpr (.inl v4), four v4⟩⟩,
      ⟨?_, fun v6 => ⟨read.mpr (.inr (.inl v6)), sixteen v6⟩⟩, ?_⟩
    · rintro ⟨is, length⟩
      rcases read.mp is with v4 | v6 | ⟨colon, _⟩
      · exact v4
      · have := sixteen v6
        omega
      · exact absurd colon other
    · rintro ⟨is, length⟩
      rcases read.mp is with v4 | v6 | ⟨colon, _⟩
      · have := four v4
        omega
      · exact v6
      · exact absurd colon other
    · intro is
      rcases read.mp is with v4 | v6 | ⟨colon, _⟩
      · exact .inl (four v4)
      · exact .inr (sixteen v6)
      · exact absurd colon other

theorem ip_text_exact_loopback : TextExact [0x3a, 0x3a, 0x31] :=
  (ip_text_exact (by decide) fun _ => by decide).1.mpr (by decide)

/-- A colon alone is read as sixteen zero bytes, which it is no text of. -/
theorem colon_read : a2iIpadd [colonChar] = some (replicate 16 0) ∧
    (replicate 16 (0 : UInt8)).length = 16 ∧ ¬TextExact [colonChar] := by
  refine ⟨by decide, rfl, ?_⟩
  intro exact_
  exact colon_alone _ ((exact_ (replicate 16 0)).2.1.mp ⟨by decide, rfl⟩)

end Ossl
