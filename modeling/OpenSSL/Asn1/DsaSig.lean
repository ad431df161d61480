import OpenSSL.Asn1.DsaSigRead

/- The signatures that crypto/asn1_dsa.c reads and writes: which of them are the encoding of
   their numbers. -/
namespace Ossl
open List BigEndian Codec RingWindow

section Signatures

def derSigContentWith (first second : List UInt8) (r s : Nat) : List UInt8 :=
  derSigIntegerWith first r ++ derSigIntegerWith second s

/-- The input begins with a signature that has these length octets. -/
structure SigFields (input : List UInt8) (r s : Nat) (outer first second rest : List UInt8) :
    Prop where
  sized : input.length ≤ maxU64 / 2
  split : input = netBytes 1 idSequence ++ outer ++ derSigContentWith first second r s ++ rest
  outer : LengthField (derSigContentWith first second r s).length outer
  first : LengthField (derContLen r) first
  second : LengthField (derContLen s) second

variable {n r s : Nat}

variable {input : List UInt8}

theorem decodeDerDsaSig_iff :
    osslDecodeDerDsaSig input = some (r, s, n) ↔ ∃ outer first second rest,
      SigFields input r s outer first second rest ∧ n = input.length - rest.length := by
  rw [osslDecodeDerDsaSig]
  constructor
  · intro run
    obtain ⟨_, sized, afterSize⟩ := Option.bind_eq_some_iff.mp run
    obtain ⟨⟨contpkt, pkt⟩, opened, afterOpen⟩ := Option.bind_eq_some_iff.mp afterSize
    obtain ⟨⟨⟨r', s'⟩, left⟩, integers, afterBoth⟩ := Option.bind_eq_some_iff.mp afterOpen
    obtain ⟨_, whole, last⟩ := Option.bind_eq_some_iff.mp afterBoth
    obtain ⟨rfl, rfl, rfl⟩ : r' = r ∧ s' = s ∧ input.length - pkt.length = n := by
      simpa using last
    have within : input.length ≤ maxU64 / 2 := by
      by_contra long
      rw [guard, if_neg long] at sized
      contradiction
    have all : left = [] := by
      by_contra more
      rw [guard, if_neg (mt length_eq_zero_iff.mp more)] at whole
      contradiction
    obtain ⟨tag, mid, isTag, afterTag⟩ := reader_bind.mp opened
    obtain ⟨_, tagged, isSequence, afterTest⟩ := reader_bind.mp afterTag
    obtain ⟨rfl, rfl⟩ := reader_guard.mp isSequence
    obtain ⟨outer, formOuter, isOuter⟩ := decodeDerLength_iff.mp afterTest
    obtain ⟨_, isInput⟩ := reader_get1.mp isTag
    obtain ⟨x, afterR, readR, restR⟩ := reader_bind.mp integers
    obtain ⟨y, afterS, readS, restS⟩ := reader_bind.mp restR
    obtain ⟨both, isLeft⟩ := Prod.mk.inj (Option.some.inj restS)
    obtain ⟨rfl, rfl⟩ := Prod.mk.inj both
    obtain ⟨first, formFirst, isContent⟩ := decodeDerInteger_iff.mp readR
    obtain ⟨second, formSecond, isSecond⟩ := decodeDerInteger_iff.mp readS
    rw [isLeft, all, append_nil] at isSecond
    rw [isSecond] at isContent
    refine ⟨outer, first, second, pkt, ⟨within, ?_, ?_, formFirst, formSecond⟩, rfl⟩
    · rw [isInput, isOuter, isContent, derSigContentWith]
      simp only [append_assoc]
    · rw [derSigContentWith, ← isContent]
      exact formOuter
  · intro found
    obtain ⟨outer, first, second, rest, fields, rfl⟩ := found
    have opened : (do
        let tag ← packetGet1
        guard (tag = idSequence)
        osslDecodeDerLength : PacketM Packet).run input =
          some (derSigContentWith first second r s, rest) := by
      apply reader_bind.mpr
      refine ⟨idSequence, outer ++ derSigContentWith first second r s ++ rest,
        reader_get1.mpr ⟨by decide, ?_⟩, reader_bind.mpr ⟨(), _, reader_guard.mpr ⟨rfl, rfl⟩,
          decodeDerLength_iff.mpr ⟨outer, fields.outer, rfl⟩⟩⟩
      rw [fields.split]
      simp only [append_assoc]
    have integers : (do
        let r ← osslDecodeDerInteger
        let s ← osslDecodeDerInteger
        pure (r, s) : PacketM (Nat × Nat)).run (derSigContentWith first second r s) =
          some ((r, s), []) := by
      apply reader_bind.mpr
      refine ⟨r, derSigIntegerWith second s, decodeDerInteger_iff.mpr ⟨first, fields.first, rfl⟩,
        reader_bind.mpr ⟨s, [], decodeDerInteger_iff.mpr ⟨second, fields.second, ?_⟩, rfl⟩⟩
      rw [append_nil]
    rw [guard, if_pos fields.sized]
    apply Option.bind_eq_some_iff.mpr
    refine ⟨(), rfl, Option.bind_eq_some_iff.mpr ⟨_, opened, Option.bind_eq_some_iff.mpr
      ⟨_, integers, ?_⟩⟩⟩
    rfl

def derSigStatic (data : Nat → UInt8) (r s : Int) : Option (List UInt8) := do
  let pkt ← wpacketInitStaticLen true data maxU64 0
  let (_, pkt) ← (do
    osslEncodeDerDsaSig r s
    wpacketFinish : WpacketM Unit).run pkt
  some (wpacketOut pkt)

def derSigNull (r s : Int) : Option Nat := do
  let pkt ← wpacketInitNull true 0
  let (written, _) ← (do
    osslEncodeDerDsaSig r s
    let written ← wpacketGetTotalWritten
    wpacketFinish
    pure written : WpacketM Nat).run pkt
  some written

theorem derLength_most (n : Nat) : (derLength n).length ≤ 3 := by
  rw [derLength]
  split_ifs <;> simp

theorem derSig_small (supported : (derSigContent r s).length ≤ 0xffff) :
    (derSig r s).length < 2 ^ 64 := by
  have short := derLength_most (derSigContent r s).length
  simp only [derSig, length_append, netBytes_length]
  omega

theorem derSigStatic_run (supported : (derSigContent r s).length ≤ 0xffff) (data : Nat → UInt8) :
    derSigStatic data r s = some (derSig r s) := by
  have small := derSig_small supported
  have top : maxU64 = 2 ^ 64 - 1 := rfl
  have limit : maxmaxsize 0 = maxU64 := by decide
  have init : wpacketInitStaticLen true data maxU64 0 =
      some ⟨.staticbuf, data, 0, 0, maxU64, [⟨0, 0, 0, 0⟩], false⟩ := by
    rw [wpacketInitStaticLen, if_neg (by decide), limit, if_neg (lt_irrefl _)]
    rfl
  have room : WpacketRoom ⟨.staticbuf, data, 0, 0, maxU64, [⟨0, 0, 0, 0⟩], false⟩
      (derSig r s).length :=
    ⟨rfl, .inr rfl, rfl, cons_ne_nil _ _, by dsimp only; omega, (by decide : maxU64 < 2 ^ 64)⟩
  rw [derSigStatic, init]
  apply Option.bind_eq_some_iff.mpr
  refine ⟨_, rfl, Option.bind_eq_some_iff.mpr ⟨_, runs_seq (encodeDerDsaSig_room supported room)
    (finish_room rfl), ?_⟩⟩
  have cells := readCells_write data 0 (derSig r s)
  rw [show readCells data 0 0 = [] from rfl, nil_append] at cells
  exact congrArg some cells

theorem derSigNull_run (supported : (derSigContent r s).length ≤ 0xffff) :
    derSigNull r s = some (derSig r s).length := by
  obtain ⟨pkt, init, null, subs, start, room⟩ := initNull_room (derSig_small supported)
  have written : (wpacketAppend pkt (derSig r s)).written = (derSig r s).length := by
    rw [wpacketAppend, start, zero_add]
  rw [derSigNull, init]
  apply Option.bind_eq_some_iff.mpr
  refine ⟨_, rfl, Option.bind_eq_some_iff.mpr ⟨_, runs_seq (encodeDerDsaSig_room supported room)
    (runs_seq (show wpacketGetTotalWritten.run _ = some (_, _) from rfl)
      (runs_seq (finish_room subs) rfl)), ?_⟩⟩
  exact congrArg some written

theorem lengthField_derLength (supported : n ≤ 0xffff) : LengthField n (derLength n) := by
  rw [derLength]
  split_ifs with long middle
  · exact .two (by omega)
  · exact .one (by omega)
  · exact .short (by omega)

theorem lengthField_shortest {field : List UInt8} (form : LengthField n field) :
    n ≤ 0xffff ∧ (derLength n).length ≤ field.length ∧
      ((derLength n).length = field.length → field = derLength n) := by
  have forms : (derLength n).length = if 0xff < n then 3 else if 0x7f < n then 2 else 1 := by
    rw [derLength]
    split_ifs <;> simp
  rw [forms]
  cases form with
  | short small =>
    have notLong : ¬ 0xff < n := by omega
    have notMiddle : ¬ 0x7f < n := by omega
    simp only [derLength, notLong, notMiddle, if_false, netBytes_length]
    exact ⟨by omega, le_refl 1, fun _ => trivial⟩
  | one small =>
    have notLong : ¬ 0xff < n := by omega
    simp only [derLength, notLong, if_false, length_append, netBytes_length]
    by_cases middle : 0x7f < n
    · simp only [middle, if_true]
      exact ⟨by omega, le_refl 2, fun _ => trivial⟩
    · simp only [middle, if_false]
      exact ⟨by omega, by decide, by simp⟩
  | two small =>
    simp only [derLength, length_append, netBytes_length]
    by_cases long : 0xff < n
    · simp only [long, if_true]
      exact ⟨by omega, le_refl 3, fun _ => trivial⟩
    · simp only [long, if_false]
      by_cases middle : 0x7f < n
      · simp only [middle, if_true]
        exact ⟨by omega, by decide, by simp⟩
      · simp only [middle, if_false]
        exact ⟨by omega, by decide, by simp⟩

theorem derLength_mono {m : Nat} (le : m ≤ n) : (derLength m).length ≤ (derLength n).length := by
  rw [derLength, derLength]
  split_ifs <;> simp <;> omega

/-- The shortest lengths make the shortest signature. -/
theorem sigFields_length {outer first second rest : List UInt8}
    (fields : SigFields input r s outer first second rest) : (derSigContent r s).length ≤ 0xffff ∧
    ((derSig r s).length = (netBytes 1 idSequence ++ outer ++
        derSigContentWith first second r s).length →
      first = derLength (derContLen r) ∧ second = derLength (derContLen s) ∧
        outer = derLength (derSigContent r s).length) := by
  obtain ⟨_, lessFirst, isFirst⟩ := lengthField_shortest fields.first
  obtain ⟨_, lessSecond, isSecond⟩ := lengthField_shortest fields.second
  obtain ⟨most, lessOuter, isOuter⟩ := lengthField_shortest fields.outer
  have shorter : (derSigContent r s).length ≤ (derSigContentWith first second r s).length := by
    simp only [derSigContent, derSigContentWith, derSigInteger, derSigIntegerWith, length_append]
    omega
  refine ⟨shorter.trans most, ?_⟩
  intro same
  have outerLess := derLength_mono shorter
  have parts : (derLength (derSigContent r s).length).length + (derSigContent r s).length =
      outer.length + (derSigContentWith first second r s).length := by
    simp only [derSig, length_append, netBytes_length] at same
    omega
  have content : (derSigContent r s).length = (derSigContentWith first second r s).length := by
    omega
  have inner : (derLength (derContLen r)).length = first.length ∧
      (derLength (derContLen s)).length = second.length := by
    simp only [derSigContent, derSigContentWith, derSigInteger, derSigIntegerWith,
      length_append] at content
    omega
  rw [content] at parts ⊢
  exact ⟨isFirst inner.1, isSecond inner.2, isOuter (by omega)⟩

/-- The writer gives these bytes on the buffer of the caller, and behind what it has on any
    other buffer that takes them. -/
def SigWrites (r s : Nat) (bytes : List UInt8) : Prop :=
  (∀ data, derSigStatic data r s = some bytes) ∧
    ∀ pkt pkt', WpacketReady pkt → (osslEncodeDerDsaSig r s).run pkt = some ((), pkt') →
      wpacketOut pkt' = wpacketOut pkt ++ bytes

/-- What is read is what would be written. -/
def SigCanonical (input : List UInt8) : Prop :=
  ∀ r s n, osslDecodeDerDsaSig input = some (r, s, n) → SigWrites r s (input.take n)

/-- What is written is read back, and the null writer reports its length. -/
def SigRoundTrips : Prop :=
  ∀ r s : Nat, (derSigContent r s).length ≤ 0xffff → ∃ bytes,
    SigWrites r s bytes ∧
    (∀ rest, (bytes ++ rest).length ≤ maxU64 / 2 →
      osslDecodeDerDsaSig (bytes ++ rest) = some (r, s, bytes.length)) ∧
    derSigNull r s = some bytes.length

/-- The three lengths of a signature that the input begins with are in the shortest form. -/
def SigLengthsShortest (input : List UInt8) : Prop :=
  ∀ r s outer first second rest, SigFields input r s outer first second rest →
    first = derLength (derContLen r) ∧ second = derLength (derContLen s) ∧
      outer = derLength (derSigContent r s).length

theorem derSig_writes (supported : (derSigContent r s).length ≤ 0xffff) :
    SigWrites r s (derSig r s) :=
  ⟨derSigStatic_run supported, fun _ _ ready run => (encodeDerDsaSig_puts ready supported run).out⟩

theorem sig_roundTrips : SigRoundTrips := by
  intro r s supported
  refine ⟨derSig r s, derSig_writes supported, ?_, derSigNull_run supported⟩
  intro rest sized
  apply decodeDerDsaSig_iff.mpr
  have parts := supported
  rw [derSigContent, length_append] at parts
  refine ⟨derLength (derSigContent r s).length, derLength (derContLen r), derLength (derContLen s),
    rest, ⟨sized, rfl, lengthField_derLength supported,
      lengthField_derLength (derInteger_supported (by omega)),
      lengthField_derLength (derInteger_supported (by omega))⟩, ?_⟩
  rw [length_append, Nat.add_sub_cancel]

/-- Signatures are read back, and those that are accepted are what would be written for their
    numbers just when their lengths are in the shortest form. -/
theorem derDsaSig_exact (input : List UInt8) :
    (SigCanonical input ∧ SigRoundTrips) ↔ SigLengthsShortest input := by
  rw [and_iff_left sig_roundTrips]
  have taken : ∀ {r s outer first second rest}, SigFields input r s outer first second rest →
      input.take (input.length - rest.length) =
        netBytes 1 idSequence ++ outer ++ derSigContentWith first second r s := by
    intro r s outer first second rest fields
    rw [fields.split, length_append, Nat.add_sub_cancel, take_left]
  constructor
  · intro canonical r s outer first second rest fields
    obtain ⟨supported, shortest⟩ := sigFields_length fields
    have accepted := decodeDerDsaSig_iff.mpr ⟨outer, first, second, rest, fields, rfl⟩
    have written := (canonical r s _ accepted).1 fun _ => 0
    rw [derSigStatic_run supported, taken fields] at written
    exact shortest (congrArg List.length (Option.some.inj written))
  · intro shortest r s n accepted
    obtain ⟨outer, first, second, rest, fields, rfl⟩ := decodeDerDsaSig_iff.mp accepted
    obtain ⟨isFirst, isSecond, isOuter⟩ := shortest r s outer first second rest fields
    rw [taken fields, isFirst, isSecond, isOuter]
    exact derSig_writes (sigFields_length fields).1

theorem derDsaSig_longLength :
    ¬ (SigCanonical [0x30, 0x81, 0x06, 0x02, 0x01, 0x01, 0x02, 0x01, 0x01] ∧ SigRoundTrips) := by
  intro both
  have accepted : osslDecodeDerDsaSig [0x30, 0x81, 0x06, 0x02, 0x01, 0x01, 0x02, 0x01, 0x01] =
      some (1, 1, 9) := by decide +kernel
  have written := (both.1 1 1 9 accepted).1 fun _ => 0
  rw [derSigStatic_run (by decide +kernel)] at written
  exact absurd written (by decide +kernel)

end Signatures
end Ossl
