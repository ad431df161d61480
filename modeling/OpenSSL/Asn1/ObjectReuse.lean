import OpenSSL.Asn1.Object

/- What an ASN1_OBJECT holds beside its contents, and how ossl_c2i_ASN1_OBJECT of
   crypto/asn1/a_object.c decodes into one that is there already. Memory is never short. -/
namespace Ossl
open Option

def nidUndef : Nat := 0

/- data is a null pointer or a buffer, of which the first length octets are the contents. -/
structure Asn1ObjectSt where
  sn : Option (List UInt8)
  ln : Option (List UInt8)
  nid : Nat
  length : Nat
  data : Option (List UInt8)
  dynamic : Bool
  critical : Bool
  dynamicStrings : Bool
  dynamicData : Bool
  deriving DecidableEq

def Asn1ObjectSt.contents (o : Asn1ObjectSt) : List UInt8 := (o.data.getD []).take o.length

/- The known objects, built in and added: the NID that contents are registered under, and the
   object of a NID. -/
structure ObjTable where
  nidOf : List UInt8 → Nat
  nid2obj : Nat → Option Asn1ObjectSt

def osslObjObj2nid (table : ObjTable) (o : Asn1ObjectSt) : Nat :=
  if o.nid ≠ nidUndef then o.nid
  else if o.length = 0 then nidUndef
  else table.nidOf o.contents

def asn1ObjectNew : Asn1ObjectSt where
  sn := none
  ln := none
  nid := nidUndef
  length := 0
  data := none
  dynamic := true
  critical := false
  dynamicStrings := false
  dynamicData := false

def objDup (o : Asn1ObjectSt) : Asn1ObjectSt :=
  if o.dynamic = false then o
  else
    { o with
      data := if 0 < o.length then some o.contents else none
      dynamicStrings := true, dynamicData := true }

def asn1ObjectCreate (nid : Nat) (data : List UInt8) (sn ln : Option (List UInt8)) : Asn1ObjectSt :=
  objDup ⟨sn, ln, nid, data.length, some data, true, false, true, true⟩

def c2iReattach (ret : Asn1ObjectSt) (contents : List UInt8) : Asn1ObjectSt :=
  let (data, dynamicData) := match ret.data with
    | none => (contents, true)
    | some data =>
      if ret.length < contents.length then (contents, true)
      else (contents ++ data.drop contents.length, ret.dynamicData)
  { ret with
    data := some data, length := contents.length, sn := none, ln := none, dynamicData
    dynamicStrings := false }

/- a is what the pointer points to, a null pointer where nothing: the object returned, and what is
   pointed to afterwards. -/
def osslC2iAsn1ObjectInto (table : ObjTable) (a : Option Asn1ObjectSt) (contents : List UInt8) :
    Option Asn1ObjectSt × Option Asn1ObjectSt :=
  if contents.length = 0 ∨ intMax < contents.length ∨
      (contents.getLastD 0).toNat &&& 0x80 ≠ 0 then (none, a)
  else
    let tobj : Asn1ObjectSt :=
      ⟨none, none, nidUndef, contents.length, some contents, false, false, false, false⟩
    let i := osslObjObj2nid table tobj
    if i ≠ nidUndef then (table.nid2obj i, table.nid2obj i)
    else if c2iScan true contents = false then (none, a)
    else
      let ret := match a with
        | none => asn1ObjectNew
        | some o => if o.dynamic = false then asn1ObjectNew else o
      let ret := c2iReattach ret contents
      (some ret, some ret)

def FreshContents (table : ObjTable) (contents : List UInt8) : Prop :=
  (contents.length ≠ 0 ∧ contents.length ≤ intMax ∧ (contents.getLastD 0).toNat &&& 0x80 = 0) ∧
  table.nidOf contents = nidUndef ∧ c2iScan true contents = true

def SameObject (table : ObjTable) (o fresh : Asn1ObjectSt) : Prop :=
  o.contents = fresh.contents ∧ o.length = fresh.length ∧ o.sn = fresh.sn ∧ o.ln = fresh.ln ∧
    osslObjObj2nid table o = osslObjObj2nid table fresh

theorem c2iReattach_contents (ret : Asn1ObjectSt) (contents : List UInt8) :
    (c2iReattach ret contents).contents = contents := by
  unfold c2iReattach Asn1ObjectSt.contents
  cases ret.data with
  | none => simp
  | some data =>
    split_ifs <;> simp

@[simp] theorem c2iReattach_nid (ret : Asn1ObjectSt) (contents : List UInt8) :
    (c2iReattach ret contents).nid = ret.nid := rfl

variable (table : ObjTable) {contents : List UInt8}

theorem osslObjObj2nid_reattach (ret : Asn1ObjectSt)
    (fresh : FreshContents table contents) :
    osslObjObj2nid table (c2iReattach ret contents) = ret.nid := by
  unfold osslObjObj2nid
  rw [c2iReattach_nid, c2iReattach_contents, fresh.2.1]
  split_ifs with kept empty
  · rfl
  · exact (not_not.mp kept).symm
  · exact (not_not.mp kept).symm

theorem tobj_nid (some_ : contents.length ≠ 0) : osslObjObj2nid table
      ⟨none, none, nidUndef, contents.length, some contents, false, false, false, false⟩ =
      table.nidOf contents := by
  simp [osslObjObj2nid, some_, Asn1ObjectSt.contents]

theorem osslC2iAsn1ObjectInto_fresh (a : Option Asn1ObjectSt)
    (fresh : FreshContents table contents) : (osslC2iAsn1ObjectInto table a contents).1 =
      some (c2iReattach ((a.filter (·.dynamic)).getD asn1ObjectNew) contents) := by
  obtain ⟨⟨some_, least, last⟩, unknown, scanned⟩ := fresh
  unfold osslC2iAsn1ObjectInto
  have accepted : ¬ (contents.length = 0 ∨ intMax < contents.length ∨
      (contents.getLastD 0).toNat &&& 0x80 ≠ 0) := by omega
  rw [if_neg accepted]
  simp only [tobj_nid table some_, unknown, scanned]
  cases a with
  | none => simp
  | some o => cases dynamic : o.dynamic <;> simp [Option.filter, dynamic]

/-- Other contents are decoded without a look at the object that is there. -/
theorem osslC2iAsn1ObjectInto_known (a : Option Asn1ObjectSt)
    (known : ¬ FreshContents table contents) : (osslC2iAsn1ObjectInto table a contents).1 =
      (osslC2iAsn1ObjectInto table none contents).1 := by
  unfold osslC2iAsn1ObjectInto
  by_cases refused : contents.length = 0 ∨ intMax < contents.length ∨
      (contents.getLastD 0).toNat &&& 0x80 ≠ 0
  · simp only [if_pos refused]
  · simp only [if_neg refused]
    have some_ : contents.length ≠ 0 := fun empty => refused (.inl empty)
    rw [tobj_nid table some_]
    by_cases unknown : table.nidOf contents = nidUndef
    · have scanned : c2iScan true contents = false := by
        by_contra scanned
        have last : (contents.getLastD 0).toNat &&& 0x80 = 0 := by
          by_contra bit
          exact refused (.inr (.inr bit))
        have least : contents.length ≤ intMax := by
          by_contra long
          exact refused (.inr (.inl (by omega)))
        exact known ⟨⟨some_, least, last⟩, unknown, Bool.eq_true_of_not_eq_false scanned⟩
      simp [unknown, scanned]
    · simp [unknown]

/-- Into an object that is there, decoding differs from decoding alone exactly where the object is
    its caller's own, has an identifier, and the contents are new. -/
theorem osslC2iAsn1Object_forgets (table : ObjTable) (a : Option Asn1ObjectSt)
    (contents : List UInt8) :
    (((osslC2iAsn1ObjectInto table a contents).1.isSome ↔
        (osslC2iAsn1ObjectInto table none contents).1.isSome) ∧
      ∀ o ∈ (osslC2iAsn1ObjectInto table a contents).1,
        ∀ fresh ∈ (osslC2iAsn1ObjectInto table none contents).1, SameObject table o fresh) ↔
    (∀ old, a = some old → old.dynamic = true → old.nid ≠ nidUndef →
      ¬ FreshContents table contents) := by
  by_cases fresh : FreshContents table contents
  · have into := osslC2iAsn1ObjectInto_fresh table a fresh
    have alone := osslC2iAsn1ObjectInto_fresh table none fresh
    rw [into, alone]
    have nidInto := osslObjObj2nid_reattach table ((a.filter (·.dynamic)).getD asn1ObjectNew) fresh
    have nidAlone := osslObjObj2nid_reattach table asn1ObjectNew fresh
    constructor
    · rintro ⟨_, same⟩ old rfl dynamic kept
      have nid := (same _ rfl _ rfl).2.2.2.2
      simp only [Option.filter, dynamic, ↓reduceIte, getD_some, getD_none] at nid nidInto
      rw [nidInto, nidAlone] at nid
      exact absurd nid kept
    · intro keeps
      refine ⟨by simp, ?_⟩
      rintro _ ⟨⟩ _ ⟨⟩
      refine ⟨?_, rfl, rfl, rfl, ?_⟩
      · rw [c2iReattach_contents, c2iReattach_contents]
      · rw [nidInto, filter_none, getD_none, nidAlone]
        cases a with
        | none => rfl
        | some old =>
          cases dynamic : old.dynamic with
          | false => simp [Option.filter, dynamic]
          | true =>
            have forgot : old.nid = nidUndef := by
              by_contra kept
              exact keeps old rfl dynamic kept fresh
            simp [Option.filter, dynamic, forgot, asn1ObjectNew]
  · rw [osslC2iAsn1ObjectInto_known table a fresh]
    refine ⟨fun _ _ _ _ _ => fresh, fun _ => ⟨Iff.rfl, ?_⟩⟩
    intro o member other member'
    rw [mem_unique member member']
    exact ⟨rfl, rfl, rfl, rfl, rfl⟩

def noObjects : ObjTable := ⟨fun _ => nidUndef, fun _ => none⟩

/-- An object made with the identifier 5 has it also after other contents were decoded into it. -/
theorem osslC2iAsn1Object_remembers :
    ¬ (((osslC2iAsn1ObjectInto noObjects
          (some (asn1ObjectCreate 5 [0x2a, 0x03] none none)) [0x2a, 0x04]).1.isSome ↔
        (osslC2iAsn1ObjectInto noObjects none [0x2a, 0x04]).1.isSome) ∧
      ∀ o ∈ (osslC2iAsn1ObjectInto noObjects
          (some (asn1ObjectCreate 5 [0x2a, 0x03] none none)) [0x2a, 0x04]).1,
        ∀ fresh ∈ (osslC2iAsn1ObjectInto noObjects none [0x2a, 0x04]).1,
          SameObject noObjects o fresh) := by
  rintro ⟨_, same⟩
  exact absurd (same _ rfl _ rfl).2.2.2.2 (by decide +kernel)

end Ossl
