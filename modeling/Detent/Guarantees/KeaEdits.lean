import Detent.Guarantees.KeaCommas

/-!
# Edits of a Kea element

Each edit of an element touches the value under one key. It keeps JSON's commas between the
members, and its value keeps JSON's rules but for two kinds of slip: `canon_strs` ends its list
in a comma, and a list or an object whose last entry goes keeps the comma that stood before it.
-/
namespace Detent.Guarantees.KeaEdits
open Lib Lib.Text Lib.JsonText Source.Dhcp Source.Doc
open KeaTrees KeaJson KeaCommas
open Source.ExecDeny (lit)
open List (find?_cons_of_neg find?_cons_of_pos forall_mem_cons isEmpty_iff map_append mem_append
  mem_map mem_singleton)

/-! ## Canonical values -/

theorem canonLit_fits (R : Rules) (value : Text) : ValueFits R (canonLit value) := by
  obtain ⟨items, hitems⟩ := litStr_quoted value
  rw [canonLit, hitems]
  exact ⟨items, rfl⟩

theorem digitChar_ne_zero {n : Nat} (h : n < 10) (hpos : 0 < n) : Nat.digitChar n ≠ '0' := by
  have : ∀ m : Fin 10, 0 < m.val → Nat.digitChar m.val ≠ '0' := by decide
  exact this ⟨n, h⟩ hpos

/-- A decimal number has no leading zero. -/
theorem head_toDigits {n : Nat} (hpos : 0 < n) : (Nat.toDigits 10 n).head? ≠ some '0' := by
  induction n using Nat.strong_induction_on with
  | _ n ih =>
    by_cases hlow : n < 10
    · rw [Nat.toDigits_of_lt_base hlow]
      simpa using digitChar_ne_zero hlow hpos
    · rw [Nat.toDigits_of_base_le (by decide) (by omega), List.head?_append]
      have hrest := ih (n / 10) (by omega) (by omega)
      cases hhead : (Nat.toDigits 10 (n / 10)).head? with
      | none => exact absurd (List.head?_eq_none_iff.mp hhead) Nat.toDigits_ne_nil
      | some c =>
        rw [hhead] at hrest
        simpa using hrest

/-- The number that a `u32` is written as. -/
def wholeNumber (n : Nat) : Number where
  negative := false
  whole := Nat.toDigits 10 n
  fraction := []
  exponent := none
  isWhole := by
    refine ⟨⟨Nat.toDigits_ne_nil, fun c hc => ?_⟩, fun hzero => ?_⟩
    · have hdigit := Nat.isDigit_of_mem_toDigits (by decide) (by decide) hc
      exact hdigit
    · rcases Nat.eq_zero_or_pos n with rfl | hpos
      · rfl
      · exact absurd hzero (head_toDigits hpos)
  isFraction := by simp

theorem wholeNumber_text (n : Nat) : (wholeNumber n).text = Nat.toDigits 10 n := by
  simp [Number.text, wholeNumber]

theorem canonU32_fits (n : Nat) : ValueFits strict (canonU32 n) := by
  have hchars := wordChar_of_number (n := wholeNumber n)
  have hne := number_ne_nil (wholeNumber n)
  rw [wholeNumber_text] at hchars hne
  exact ⟨⟨hne, hchars⟩, hchars, .number (wholeNumber n), _, .number _, wholeNumber_text n⟩

variable {R : Rules} {members : List (Text × Jsonc)} {member : Member} {items : List ArrItem}

theorem canonMembers_fit (h : ∀ member ∈ members, ValueFits R member.2) :
    (∀ member ∈ canonMembers members, MemberFits R member) ∧
      Exact ((canonMembers members).map Member.comma) := by
  induction members with
  | nil => exact ⟨by simp [canonMembers], trivial⟩
  | cons first rest ih =>
    obtain ⟨key, value⟩ := first
    obtain ⟨hvalue, hrest⟩ := forall_mem_cons.mp h
    obtain ⟨hmembers, hexact⟩ := ih hrest
    obtain ⟨items, hitems⟩ := litStr_quoted key
    have hcolon : Colon [':'] := ⟨[], [], rfl, trivial_nil, trivial_nil⟩
    refine ⟨forall_mem_cons.mpr ⟨?_, hmembers⟩, ?_⟩
    · exact ⟨⟨⟨items, key, hitems⟩, hcolon, trivial_nil, trivial_nil⟩, hvalue⟩
    · cases rest with
      | nil => rfl
      | cons second rest => exact ⟨rfl, hexact⟩

theorem canonObj_fits (hR : ∀ cs, Exact cs → R.commas cs)
    (h : ∀ member ∈ members, ValueFits R member.2) : ValueFits R (canonObj members) := by
  obtain ⟨hmembers, hexact⟩ := canonMembers_fit h
  exact ⟨⟨[], rfl, trivial_nil⟩, closes_single, (membersFit_iff _).mpr hmembers, hR _ hexact⟩

theorem canonItems_fit {values : List Jsonc} (h : ∀ value ∈ values, ValueFits R value) :
    (∀ item ∈ canonItems values, ItemFits R item) ∧ Exact (commas (canonItems values)) := by
  induction values with
  | nil => exact ⟨by simp [canonItems], trivial⟩
  | cons value rest ih =>
    obtain ⟨hvalue, hrest⟩ := forall_mem_cons.mp h
    obtain ⟨hitems, hexact⟩ := ih hrest
    refine ⟨forall_mem_cons.mpr ⟨⟨⟨trivial_nil, trivial_nil⟩, hvalue⟩, hitems⟩, ?_⟩
    cases rest with
    | nil => rfl
    | cons second rest => exact ⟨rfl, hexact⟩

theorem canonArr_fits {values : List Jsonc} (h : ∀ value ∈ values, ValueFits strict value) :
    ValueFits strict (canonArr values) := by
  obtain ⟨hitems, hexact⟩ := canonItems_fit h
  exact ⟨⟨[], rfl, trivial_nil⟩, closes_single, (itemsFit_iff _).mpr hitems, hexact⟩

theorem canonObj_strict (h : ∀ member ∈ members, ValueFits strict member.2) :
    ValueFits strict (canonObj members) :=
  canonObj_fits (fun _ hexact => hexact) h

theorem canonPool_fits (pool : Text) : ValueFits strict (canonPool pool) :=
  canonObj_strict (by simpa using canonLit_fits strict pool)

theorem canonOptionEntry_fits (name data : Text) : ValueFits strict (canonOptionEntry name data) :=
  canonObj_strict (by
    simpa using ⟨canonLit_fits strict name, canonLit_fits strict data⟩)

theorem canonOptionData_fits (routers domainServers : List Text) :
    ValueFits strict (canonOptionData routers domainServers) := by
  refine canonArr_fits (fun value hvalue => ?_)
  simp only [mem_append, mem_map] at hvalue
  rcases hvalue with ⟨_, -, rfl⟩ | ⟨_, -, rfl⟩
  all_goals exact canonOptionEntry_fits _ _

theorem canonPools_fits (pools : List Text) : ValueFits strict (canonPools pools) := by
  refine canonArr_fits (fun value hvalue => ?_)
  obtain ⟨pool, -, rfl⟩ := mem_map.mp hvalue
  exact canonPool_fits pool

theorem canonSubnet_fits (subnet : KeaSubnet) : ValueFits strict (canonSubnet subnet) := by
  refine canonObj_strict (fun member hmember => ?_)
  have hpools : ValueFits strict (canonArr (subnet.pools.map (fun p => canonPool p.pool))) := by
    refine canonArr_fits (fun value hvalue => ?_)
    obtain ⟨pool, -, rfl⟩ := mem_map.mp hvalue
    exact canonPool_fits pool.pool
  have hfirst : ∀ member ∈ [(lit "id", canonU32 subnet.id), (lit "subnet", canonLit subnet.subnet)],
      ValueFits strict member.2 := by
    simpa using ⟨canonU32_fits subnet.id, canonLit_fits strict subnet.subnet⟩
  have hoptions := canonOptionData_fits subnet.routers subnet.domainServers
  split_ifs at hmember
  · exact hfirst _ hmember
  · rcases mem_append.mp hmember with hmember | hmember
    · exact hfirst _ hmember
    · rwa [mem_singleton.mp hmember]
  · rcases mem_append.mp hmember with hmember | hmember
    · exact hfirst _ hmember
    · rwa [mem_singleton.mp hmember]
  · rcases mem_append.mp hmember with hmember | hmember
    · rcases mem_append.mp hmember with hmember | hmember
      · exact hfirst _ hmember
      · rwa [mem_singleton.mp hmember]
    · rwa [mem_singleton.mp hmember]

theorem canonSubnets_fits (subnets : List KeaSubnet) : ValueFits strict (canonSubnets subnets) := by
  refine canonArr_fits (fun value hvalue => ?_)
  obtain ⟨subnet, -, rfl⟩ := mem_map.mp hvalue
  exact canonSubnet_fits subnet

/-- The list that `canon_strs` builds is JSON where it is empty only. -/
theorem canonStrs_fits (values : List Text) :
    ValueFits loose (canonStrs values) ∧ (ValueFits strict (canonStrs values) ↔ values = []) := by
  have hall : ∀ c ∈ commas (values.map (fun v : Text =>
      ({ value := canonLit v, post := [], comma := [','], tail := [] } : ArrItem))), c = [','] := by
    simp [commas]
  refine ⟨?_, ?_⟩
  · refine ⟨⟨[], rfl, trivial_nil⟩, closes_single, (itemsFit_iff _).mpr ?_, separated_of_all hall⟩
    intro item hitem
    obtain ⟨value, -, rfl⟩ := mem_map.mp hitem
    exact ⟨⟨trivial_nil, trivial_nil⟩, canonLit_fits loose value⟩
  · constructor
    · rintro ⟨-, -, -, hexact⟩
      by_contra hne
      exact not_trailing_of_exact hexact ⟨by simpa using hne, hall⟩
    · rintro rfl
      exact ⟨⟨[], rfl, trivial_nil⟩, closes_single, trivial, trivial⟩

theorem canonInterfacesConfig_fits (interfaces : List Text) :
    ValueFits loose (canonInterfacesConfig interfaces) ∧
      (ValueFits strict (canonInterfacesConfig interfaces) ↔ interfaces = []) := by
  obtain ⟨hloose, hstrict⟩ := canonStrs_fits interfaces
  refine ⟨canonObj_fits (fun _ => separated_of_exact) (by simpa using hloose), ?_⟩
  constructor
  · rintro ⟨-, -, hmembers, -⟩
    exact hstrict.mp hmembers.2.1
  · intro hnil
    exact canonObj_strict (by simpa using hstrict.mpr hnil)

/-! ## Edits of the value under a key -/

/-- The value of the first member named `key`. -/
def valueAt (obj : Obj) (key : Text) : Option Jsonc := (obj.memberByKey key).map Member.value

def memberCommas (obj : Obj) : List Text := obj.members.map Member.comma

/-- An object's brackets and members, whatever commas stand between them. -/
def FrameFits (R : Rules) (obj : Obj) : Prop :=
  Opens '\x7b' obj.opening ∧ Closes '\x7d' obj.close ∧ ∀ member ∈ obj.members, MemberFits R member

theorem objFits_iff (obj : Obj) :
    ObjFits R obj ↔ FrameFits R obj ∧ R.commas (memberCommas obj) := by
  obtain ⟨opening, members, close⟩ := obj
  rw [FrameFits, ← membersFit_iff]
  simp only [and_assoc]
  rfl

def newMember (key : Text) (value : Jsonc) : Member :=
  { key := litStr key, colon := [':'], value, post := [], comma := [], tail := [] }

/-- What the edits do but for `remove_member`: nothing, a new value, or a new last member. -/
inductive EditAt (key : Text) (obj : Obj) : Obj → Prop
  | same : EditAt key obj obj
  | put (value : Jsonc) {member : Member} (h : obj.memberByKey key = some member) :
      EditAt key obj (obj.put key value)
  | add (value : Jsonc) (h : obj.memberByKey key = none) :
      EditAt key obj { obj with members := setLastMemberComma obj.members ++ [newMember key value] }

theorem setMember_editAt (obj : Obj) (key : Text) (value : Jsonc) (report : EditReport) :
    EditAt key obj (setMember obj key value report).1 := by
  rw [setMember]
  cases h : obj.memberByKey key with
  | some member => exact .put value h
  | none => exact .add value h

theorem named_self (key : Text) (value : Jsonc) : (newMember key value).named key = true := by
  simp [Member.named, Member.keyName, newMember, litStr, Lit.asStr]

theorem named_eq {key key' : Text} (h : member.named key = true) (h' : member.named key' = true) :
    key = key' := by
  simp only [Member.named, beq_iff_eq] at h h'
  exact Option.some.inj (h.symm.trans h')

theorem setLastMemberComma_snoc (members : List Member) (last : Member) :
    setLastMemberComma (members ++ [last]) = members ++ [{ last with comma := [','] }] := by
  induction members with
  | nil => rfl
  | cons member members ih =>
    cases members with
    | nil => rfl
    | cons second members =>
      rw [List.cons_append, List.cons_append, setLastMemberComma, ← List.cons_append, ih]
      · rfl
      · simp

theorem forall_setLastMemberComma {p : Member → Prop}
    (hp : ∀ member : Member, p { member with comma := [','] } ↔ p member) (members : List Member) :
    (∀ member ∈ setLastMemberComma members, p member) ↔ ∀ member ∈ members, p member := by
  rcases List.eq_nil_or_concat' members with rfl | ⟨init, last, rfl⟩
  · rfl
  · rw [setLastMemberComma_snoc]
    simp only [List.forall_mem_append, List.forall_mem_singleton]
    exact and_congr_right fun _ => hp last

theorem all_setLastMemberComma {members : List Member} (h : Separated (members.map Member.comma)) :
    ∀ c ∈ (setLastMemberComma members).map Member.comma, c = [','] := by
  rcases List.eq_nil_or_concat' members with rfl | ⟨init, last, rfl⟩
  · nofun
  · rw [map_append] at h
    rw [setLastMemberComma_snoc, map_append]
    intro c hc
    rcases mem_append.mp hc with hc | hc
    · exact (separated_snoc.mp h).1 c hc
    · exact mem_singleton.mp hc

theorem find_setLastMemberComma (key : Text) (members : List Member) :
    ((setLastMemberComma members).find? (Member.named key)).map Member.value =
      (members.find? (Member.named key)).map Member.value := by
  rcases List.eq_nil_or_concat' members with rfl | ⟨init, last, rfl⟩
  · rfl
  · rw [setLastMemberComma_snoc, List.find?_append, List.find?_append]
    cases hinit : init.find? (Member.named key) with
    | some member => rfl
    | none =>
      have hsame : Member.named key { last with comma := [','] } = Member.named key last := rfl
      cases hlast : Member.named key last <;> simp [hsame, hlast]

theorem commas_putValue (key : Text) (value : Jsonc) (members : List Member) :
    (putValue key value members).map Member.comma = members.map Member.comma := by
  induction members with
  | nil => rfl
  | cons member members ih =>
    rw [putValue]
    split
    · rfl
    · rw [List.map_cons, List.map_cons, ih]

variable (value : Jsonc)

theorem find_putValue_self {key : Text} {members : List Member}
    (h : members.find? (Member.named key) = some member) :
    (putValue key value members).find? (Member.named key) = some { member with value } := by
  induction members with
  | nil => cases h
  | cons first members ih =>
    rw [putValue]
    cases hnamed : first.named key with
    | true =>
      rw [find?_cons_of_pos hnamed] at h
      obtain rfl := Option.some.inj h
      rw [if_pos rfl, find?_cons_of_pos]
      exact hnamed
    | false =>
      rw [find?_cons_of_neg (by simp [hnamed])] at h
      rw [if_neg (by simp), find?_cons_of_neg (by simp [hnamed])]
      exact ih h

theorem find_putValue_ne {key key' : Text} (hne : key' ≠ key) (value : Jsonc)
    (members : List Member) :
    ((putValue key value members).find? (Member.named key')).map Member.value =
      (members.find? (Member.named key')).map Member.value := by
  induction members with
  | nil => rfl
  | cons first members ih =>
    rw [putValue]
    cases hnamed : first.named key with
    | true =>
      have hother : first.named key' = false := by
        cases h : first.named key' with
        | true => exact absurd (named_eq h hnamed) hne
        | false => rfl
      have hnew : Member.named key' { first with value } = false := hother
      rw [if_pos rfl, find?_cons_of_neg (by simp [hnew]),
        find?_cons_of_neg (by simp [hother])]
    | false =>
      rw [if_neg (by simp)]
      cases hother : first.named key' with
      | true => rw [find?_cons_of_pos hother, find?_cons_of_pos hother]
      | false =>
        rw [find?_cons_of_neg (by simp [hother]), find?_cons_of_neg (by simp [hother])]
        exact ih

theorem forall_putValue {key : Text} {members : List Member}
    (h : members.find? (Member.named key) = some member) (hmember : ValueFits R member.value) :
    (∀ m ∈ putValue key value members, MemberFits R m) ↔
      (∀ m ∈ members, MemberFits R m) ∧ ValueFits R value := by
  induction members with
  | nil => cases h
  | cons first members ih =>
    rw [putValue]
    cases hnamed : first.named key with
    | true =>
      rw [find?_cons_of_pos hnamed] at h
      obtain rfl := Option.some.inj h
      rw [if_pos rfl, forall_mem_cons, forall_mem_cons]
      constructor
      · exact fun hall => ⟨⟨⟨hall.1.1, hmember⟩, hall.2⟩, hall.1.2⟩
      · exact fun hall => ⟨⟨hall.1.1.1, hall.2⟩, hall.1.2⟩
    | false =>
      rw [find?_cons_of_neg (by simp [hnamed])] at h
      rw [if_neg (by simp), forall_mem_cons, forall_mem_cons, ih h, and_assoc]

theorem newMember_fits (key : Text) (value : Jsonc) :
    MemberFits R (newMember key value) ↔ ValueFits R value := by
  obtain ⟨items, hitems⟩ := litStr_quoted key
  have hcolon : Colon [':'] := ⟨[], [], rfl, trivial_nil, trivial_nil⟩
  exact ⟨fun h => h.2, fun h => ⟨⟨⟨items, key, hitems⟩, hcolon, trivial_nil, trivial_nil⟩, h⟩⟩

theorem valueAt_put {obj : Obj} {key : Text} (h : obj.memberByKey key = some member) :
    valueAt (obj.put key value) key = some value := by
  rw [valueAt, Obj.memberByKey, Obj.put, find_putValue_self value h]
  rfl

theorem valueAt_add {obj : Obj} {key : Text} (h : obj.memberByKey key = none) :
    valueAt { obj with members := setLastMemberComma obj.members ++ [newMember key value] } key =
      some value := by
  have hnone : (setLastMemberComma obj.members).find? (Member.named key) = none := by
    have hfind := find_setLastMemberComma key obj.members
    rw [Obj.memberByKey] at h
    rw [h] at hfind
    exact Option.map_eq_none_iff.mp hfind
  rw [valueAt, Obj.memberByKey, List.find?_append, hnone, Option.none_or,
    find?_cons_of_pos (named_self key value)]
  rfl

section EditAt

variable {key : Text} {obj obj' : Obj}

/-- The values under other keys stay. -/
theorem EditAt.valueAt_ne (h : EditAt key obj obj') {key' : Text} (hne : key' ≠ key) :
    valueAt obj' key' = valueAt obj key' := by
  cases h with
  | same => rfl
  | put value h => exact find_putValue_ne hne value obj.members
  | add value h =>
    have hnew : (newMember key value).named key' = false := by
      cases hnamed : (newMember key value).named key' with
      | true => exact absurd (named_eq hnamed (named_self key value)) hne
      | false => rfl
    rw [valueAt, Obj.memberByKey, List.find?_append, find?_cons_of_neg (by simp [hnew]),
      List.find?_nil, Option.or_none]
    exact find_setLastMemberComma key' obj.members

theorem EditAt.exact (h : EditAt key obj obj') (hexact : Exact (memberCommas obj)) :
    Exact (memberCommas obj') := by
  cases h with
  | same => exact hexact
  | put value h =>
    rw [memberCommas, Obj.put, commas_putValue]
    exact hexact
  | add value h =>
    rw [memberCommas, map_append]
    exact exact_snoc.mpr ⟨all_setLastMemberComma (separated_of_exact hexact), rfl⟩

/-- A new last member repairs a comma left behind the last one. -/
theorem EditAt.separated (h : EditAt key obj obj') (hcommas : Separated (memberCommas obj)) :
    Separated (memberCommas obj') := by
  cases h with
  | same => exact hcommas
  | put value h =>
    rw [memberCommas, Obj.put, commas_putValue]
    exact hcommas
  | add value h =>
    rw [memberCommas, map_append]
    exact separated_of_exact (exact_snoc.mpr ⟨all_setLastMemberComma hcommas, rfl⟩)

theorem EditAt.frame_iff (h : EditAt key obj obj')
    (hvalue : ∀ value ∈ valueAt obj key, ValueFits R value) :
    FrameFits R obj' ↔ FrameFits R obj ∧ ∀ value ∈ valueAt obj' key, ValueFits R value := by
  cases h with
  | same => exact ⟨fun hframe => ⟨hframe, hvalue⟩, fun hframe => hframe.1⟩
  | @put value member h =>
    have hmember : ValueFits R member.value := hvalue _ (by rw [valueAt, h]; rfl)
    rw [valueAt_put value h]
    simp only [FrameFits, Obj.put, forall_putValue value h hmember, Option.mem_some_iff,
      forall_eq', and_assoc]
  | add value h =>
    rw [valueAt_add value h]
    simp only [FrameFits, List.forall_mem_append, List.forall_mem_singleton, newMember_fits,
      Option.mem_some_iff, forall_eq', and_assoc]
    rw [forall_setLastMemberComma (fun _ => Iff.rfl)]

end EditAt

/-- An edit under `key` whose new value keeps the parser's rules, and JSON's where `cond` holds. -/
structure EditSpec (key : Text) (obj obj' : Obj) (cond : Prop) : Prop where
  edit : EditAt key obj obj'
  value_loose : ∀ value ∈ valueAt obj' key, ValueFits loose value
  value_strict : (∀ value ∈ valueAt obj' key, ValueFits strict value) ↔ cond

section EditSpec

variable {key : Text} {obj obj' : Obj} {cond : Prop}

theorem EditSpec.frame_strict (h : EditSpec key obj obj' cond)
    (hvalue : ∀ value ∈ valueAt obj key, ValueFits strict value) :
    FrameFits strict obj' ↔ FrameFits strict obj ∧ cond := by
  rw [h.edit.frame_iff hvalue, h.value_strict]

theorem EditSpec.frame_loose (h : EditSpec key obj obj' cond)
    (hvalue : ∀ value ∈ valueAt obj key, ValueFits strict value) (hframe : FrameFits loose obj) :
    FrameFits loose obj' :=
  (h.edit.frame_iff (fun value hmem => valueFits_mono strict_stricter (hvalue value hmem))).mpr
    ⟨hframe, h.value_loose⟩

theorem EditSpec.same (hvalue : ∀ value ∈ valueAt obj key, ValueFits strict value) (hcond : cond) :
    EditSpec key obj obj cond where
  edit := .same
  value_loose value hmem := valueFits_mono strict_stricter (hvalue value hmem)
  value_strict := ⟨fun _ => hcond, fun _ => hvalue⟩

theorem EditSpec.of_value {value : Jsonc} (hedit : EditAt key obj obj')
    (hat : valueAt obj' key = some value) (hloose : ValueFits loose value)
    (hstrict : ValueFits strict value ↔ cond) : EditSpec key obj obj' cond where
  edit := hedit
  value_loose := by
    rw [hat]
    simpa using hloose
  value_strict := by
    rw [hat]
    simpa using hstrict

theorem EditSpec.put {value : Jsonc} {member : Member} (h : obj.memberByKey key = some member)
    (hloose : ValueFits loose value) (hstrict : ValueFits strict value ↔ cond) :
    EditSpec key obj (obj.put key value) cond :=
  .of_value (.put value h) (valueAt_put value h) hloose hstrict

theorem EditSpec.set {value : Jsonc} (report : EditReport)
    (hloose : ValueFits loose value) (hstrict : ValueFits strict value ↔ cond) :
    EditSpec key obj (setMember obj key value report).1 cond := by
  refine .of_value (setMember_editAt obj key value report) ?_ hloose hstrict
  rw [setMember]
  cases h : obj.memberByKey key with
  | some member => exact valueAt_put value h
  | none => exact valueAt_add value h

end EditSpec

theorem value_of_frame {obj : Obj} (h : FrameFits R obj) (key : Text) :
    ∀ value ∈ valueAt obj key, ValueFits R value := by
  intro value hvalue
  obtain ⟨member, hmember, rfl⟩ := Option.map_eq_some_iff.mp hvalue
  exact (h.2.2 member (List.mem_of_find?_eq_some hmember)).2

theorem frameFits_mono {obj : Obj} (h : FrameFits strict obj) : FrameFits loose obj :=
  ⟨h.1, h.2.1, fun member hmember =>
    ⟨(h.2.2 member hmember).1, valueFits_mono strict_stricter (h.2.2 member hmember).2⟩⟩

/-- An edited object without a comma too many. -/
theorem EditSpec.objFits {key : Text} {obj obj' : Obj} {cond : Prop}
    (h : EditSpec key obj obj' cond) (hobj : ObjFits strict obj) :
    ObjFits loose obj' ∧ (ObjFits strict obj' ↔ cond) := by
  obtain ⟨hframe, hexact⟩ := (objFits_iff obj).mp hobj
  have hvalue := value_of_frame hframe key
  have hcommas : Exact (memberCommas obj') := h.edit.exact hexact
  constructor
  · exact (objFits_iff obj').mpr ⟨h.frame_loose hvalue (frameFits_mono hframe),
      separated_of_exact hcommas⟩
  · rw [objFits_iff, h.frame_strict hvalue]
    exact ⟨fun hall => hall.1.2, fun hcond => ⟨⟨hframe, hcond⟩, hcommas⟩⟩

/-! ## Lists -/

/-- The items of the array under `key`. -/
def arrayAt (obj : Obj) (key : Text) : Option (List ArrItem) :=
  match valueAt obj key with
  | some (.arr array) => some array.items
  | _ => none

theorem of_arrayAt {obj : Obj} {key : Text} (h : arrayAt obj key = some items) :
    ∃ member array, obj.memberByKey key = some member ∧ member.value = .arr array ∧
      array.items = items := by
  rw [arrayAt, valueAt] at h
  cases hat : obj.memberByKey key with
  | none =>
    rw [hat] at h
    cases h
  | some member =>
    rw [hat, Option.map_some] at h
    cases hjson : member.value with
    | arr array =>
      rw [hjson] at h
      exact ⟨member, array, rfl, hjson, Option.some.inj h⟩
    | obj _ | lit _ =>
      rw [hjson] at h
      cases h

/-- No entry goes where there are as many as wanted. -/
theorem not_losesLast {passes : List Pass}
    (h : ∀ pass ∈ passes, entries pass.modeled items = pass.wanted) : ¬ LosesLast passes items := by
  rintro ⟨-, ⟨pass, hpass, hlt, -⟩, -⟩
  have := h pass hpass
  omega

theorem arrFits_iff (array : Arr) :
    ArrFits R array ↔ Opens '[' array.opening ∧ Closes ']' array.close ∧
      (∀ item ∈ array.items, ItemFits R item) ∧ R.commas (commas array.items) := by
  obtain ⟨opening, items, close⟩ := array
  rw [← itemsFit_iff]
  rfl

/-- A list edited in passes whose rewritten items keep JSON's rules. -/
theorem array_edited {array : Arr} (harray : ArrFits strict array)
    (hitems : ∀ item ∈ items, ItemFits strict item) (hcommas : Separated (commas items)) :
    ValueFits loose (.arr { array with items }) ∧
      (ValueFits strict (.arr { array with items }) ↔ Exact (commas items)) := by
  obtain ⟨hopens, hcloses, -, -⟩ := (arrFits_iff array).mp harray
  refine ⟨(arrFits_iff _).mpr ⟨hopens, hcloses, fun item hitem => ?_, hcommas⟩, ?_⟩
  · obtain ⟨hframe, hvalue⟩ := hitems item hitem
    exact ⟨hframe, valueFits_mono strict_stricter hvalue⟩
  · exact ⟨fun h => ((arrFits_iff _).mp h).2.2.2,
      fun h => (arrFits_iff _).mpr ⟨hopens, hcloses, hitems, h⟩⟩

section ListMember

variable {P : Type} [DecidableEq P] {project : Jsonc → Option P} {render : P → Jsonc}

variable (project) in
theorem syncModeledItems_fit (hrender : ∀ entry, ValueFits strict (render entry))
    (hitems : ∀ item ∈ items, ItemFits strict item) (wanted : List P) (report : EditReport) :
    ∀ item ∈ (syncModeledItems items wanted project render report).1, ItemFits strict item := by
  refine (fit_syncItems_iff (Q := fun _ _ => True) hitems ?_ hrender wanted report).mpr
    (fun _ _ => trivial)
  intro item hitem _ entry report
  refine ⟨fun _ => trivial, fun _ => ?_⟩
  split
  · exact (hitems item hitem).2
  · exact hrender entry

variable (project) in
theorem syncListMember_spec (obj : Obj) (key : Text) (want : List P)
    (renderMember : List P → Jsonc) (report : EditReport)
    (hrender : ∀ entry, ValueFits strict (render entry))
    (hmember : ValueFits loose (renderMember want))
    (hvalue : ∀ value ∈ valueAt obj key, ValueFits strict value) :
    EditSpec key obj (syncListMember obj key want project render renderMember report).1
      ((∀ items ∈ arrayAt obj key,
          ¬ LosesLast [⟨fun value => (project value).isSome, want.length⟩] items) ∧
        (arrayAt obj key = none → want ≠ [] → ValueFits strict (renderMember want))) := by
  rw [syncListMember]
  cases hat : obj.memberByKey key with
  | none =>
    have hnone : arrayAt obj key = none := by rw [arrayAt, valueAt, hat]; rfl
    rw [hnone]
    dsimp only
    split_ifs with hempty
    · exact .same hvalue ⟨by simp, fun _ hne => absurd (isEmpty_iff.mp hempty) hne⟩
    · have hne : want ≠ [] := fun hnil => hempty (isEmpty_iff.mpr hnil)
      exact .set report hmember ⟨fun h => ⟨by simp, fun _ _ => h⟩, fun h => h.2 rfl hne⟩
  | some member =>
    have hmemberValue : ValueFits strict member.value := hvalue _ (by rw [valueAt, hat]; rfl)
    dsimp only
    cases hjson : member.value with
    | arr array =>
      have harray : arrayAt obj key = some array.items := by
        rw [arrayAt, valueAt, hat, Option.map_some, hjson]
      rw [hjson] at hmemberValue
      have hitems := ((arrFits_iff array).mp hmemberValue).2.2.1
      have hexact := ((arrFits_iff array).mp hmemberValue).2.2.2
      rw [harray]
      obtain ⟨hloose, hstrict⟩ := array_edited hmemberValue
        (syncModeledItems_fit project hrender hitems want report)
        (separated_syncItems _ _ _ (separated_of_exact hexact) want report)
      refine .put hat hloose (hstrict.trans ?_)
      rw [syncModeledItems, exact_syncItems_iff hexact want report]
      simp
    | obj _ | lit _ =>
      have hnone : arrayAt obj key = none := by rw [arrayAt, valueAt, hat, Option.map_some, hjson]
      rw [hnone]
      dsimp only
      split_ifs with hempty
      · exact .same hvalue ⟨by simp, fun _ hne => absurd (isEmpty_iff.mp hempty) hne⟩
      · have hne : want ≠ [] := fun hnil => hempty (isEmpty_iff.mpr hnil)
        exact .put hat hmember ⟨fun h => ⟨by simp, fun _ _ => h⟩, fun h => h.2 rfl hne⟩

end ListMember

/-! ## Subnets -/

theorem namedData_eq (wanted : Text) :
    namedData value wanted =
      (optionEntry value).bind (fun entry => if entry.1 = wanted then some entry.2 else none) := by
  rw [namedData, optionEntry]
  cases value.asObj with
  | none => rfl
  | some entry =>
    change (if entry.strAt (lit "name") ≠ some wanted then none
      else entry.strAt (lit "data")) = _
    cases hname : entry.strAt (lit "name") with
    | none => simp [hname]
    | some name =>
      cases hdata : entry.strAt (lit "data") with
      | none | some => by_cases h : name = wanted <;> simp [hname, hdata, h]

theorem optionEntry_canon (name data : Text) :
    optionEntry (canonOptionEntry name data) = some (name, data) := by
  have hne : lit "name" ≠ lit "data" := by decide
  simp [optionEntry, canonOptionEntry, canonObj, canonMembers, Jsonc.asObj, Obj.strAt,
    Obj.memberByKey, Member.named, Member.keyName, hne, canonLit, Jsonc.asStr, litStr, Lit.asStr]

/-- The passes over `option-data`. -/
def isRouter (value : Jsonc) : Bool := (namedData value (lit "routers")).isSome

def isDomainServer (value : Jsonc) : Bool := (namedData value (lit "domain-name-servers")).isSome

theorem optionLists_length (items : List ArrItem) :
    (optionLists items).1.length = entries isRouter items ∧
      (optionLists items).2.length = entries isDomainServer items := by
  have hne : lit "domain-name-servers" ≠ lit "routers" := by decide
  induction items with
  | nil => exact ⟨rfl, rfl⟩
  | cons item items ih =>
    obtain ⟨hrouters, hservers⟩ := ih
    rw [entries_cons, entries_cons, optionLists, isRouter, isDomainServer, namedData_eq,
      namedData_eq]
    cases hentry : optionEntry item.value with
    | none => simp [hrouters, hservers]
    | some entry =>
      obtain ⟨name, data⟩ := entry
      by_cases hrouter : name = lit "routers"
      · simp [hrouter, hne.symm, hrouters, hservers]
      · by_cases hserver : name = lit "domain-name-servers"
        · simp [hserver, hne, hrouters, hservers]
        · simp [hrouter, hserver, hrouters, hservers]

theorem namedData_canon (name data wanted : Text) :
    namedData (canonOptionEntry name data) wanted = if name = wanted then some data else none := by
  rw [namedData_eq, optionEntry_canon]
  rfl

theorem routers_apart :
    Apart isRouter isDomainServer
      (fun value entry report =>
        if namedData value (lit "routers") = some entry then (value, report)
        else (canonOptionEntry (lit "routers") entry, EditReport.changed report))
      (canonOptionEntry (lit "routers")) := by
  have hne : lit "routers" ≠ lit "domain-name-servers" := by decide
  have hbefore : ∀ value, isRouter value = true → isDomainServer value = false := by
    intro value hrouter
    rw [isRouter, namedData_eq] at hrouter
    rw [isDomainServer, namedData_eq]
    cases hentry : optionEntry value with
    | none => rfl
    | some entry =>
      rw [hentry] at hrouter
      by_cases hname : entry.1 = lit "routers"
      · simp [hname, hne]
      · simp [hname] at hrouter
  have hfresh : ∀ entry, isDomainServer (canonOptionEntry (lit "routers") entry) = false := by
    intro entry
    rw [isDomainServer, namedData_canon, if_neg hne]
    rfl
  refine ⟨hbefore, ?_, hfresh⟩
  intro value entry report hrouter
  split
  · exact hbefore value hrouter
  · exact hfresh entry

/-- What keeps the commas of a list of options. -/
def OptionsKept (want : KeaSubnet) (items : List ArrItem) : Prop :=
  ¬ LosesLast [⟨isRouter, want.routers.length⟩, ⟨isDomainServer, want.domainServers.length⟩] items

/-- Lists that are as wanted lose no entry. -/
theorem optionsKept_of_projected {obj : Obj} {want : KeaSubnet}
    (h : projectOptionData obj = (want.routers, want.domainServers))
    (hitems : arrayAt obj (lit "option-data") = some items) : OptionsKept want items := by
  obtain ⟨member, array, hat, hjson, rfl⟩ := of_arrayAt hitems
  have hprojected : projectOptionData obj = optionLists array.items := by
    rw [projectOptionData, hat]
    dsimp only
    rw [hjson]
  obtain ⟨hrouters, hservers⟩ := optionLists_length array.items
  rw [← hprojected, h] at hrouters hservers
  exact not_losesLast (by simpa using ⟨hrouters.symm, hservers.symm⟩)

theorem mergeOptionData_spec (obj : Obj) (want : KeaSubnet) (report : EditReport)
    (hvalue : ∀ value ∈ valueAt obj (lit "option-data"), ValueFits strict value) :
    EditSpec (lit "option-data") obj (mergeOptionData obj want report).1
      (∀ items ∈ arrayAt obj (lit "option-data"), OptionsKept want items) := by
  rw [mergeOptionData]
  have hcanon := canonOptionData_fits want.routers want.domainServers
  have hloose := valueFits_mono strict_stricter hcanon
  split_ifs with hsame
  · exact .same hvalue (fun items hitems => optionsKept_of_projected hsame hitems)
  · cases hat : obj.memberByKey (lit "option-data") with
    | none =>
      have hnone : arrayAt obj (lit "option-data") = none := by rw [arrayAt, valueAt, hat]; rfl
      rw [hnone]
      dsimp only
      split_ifs
      · exact .same hvalue (by simp)
      · exact .set report hloose ⟨fun _ => by simp, fun _ => hcanon⟩
    | some member =>
      have hmember : ValueFits strict member.value := hvalue _ (by rw [valueAt, hat]; rfl)
      dsimp only
      cases hjson : member.value with
      | arr array =>
        have harray : arrayAt obj (lit "option-data") = some array.items := by
          rw [arrayAt, valueAt, hat, Option.map_some, hjson]
        rw [hjson] at hmember
        have hitems := ((arrFits_iff array).mp hmember).2.2.1
        have hexact := ((arrFits_iff array).mp hmember).2.2.2
        have hseparated := separated_of_exact hexact
        rw [harray]
        have hfirst := syncModeledItems_fit (fun value => namedData value (lit "routers"))
          (canonOptionEntry_fits (lit "routers")) hitems want.routers report
        have hsecond := fun report' => syncModeledItems_fit
          (fun value => namedData value (lit "domain-name-servers"))
          (canonOptionEntry_fits (lit "domain-name-servers")) hfirst want.domainServers report'
        obtain ⟨hpasses, hstrict⟩ := array_edited hmember (hsecond _)
          (separated_syncItems _ _ _ (separated_syncItems _ _ _ hseparated want.routers report)
            want.domainServers _)
        refine .put hat hpasses (hstrict.trans ?_)
        refine (exact_two_iff hexact routers_apart want.routers want.domainServers _ _).trans ?_
        simp [OptionsKept]
      | obj _ | lit _ =>
        have hnone : arrayAt obj (lit "option-data") = none := by
          rw [arrayAt, valueAt, hat, Option.map_some, hjson]
        rw [hnone]
        dsimp only
        split_ifs
        · exact .same hvalue (by simp)
        · exact .put hat hloose ⟨fun _ => by simp, fun _ => hcanon⟩

end Detent.Guarantees.KeaEdits
