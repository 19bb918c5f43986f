import Detent.Guarantees.KeaSubnets

/-!
# Edits of a Kea server's element

The three edits of the element, and the condition under which what they leave is JSON.
-/
namespace Detent.Guarantees.KeaElements
open Lib Lib.Text Source.Dhcp Source.Doc
open KeaTrees KeaJson KeaCommas
open KeaEdits KeaSubnets
open Source.ExecDeny (lit)

def isInterface (value : Jsonc) : Bool := value.asStr.isSome

/-- What keeps the commas of the list of interfaces: one that stands there loses no comma, and
none is written in full but the empty one. -/
def InterfacesKept (obj : Obj) (want : List Text) : Prop :=
  match valueAt obj (lit "interfaces-config") with
  | some (.obj inner) =>
    (∀ items ∈ arrayAt inner (lit "interfaces"), ¬ LosesLast [⟨isInterface, want.length⟩] items) ∧
      (arrayAt inner (lit "interfaces") = none → want = [])
  | _ => want = []

variable {obj : Obj} {key : Text}

/-- Interfaces that are as wanted keep their list. -/
theorem interfacesKept_of_projected {want : List Text}
    (h : projectInterfacesConfig obj = some want) : InterfacesKept obj want := by
  rw [projectInterfacesConfig] at h
  rw [InterfacesKept, valueAt]
  cases hat : obj.memberByKey (lit "interfaces-config") with
  | none =>
    rw [hat] at h
    exact (Option.some.inj h).symm
  | some member =>
    rw [hat] at h
    rw [Option.map_some]
    cases hjson : member.value with
    | obj inner =>
      dsimp only at h ⊢
      rw [hjson] at h
      change projectInterfaces inner = some want at h
      constructor
      · intro items hitems
        obtain ⟨list, array, hlist, hvalue, rfl⟩ := of_arrayAt hitems
        rw [projectInterfaces, hlist] at h
        dsimp only at h
        rw [hvalue] at h
        obtain rfl := Option.some.inj h
        refine not_losesLast ?_
        simp only [List.mem_singleton, forall_eq]
        exact (length_filterMap_entries Jsonc.asStr array.items).symm
      · intro hnone
        rw [projectInterfaces] at h
        rw [arrayAt, valueAt] at hnone
        cases hlist : inner.memberByKey (lit "interfaces") with
        | none =>
          rw [hlist] at h
          exact (Option.some.inj h).symm
        | some list =>
          rw [hlist] at h hnone
          rw [Option.map_some] at hnone
          dsimp only at h hnone
          cases hvalue : list.value with
          | arr array =>
            rw [hvalue] at hnone
            cases hnone
          | obj _ | lit _ =>
            rw [hvalue] at h
            cases h
    | arr _ | lit _ =>
      dsimp only at h
      rw [hjson] at h
      cases h

theorem applyInterfacesConfig_spec (obj : Obj) (want : List Text) (report : EditReport)
    (hvalue : ∀ value ∈ valueAt obj (lit "interfaces-config"), ValueFits strict value) :
    EditSpec (lit "interfaces-config") obj (applyInterfacesConfig obj want report).1
      (InterfacesKept obj want) := by
  obtain ⟨hloose, hstrict⟩ := canonInterfacesConfig_fits want
  rw [applyInterfacesConfig]
  by_cases hsame : projectInterfacesConfig obj = some want
  · rw [if_pos hsame]
    exact .same hvalue (interfacesKept_of_projected hsame)
  rw [if_neg hsame]
  cases hat : obj.memberByKey (lit "interfaces-config") with
  | none =>
    have hkept : InterfacesKept obj want ↔ want = [] := by rw [InterfacesKept, valueAt, hat]; rfl
    rw [hkept]
    dsimp only
    split_ifs with hempty
    · exact .same hvalue (List.isEmpty_iff.mp hempty)
    · exact .set report hloose hstrict
  | some member =>
    have hmember : ValueFits strict member.value := hvalue _ (by rw [valueAt, hat]; rfl)
    dsimp only
    cases hjson : member.value with
    | obj inner =>
      rw [hjson] at hmember
      have hinner : ObjFits strict inner := hmember
      have hframe := ((objFits_iff inner).mp hinner).1
      obtain ⟨hlist, hlistStrict⟩ := canonStrs_fits want
      have hspec := syncListMember_spec Jsonc.asStr inner (lit "interfaces") want
        canonStrs report (canonLit_fits strict) hlist (value_of_frame hframe (lit "interfaces"))
      obtain ⟨hedited, hiff⟩ := hspec.objFits hinner
      refine .put hat hedited (hiff.trans ?_)
      rw [InterfacesKept, valueAt, hat, Option.map_some, hjson]
      refine and_congr_right fun _ => forall_congr' fun _ => ?_
      rw [hlistStrict]
      exact ⟨fun h => by_contra fun hne => hne (h hne), fun h hne => absurd h hne⟩
    | arr _ | lit _ =>
      have hkept : InterfacesKept obj want ↔ want = [] := by
        rw [InterfacesKept, valueAt, hat, Option.map_some, hjson]
      rw [hkept]
      dsimp only
      split_ifs with hempty
      · exact .same hvalue (List.isEmpty_iff.mp hempty)
      · exact .put hat hloose hstrict

def names (obj : Obj) : List (Option Text) := obj.members.map Member.keyName

theorem names_put (obj : Obj) (key : Text) (value : Jsonc) :
    names (obj.put key value) = names obj := by
  have hmembers : ∀ members : List Member,
      (putValue key value members).map Member.keyName = members.map Member.keyName := by
    intro members
    induction members with
    | nil => rfl
    | cons member members ih =>
      rw [putValue]
      split
      · rfl
      · rw [List.map_cons, List.map_cons, ih]
  exact hmembers obj.members

/-- An edit of the interfaces that keeps JSON's rules adds no member. -/
theorem names_applyInterfacesConfig {want : List Text} (h : InterfacesKept obj want)
    (report : EditReport) : names (applyInterfacesConfig obj want report).1 = names obj := by
  rw [applyInterfacesConfig]
  by_cases hsame : projectInterfacesConfig obj = some want
  · rw [if_pos hsame]
  rw [if_neg hsame]
  cases hat : obj.memberByKey (lit "interfaces-config") with
  | none =>
    rw [InterfacesKept, valueAt, hat] at h
    obtain rfl : want = [] := h
    rfl
  | some member =>
    dsimp only
    cases member.value with
    | obj inner => exact names_put _ _ _
    | arr _ | lit _ =>
      dsimp only
      split_ifs
      · rfl
      · exact names_put _ _ _

def removed (obj : Obj) (key : Text) : Obj :=
  { obj with members := obj.members.eraseP (Member.named key) }

/-- The lifetime that stands there is no longer wanted. -/
def LifetimeGoes (obj : Obj) (want : Option Nat) : Prop :=
  want = none ∧ ((valueAt obj (lit "valid-lifetime")).bind Jsonc.asU32).isSome = true

theorem applyValidLifetime_cases (obj : Obj) (want : Option Nat) (report : EditReport)
    (hvalue : ∀ value ∈ valueAt obj (lit "valid-lifetime"), ValueFits strict value) :
    LifetimeGoes obj want ∧
        (applyValidLifetime obj want report).1 = removed obj (lit "valid-lifetime") ∨
      ¬ LifetimeGoes obj want ∧
        EditSpec (lit "valid-lifetime") obj (applyValidLifetime obj want report).1 True := by
  have hcanon : ∀ lifetime, ValueFits loose (canonU32 lifetime) :=
    fun lifetime => valueFits_mono strict_stricter (canonU32_fits lifetime)
  rw [applyValidLifetime.eq_def]
  by_cases hsame : projectValidLifetime obj = some want
  · rw [if_pos hsame]
    refine .inr ⟨?_, .same hvalue trivial⟩
    rintro ⟨rfl, hsome⟩
    rw [projectValidLifetime] at hsame
    rw [valueAt] at hsome
    cases hat : obj.memberByKey (lit "valid-lifetime") with
    | none =>
      rw [hat] at hsome
      cases hsome
    | some member =>
      rw [hat] at hsame
      obtain ⟨lifetime, -, hnone⟩ := Option.map_eq_some_iff.mp hsame
      cases hnone
  rw [if_neg hsame]
  cases hat : obj.memberByKey (lit "valid-lifetime") with
  | none =>
    refine .inr ⟨?_, ?_⟩
    · rintro ⟨-, hsome⟩
      rw [valueAt, hat] at hsome
      cases hsome
    · cases want with
      | none => exact .same hvalue trivial
      | some lifetime =>
        exact .set report (hcanon lifetime) ⟨fun _ => trivial, fun _ => canonU32_fits lifetime⟩
  | some member =>
    have hread : ((valueAt obj (lit "valid-lifetime")).bind Jsonc.asU32) = member.value.asU32 := by
      rw [valueAt, hat]
      rfl
    dsimp only
    cases want with
    | some lifetime =>
      refine .inr ⟨fun hgoes => Option.some_ne_none _ hgoes.1, ?_⟩
      cases hnumber : member.value.asU32 with
      | none => exact .put hat (hcanon lifetime) ⟨fun _ => trivial, fun _ => canonU32_fits lifetime⟩
      | some _ =>
        exact .put hat (hcanon lifetime) ⟨fun _ => trivial, fun _ => canonU32_fits lifetime⟩
    | none =>
      cases hnumber : member.value.asU32 with
      | none =>
        refine .inr ⟨?_, .same hvalue trivial⟩
        rintro ⟨-, hsome⟩
        rw [hread, hnumber] at hsome
        cases hsome
      | some number =>
        refine .inl ⟨⟨rfl, by rw [hread, hnumber]; rfl⟩, ?_⟩
        rw [removeMember, hat]
        rfl

/-- The first member named `key` is the last member, and not the only one. -/
def EndsWith (obj : Obj) (key : Text) : Prop :=
  ∃ before, names obj = before ++ [some key] ∧ before ≠ [] ∧ some key ∉ before

theorem named_iff {member : Member} : member.named key = true ↔ member.keyName = some key := by
  rw [Member.named, beq_iff_eq]

/-- Removal keeps the commas but where the last member goes and another stays. -/
theorem exact_removed_iff (h : Exact (memberCommas obj))
    (hmember : (obj.memberByKey key).isSome = true) :
    Exact (memberCommas (removed obj key)) ↔ ¬ EndsWith obj key := by
  obtain ⟨member, hmember⟩ := Option.isSome_iff_exists.mp hmember
  have hmem := List.mem_of_find?_eq_some hmember
  have hnamed := List.find?_some hmember
  obtain ⟨found, before, after, hbefore, hfound, hmembers, herased⟩ :=
    List.exists_of_eraseP hmem hnamed
  have hnames : names obj =
      before.map Member.keyName ++ some key :: after.map Member.keyName := by
    rw [names, hmembers, List.map_append, List.map_cons, named_iff.mp hfound]
  have hnone : some key ∉ before.map Member.keyName := by
    intro hkey
    obtain ⟨member, hmem, hname⟩ := List.mem_map.mp hkey
    exact hbefore member hmem (named_iff.mpr hname)
  rw [memberCommas, hmembers, List.map_append, List.map_cons] at h
  rw [memberCommas, removed, herased, List.map_append, EndsWith, hnames]
  rcases List.eq_nil_or_concat' after with rfl | ⟨init, last, rfl⟩
  · -- the removed member is the last one
    have hall := (exact_snoc.mp h).1
    rw [List.map_nil, List.append_nil, exact_iff_not_trailing (separated_of_all hall), not_iff_not]
    constructor
    · exact fun htrailing => ⟨_, rfl, fun hnil => htrailing.1 (by simpa using hnil), hnone⟩
    · rintro ⟨rest, heq, hne, -⟩
      obtain ⟨rfl, -⟩ := List.append_inj' heq rfl
      exact ⟨fun hnil => hne (by simpa using hnil), hall⟩
  · -- another member follows it
    rw [List.map_append] at h ⊢
    rw [← List.cons_append, ← List.append_assoc] at h
    obtain ⟨hall, hlast⟩ := exact_snoc.mp h
    refine iff_of_true ?_ ?_
    · rw [← List.append_assoc]
      refine exact_snoc.mpr ⟨fun c hc => hall c ?_, hlast⟩
      rcases List.mem_append.mp hc with hc | hc
      · exact List.mem_append_left _ hc
      · exact List.mem_append_right _ (List.mem_cons_of_mem _ hc)
    · rintro ⟨rest, heq, -, hout⟩
      rw [List.map_append, ← List.cons_append, ← List.append_assoc] at heq
      obtain ⟨rfl, -⟩ := List.append_inj' heq rfl
      exact hout (by simp)

theorem separated_removed (h : Separated (memberCommas obj)) :
    Separated (memberCommas (removed obj key)) :=
  separated_sublist h ((List.eraseP_sublist (l := obj.members)).map Member.comma)

theorem valueAt_removed {key' : Text} (hne : key' ≠ key) :
    valueAt (removed obj key) key' = valueAt obj key' := by
  have hmembers : ∀ members : List Member,
      (members.eraseP (Member.named key)).find? (Member.named key') =
        members.find? (Member.named key') := by
    intro members
    induction members with
    | nil => rfl
    | cons member members ih =>
      cases hnamed : member.named key with
      | true =>
        have hother : ¬ member.named key' = true := fun hother => hne (named_eq hother hnamed)
        rw [List.eraseP_cons_of_pos hnamed, List.find?_cons_of_neg hother]
      | false =>
        rw [List.eraseP_cons_of_neg (by simp [hnamed]), List.find?_cons, List.find?_cons, ih]
  rw [valueAt, valueAt, Obj.memberByKey, removed, hmembers]
  rfl

theorem forall_eraseP {p : Member → Prop} (members : List Member)
    (h : ∀ member ∈ members.find? (Member.named key), p member) :
    (∀ member ∈ members.eraseP (Member.named key), p member) ↔ ∀ member ∈ members, p member := by
  induction members with
  | nil => rfl
  | cons member members ih =>
    cases hnamed : member.named key with
    | true =>
      rw [List.find?_cons_of_pos hnamed] at h
      rw [List.eraseP_cons_of_pos hnamed, List.forall_mem_cons]
      exact ⟨fun hrest => ⟨h member rfl, hrest⟩, fun hall => hall.2⟩
    | false =>
      rw [List.find?_cons_of_neg (by simp [hnamed])] at h
      rw [List.eraseP_cons_of_neg (by simp [hnamed]), List.forall_mem_cons, List.forall_mem_cons,
        ih h]

theorem remove_edited {keys : List Text} {mid : Obj} {cond : Prop} (h : Edited keys obj mid cond)
    (hobj : FrameFits strict obj) (hkey : key ∉ keys) :
    Edited (key :: keys) obj (removed mid key) cond := by
  have hfound : ∀ member ∈ mid.members.find? (Member.named key), MemberFits strict member := by
    intro member hmember
    refine ⟨(h.frame_loose.2.2 member (List.mem_of_find?_eq_some hmember)).1, ?_⟩
    refine h.value hobj hkey member.value ?_
    rw [valueAt, Obj.memberByKey, Option.mem_def.mp hmember]
    rfl
  have hframe : FrameFits strict (removed mid key) ↔ FrameFits strict mid :=
    and_congr_right fun _ => and_congr_right fun _ => forall_eraseP mid.members hfound
  constructor
  · intro other hother
    obtain ⟨hne, hrest⟩ := not_or.mp (mt List.mem_cons.mpr hother)
    rw [valueAt_removed hne, h.others other hrest]
  · exact ⟨h.frame_loose.1, h.frame_loose.2.1,
      fun member hmember => h.frame_loose.2.2 member (List.mem_of_mem_eraseP hmember)⟩
  · rw [hframe, h.frame_strict]

/-- The second edit of an element, after one of its interfaces. -/
theorem applyValidLifetime_edited {mid : Obj} {cond : Prop}
    (h : Edited [lit "interfaces-config"] obj mid cond) (hobj : FrameFits strict obj)
    (hexact : Exact (memberCommas mid)) (want : Option Nat) (report : EditReport) :
    Edited [lit "valid-lifetime", lit "interfaces-config"] obj
        (applyValidLifetime mid want report).1 cond ∧
      Separated (memberCommas (applyValidLifetime mid want report).1) ∧
      (Exact (memberCommas (applyValidLifetime mid want report).1) ↔
        ¬ (LifetimeGoes obj want ∧ EndsWith mid (lit "valid-lifetime"))) := by
  have hkey : lit "valid-lifetime" ∉ [lit "interfaces-config"] := by decide
  have hgoes : LifetimeGoes mid want ↔ LifetimeGoes obj want := by
    rw [LifetimeGoes, LifetimeGoes, h.others _ hkey]
  rcases applyValidLifetime_cases mid want report (h.value hobj hkey) with
    ⟨hgone, hresult⟩ | ⟨hstays, hspec⟩
  · have hmember : (mid.memberByKey (lit "valid-lifetime")).isSome = true := by
      have hsome := hgone.2
      rw [valueAt] at hsome
      cases hat : mid.memberByKey (lit "valid-lifetime") with
      | none =>
        rw [hat] at hsome
        cases hsome
      | some member => rfl
    rw [hresult, exact_removed_iff hexact hmember]
    exact ⟨remove_edited h hobj hkey, separated_removed (separated_of_exact hexact),
      not_congr ⟨fun hends => ⟨hgoes.mp hgone, hends⟩, fun hends => hends.2⟩⟩
  · have hedited := h.step hobj hkey hspec
    have hcommas := hspec.edit.exact hexact
    refine ⟨⟨hedited.others, hedited.frame_loose, ?_⟩, separated_of_exact hcommas,
      iff_of_true hcommas fun hgone => hstays (hgoes.mpr hgone.1)⟩
    rw [hedited.frame_strict, and_true]

/-- A comma behind the last member goes where the subnets come as a new member only. -/
theorem exact_applySubnets_iff (h : Separated (memberCommas obj)) (flavor : KeaFlavor)
    (want : List KeaSubnet) (report : EditReport) :
    Exact (memberCommas (applySubnets obj flavor want report).1) ↔
      Exact (memberCommas obj) ∨ valueAt obj flavor.subnetsKey = none ∧ want ≠ [] := by
  have hput : ∀ value, Exact (memberCommas (obj.put flavor.subnetsKey value)) ↔
      Exact (memberCommas obj) := by
    intro value
    rw [memberCommas, Obj.put, commas_putValue]
    rfl
  rw [applySubnets, valueAt]
  cases hat : obj.memberByKey flavor.subnetsKey with
  | none =>
    have hprojected : projectSubnets obj flavor.subnetsKey = some [] := by
      rw [projectSubnets, hat]
    rw [hprojected]
    cases want with
    | nil => simp
    | cons first rest =>
      have hadd := EditAt.add (canonSubnets (first :: rest)) hat
      refine iff_of_true ?_ (.inr ⟨rfl, List.cons_ne_nil _ _⟩)
      rw [if_neg (by simp)]
      dsimp only
      rw [if_neg (by simp), setMember, hat]
      dsimp only
      rw [memberCommas, List.map_append]
      exact exact_snoc.mpr ⟨all_setLastMemberComma h, rfl⟩
  | some member =>
    have hsome : ¬ (Option.map Member.value (some member) = none ∧ want ≠ []) := by simp
    rw [or_iff_left hsome]
    by_cases hsame : projectSubnets obj flavor.subnetsKey = some want
    · rw [if_pos hsame]
    rw [if_neg hsame]
    dsimp only
    cases member.value with
    | arr array => exact hput _
    | obj _ | lit _ =>
      dsimp only
      split_ifs
      · rfl
      · exact hput _

/-- What keeps the commas of a server's element, of its lists and of its subnets. -/
structure ElementKept (flavor : KeaFlavor) (obj : Obj) (config : KeaConfig) : Prop where
  interfaces : InterfacesKept obj config.interfaces
  subnets : ∀ items ∈ arrayAt obj flavor.subnetsKey, SubnetsKept config.subnets items
  lifetime : LifetimeGoes obj config.validLifetime → EndsWith obj (lit "valid-lifetime") →
    valueAt obj flavor.subnetsKey = none ∧ config.subnets ≠ []

theorem subnetsKey_apart (flavor : KeaFlavor) :
    flavor.subnetsKey ∉ [lit "valid-lifetime", lit "interfaces-config"] := by
  cases flavor <;> decide

/-- An edited element keeps the parser's rules, and JSON's exactly where `ElementKept` holds. -/
theorem editElement_fits (h : ObjFits strict obj) (flavor : KeaFlavor) (config : KeaConfig)
    (report : EditReport) :
    ObjFits loose (editElement obj flavor config report).1 ∧
      (ObjFits strict (editElement obj flavor config report).1 ↔
        ElementKept flavor obj config) := by
  obtain ⟨hframe, hexact⟩ := (objFits_iff obj).mp h
  have hstart := Edited.start hframe
  rw [editElement]
  dsimp only
  -- the interfaces
  have hinterfaces := applyInterfacesConfig_spec obj config.interfaces report
    (hstart.value hframe List.not_mem_nil)
  have hfirst := hstart.step hframe List.not_mem_nil hinterfaces
  have hfirstCommas := hinterfaces.edit.exact hexact
  have hnames : InterfacesKept obj config.interfaces →
      names (applyInterfacesConfig obj config.interfaces report).1 = names obj :=
    fun hkept => names_applyInterfacesConfig hkept report
  generalize applyInterfacesConfig obj config.interfaces report = first at *
  -- the lifetime
  obtain ⟨hedited, hseparated, hcommas⟩ :=
    applyValidLifetime_edited hfirst hframe hfirstCommas config.validLifetime first.2
  generalize applyValidLifetime first.1 config.validLifetime first.2 = second at *
  -- the subnets
  have hkey := subnetsKey_apart flavor
  have hsubnets := applySubnets_spec second.1 flavor config.subnets second.2
    (hedited.value hframe hkey)
  have hall := hedited.step hframe hkey hsubnets
  have hlast := exact_applySubnets_iff hseparated flavor config.subnets second.2
  rw [hedited.arrayAt hkey] at hall
  rw [hedited.others _ hkey, hcommas] at hlast
  constructor
  · exact (objFits_iff _).mpr ⟨hall.frame_loose, hsubnets.edit.separated hseparated⟩
  · rw [objFits_iff, hall.frame_strict]
    refine (and_congr_right' hlast).trans ?_
    constructor
    · rintro ⟨⟨⟨-, hinterfaces⟩, hkept⟩, hcases⟩
      refine ⟨hinterfaces, hkept, fun hgone hends => hcases.resolve_left (not_not_intro ⟨hgone, ?_⟩)⟩
      rwa [EndsWith, hnames hinterfaces]
    · rintro ⟨hinterfaces, hkept, hlifetime⟩
      refine ⟨⟨⟨trivial, hinterfaces⟩, hkept⟩, ?_⟩
      by_cases hgone : LifetimeGoes obj config.validLifetime ∧ EndsWith first.1 (lit "valid-lifetime")
      · obtain ⟨hgone, hends⟩ := hgone
        rw [EndsWith, hnames hinterfaces] at hends
        exact .inr (hlifetime hgone hends)
      · exact .inl hgone

end Detent.Guarantees.KeaElements
