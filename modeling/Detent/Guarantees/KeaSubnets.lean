import Detent.Guarantees.KeaEdits

/-!
# Edits of a Kea subnet

A merged subnet is JSON where its lists keep their commas, and so is a list of subnets whose
merged ones are.
-/
namespace Detent.Guarantees.KeaSubnets
open Lib Lib.Text Source.Dhcp Source.Doc
open KeaTrees KeaJson KeaCommas
open KeaEdits
open Source.ExecDeny (lit)

/-- Edits under `keys` that keep the parser's rules, and JSON's where `cond` holds. The commas
between the members are not looked at. -/
structure Edited (keys : List Text) (obj obj' : Obj) (cond : Prop) : Prop where
  others : ∀ key, key ∉ keys → valueAt obj' key = valueAt obj key
  frame_loose : FrameFits loose obj'
  frame_strict : FrameFits strict obj' ↔ cond

section Edited

variable {keys : List Text} {key : Text} {obj mid obj' : Obj} {cond cond' : Prop}

theorem Edited.start (h : FrameFits strict obj) : Edited [] obj obj True where
  others _ _ := rfl
  frame_loose := frameFits_mono h
  frame_strict := ⟨fun _ => trivial, fun _ => h⟩

/-- The value under a key that no edit has touched yet. -/
theorem Edited.value (h : Edited keys obj mid cond) (hobj : FrameFits strict obj)
    (hkey : key ∉ keys) : ∀ value ∈ valueAt mid key, ValueFits strict value := by
  rw [h.others key hkey]
  exact value_of_frame hobj key

theorem Edited.arrayAt (h : Edited keys obj mid cond) (hkey : key ∉ keys) :
    arrayAt mid key = KeaEdits.arrayAt obj key := by
  rw [KeaEdits.arrayAt, KeaEdits.arrayAt, h.others key hkey]

theorem Edited.step (h : Edited keys obj mid cond) (hobj : FrameFits strict obj)
    (hkey : key ∉ keys) (hspec : EditSpec key mid obj' cond') :
    Edited (key :: keys) obj obj' (cond ∧ cond') where
  others other hother := by
    obtain ⟨hne, hrest⟩ := not_or.mp (mt List.mem_cons.mpr hother)
    rw [hspec.edit.valueAt_ne hne, h.others other hrest]
  frame_loose := hspec.frame_loose (h.value hobj hkey) h.frame_loose
  frame_strict := by rw [hspec.frame_strict (h.value hobj hkey), h.frame_strict]

end Edited

theorem setUnless_spec {p : Prop} [Decidable p] (obj : Obj) (key : Text) {value : Jsonc}
    (report : EditReport) (hvalue : ∀ value ∈ valueAt obj key, ValueFits strict value)
    (hstrict : ValueFits strict value) :
    EditSpec key obj (if p then (obj, report) else setMember obj key value report).1 True := by
  split_ifs
  · exact .same hvalue trivial
  · exact .set report (valueFits_mono strict_stricter hstrict) ⟨fun _ => trivial, fun _ => hstrict⟩

def isPool (value : Jsonc) : Bool := (projectPool value).isSome

/-- What keeps the commas of a merged subnet's lists. -/
structure SubnetKept (obj : Obj) (want : KeaSubnet) : Prop where
  pools : ∀ items ∈ arrayAt obj (lit "pools"), ¬ LosesLast [⟨isPool, want.pools.length⟩] items
  options : ∀ items ∈ arrayAt obj (lit "option-data"), OptionsKept want items

theorem length_filterMap_entries {P : Type} (project : Jsonc → Option P) (items : List ArrItem) :
    (items.filterMap (fun item => project item.value)).length =
      entries (fun value => (project value).isSome) items := by
  rw [List.length_filterMap_eq_countP]
  rfl

theorem subnetKept_of_projected {obj : Obj} {want : KeaSubnet} (h : projectSubnet obj = some want) :
    SubnetKept obj want := by
  rw [projectSubnet] at h
  obtain ⟨id, -, h1⟩ := Option.bind_eq_some_iff.mp h
  obtain ⟨subnet, -, h2⟩ := Option.bind_eq_some_iff.mp h1
  obtain ⟨pools, hpools, h3⟩ := Option.bind_eq_some_iff.mp h2
  have hwant := Option.some.inj h3
  clear h h1 h2 h3
  subst hwant
  constructor
  · intro items hitems
    obtain ⟨member, array, hat, hjson, rfl⟩ := of_arrayAt hitems
    rw [projectPools, hat] at hpools
    dsimp only at hpools
    rw [hjson] at hpools
    obtain rfl := Option.some.inj hpools
    refine not_losesLast ?_
    simp only [List.mem_singleton, forall_eq, List.length_map]
    exact (length_filterMap_entries projectPool array.items).symm
  · exact fun items hitems => optionsKept_of_projected rfl hitems

/-- A merged subnet keeps the parser's rules, and JSON's where its lists keep their commas. -/
theorem mergeSubnet_fits {obj : Obj} (h : ObjFits strict obj) (want : KeaSubnet)
    (report : EditReport) :
    ObjFits loose (mergeSubnet obj want report).1 ∧
      (ObjFits strict (mergeSubnet obj want report).1 ↔ SubnetKept obj want) := by
  rw [mergeSubnet]
  by_cases hsame : projectSubnet obj = some want
  · rw [if_pos hsame]
    exact ⟨objFits_mono strict_stricter h, fun _ => subnetKept_of_projected hsame, fun _ => h⟩
  rw [if_neg hsame]
  obtain ⟨hframe, hexact⟩ := (objFits_iff obj).mp h
  have hstart := Edited.start hframe
  dsimp only
  -- the identifier
  have hid := setUnless_spec (p := obj.u32At (lit "id") = some want.id) obj (lit "id")
    report (hstart.value hframe List.not_mem_nil) (canonU32_fits want.id)
  have hfirst := hstart.step hframe List.not_mem_nil hid
  generalize (if obj.u32At (lit "id") = some want.id then (obj, report)
    else setMember obj (lit "id") (canonU32 want.id) report) = first at *
  -- the network
  have hkey : lit "subnet" ∉ [lit "id"] := by decide
  have hnetwork := setUnless_spec (p := first.1.strAt (lit "subnet") = some want.subnet)
    first.1 (lit "subnet") first.2 (hfirst.value hframe hkey) (canonLit_fits strict want.subnet)
  have hsecond := hfirst.step hframe hkey hnetwork
  generalize (if first.1.strAt (lit "subnet") = some want.subnet then (first.1, first.2)
    else setMember first.1 (lit "subnet") (canonLit want.subnet) first.2) = second at *
  -- the pools
  have hkey : lit "pools" ∉ [lit "subnet", lit "id"] := by decide
  have hcanon := canonPools_fits (want.pools.map KeaPool.pool)
  have hpools := syncListMember_spec projectPool second.1 (lit "pools")
    (want.pools.map KeaPool.pool) canonPools second.2 canonPool_fits
    (valueFits_mono strict_stricter hcanon) (hsecond.value hframe hkey)
  have hthird := hsecond.step hframe hkey hpools
  rw [hsecond.arrayAt hkey] at hthird
  generalize syncListMember second.1 (lit "pools") (want.pools.map KeaPool.pool) projectPool
    canonPool canonPools second.2 = third at *
  -- the options
  have hkey : lit "option-data" ∉ [lit "pools", lit "subnet", lit "id"] := by decide
  have hoptions := mergeOptionData_spec third.1 want third.2 (hthird.value hframe hkey)
  have hall := hthird.step hframe hkey hoptions
  rw [hthird.arrayAt hkey] at hall
  have hcommas := hoptions.edit.exact (hpools.edit.exact (hnetwork.edit.exact
    (hid.edit.exact hexact)))
  constructor
  · exact (objFits_iff _).mpr ⟨hall.frame_loose, separated_of_exact hcommas⟩
  · rw [objFits_iff, hall.frame_strict]
    rw [List.length_map] at *
    constructor
    · rintro ⟨⟨⟨-, hlast, -⟩, hoptions⟩, -⟩
      exact ⟨hlast, hoptions⟩
    · rintro ⟨hlast, hoptions⟩
      exact ⟨⟨⟨⟨⟨trivial, trivial⟩, trivial⟩, hlast, fun _ _ => hcanon⟩, hoptions⟩, hcommas⟩

def isSubnet (value : Jsonc) : Bool := (value.asObj.bind projectSubnet).isSome

/-- What keeps the commas of an edited list of subnets, and of the subnets themselves. -/
structure SubnetsKept (want : List KeaSubnet) (items : List ArrItem) : Prop where
  list : ¬ LosesLast [⟨isSubnet, want.length⟩] items
  subnets : ∀ pair ∈ ((items.map ArrItem.value).filter isSubnet).zip want,
    ∀ subnet ∈ pair.1.asObj, SubnetKept subnet pair.2

theorem mem_zip_filterMap {P : Type} (project : Jsonc → Option P) {values : List Jsonc}
    {pair : Jsonc × P} (h : pair ∈ (values.filter (fun value => (project value).isSome)).zip
      (values.filterMap project)) : project pair.1 = some pair.2 := by
  induction values with
  | nil => cases h
  | cons value values ih =>
    cases hproject : project value with
    | none =>
      rw [List.filter_cons_of_neg (by simp [hproject]), List.filterMap_cons_none hproject] at h
      exact ih h
    | some entry =>
      rw [List.filter_cons_of_pos (by simp [hproject]), List.filterMap_cons_some hproject,
        List.zip_cons_cons] at h
      rcases List.mem_cons.mp h with rfl | hrest
      · exact hproject
      · exact ih hrest

theorem subnetsKept_of_projected {obj : Obj} {key : Text} {want : List KeaSubnet}
    {items : List ArrItem} (h : projectSubnets obj key = some want)
    (hitems : arrayAt obj key = some items) : SubnetsKept want items := by
  obtain ⟨member, array, hat, hjson, rfl⟩ := of_arrayAt hitems
  rw [projectSubnets, hat] at h
  dsimp only at h
  rw [hjson] at h
  obtain rfl := Option.some.inj h
  constructor
  · refine not_losesLast ?_
    simp only [List.mem_singleton, forall_eq]
    exact (length_filterMap_entries (fun value => value.asObj.bind projectSubnet) _).symm
  · intro pair hpair subnet hsubnet
    have hvalues : array.items.filterMap (fun item => item.value.asObj.bind projectSubnet) =
        (array.items.map ArrItem.value).filterMap (fun value => value.asObj.bind projectSubnet) := by
      rw [List.filterMap_map]
      rfl
    rw [hvalues] at hpair
    have hproject := mem_zip_filterMap (fun value => value.asObj.bind projectSubnet) hpair
    rw [Option.mem_def.mp hsubnet, Option.bind_some] at hproject
    exact subnetKept_of_projected hproject

/-- An edited list of subnets keeps the parser's rules, and JSON's on the same condition. -/
theorem syncSubnets_fits {array : Arr} (h : ArrFits strict array) (want : List KeaSubnet)
    (report : EditReport) :
    ValueFits loose (.arr { array with items := (syncSubnets array.items want report).1 }) ∧
      (ValueFits strict (.arr { array with items := (syncSubnets array.items want report).1 }) ↔
        SubnetsKept want array.items) := by
  obtain ⟨hopens, hcloses, hitems, hexact⟩ := (arrFits_iff array).mp h
  have hobj : ∀ item ∈ array.items, isSubnet item.value = true →
      ∃ subnet, item.value = .obj subnet ∧ ObjFits strict subnet := by
    intro item hitem hsubnet
    have hvalue := (hitems item hitem).2
    cases hjson : item.value with
    | obj subnet =>
      rw [hjson] at hvalue
      exact ⟨subnet, rfl, hvalue⟩
    | arr _ | lit _ =>
      rw [hjson] at hsubnet
      cases hsubnet
  have hloose : ∀ item ∈ (syncSubnets array.items want report).1, ItemFits loose item := by
    refine (fit_syncItems_iff (Q := fun _ _ => True) ?_ ?_ ?_ want report).mpr (fun _ _ => trivial)
    · exact fun item hitem =>
        ⟨(hitems item hitem).1, valueFits_mono strict_stricter (hitems item hitem).2⟩
    · intro item hitem hsubnet entry report
      obtain ⟨subnet, hvalue, hfits⟩ := hobj item hitem hsubnet
      rw [hvalue]
      exact ⟨fun _ => trivial, fun _ => (mergeSubnet_fits hfits entry report).1⟩
    · exact fun entry => valueFits_mono strict_stricter (canonSubnet_fits entry)
  have hstrict : (∀ item ∈ (syncSubnets array.items want report).1, ItemFits strict item) ↔
      ∀ pair ∈ ((array.items.map ArrItem.value).filter isSubnet).zip want,
        ∀ subnet ∈ pair.1.asObj, SubnetKept subnet pair.2 := by
    refine fit_syncItems_iff (Q := fun value entry => ∀ subnet ∈ value.asObj,
      SubnetKept subnet entry) hitems ?_ canonSubnet_fits want report
    intro item hitem hsubnet entry report
    obtain ⟨subnet, hvalue, hfits⟩ := hobj item hitem hsubnet
    rw [hvalue]
    refine (mergeSubnet_fits hfits entry report).2.trans ⟨fun hkept other hother => ?_, ?_⟩
    · obtain rfl := Option.some.inj hother
      exact hkept
    · exact fun hall => hall subnet rfl
  have hseparated : Separated (commas (syncSubnets array.items want report).1) :=
    separated_syncItems _ _ _ (separated_of_exact hexact) want report
  have hcommas : Exact (commas (syncSubnets array.items want report).1) ↔
      ¬ LosesLast [⟨isSubnet, want.length⟩] array.items :=
    exact_syncItems_iff hexact want report
  refine ⟨(arrFits_iff _).mpr ⟨hopens, hcloses, hloose, hseparated⟩, ?_⟩
  refine (arrFits_iff _).trans ?_
  dsimp only
  rw [hstrict]
  exact ⟨fun hall => ⟨hcommas.mp hall.2.2.2, hall.2.2.1⟩,
    fun hkept => ⟨hopens, hcloses, hkept.subnets, hcommas.mpr hkept.list⟩⟩

theorem applySubnets_spec (obj : Obj) (flavor : KeaFlavor) (want : List KeaSubnet)
    (report : EditReport)
    (hvalue : ∀ value ∈ valueAt obj flavor.subnetsKey, ValueFits strict value) :
    EditSpec flavor.subnetsKey obj (applySubnets obj flavor want report).1
      (∀ items ∈ arrayAt obj flavor.subnetsKey, SubnetsKept want items) := by
  have hcanon := canonSubnets_fits want
  have hloose := valueFits_mono strict_stricter hcanon
  rw [applySubnets]
  by_cases hsame : projectSubnets obj flavor.subnetsKey = some want
  · rw [if_pos hsame]
    exact .same hvalue (fun items hitems => subnetsKept_of_projected hsame hitems)
  rw [if_neg hsame]
  cases hat : obj.memberByKey flavor.subnetsKey with
  | none =>
    have hnone : arrayAt obj flavor.subnetsKey = none := by rw [arrayAt, valueAt, hat]; rfl
    rw [hnone]
    dsimp only
    split_ifs
    · exact .same hvalue (by simp)
    · exact .set report hloose ⟨fun _ => by simp, fun _ => hcanon⟩
  | some member =>
    have hmember : ValueFits strict member.value := hvalue _ (by rw [valueAt, hat]; rfl)
    dsimp only
    cases hjson : member.value with
    | arr array =>
      have harray : arrayAt obj flavor.subnetsKey = some array.items := by
        rw [arrayAt, valueAt, hat, Option.map_some, hjson]
      rw [hjson] at hmember
      rw [harray]
      obtain ⟨hedited, hstrict⟩ := syncSubnets_fits hmember want report
      exact .put hat hedited (hstrict.trans (by simp))
    | obj _ | lit _ =>
      have hnone : arrayAt obj flavor.subnetsKey = none := by
        rw [arrayAt, valueAt, hat, Option.map_some, hjson]
      rw [hnone]
      dsimp only
      split_ifs
      · exact .same hvalue (by simp)
      · exact .put hat hloose ⟨fun _ => by simp, fun _ => hcanon⟩

end Detent.Guarantees.KeaSubnets
