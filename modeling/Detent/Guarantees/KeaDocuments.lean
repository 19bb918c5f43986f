import Detent.Guarantees.KeaElements

/-!
# Strict JSON after an edit of a Kea document

A Kea document that is JSON without its comments is edited into one where no list, element or
subnet is left with a comma too many. The edited element is read again, by rules that allow such
a comma, so that nothing else stops it.
-/
namespace Detent.Guarantees.KeaDocuments
open Lib Lib.Text Lib.JsonText Source.Dhcp
open Source.Doc (EditReport)
open KeaTrees KeaJson KeaCommas
open KeaEdits KeaSubnets KeaElements
open Source.ExecDeny (lit)

/-- A text that the parser reads, and the element alone, mean the same JSON. -/
theorem read_again {element : Obj} {fresh : JsoncRoot} (h : ObjFits loose element)
    (hparse : parseJsonc element.render = some fresh) :
    ObjFits loose fresh.root ∧ (ObjFits strict fresh.root ↔ ObjFits strict element) := by
  obtain ⟨hrender, hlead, hroot, htrail⟩ := parseJsonc_reads hparse
  refine ⟨hroot, ?_⟩
  have halone : (⟨[], element, []⟩ : JsoncRoot).render = element.render := by
    simp [JsoncRoot.render]
  have helement : IsText (uncomment (⟨[], element, []⟩ : JsoncRoot).render) ↔
      ObjFits strict element := by
    refine isText_iff_strict trivial_nil h ?_
    intro c hc
    cases hc
  rw [← isText_iff_strict hlead hroot htrail, ← hrender, ← halone, helement]

/-- The condition on the element that the document's flavour reads. -/
def Kept (flavor : KeaFlavor) (root : Obj) (config : KeaConfig) : Prop :=
  ∀ element, valueAt root flavor.configKey = some (.obj element) →
    ElementKept flavor element config

theorem applyKeaConfig_fits {root edited : Obj} {flavor : KeaFlavor} {config : KeaConfig}
    {report report' : EditReport} (h : ObjFits strict root)
    (happly : applyKeaConfig root flavor config report = .ok (edited, report')) :
    ObjFits loose edited ∧ (ObjFits strict edited ↔ Kept flavor root config) := by
  have hstays : (∀ element, valueAt root flavor.configKey ≠ some (.obj element)) → edited = root →
      ObjFits loose edited ∧ (ObjFits strict edited ↔ Kept flavor root config) := by
    rintro hother rfl
    exact ⟨objFits_mono strict_stricter h,
      fun _ element helement => absurd helement (hother element), fun _ => h⟩
  have hvalue := value_of_frame ((objFits_iff root).mp h).1 flavor.configKey
  rw [applyKeaConfig] at happly
  cases hat : root.memberByKey flavor.configKey with
  | none =>
    rw [hat] at happly
    dsimp only at happly
    split_ifs at happly
    obtain ⟨rfl, -⟩ := Prod.mk.inj (Except.ok.inj happly)
    refine hstays (fun element helement => ?_) rfl
    rw [valueAt, hat] at helement
    cases helement
  | some member =>
    have hread : valueAt root flavor.configKey = some member.value := by rw [valueAt, hat]; rfl
    rw [hat] at happly
    dsimp only at happly
    cases hjson : member.value with
    | obj element =>
      rw [hjson] at happly hread
      have helement : ObjFits strict element := hvalue _ hread
      obtain ⟨hloose, hstrict⟩ := editElement_fits helement flavor config report
      dsimp only at happly
      cases hparse : parseJsonc (editElement element flavor config report).1.render with
      | none =>
        rw [hparse] at happly
        cases happly
      | some fresh =>
        rw [hparse] at happly
        obtain ⟨rfl, -⟩ := Prod.mk.inj (Except.ok.inj happly)
        obtain ⟨hfresh, hagain⟩ := read_again hloose hparse
        have hspec : EditSpec flavor.configKey root
            (root.put flavor.configKey (.obj fresh.root)) (ObjFits strict fresh.root) :=
          .put hat hfresh Iff.rfl
        obtain ⟨hput, hiff⟩ := hspec.objFits h
        refine ⟨hput, hiff.trans ((hagain.trans hstrict).trans ⟨fun hkept other hother => ?_, ?_⟩)⟩
        · rw [hread] at hother
          obtain rfl := Jsonc.obj.inj (Option.some.inj hother)
          exact hkept
        · exact fun hkept => hkept element hread
    | arr _ | lit _ =>
      rw [hjson] at happly hread
      dsimp only at happly
      split_ifs at happly
      obtain ⟨rfl, -⟩ := Prod.mk.inj (Except.ok.inj happly)
      refine hstays (fun element helement => ?_) rfl
      rw [hread] at helement
      cases helement

theorem parseJsonc_of_parse {src : Text} {flavor : KeaFlavor} {root : JsoncRoot}
    (h : parse src = .kea flavor root) : parseJsonc src = some root := by
  rw [parse] at h
  cases hkea : parseKea src with
  | none =>
    rw [hkea] at h
    cases h
  | some doc =>
    rw [hkea] at h
    obtain rfl : doc = .kea flavor root := h
    rw [parseKea] at hkea
    split_ifs at hkea
    obtain ⟨document, hparse, h1⟩ := Option.bind_eq_some_iff.mp hkea
    obtain ⟨found, -, hdoc⟩ := Option.bind_eq_some_iff.mp h1
    obtain ⟨-, rfl⟩ := DhcpDoc.kea.inj (Option.some.inj hdoc)
    exact hparse

/-- A successful edit of a Kea document edits the element of its flavour. -/
theorem applyKeaConfig_of_apply {flavor : KeaFlavor} {root : JsoncRoot} {model : Model}
    {doc : DhcpDoc} {report : EditReport} (h : apply (.kea flavor root) model = .ok (doc, report)) :
    ∃ edited, applyKeaConfig root.root flavor (model.section flavor) ⟨0, 0, 0⟩ =
        .ok (edited, report) ∧ doc = .kea flavor { root with root := edited } := by
  rw [apply] at h
  split_ifs at h
  cases hinjection : checkKeaInjection (model.section flavor) with
  | error e =>
    rw [hinjection] at h
    cases h
  | ok _ =>
    rw [hinjection] at h
    cases happly : applyKeaConfig root.root flavor (model.section flavor) ⟨0, 0, 0⟩ with
    | error e =>
      rw [happly] at h
      cases h
    | ok result =>
      rw [happly] at h
      obtain ⟨rfl, rfl⟩ := Prod.mk.inj (Except.ok.inj h)
      exact ⟨result.1, rfl, rfl⟩

/-- An edited Kea document is JSON without its comments where its element keeps its commas. -/
theorem edited_json_iff {src : Text} {flavor : KeaFlavor} {root : JsoncRoot} {model : Model}
    {doc : DhcpDoc} {report : EditReport} (hparse : parse src = .kea flavor root)
    (hjson : IsText (uncomment src)) (happly : apply (parse src) model = .ok (doc, report)) :
    IsText (uncomment doc.render) ↔ Kept flavor root.root (model.section flavor) := by
  obtain ⟨rfl, hlead, hroot, htrail⟩ := parseJsonc_reads (parseJsonc_of_parse hparse)
  rw [hparse] at happly
  obtain ⟨edited, hedit, rfl⟩ := applyKeaConfig_of_apply happly
  have hstrict := (isText_iff_strict hlead hroot htrail).mp hjson
  obtain ⟨hloose, hiff⟩ := applyKeaConfig_fits hstrict hedit
  have hedited : IsText (uncomment ({ root with root := edited } : JsoncRoot).render) ↔
      ObjFits strict edited := isText_iff_strict hlead hloose htrail
  exact hedited.trans hiff

/-- The element of a DHCPv4 document. -/
def elementOf : DhcpDoc → Option Obj
  | .kea .v4 root =>
    match valueAt root.root (lit "Dhcp4") with
    | some (.obj element) => some element
    | _ => none
  | _ => none

theorem elementOf_eq {doc : DhcpDoc} {element : Obj} (h : elementOf doc = some element) :
    ∃ root, doc = .kea .v4 root ∧ valueAt root.root (lit "Dhcp4") = some (.obj element) := by
  unfold elementOf at h
  split at h
  · rename_i root
    split at h
    · rename_i found hvalue
      obtain rfl := Option.some.inj h
      exact ⟨root, rfl, hvalue⟩
    · cases h
  · cases h

def oneMember : Text := lit "\x7b\"Dhcp4\":\x7b\"authoritative\":true\x7d\x7d"

/-- A text without quotes, control characters and backslashes, as it stands in a string. -/
def plain (t : Text) (h : ∀ c ∈ t, 32 ≤ c.toNat ∧ c ≠ '"' ∧ c ≠ '\\') : List Item :=
  t.attach.map (fun c => .raw c.1 (h c.1 c.2))

theorem oneMember_json : IsText (uncomment oneMember) := by
  have hplain : uncomment oneMember = oneMember := by decide +kernel
  rw [hplain]
  let flavour := plain (lit "Dhcp4") (by decide)
  let name := plain (lit "authoritative") (by decide)
  exact ⟨[.mark .openObject, .string flavour, .mark .colon, .mark .openObject, .string name,
    .mark .colon, .bool true, .mark .closeObject, .mark .closeObject], _, by decide +kernel,
    .object (.last flavour (.object (.last name (.bool true))))⟩

def lifetimeModel : Model :=
  { dnsmasq := [], keaV4 := { interfaces := [], validLifetime := some 600, subnets := [] },
    keaV6 := {} }

/-- A lifetime behind another member: the member gets a comma, the lifetime none. -/
theorem lifetime_json :
    ∃ doc report, apply (parse oneMember) lifetimeModel = .ok (doc, report) ∧
      doc.render = lit "\x7b\"Dhcp4\":\x7b\"authoritative\":true,\"valid-lifetime\":600\x7d\x7d" ∧
      IsText (uncomment doc.render) := by
  have hrender : (match apply (parse oneMember) lifetimeModel with
      | .ok (doc, _) => some doc.render
      | .error _ => none) = some (lit
        "\x7b\"Dhcp4\":\x7b\"authoritative\":true,\"valid-lifetime\":600\x7d\x7d") := by
    decide +kernel
  have helement : (elementOf (parse oneMember)).map (fun element =>
      ((valueAt element (lit "interfaces-config")).isNone,
        (valueAt element KeaFlavor.v4.subnetsKey).isNone)) = some (true, true) := by
    decide +kernel
  obtain ⟨element, hread, hnone⟩ := Option.map_eq_some_iff.mp helement
  obtain ⟨hinterfaces, hsubnets⟩ := Prod.mk.inj hnone
  obtain ⟨root, hparse, hvalue⟩ := elementOf_eq hread
  cases happly : apply (parse oneMember) lifetimeModel with
  | error e =>
    rw [happly] at hrender
    cases hrender
  | ok result =>
    rw [happly] at hrender
    refine ⟨result.1, result.2, rfl, Option.some.inj hrender,
      (edited_json_iff hparse oneMember_json happly).mpr ?_⟩
    intro other hother
    obtain rfl := Jsonc.obj.inj (Option.some.inj (hvalue.symm.trans hother))
    refine ⟨?_, ?_, fun hgoes => absurd hgoes.1 (Option.some_ne_none _)⟩
    · rw [InterfacesKept, Option.isNone_iff_eq_none.mp hinterfaces]
      rfl
    · intro items hitems
      rw [arrayAt, Option.isNone_iff_eq_none.mp hsubnets] at hitems
      cases hitems

def emptyElement : Text := lit "\x7b\"Dhcp4\":\x7b\x7d\x7d"

theorem emptyElement_json : IsText (uncomment emptyElement) := by
  have hplain : uncomment emptyElement = emptyElement := by decide +kernel
  rw [hplain]
  let flavour := plain (lit "Dhcp4") (by decide)
  exact ⟨[.mark .openObject, .string flavour, .mark .colon, .mark .openObject, .mark .closeObject,
    .mark .closeObject], _, by decide +kernel, .object (.last flavour .emptyObject)⟩

def interfaceModel : Model :=
  { dnsmasq := [],
    keaV4 := { interfaces := [lit "eth0"], validLifetime := none, subnets := [] }, keaV6 := {} }

/-- An interface written into an empty element leaves a comma behind the last item. -/
theorem interface_not_json :
    ¬ ∀ (src : Text) (flavor : KeaFlavor) (root : JsoncRoot) (model : Model) (doc : DhcpDoc)
      (report : EditReport), parse src = .kea flavor root → IsText (uncomment src) →
      apply (parse src) model = .ok (doc, report) → IsText (uncomment doc.render) := by
  intro hall
  have hrender : (match apply (parse emptyElement) interfaceModel with
      | .ok (doc, _) => some (uncomment doc.render)
      | .error _ => none) = some (lit
        "\x7b\"Dhcp4\":\x7b\"interfaces-config\":\x7b\"interfaces\":[\"eth0\",]\x7d\x7d\x7d") := by
    decide +kernel
  have hrefused : exec Reader.step ⟨[], .value false⟩ (lit
      "\x7b\"Dhcp4\":\x7b\"interfaces-config\":\x7b\"interfaces\":[\"eth0\",]\x7d\x7d\x7d") =
      none := by rfl
  have helement : (elementOf (parse emptyElement)).isSome = true := by decide +kernel
  obtain ⟨element, hread⟩ := Option.isSome_iff_exists.mp helement
  obtain ⟨root, hparse, -⟩ := elementOf_eq hread
  cases happly : apply (parse emptyElement) interfaceModel with
  | error e =>
    rw [happly] at hrender
    cases hrender
  | ok result =>
    rw [happly] at hrender
    have hjson := hall _ _ _ _ _ _ hparse emptyElement_json happly
    rw [Option.some.inj hrender] at hjson
    obtain ⟨r, hread, -⟩ := hjson.read
    rw [hrefused] at hread
    cases hread

end Detent.Guarantees.KeaDocuments
