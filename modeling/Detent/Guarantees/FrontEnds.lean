import Detent.Guarantees.Hunks
import Detent.Guarantees.ReadSecrets
import Detent.Source.McpTools
import Detent.Source.Modules

/-!
# What the two front ends show of a module

`get_module` and `plan` of the MCP server answer with what the engine returns; the
handlers of the web API redact it first for a token without the write scope. So the two
agree exactly when the token has that scope or nothing is there to redact, and a plan
that is rendered was not refused by the web API for its depth.
-/
namespace Detent.Guarantees.FrontEnds
open Lib Lib.Text Source Source.ReadScope Source.McpTools
open Source.SerdeJson Hunks Guarantees.Alignment ReadSecrets
open Source.Engine (Wiring ofModule decode)
open Source.Sessions (Scopes)
open Option (bind_eq_bind bind_some map_some some.inj)

variable {b : Backend} {store : TokenStore} {token id tokenId : String} {scopes : Scopes}
variable {candidate : Value}

/-- The module parses a model from its target, and its validator answers. -/
def Reads (b : Backend) (id : String) (m : JsonModule) (model : Value) : Prop :=
  findModule b id = .ok m ∧ ∃ w contents text diagnostics, b.wiring m.descriptor none = .ok w ∧
    b.readTarget w.target = .ok contents ∧ decode contents.bytes w.path = .ok text ∧
    m.parseToModelJson text = .ok model ∧ m.validateJson model = .ok diagnostics

/-- The candidate is valid and is rendered into a text of its target. -/
def Renders (b : Backend) (id : String) (candidate : Value) (text rendered : Text) : Prop :=
  ∃ m target w contents diagnostics, findModule b id = .ok m ∧
    m.modelTargetJson candidate = .ok target ∧ b.wiring m.descriptor target = .ok w ∧
    b.readTarget w.target = .ok contents ∧ decode contents.bytes w.path = .ok text ∧
    m.validateJson candidate = .ok diagnostics ∧ hasErrors diagnostics = false ∧
    m.applyJson text candidate = .ok rendered

theorem ofOps_ok {α : Type} {r : Except Engine.OpsError α} {value : α} (h : ofOps r = .ok value) :
    r = .ok value := by
  cases r with
  | error err => cases h
  | ok found =>
    cases h
    rfl

theorem ofModule_ok {α : Type} {r : Except String α} {value : α} (h : ofModule r = .ok value) :
    r = .ok value := by
  cases r with
  | error err => cases h
  | ok found =>
    cases h
    rfl

theorem getModule_ok {view : ModuleView} (h : getModule b id = .ok view) :
    view.model = none ∨ ∃ m model, Reads b id m model ∧ view.model = some model ∧
      view.secretPointers = m.secretPointers := by
  unfold getModule at h
  obtain ⟨m, hm, h⟩ := ok_of_bind h
  obtain ⟨w, hw, h⟩ := ok_of_bind h
  split at h
  · next contents hread =>
    obtain ⟨text, htext, h⟩ := ok_of_bind h
    obtain ⟨model, hmodel, h⟩ := ok_of_bind h
    obtain ⟨diagnostics, hvalid, h⟩ := ok_of_bind h
    cases h
    exact .inr ⟨m, model, ⟨hm, w, contents, text, diagnostics, ofOps_ok hw, hread, ofOps_ok htext,
      ofModule_ok (ofOps_ok hmodel), ofModule_ok (ofOps_ok hvalid)⟩, rfl, rfl⟩
  · cases h
    exact .inl rfl
  · cases h

theorem getModule_of_reads {m : JsonModule} {model : Value} (h : Reads b id m model) :
    ∃ view, getModule b id = .ok view ∧ view.model = some model ∧
      view.secretPointers = m.secretPointers := by
  obtain ⟨hm, w, contents, text, diagnostics, hw, hread, htext, hmodel, hvalid⟩ := h
  unfold getModule
  rw [hm]
  simp only [hw, hread, htext, hmodel, hvalid, ofOps, ofModule, bind, Except.bind]
  exact ⟨_, rfl, rfl, rfl⟩

theorem planModel_ok {report : PlanReport} (h : planModel b id candidate = .ok report) :
    ∃ text, Renders b id candidate text report.rendered ∧
      report.diff = Diff.diff text report.rendered defaultContext ∧
      report.unifiedDiff = b.renderUnified report.path report.path report.diff := by
  unfold planModel at h
  obtain ⟨m, hm, h⟩ := ok_of_bind h
  obtain ⟨target, htarget, h⟩ := ok_of_bind h
  obtain ⟨w, hw, h⟩ := ok_of_bind h
  obtain ⟨contents, hread, h⟩ := ok_of_bind h
  obtain ⟨text, htext, h⟩ := ok_of_bind h
  obtain ⟨diagnostics, hvalid, h⟩ := ok_of_bind h
  split at h
  · cases h
  · next hclean =>
    obtain ⟨rendered, hrendered, h⟩ := ok_of_bind h
    cases h
    have hread' : b.readTarget w.target = .ok contents := by
      have hmapped := ofOps_ok hread
      cases hfound : b.readTarget w.target with
      | error err => simp [hfound, Except.mapError] at hmapped
      | ok found =>
        rw [hfound] at hmapped
        cases hmapped
        rfl
    exact ⟨text, ⟨m, target, w, contents, diagnostics, hm, ofModule_ok (ofOps_ok htarget),
      ofOps_ok hw, hread', ofOps_ok htext, ofModule_ok (ofOps_ok hvalid),
      Bool.eq_false_iff.mpr hclean, ofModule_ok (ofOps_ok hrendered)⟩, rfl, rfl⟩

theorem planModel_of_renders {text rendered : Text} (h : Renders b id candidate text rendered) :
    ∃ report, planModel b id candidate = .ok report ∧ report.rendered = rendered ∧
      report.diff = Diff.diff text rendered defaultContext := by
  obtain ⟨m, target, w, contents, diagnostics, hm, htarget, hw, hread, htext, hvalid, hclean,
    hrendered⟩ := h
  unfold planModel
  rw [hm]
  simp only [htarget, hw, hread, htext, hvalid, hclean, hrendered, ofOps, ofModule, bind,
    Except.bind, Except.mapError, Bool.false_eq_true, if_false]
  exact ⟨_, rfl, rfl, rfl⟩

theorem toOption_mapError {ε ε' α : Type} (f : ε → ε') (x : Except ε α) :
    (x.mapError f).toOption = x.toOption := by
  cases x <;> rfl

/-- A read-only tool of a live token answers what the operation does. -/
theorem invoke_toOption {α : Type} (kind : OpKind) (hkind : requiredScope kind = .read)
    (hstore : store token = some (tokenId, scopes)) (who : Identity) (run : Except Refusal α) :
    (invoke store { presented := some token, who, scopes } kind run).toOption = run.toOption := by
  have hpermit : permit scopes kind = .ok () := by simp [permit, hkind, allows]
  simp only [invoke, checkAuth, hstore, executeAs, hpermit, bind, Except.bind]
  exact toOption_mapError opErr run

section Token

variable (htoken : token.isEmpty = false) (hstore : store token = some (tokenId, scopes))
include htoken hstore

theorem mcpGetModule_eq : mcpGetModule b store token id = (getModule b id).toOption := by
  simp only [mcpGetModule, resolveIdentity, htoken, hstore, Bool.false_eq_true, if_false,
    map_some, bind_eq_bind, bind_some]
  exact invoke_toOption .getModule rfl hstore _ _

theorem mcpPlan_eq :
    mcpPlan b store token id candidate = (planModel b id candidate).toOption := by
  simp only [mcpPlan, resolveIdentity, htoken, hstore, Bool.false_eq_true, if_false,
    map_some, bind_eq_bind, bind_some]
  exact invoke_toOption .plan rfl hstore _ _

theorem restGetModule_eq (hid : wellFormedId id = true) :
    restGetModule b store token id = (getModule b id).toOption.map
      (fun view => if scopes.write then view else redactView view) := by
  simp only [restGetModule, htoken, hstore, Bool.false_eq_true, if_false, bind_eq_bind,
    bind_some]
  have hauth : (bearerBackend b scopes .getModule).authorize id = .ok () := rfl
  have hview : getModule (bearerBackend b scopes .getModule) id = getModule b id := rfl
  unfold getOne
  rw [hid, hauth, hview]
  cases getModule b id <;> rfl

theorem restPlan_eq (hid : wellFormedId id = true) :
    restPlan b store token id candidate =
      if candidate.depth > 32 then none
      else (planModel b id candidate).toOption.map
        (fun report => if scopes.write then report else blankPlan report) := by
  simp only [restPlan, htoken, hstore, Bool.false_eq_true, if_false, bind_eq_bind,
    bind_some]
  have hauth : (bearerBackend b scopes .plan).authorize id = .ok () := rfl
  have hreport : planModel (bearerBackend b scopes .plan) id candidate
      = planModel b id candidate := rfl
  unfold plan checkDepth
  rw [hid, hauth, hreport]
  by_cases hdepth : candidate.depth > 32
  · rw [if_pos hdepth, if_pos hdepth]
    rfl
  · rw [if_neg hdepth, if_neg hdepth]
    cases planModel b id candidate <;> rfl

end Token

theorem wellFormedId_of_compiled (hcompiled : Modules.Compiled (b.modules.map (·.descriptor)))
    {m : JsonModule} (hm : findModule b id = .ok m) : wellFormedId id = true := by
  have hall : ∀ row ∈ Modules.registry, wellFormedId row.1 = true := by decide
  unfold findModule at hm
  split at hm
  · next found hfound =>
    cases hm
    have hid : m.descriptor.id = id := by simpa using List.find?_some hfound
    have hmem : m.descriptor ∈ b.modules.map (·.descriptor) :=
      List.mem_map_of_mem (List.mem_of_find?_eq_some hfound)
    have hrow : Modules.row m.descriptor ∈ Modules.registry :=
      hcompiled.subset (List.mem_map_of_mem hmem)
    have hwell := hall _ hrow
    rw [← hid]
    exact hwell
  · cases hm

theorem toOption_none_of_not_ok {ε α : Type} {x : Except ε α} (h : ∀ value, x ≠ .ok value) :
    x.toOption = none := by
  cases x with
  | error err => rfl
  | ok value => exact absurd rfl (h value)

theorem redactView_eq_iff (view : ModuleView) :
    redactView view = view ↔
      ∀ model, view.model = some model → redactModel view.secretPointers model = model := by
  obtain ⟨descriptor, schema, shown, currentHash, diagnostics, secretPointers⟩ := view
  cases shown with
  | none | some => simp [redactView]

/-- A blanked report is the report only when both texts are empty. -/
theorem blankPlan_eq_iff {report : PlanReport} {text : Text}
    (hdiff : report.diff = Diff.diff text report.rendered defaultContext)
    (hunified : report.unifiedDiff = Diff.renderUnified report.path report.path report.diff) :
    blankPlan report = report ↔ text = [] ∧ report.rendered = [] := by
  constructor
  · intro hblank
    have hrendered : report.rendered = [] := (congrArg PlanReport.rendered hblank).symm
    have hnone : report.diff = [] := (congrArg PlanReport.diff hblank).symm
    refine ⟨?_, hrendered⟩
    by_contra hne
    rw [hrendered] at hdiff
    have hlines : Diff.splitLines text ≠ Diff.splitLines [] :=
      fun hsame => hne (splitLines_injective hsame)
    rw [hnone, Diff.diff, if_neg hlines, eq_comm, List.map_eq_nil_iff] at hdiff
    exact groups_ne_nil (alignOrReplace_script _ _) defaultContext hlines hdiff
  · rintro ⟨rfl, hrendered⟩
    rw [hrendered] at hdiff
    have hnone : report.diff = [] := by rw [hdiff, Diff.diff, if_pos rfl]
    rw [hnone] at hunified
    cases report
    simp only at hrendered hnone hunified
    subst hrendered hnone
    rw [hunified]
    rfl

section Agreement

variable (hcompiled : Modules.Compiled (b.modules.map (·.descriptor)))
variable (htoken : token.isEmpty = false) (hstore : store token = some (tokenId, scopes))
include hcompiled htoken hstore

theorem views_agree_iff :
    mcpGetModule b store token id = restGetModule b store token id ↔
      ∀ m model, Reads b id m model →
        scopes.write = true ∨ redactModel m.secretPointers model = model := by
  cases hid : wellFormedId id with
  | false =>
    have hnone : ∀ m, findModule b id ≠ .ok m := by
      intro m hm
      rw [wellFormedId_of_compiled hcompiled hm] at hid
      cases hid
    have hview : ∀ view, getModule b id ≠ .ok view := by
      intro view h
      unfold getModule at h
      obtain ⟨m, hm, -⟩ := ok_of_bind h
      exact hnone m hm
    have hrest : restGetModule b store token id = none := by
      simp [restGetModule, htoken, hstore, getOne, hid, Except.toOption]
    rw [mcpGetModule_eq htoken hstore, hrest, toOption_none_of_not_ok hview]
    exact ⟨fun _ m model h => absurd h.1 (hnone m), fun _ => rfl⟩
  | true =>
    rw [mcpGetModule_eq htoken hstore, restGetModule_eq htoken hstore hid]
    constructor
    · intro hsame m model hreads
      obtain ⟨view, hview, hmodel, hpointers⟩ := getModule_of_reads hreads
      cases hwrite : scopes.write with
      | true => exact .inl rfl
      | false =>
        right
        rw [hview, hwrite] at hsame
        have hredact : view = redactView view := some.inj hsame
        rw [← hpointers]
        exact (redactView_eq_iff view).mp hredact.symm model hmodel
    · intro hplain
      cases hview : getModule b id with
      | error err => rfl
      | ok view =>
        cases hwrite : scopes.write with
        | true => rfl
        | false =>
          have hsame : redactView view = view := by
            rw [redactView_eq_iff]
            intro model hmodel
            rcases getModule_ok hview with hnone | ⟨m, found, hreads, hfound, hpointers⟩
            · rw [hnone] at hmodel
              cases hmodel
            · obtain rfl := some.inj (hfound.symm.trans hmodel)
              rw [hpointers]
              exact (hplain m found hreads).resolve_left (by simp [hwrite])
          exact congrArg some hsame.symm

theorem plans_agree_iff (hunified : b.renderUnified = Diff.renderUnified) :
    mcpPlan b store token id candidate = restPlan b store token id candidate ↔
      ∀ text rendered, Renders b id candidate text rendered →
        candidate.depth ≤ 32 ∧ (scopes.write = true ∨ text = [] ∧ rendered = []) := by
  cases hid : wellFormedId id with
  | false =>
    have hnone : ∀ m, findModule b id ≠ .ok m := by
      intro m hm
      rw [wellFormedId_of_compiled hcompiled hm] at hid
      cases hid
    have hreport : ∀ report, planModel b id candidate ≠ .ok report := by
      intro report h
      unfold planModel at h
      obtain ⟨m, hm, -⟩ := ok_of_bind h
      exact hnone m hm
    have hrest : restPlan b store token id candidate = none := by
      simp [restPlan, htoken, hstore, plan, hid, Except.toOption]
    rw [mcpPlan_eq htoken hstore, hrest, toOption_none_of_not_ok hreport]
    refine ⟨fun _ text rendered h => ?_, fun _ => rfl⟩
    obtain ⟨m, _, _, _, _, hm, -⟩ := h
    exact absurd hm (hnone m)
  | true =>
    rw [mcpPlan_eq htoken hstore, restPlan_eq htoken hstore hid]
    constructor
    · intro hsame text rendered hrenders
      obtain ⟨report, hreport, hrendered, hdiff⟩ := planModel_of_renders hrenders
      by_cases hdepth : candidate.depth > 32
      · rw [if_pos hdepth, hreport] at hsame
        cases hsame
      · refine ⟨Nat.le_of_not_lt hdepth, ?_⟩
        cases hwrite : scopes.write with
        | true => exact .inl rfl
        | false =>
          right
          rw [if_neg hdepth, hreport, hwrite] at hsame
          have hblank : report = blankPlan report := some.inj hsame
          obtain ⟨text', -, hdiff', hrender⟩ := planModel_ok hreport
          rw [hunified] at hrender
          rw [← hrendered] at hdiff ⊢
          exact (blankPlan_eq_iff hdiff hrender).mp hblank.symm
    · intro hempty
      cases hreport : planModel b id candidate with
      | error err => split <;> rfl
      | ok report =>
        obtain ⟨text, hrenders, hdiff, hrender⟩ := planModel_ok hreport
        obtain ⟨hdepth, hshown⟩ := hempty text report.rendered hrenders
        rw [if_neg (Nat.not_lt.mpr hdepth)]
        rw [hunified] at hrender
        cases hwrite : scopes.write with
        | true => rfl
        | false =>
          have hnothing := hshown.resolve_left (by simp [hwrite])
          exact congrArg some ((blankPlan_eq_iff hdiff hrender).mpr hnothing).symm

/-- The view and the report of one token are the same at both front ends exactly when
the token has the write scope or nothing of them is redacted, and a rendered candidate is
no deeper than the web API takes. -/
theorem front_ends_agree_iff (hunified : b.renderUnified = Diff.renderUnified) :
    (mcpGetModule b store token id = restGetModule b store token id ∧
      mcpPlan b store token id candidate = restPlan b store token id candidate) ↔
      (∀ m model, Reads b id m model →
        scopes.write = true ∨ redactModel m.secretPointers model = model) ∧
      (∀ text rendered, Renders b id candidate text rendered →
        candidate.depth ≤ 32 ∧ (scopes.write = true ∨ text = [] ∧ rendered = [])) :=
  and_congr (views_agree_iff hcompiled htoken hstore)
    (plans_agree_iff hcompiled htoken hstore hunified)

end Agreement

/-- A host with the Samba module of the registry, whose file sets a password. -/
def passwordHost : Backend :=
  let descriptor : ModuleDescriptor :=
    { sambaModule.descriptor with
      targets := [⟨"/etc/samba/smb.conf", .file, true⟩, ⟨"/etc/samba/smb.conf.d", .dropInDir, true⟩] }
  { holding sambaHost ⟨0⟩ alpha ⟨""⟩ with
    modules := [SambaJson.samba descriptor .null hints]
    renderUnified := Diff.renderUnified }

/-- A store with one token. -/
def oneToken (scopes : Scopes) : TokenStore :=
  fun token => if token = "0f" then some ("laptop", scopes) else none

theorem passwordHost_compiled : Modules.Compiled (passwordHost.modules.map (·.descriptor)) := by
  unfold Modules.Compiled
  decide

theorem write_token_agrees :
    mcpGetModule passwordHost (oneToken ⟨true⟩) "0f" "samba"
        = restGetModule passwordHost (oneToken ⟨true⟩) "0f" "samba" ∧
      mcpPlan passwordHost (oneToken ⟨true⟩) "0f" "samba" (passwordModel "gamma")
        = restPlan passwordHost (oneToken ⟨true⟩) "0f" "samba" (passwordModel "gamma") :=
  (front_ends_agree_iff passwordHost_compiled (by decide) rfl rfl).mpr
    ⟨fun _ _ _ => .inl rfl, fun _ _ _ => ⟨by decide, .inl rfl⟩⟩

theorem passwordModel_eq (password : String) : passwordModel password =
    .object [("entries", .array [.object
      [("section", .null), ("key", .string "password"), ("value", .string password)]])] := by
  simp [passwordModel, SambaJson.modelToJson, SambaJson.entryToJson]

theorem password_redacted :
    redactModel [] (passwordModel "alpha") = passwordModel "[redacted]" := by
  have hplain : redactOptions "password".toList = none := by decide
  have hentries : isSecretMember false "entries" = false := by decide
  have hsection : isSecretMember true "section" = false := by decide
  have hkey : isSecretMember true "key" = false := by decide
  have hvalue : isSecretMember true "value" = true := by decide
  have houter : isSecretEntry [("entries", .array [.object
      [("section", .null), ("key", .string "password"), ("value", .string "alpha")]])] = false := by
    decide
  have hinner : isSecretEntry
      [("section", .null), ("key", .string "password"), ("value", .string "alpha")] = true := by
    decide
  rw [passwordModel_eq, passwordModel_eq]
  simp only [redactModel, List.foldl_nil, redactHeuristic, redactMembers, redactItems, redactInner,
    houter, hinner, hplain, hentries, hsection, hkey, hvalue, if_true, if_false, Bool.false_eq_true,
    Option.map_none, Option.getD_none, redacted]

/-- The MCP server tells a read token the password that the web API redacts. -/
theorem read_token_told_password :
    (mcpGetModule passwordHost (oneToken ⟨false⟩) "0f" "samba").bind (·.model)
        = some (passwordModel "alpha") ∧
      (restGetModule passwordHost (oneToken ⟨false⟩) "0f" "samba").bind (·.model)
        = some (passwordModel "[redacted]") ∧
      mcpGetModule passwordHost (oneToken ⟨false⟩) "0f" "samba"
        ≠ restGetModule passwordHost (oneToken ⟨false⟩) "0f" "samba" := by
  have htoken : "0f".isEmpty = false := by decide
  have hid : wellFormedId "samba" = true := by decide
  have hstore : oneToken ⟨false⟩ "0f" = some ("laptop", ⟨false⟩) := rfl
  have hview : (getModule passwordHost "samba").toOption.map (fun view =>
      (view.model, view.secretPointers)) = some (some (passwordModel "alpha"), []) := rfl
  obtain ⟨view, hgot, hmodel⟩ := Option.map_eq_some_iff.mp hview
  obtain ⟨hmodel, hpointers⟩ := Prod.mk.inj hmodel
  have hmcp : mcpGetModule passwordHost (oneToken ⟨false⟩) "0f" "samba" = some view :=
    (mcpGetModule_eq htoken hstore).trans hgot
  have hrest : restGetModule passwordHost (oneToken ⟨false⟩) "0f" "samba" = some (redactView view) := by
    rw [restGetModule_eq htoken hstore hid, hgot]
    rfl
  have htold : (mcpGetModule passwordHost (oneToken ⟨false⟩) "0f" "samba").bind (·.model)
      = some (passwordModel "alpha") := by
    rw [hmcp]
    exact hmodel
  have hredacted : (restGetModule passwordHost (oneToken ⟨false⟩) "0f" "samba").bind (·.model)
      = some (passwordModel "[redacted]") := by
    rw [hrest, bind_some]
    simp only [redactView, hmodel, hpointers, map_some, password_redacted]
  refine ⟨htold, hredacted, ?_⟩
  intro hsame
  rw [hsame, hredacted, passwordModel_eq, passwordModel_eq] at htold
  simp at htold

end Detent.Guarantees.FrontEnds
