import Detent.Guarantees.CanonicalDocuments
import Detent.Source.SambaJson

/-!
# What a read-only caller learns

`crates/detent-web/src/api/modules.rs:203-462` and
`crates/detent-ops/src/engine.rs:376-525`: the two answers are redacted after the
operation, on the model of a view and on three fields of a plan. What the module finds in
the file as it is, and what becomes of the file when a candidate is rendered into it, is
still answered for, so a candidate that is right about one of two files tells them apart
(`read_scope_iff`).
-/
namespace Detent.Guarantees.ReadSecrets
open Lib Source Source.SerdeJson Source.ReadScope
open Source.Engine (Wiring ofModule decode)
open Source.Client (ClientError)
open Except (mapError ok.inj)

/-- A backend with these contents of one target. -/
def holding (b : Backend) (t : TargetId) (text : Text) (digest : Sha256Digest) : Backend :=
  { b with readTarget := fun target =>
      if target = t then .ok { target := t, bytes := utf8 text, digest } else b.readTarget target }

/-- An answer without the digest of the file. -/
def viewApart (view : ModuleView) : ModuleView := { view with currentHash := none }

def reportApart (report : PlanReport) : PlanReport := { report with currentHash := ⟨""⟩ }

/-- The answer of a module as the API gives it. -/
def answerOf {α : Type} (b : Backend) (r : Except String α) : Except ApiError α :=
  (ofOps (ofModule r)).mapError (apiError b)

/-- The request for a view reads the target. -/
def Looks (b : Backend) (m : JsonModule) (t : TargetId) (id : String) : Prop :=
  wellFormedId id = true ∧ b.authorize id = .ok () ∧
    ∃ w, b.wiring m.descriptor none = .ok w ∧ w.target = t

/-- The request for a plan renders the candidate into the target. -/
def Plans (b : Backend) (m : JsonModule) (t : TargetId) (id : String) (candidate : Value)
    (w : Wiring) : Prop :=
  wellFormedId id = true ∧ checkDepth candidate = .ok () ∧ b.authorize id = .ok () ∧
    (∃ target, m.modelTargetJson candidate = .ok target ∧ b.wiring m.descriptor target = .ok w) ∧
    w.target = t ∧ ∃ diagnostics, m.validateJson candidate = .ok diagnostics ∧
      hasErrors diagnostics = false

/-- The backend with these validators. -/
def judgedBy (b : Backend) (validators : CheckId → Bytes → Except ClientError CheckOutcome) :
    Backend :=
  { b with runCheck := validators }

/-- The message with which a module refuses. -/
def refusalOf {α : Type} (b : Backend) (r : Except String α) : Except String α :=
  r.mapError b.engine.moduleErrorId

/-- The module finds the same in both models. -/
def SameFindings (b : Backend) (m : JsonModule) (model₁ model₂ : Value) : Prop :=
  refusalOf b (m.validateJson model₁) = refusalOf b (m.validateJson model₂)

/-- The candidate is right about a file: rendered into it, it leaves it as it is. -/
def RightAbout (m : JsonModule) (candidate : Value) (text : Text) : Prop :=
  m.applyJson text candidate = .ok text

/-- What a candidate can be over two files without telling them apart: right about both,
wrong about both, or refused over both for one reason. Validators see which text it is
rendered into, so where there are any it has to be one text. -/
inductive TellsNothing (b : Backend) (m : JsonModule) (w : Wiring) (candidate : Value)
    (first second : Text) : Prop where
  | right (h₁ : RightAbout m candidate first) (h₂ : RightAbout m candidate second)
      (hone : w.checks = [] ∨ first = second)
  | wrong {r₁ r₂ : Text} (h₁ : m.applyJson first candidate = .ok r₁) (hne₁ : r₁ ≠ first)
      (h₂ : m.applyJson second candidate = .ok r₂) (hne₂ : r₂ ≠ second)
      (hone : w.checks = [] ∨ r₁ = r₂)
  | refused {e₁ e₂ : String} (h₁ : m.applyJson first candidate = .error e₁)
      (h₂ : m.applyJson second candidate = .error e₂)
      (hone : b.engine.moduleErrorId e₁ = b.engine.moduleErrorId e₂)

variable {b : Backend} {m : JsonModule} {t : TargetId} {id : String} {text first second : Text}
  {digest digest₁ digest₂ : Sha256Digest} {model model₁ model₂ candidate : Value}
  {scopes : Sessions.Scopes} {w : Wiring}

theorem decode_utf8 (path : Path) : decode (utf8 text) path = .ok text := by
  unfold decode
  rw [ofUtf8_utf8]

/-- What a read-only caller is shown of a file whose model is `model`. -/
def shown (m : JsonModule) (model : Value) (diagnostics : List Diagnostic) : ModuleView :=
  { descriptor := m.descriptor, schema := m.schema
    model := some (redactModel m.secretPointers model), currentHash := none, diagnostics
    secretPointers := m.secretPointers }

theorem getOne_looks (hm : findModule b id = .ok m) (hscopes : scopes.write = false)
    (hparse : m.parseToModelJson text = .ok model) (h : Looks b m t id) :
    (getOne (holding b t text digest) scopes id).map viewApart
      = (answerOf b (m.validateJson model)).map (shown m model) := by
  obtain ⟨hid, hauth, w, hwiring, rfl⟩ := h
  have hfind : findModule (holding b w.target text digest) id = .ok m := hm
  have hview : getModule (holding b w.target text digest) id
      = (ofOps (ofModule (m.validateJson model))).map (fun diagnostics =>
          { descriptor := m.descriptor, schema := m.schema, model := some model
            currentHash := some digest, diagnostics, secretPointers := m.secretPointers }) := by
    unfold getModule
    rw [hfind]
    simp only [holding, hwiring, ofOps, if_true, decode_utf8, hparse, ofModule, bind, Except.bind]
    cases m.validateJson model <;> rfl
  have hauth' : (holding b w.target text digest).authorize id = .ok () := hauth
  unfold getOne
  rw [hid, hauth', hview]
  simp only [answerOf, hscopes]
  cases m.validateJson model <;> rfl

/-- A view that does not read the target is the same over any contents. -/
theorem getOne_elsewhere (hm : findModule b id = .ok m) (h : ¬ Looks b m t id) :
    getOne (holding b t first digest₁) scopes id = getOne (holding b t second digest₂) scopes id := by
  have hview : wellFormedId id = true → b.authorize id = .ok () →
      getModule (holding b t first digest₁) id = getModule (holding b t second digest₂) id := by
    intro hid hauth
    have hfind : ∀ x d, findModule (holding b t x d) id = .ok m := fun _ _ => hm
    unfold getModule
    rw [hfind, hfind]
    simp only [holding, bind, Except.bind]
    cases hwiring : b.wiring m.descriptor none with
    | error err => rfl
    | ok w =>
      have hne : w.target ≠ t := fun heq => h ⟨hid, hauth, w, hwiring, heq⟩
      simp only [ofOps, if_neg hne]
  unfold getOne
  cases hid : wellFormedId id with
  | false => rfl
  | true =>
    cases hauth : b.authorize id with
    | error err =>
      have hauth' : ∀ x d, (holding b t x d).authorize id = .error err := fun _ _ => hauth
      rw [hauth', hauth']
      rfl
    | ok u =>
      rw [hview hid hauth]
      rfl

/-- A plan without what is blanked and without the digest. -/
def blanked (b : Backend) (m : JsonModule) (w : Wiring) (diagnostics : List Diagnostic)
    (text rendered : Text) : PlanReport :=
  { module := m.descriptor.id, path := w.path, wouldChange := text ≠ rendered, diff := []
    unifiedDiff := "", rendered := [], affectedServices := (w.binding.map (·.2)).toList
    checks := runChecks b w (utf8 rendered), diagnostics, currentHash := ⟨""⟩ }

theorem plan_renders {diagnostics : List Diagnostic} {target : Option Path}
    (hm : findModule b id = .ok m) (hscopes : scopes.write = false)
    (hid : wellFormedId id = true) (hdepth : checkDepth candidate = .ok ())
    (hauth : b.authorize id = .ok ()) (htarget : m.modelTargetJson candidate = .ok target)
    (hwiring : b.wiring m.descriptor target = .ok w)
    (hvalid : m.validateJson candidate = .ok diagnostics) (hclean : hasErrors diagnostics = false) :
    (plan (holding b w.target text digest) scopes id candidate).map reportApart
      = (answerOf b (m.applyJson text candidate)).map (blanked b m w diagnostics text) := by
  have hfind : findModule (holding b w.target text digest) id = .ok m := hm
  have hauth' : (holding b w.target text digest).authorize id = .ok () := hauth
  unfold plan planModel
  rw [hid, hdepth, hauth', hfind]
  simp only [holding, htarget, hwiring, ofOps, ofModule, if_true, decode_utf8, hvalid, hclean, hscopes,
    bind, Except.bind, mapError, answerOf]
  cases m.applyJson text candidate <;> rfl

/-- A plan that does not get that far is the same over any contents. -/
theorem plan_elsewhere (hm : findModule b id = .ok m) (h : ∀ w, ¬ Plans b m t id candidate w) :
    plan (holding b t first digest₁) scopes id candidate
      = plan (holding b t second digest₂) scopes id candidate := by
  have hplan : wellFormedId id = true → checkDepth candidate = .ok () → b.authorize id = .ok () →
      planModel (holding b t first digest₁) id candidate
        = planModel (holding b t second digest₂) id candidate := by
    intro hid hdepth hauth
    have hfind : ∀ x d, findModule (holding b t x d) id = .ok m := fun _ _ => hm
    unfold planModel
    rw [hfind, hfind]
    simp only [holding, bind, Except.bind]
    cases htarget : m.modelTargetJson candidate with
    | error err => rfl
    | ok target =>
      simp only [ofOps, ofModule]
      cases hwiring : b.wiring m.descriptor target with
      | error err => rfl
      | ok w =>
        simp only []
        by_cases heq : w.target = t
        · simp only [if_pos heq, mapError, decode_utf8]
          cases hvalid : m.validateJson candidate with
          | error err => rfl
          | ok diagnostics =>
            have herrors : hasErrors diagnostics = true := by
              by_contra hclean
              exact h w ⟨hid, hdepth, hauth, ⟨target, htarget, hwiring⟩, heq, diagnostics, hvalid,
                Bool.eq_false_iff.mpr hclean⟩
            simp only [herrors, if_true]
        · simp only [if_neg heq]
          rfl
  unfold plan
  cases hid : wellFormedId id with
  | false => rfl
  | true =>
    cases hdepth : checkDepth candidate with
    | error err => rfl
    | ok u =>
      cases hauth : b.authorize id with
      | error err =>
        have hauth' : ∀ x d, (holding b t x d).authorize id = .error err := fun _ _ => hauth
        rw [hauth', hauth']
        rfl
      | ok u =>
        rw [hplan hid hdepth hauth]
        rfl

/-- What is shown of two files of one redacted model tells them apart by the diagnostics
alone. -/
theorem map_shown_inj {r₁ r₂ : Except ApiError (List Diagnostic)}
    (hsame : redactModel m.secretPointers model₁ = redactModel m.secretPointers model₂) :
    r₁.map (shown m model₁) = r₂.map (shown m model₂) ↔ r₁ = r₂ := by
  cases r₁ with
  | error e₁ => cases r₂ <;> simp [Except.map]
  | ok d₁ =>
    cases r₂ with
    | error e₂ => simp [Except.map]
    | ok d₂ => simp [Except.map, shown, hsame]

theorem answerOf_iff {α : Type} {r₁ r₂ : Except String α} :
    answerOf b r₁ = answerOf b r₂ ↔ refusalOf b r₁ = refusalOf b r₂ := by
  unfold answerOf refusalOf
  cases r₁ with
  | error e₁ =>
    cases r₂ with
    | error e₂ => simp [ofModule, ofOps, mapError, apiError, statusOf, Engine.messageId]
    | ok x₂ => simp [ofModule, ofOps, mapError]
  | ok x₁ =>
    cases r₂ with
    | error | ok => simp [ofModule, ofOps, mapError]

theorem views_iff (hm : findModule b id = .ok m) (hscopes : scopes.write = false)
    (h₁ : m.parseToModelJson first = .ok model₁) (h₂ : m.parseToModelJson second = .ok model₂)
    (hsame : redactModel m.secretPointers model₁ = redactModel m.secretPointers model₂) :
    (getOne (holding b t first digest₁) scopes id).map viewApart
        = (getOne (holding b t second digest₂) scopes id).map viewApart ↔
      (Looks b m t id → SameFindings b m model₁ model₂) := by
  by_cases hlooks : Looks b m t id
  · rw [getOne_looks hm hscopes h₁ hlooks, getOne_looks hm hscopes h₂ hlooks, map_shown_inj hsame,
      answerOf_iff]
    exact ⟨fun h _ => h, fun h => h hlooks⟩
  · rw [getOne_elsewhere hm hlooks]
    exact ⟨fun _ hlooks' => absurd hlooks' hlooks, fun _ => rfl⟩

/-- Validators tell two texts apart, unless there are none. -/
theorem checks_iff {r₁ r₂ : Text} :
    (∀ validators, runChecks (judgedBy b validators) w (utf8 r₁) =
        runChecks (judgedBy b validators) w (utf8 r₂)) ↔ (w.checks = [] ∨ r₁ = r₂) := by
  constructor
  · intro hsame
    cases hchecks : w.checks with
    | nil => exact .inl rfl
    | cons check rest =>
      right
      -- a validator that passes the one text only
      have hone := hsame (fun check bytes =>
        .ok { check, passed := bytes = utf8 r₁, exitCode := none, detail := "" })
      simp only [runChecks, judgedBy, hchecks, List.map_cons, List.cons.injEq,
        Engine.CheckReport.mk.injEq, decide_eq_decide] at hone
      have hbytes : utf8 r₂ = utf8 r₁ := hone.1.2.2.1.mp trivial
      exact (utf8_injective hbytes).symm
  · rintro (hchecks | rfl) validators
    · rw [runChecks, runChecks, hchecks]
      rfl
    · rfl

/-- Blanked plans of one candidate are equal, whatever the validators say, exactly when it
tells nothing. -/
theorem map_blanked_iff (diagnostics : List Diagnostic) :
    (∀ validators, (answerOf b (m.applyJson first candidate)).map
          (blanked (judgedBy b validators) m w diagnostics first)
        = (answerOf b (m.applyJson second candidate)).map
          (blanked (judgedBy b validators) m w diagnostics second)) ↔
      TellsNothing b m w candidate first second := by
  have : Nonempty (CheckId → Bytes → Except ClientError CheckOutcome) := ⟨b.runCheck⟩
  cases h₁ : m.applyJson first candidate with
  | error e₁ =>
    cases h₂ : m.applyJson second candidate with
    | error e₂ =>
      have hblanked : (∀ validators,
          (answerOf b (.error e₁)).map (blanked (judgedBy b validators) m w diagnostics first)
            = (answerOf b (.error e₂)).map
              (blanked (judgedBy b validators) m w diagnostics second)) ↔
          b.engine.moduleErrorId e₁ = b.engine.moduleErrorId e₂ := by
        simp only [answerOf, ofModule, ofOps, Except.map, mapError, apiError, statusOf,
          Engine.messageId, Except.error.injEq, ApiError.mk.injEq, true_and, and_true, forall_const]
      rw [hblanked]
      constructor
      · intro hid
        exact .refused h₁ h₂ hid
      · rintro (⟨hr₁, -, -⟩ | ⟨hr₁, -, -, -, -⟩ | ⟨he₁, he₂, hid⟩)
        · cases h₁.symm.trans hr₁
        · cases h₁.symm.trans hr₁
        · obtain rfl := Except.error.inj (h₁.symm.trans he₁)
          obtain rfl := Except.error.inj (h₂.symm.trans he₂)
          exact hid
    | ok r₂ =>
      constructor
      · intro h
        cases h b.runCheck
      · rintro (⟨hr₁, -, -⟩ | ⟨hr₁, -, -, -, -⟩ | ⟨-, he₂, -⟩)
        · cases h₁.symm.trans hr₁
        · cases h₁.symm.trans hr₁
        · cases h₂.symm.trans he₂
  | ok r₁ =>
    cases h₂ : m.applyJson second candidate with
    | error e₂ =>
      constructor
      · intro h
        cases h b.runCheck
      · rintro (⟨-, hr₂, -⟩ | ⟨-, -, hr₂, -, -⟩ | ⟨he₁, -, -⟩)
        · cases h₂.symm.trans hr₂
        · cases h₂.symm.trans hr₂
        · cases h₁.symm.trans he₁
    | ok r₂ =>
      have hblanked : (∀ validators,
          (answerOf b (.ok r₁)).map (blanked (judgedBy b validators) m w diagnostics first)
            = (answerOf b (.ok r₂)).map
              (blanked (judgedBy b validators) m w diagnostics second)) ↔
          (first = r₁ ↔ second = r₂) ∧ (w.checks = [] ∨ r₁ = r₂) := by
        rw [← checks_iff (b := b)]
        simp only [answerOf, ofModule, ofOps, Except.map, mapError, blanked, Except.ok.injEq,
          PlanReport.mk.injEq, true_and, and_true, decide_eq_decide, ne_eq, not_iff_not,
          forall_and, forall_const]
      rw [hblanked]
      constructor
      · rintro ⟨hright, hone⟩
        by_cases hfirst : first = r₁
        · have hsecond := hright.mp hfirst
          subst hfirst hsecond
          exact .right h₁ h₂ hone
        · exact .wrong h₁ (fun heq => hfirst heq.symm) h₂
            (fun heq => hfirst (hright.mpr heq.symm)) hone
      · rintro (⟨hr₁, hr₂, hone⟩ | ⟨hr₁, hne₁, hr₂, hne₂, hone⟩ | ⟨he₁, -, -⟩)
        · obtain rfl := ok.inj (h₁.symm.trans hr₁)
          obtain rfl := ok.inj (h₂.symm.trans hr₂)
          exact ⟨⟨fun _ => rfl, fun _ => rfl⟩, hone⟩
        · obtain rfl := ok.inj (h₁.symm.trans hr₁)
          obtain rfl := ok.inj (h₂.symm.trans hr₂)
          exact ⟨⟨fun heq => absurd heq.symm hne₁, fun heq => absurd heq.symm hne₂⟩, hone⟩
        · cases h₁.symm.trans he₁

theorem plans_iff (hm : findModule b id = .ok m) (hscopes : scopes.write = false) :
    (∀ validators,
      (plan (holding (judgedBy b validators) t first digest₁) scopes id candidate).map reportApart
        = (plan (holding (judgedBy b validators) t second digest₂) scopes id candidate).map
          reportApart) ↔
      ∀ w, Plans b m t id candidate w → TellsNothing b m w candidate first second := by
  have hfound : ∀ validators, findModule (judgedBy b validators) id = .ok m := fun _ => hm
  by_cases hplans : ∃ w, Plans b m t id candidate w
  · obtain ⟨w, hw⟩ := hplans
    have hw' := hw
    obtain ⟨hid, hdepth, hauth, ⟨target, htarget, hwiring⟩, rfl, diagnostics, hvalid, hclean⟩ := hw'
    have hrenders : ∀ validators text digest,
        (plan (holding (judgedBy b validators) w.target text digest) scopes id candidate).map
            reportApart
          = (answerOf b (m.applyJson text candidate)).map
            (blanked (judgedBy b validators) m w diagnostics text) := fun validators _ _ =>
      plan_renders (hfound validators) hscopes hid hdepth hauth htarget hwiring hvalid hclean
    simp only [hrenders]
    rw [map_blanked_iff]
    constructor
    · rintro h w' ⟨-, -, -, ⟨target', htarget', hwiring'⟩, -, -⟩
      obtain rfl := ok.inj (htarget.symm.trans htarget')
      obtain rfl := ok.inj (hwiring.symm.trans hwiring')
      exact h
    · intro h
      exact h w hw
  · constructor
    · intro _ w hw
      exact absurd ⟨w, hw⟩ hplans
    · intro _ validators
      rw [plan_elsewhere (hfound validators) (fun w hw => hplans ⟨w, hw⟩)]

/-- Over two files whose models are redacted to the same, a caller without the write
scope gets one view, and one plan whatever the validators say, exactly when the module
finds the same in both models and the candidate tells nothing about the two files. -/
theorem read_scope_iff (hm : findModule b id = .ok m) (hscopes : scopes.write = false)
    (h₁ : m.parseToModelJson first = .ok model₁) (h₂ : m.parseToModelJson second = .ok model₂)
    (hsame : redactModel m.secretPointers model₁ = redactModel m.secretPointers model₂) :
    (∀ validators,
      (getOne (holding (judgedBy b validators) t first digest₁) scopes id).map viewApart
        = (getOne (holding (judgedBy b validators) t second digest₂) scopes id).map viewApart ∧
      (plan (holding (judgedBy b validators) t first digest₁) scopes id candidate).map reportApart
        = (plan (holding (judgedBy b validators) t second digest₂) scopes id candidate).map
          reportApart) ↔
      (Looks b m t id → SameFindings b m model₁ model₂) ∧
      ∀ w, Plans b m t id candidate w → TellsNothing b m w candidate first second := by
  have hviews : (∀ validators,
      (getOne (holding (judgedBy b validators) t first digest₁) scopes id).map viewApart
        = (getOne (holding (judgedBy b validators) t second digest₂) scopes id).map viewApart) ↔
      (Looks b m t id → SameFindings b m model₁ model₂) := by
    constructor
    · intro h
      exact (views_iff hm hscopes h₁ h₂ hsame).mp (h b.runCheck)
    · intro h validators
      have hfound : findModule (judgedBy b validators) id = .ok m := hm
      exact (views_iff hfound hscopes h₁ h₂ hsame).mpr h
  rw [forall_and, hviews, plans_iff hm hscopes]

/-- What `validate_values` recommends of a model that sets none of its parameters. -/
def hints (_ : List Samba.Entry) : List Diagnostic :=
  [{ severity := .recommendation, id := "samba-rec-server-signing", field := none, span := none
     args := [("value", "(unset)")] },
   { severity := .recommendation, id := "samba-rec-load-printers", field := none, span := none
     args := [("value", "(unset)")] },
   { severity := .recommendation, id := "samba-rec-interfaces", field := none, span := none
     args := [] }]

def sambaModule : JsonModule :=
  SambaJson.samba
    { id := "samba", targets := [], services := [], checks := [], commitConfirm := false
      reloadUnitFiles := false, addedMounts := false } .null hints

/-- A host with the Samba module, whose file passes its validator. -/
def sambaHost : Backend where
  engine :=
    { modules := [], tables := none, certFrontEnd := false, checkUpdateTag := fun _ => none
      moduleErrorId := fun _ => "core-edit-unsupported" }
  modules := [sambaModule]
  authorize _ := .ok ()
  wiring _ _ := .ok { target := ⟨0⟩, path := "/etc/samba/smb.conf"
                      checks := [(⟨0⟩, "/usr/bin/testparm")], binding := none }
  readTarget _ := .error (.remote .notFound)
  runCheck check _ := .ok { check, passed := true, exitCode := some 0, detail := "" }
  renderUnified _ _ _ := ""

/-- The model of a file that sets one password. -/
def passwordModel (password : String) : Value :=
  SambaJson.modelToJson ⟨[⟨none, "password".toList, password.toList⟩]⟩

def readOnly : Sessions.Scopes := { write := false }


def alpha : Text := "password = alpha\n".toList

def beta : Text := "password = beta\n".toList

def gamma : Text := "password = gamma\n".toList

theorem sambaModule_found : findModule sambaHost "samba" = .ok sambaModule := by
  rfl

theorem alpha_parses : sambaModule.parseToModelJson alpha = .ok (passwordModel "alpha") := by
  rfl

theorem beta_parses : sambaModule.parseToModelJson beta = .ok (passwordModel "beta") := by
  rfl

theorem passwords_redacted :
    redactModel sambaModule.secretPointers (passwordModel "alpha")
      = redactModel sambaModule.secretPointers (passwordModel "beta") := by
  rfl

theorem map_reportApart (r : Except ApiError PlanReport) :
    ((r.map reportApart).map (·.wouldChange)).toOption = (r.map (·.wouldChange)).toOption := by
  cases r <;> rfl

theorem gamma_into_alpha : sambaModule.applyJson alpha (passwordModel "gamma") = .ok gamma := by
  decide +kernel

theorem gamma_into_beta : sambaModule.applyJson beta (passwordModel "gamma") = .ok gamma := by
  decide +kernel

/-- Planning a guess at the password answers whether the guess is right. -/
theorem plan_tests_password :
    findModule sambaHost "samba" = .ok sambaModule ∧ readOnly.write = false ∧
      sambaModule.parseToModelJson alpha = .ok (passwordModel "alpha") ∧
      sambaModule.parseToModelJson beta = .ok (passwordModel "beta") ∧
      redactModel sambaModule.secretPointers (passwordModel "alpha")
        = redactModel sambaModule.secretPointers (passwordModel "beta") ∧
      ((plan (holding sambaHost ⟨0⟩ alpha ⟨""⟩) readOnly "samba" (passwordModel "alpha")).map
        (·.wouldChange)).toOption = some false ∧
      ((plan (holding sambaHost ⟨0⟩ beta ⟨""⟩) readOnly "samba" (passwordModel "alpha")).map
        (·.wouldChange)).toOption = some true ∧
      (plan (holding sambaHost ⟨0⟩ alpha ⟨""⟩) readOnly "samba" (passwordModel "alpha")).map reportApart
        ≠ (plan (holding sambaHost ⟨0⟩ beta ⟨""⟩) readOnly "samba" (passwordModel "alpha")).map
          reportApart := by
  have hright : ((plan (holding sambaHost ⟨0⟩ alpha ⟨""⟩) readOnly "samba"
      (passwordModel "alpha")).map (·.wouldChange)).toOption = some false := by decide +kernel
  have hwrong : ((plan (holding sambaHost ⟨0⟩ beta ⟨""⟩) readOnly "samba"
      (passwordModel "alpha")).map (·.wouldChange)).toOption = some true := by decide +kernel
  refine ⟨sambaModule_found, rfl, alpha_parses, beta_parses, passwords_redacted, hright, hwrong, ?_⟩
  intro hsame
  have hfields := congrArg (fun r : Except ApiError PlanReport =>
    (r.map (·.wouldChange)).toOption) hsame
  simp only [map_reportApart] at hfields
  rw [hright, hwrong] at hfields
  exact absurd hfields (by decide)

/-- A guess that is right about neither file is answered alike over both. -/
theorem wrong_guess_alike :
    ((plan (holding sambaHost ⟨0⟩ alpha ⟨""⟩) readOnly "samba" (passwordModel "gamma")).map
      (·.wouldChange)).toOption = some true ∧
    ∀ validators,
      (getOne (holding (judgedBy sambaHost validators) ⟨0⟩ alpha ⟨""⟩) readOnly "samba").map viewApart
        = (getOne (holding (judgedBy sambaHost validators) ⟨0⟩ beta ⟨""⟩) readOnly "samba").map
          viewApart ∧
      (plan (holding (judgedBy sambaHost validators) ⟨0⟩ alpha ⟨""⟩) readOnly "samba"
          (passwordModel "gamma")).map reportApart
        = (plan (holding (judgedBy sambaHost validators) ⟨0⟩ beta ⟨""⟩) readOnly "samba"
          (passwordModel "gamma")).map reportApart := by
  refine ⟨by decide +kernel,
    (read_scope_iff sambaModule_found rfl alpha_parses beta_parses passwords_redacted).mpr
      ⟨fun _ => rfl, ?_⟩⟩
  intro w _
  exact .wrong gamma_into_alpha (by decide) gamma_into_beta (by decide) (.inr rfl)

end Detent.Guarantees.ReadSecrets
