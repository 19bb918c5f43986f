import Detent.Guarantees.EngineRequests

/-!
# The steps of an apply

`apply_is_noop` and the first steps of `apply` each look at the target: they
choose it, read it and render the model into it. `Keeps` is a look that finds
nothing to write, `Rewrites` one after which nothing holds the write back. What
follows the write (`afterWrite`) writes nothing more, and what `execute` does
around an apply only looks.
-/
namespace Detent.Guarantees
open Lib Source Source.Engine
open Fallible (exec exec_bind_eq_ok exec_bind_ok exec_pure uses_bind)
open Prog (Uses.bind run_bind_eq uses_perform)

section Reads

variable {σ α : Type} (e : OpsEngine) (env : Env σ) (id : String) (model : Json)
  (expectedHash : Option Sha256Digest) (serviceAction : Option ServiceCommand) (confirm : Option Nat)

/-- From `s` the model stands for the target of `wiring`, and the monitor answers
a read of it with `contents`. -/
def Looked (s : Session × σ) (wiring : Wiring) (contents : TargetContents) (s' : Session × σ) :
    Prop :=
  ∃ t, exec (engine env) (modelWiring e id model) s = (.ok wiring, t) ∧
    exec (engine env) (mapped (readTarget e wiring.target)) t = (.ok contents, s')

/-- The guards of an apply before it renders. -/
structure Admits (wiring : Wiring) (contents : TargetContents) : Prop where
  service : serviceAction.isSome = true → wiring.binding.isSome = true
  hash : ∀ expected ∈ expectedHash, expected = contents.digest

/-- The file as text, and the text the model makes of it. -/
structure Renders (module : DynModule) (wiring : Wiring) (contents : TargetContents)
    (current rendered : Text) : Prop where
  decoded : decode contents.bytes wiring.path = .ok current
  applied : module.applyJson current model = .ok rendered

/-- From `t` every check of the rendered text passes, and no commit is pending when
the apply needs one. -/
def Cleared (module : DynModule) (wiring : Wiring) (rendered : Text) (t : Session × σ) : Prop :=
  let checked := (runChecks e (utf8 rendered) wiring.checks).run (engine env) t
  (∀ report ∈ checked.1, report.ran = true ∧ report.passed = true) ∧
    ((module.descriptor.commitConfirm || confirm.isSome) = true →
      (exec (engine env) (mapped (pendingCommit e)) checked.2).1 = .ok none)

/-- The file already reads as the model asks. -/
def Keeps (s s' : Session × σ) : Prop :=
  ∃ module wiring contents text, findModule e id = .ok module ∧
    module.validateJson model = .ok false ∧ Looked e env id model s wiring contents s' ∧
    Admits expectedHash serviceAction wiring contents ∧
    Renders model module wiring contents text text

/-- The digest a read has seen is noted. -/
def noted (digest : Sha256Digest) (s : Session × σ) : Session × σ :=
  ({ s.1 with hashes := { s.1.hashes with prev := some digest } }, s.2)

/-- The file reads otherwise, and nothing holds the write back. -/
def Rewrites (s : Session × σ) : Prop :=
  ∃ module wiring contents current rendered reload t, findModule e id = .ok module ∧
    module.validateJson model = .ok false ∧ Looked e env id model s wiring contents t ∧
    Admits expectedHash serviceAction wiring contents ∧
    reloadModule e module.descriptor = .ok reload ∧
    Renders model module wiring contents current rendered ∧ current ≠ rendered ∧
    Cleared e env confirm module wiring rendered (noted contents.digest t)

theorem exec_notePrev (env : Env σ) (digest : Sha256Digest) (s : Session × σ) :
    exec (engine env) (noteHashes (fun hashes => { hashes with prev := some digest })) s =
      (.ok (), noted digest s) := rfl

variable {e env id model expectedHash serviceAction confirm} {s s' : Session × σ}

theorem Admits.not_noService {wiring : Wiring} {contents : TargetContents}
    (h : Admits expectedHash serviceAction wiring contents) :
    ¬ (serviceAction.isSome && wiring.binding.isNone) = true := by
  intro hboth
  rw [Bool.and_eq_true, Option.isNone_iff_eq_none] at hboth
  have hsome := h.service hboth.1
  rw [hboth.2] at hsome
  cases hsome

theorem keeps_of_noop
    (h : exec (engine env)
      (applyIsNoop e (.apply id model expectedHash serviceAction confirm)) s = (.ok true, s')) :
    Keeps e env id model expectedHash serviceAction s s' := by
  unfold applyIsNoop at h
  obtain ⟨module, hmodule, h⟩ := exec_orThrow_bind_eq_ok h
  obtain ⟨hasErrors, hvalid, h⟩ := exec_orThrow_bind_eq_ok h
  cases hasErrors with
  | true => cases h
  | false =>
    obtain ⟨wiring, t, hwiring, h⟩ := exec_bind_eq_ok _ h
    split at h
    · cases h
    · next hservice =>
      obtain ⟨contents, u, hcontents, h⟩ := exec_bind_eq_ok _ h
      split at h
      · cases h
      · next hhash =>
        obtain ⟨current, hcurrent, h⟩ := exec_orThrow_bind_eq_ok h
        obtain ⟨rendered, hrendered, h⟩ := exec_orThrow_bind_eq_ok h
        rw [exec_pure] at h
        injection h with hsame hstate
        subst hstate
        have hequal : current = rendered := by simpa using hsame
        subst hequal
        refine ⟨module, wiring, contents, current, hmodule, ofModule_eq_ok.mp hvalid,
          ⟨t, hwiring, hcontents⟩, ⟨?_, ?_⟩, ⟨hcurrent, ofModule_eq_ok.mp hrendered⟩⟩
        · intro hsome
          rw [Option.isSome_iff_ne_none]
          simpa [hsome] using hservice
        · intro expected hexpected
          rw [Option.mem_def] at hexpected
          simpa [hexpected] using hhash

theorem noop_of_keeps (confirm : Option Nat)
    (h : Keeps e env id model expectedHash serviceAction s s') :
    exec (engine env)
      (applyIsNoop e (.apply id model expectedHash serviceAction confirm)) s = (.ok true, s') := by
  obtain ⟨module, wiring, contents, text, hmodule, hvalid, ⟨t, hwiring, hcontents⟩, hadmits,
    hrenders⟩ := h
  unfold applyIsNoop
  rw [exec_orThrow_bind _ _ _ hmodule, exec_orThrow_bind _ _ _ (ofModule_eq_ok.mpr hvalid)]
  have hhash : ¬ expectedHash.any (fun expected => decide (expected ≠ contents.digest)) = true := by
    have := hadmits.hash
    cases expectedHash <;> simp_all
  simp only [Bool.false_eq_true, if_false]
  rw [exec_bind_ok _ hwiring, if_neg hadmits.not_noService, exec_bind_ok _ hcontents,
    if_neg hhash, exec_orThrow_bind _ _ _ hrenders.decoded,
    exec_orThrow_bind _ _ _ (ofModule_eq_ok.mpr hrenders.applied), exec_pure]
  simp

theorem exec_validated_bind_eq_ok {β : Type} {h : Handler EngineOp σ} {module : DynModule}
    {f : Unit → EngineM β} {s u : σ} {b : β}
    (hx : exec h (validated module model >>= f) s = (.ok b, u)) :
    module.validateJson model = .ok false ∧ exec h (f ()) s = (.ok b, u) := by
  obtain ⟨_, t, hvalidated, hnext⟩ := exec_bind_eq_ok h hx
  obtain ⟨hasErrors, hvalid, hrest⟩ := exec_orThrow_bind_eq_ok hvalidated
  cases hasErrors with
  | true => cases hrest
  | false =>
    cases hrest
    exact ⟨ofModule_eq_ok.mp hvalid, hnext⟩

/-- The last step of `prepare` succeeds only when no check stands in the way. -/
theorem find_eq_none_of_exec {h : Handler EngineOp σ} {s s' : σ} {checks : List CheckReport}
    {bad : CheckReport → Bool} {err : CheckReport → OpsError} {value result : α}
    (hx : exec h (match checks.find? bad with
      | some report => throw (err report)
      | none => (pure value : EngineM α)) s = (.ok result, s')) :
    checks.find? bad = none ∧ result = value := by
  cases hfind : checks.find? bad with
  | none =>
    rw [hfind] at hx
    cases hx
    exact ⟨rfl, rfl⟩
  | some report =>
    rw [hfind] at hx
    cases hx

theorem decode_ok {bytes : Bytes} {path : Path} {text : Text} (h : decode bytes path = .ok text) :
    ofUtf8 bytes = some text := by
  unfold decode at h
  split at h
  · next hutf8 =>
    cases h
    exact hutf8
  · cases h

variable (e env id model expectedHash serviceAction confirm) in
/-- What stands behind a candidate, from `s` to `s'`. -/
def Prepared (s : Session × σ) (candidate : Candidate) (s' : Session × σ) : Prop :=
  ∃ module contents current t, findModule e id = .ok module ∧
    module.validateJson model = .ok false ∧
    Looked e env id model s candidate.wiring contents t ∧
    Admits expectedHash serviceAction candidate.wiring contents ∧
    reloadModule e module.descriptor = .ok candidate.reload ∧
    Renders model module candidate.wiring contents current candidate.rendered ∧
    current ≠ candidate.rendered ∧
    Cleared e env confirm module candidate.wiring candidate.rendered (noted contents.digest t) ∧
    candidate.descriptor = module.descriptor ∧ candidate.current = contents.digest ∧
    candidate.commitRequired = (module.descriptor.commitConfirm || confirm.isSome) ∧
    Reaches env Anything t s'

variable (e env id model) in
/-- The report of an apply that finds the file as asked. -/
def Unchanged (s : Session × σ) (report : ApplyReport) : Prop :=
  ∃ module wiring contents text t, findModule e id = .ok module ∧
    Looked e env id model s wiring contents t ∧ Renders model module wiring contents text text ∧
    report = unchangedReport module.id wiring.path contents.digest

/-- The first steps of an apply that did not fail find the file as asked, or give
a candidate. -/
theorem prepare_ok {prepared : ApplyReport ⊕ Candidate}
    (h : exec (engine env) (prepare e id model expectedHash serviceAction confirm) s =
      (.ok prepared, s')) :
    (∃ report, prepared = .inl report ∧ Unchanged e env id model s report) ∨
      ∃ candidate, prepared = .inr candidate ∧
        Prepared e env id model expectedHash serviceAction confirm s candidate s' := by
  unfold prepare at h
  obtain ⟨module, hmodule, h⟩ := exec_orThrow_bind_eq_ok h
  obtain ⟨hvalid, h⟩ := exec_validated_bind_eq_ok h
  obtain ⟨wiring, t, hwiring, h⟩ := exec_bind_eq_ok _ h
  dsimp only at h
  by_cases hservice : (serviceAction.isSome && wiring.binding.isNone) = true
  · rw [if_pos hservice] at h
    cases h
  · rw [if_neg hservice] at h
    obtain ⟨reload, hreload, h⟩ := exec_orThrow_bind_eq_ok h
    obtain ⟨contents, u, hcontents, h⟩ := exec_bind_eq_ok _ h
    have hreaches : Reaches env Anything u s' := .of_exec h
    replace h := (exec_bind_ok _ (exec_notePrev _ _ _)).symm.trans h
    cases hhash : expectedHash.filter (fun expected => expected ≠ contents.digest) with
    | some expected =>
      rw [hhash] at h
      cases h
    | none =>
      rw [hhash] at h
      obtain ⟨current, hcurrent, h⟩ := exec_orThrow_bind_eq_ok h
      obtain ⟨rendered, hrendered, h⟩ := exec_orThrow_bind_eq_ok h
      by_cases hchanged : current = rendered
      · rw [if_pos hchanged] at h
        cases h
        subst hchanged
        exact .inl ⟨_, rfl, module, wiring, contents, current, u, hmodule, ⟨t, hwiring, hcontents⟩,
          ⟨hcurrent, ofModule_eq_ok.mp hrendered⟩, rfl⟩
      · rw [if_neg hchanged] at h
        obtain ⟨checks, v, hchecks, h⟩ := Fallible.exec_lift_bind _ h
        have hlast : (checks.find? (fun report => !report.ran || !report.passed) = none ∧
            prepared = .inr { descriptor := module.descriptor, wiring, reload
                              current := contents.digest, rendered, checks
                              commitRequired := module.descriptor.commitConfirm || confirm.isSome }) ∧
            ((module.descriptor.commitConfirm || confirm.isSome) = true →
              (exec (engine env) (mapped (pendingCommit e)) v).1 = .ok none) := by
          by_cases hrequired : (module.descriptor.commitConfirm || confirm.isSome) = true
          · rw [if_pos hrequired] at h
            obtain ⟨pending, w, hpending, h⟩ := exec_bind_eq_ok _ h
            cases pending with
            | some commit => cases h
            | none => exact ⟨find_eq_none_of_exec h, fun _ => by rw [hpending]⟩
          · rw [if_neg hrequired] at h
            exact ⟨find_eq_none_of_exec h, fun hr => absurd hr hrequired⟩
        obtain ⟨⟨hfind, rfl⟩, hpending⟩ := hlast
        refine .inr ⟨_, rfl, module, contents, current, u, hmodule, hvalid,
          ⟨t, hwiring, hcontents⟩, ⟨?_, ?_⟩, hreload, ⟨hcurrent, ofModule_eq_ok.mp hrendered⟩,
          hchanged, ?_, rfl, rfl, rfl, hreaches⟩
        · intro hsome
          rw [Option.isSome_iff_ne_none]
          simpa [hsome] using hservice
        · intro expected hexpected
          rw [Option.mem_def] at hexpected
          simpa [hexpected] using hhash
        · unfold Cleared
          dsimp only
          rw [hchecks]
          refine ⟨fun report hreport => ?_, hpending⟩
          simpa using List.find?_eq_none.mp hfind report hreport

theorem prepared_of_exec {candidate : Candidate}
    (h : exec (engine env) (prepare e id model expectedHash serviceAction confirm) s =
      (.ok (.inr candidate), s')) :
    Prepared e env id model expectedHash serviceAction confirm s candidate s' := by
  rcases prepare_ok h with ⟨_, hinl, _⟩ | ⟨_, hinr, hprepared⟩
  · cases hinl
  · cases hinr
    exact hprepared

/-- A candidate was found with the file different and nothing in its way. -/
theorem Prepared.rewrites {candidate : Candidate}
    (h : Prepared e env id model expectedHash serviceAction confirm s candidate s') :
    Rewrites e env id model expectedHash serviceAction confirm s := by
  obtain ⟨module, contents, current, t, hmodule, hvalid, hlooked, hadmits, hreload, hrenders,
    hchanged, hcleared, -⟩ := h
  exact ⟨module, candidate.wiring, contents, current, candidate.rendered, candidate.reload, t,
    hmodule, hvalid, hlooked, hadmits, hreload, hrenders, hchanged, hcleared⟩

/-- A file that reads otherwise, with nothing in the way, gives a candidate. -/
theorem prepare_of_rewrites (h : Rewrites e env id model expectedHash serviceAction confirm s) :
    ∃ candidate t, exec (engine env)
      (prepare e id model expectedHash serviceAction confirm) s = (.ok (.inr candidate), t) := by
  obtain ⟨module, wiring, contents, current, rendered, reload, t, hmodule, hvalid,
    ⟨u, hwiring, hcontents⟩, hadmits, hreload, hrenders, hchanged, hcleared⟩ := h
  unfold prepare
  rw [exec_orThrow_bind _ _ _ hmodule]
  have hvalidated : exec (engine env) (validated module model) s = (.ok (), s) := by
    unfold validated
    rw [exec_orThrow_bind _ _ _ (ofModule_eq_ok.mpr hvalid)]
    rfl
  rw [exec_bind_ok _ hvalidated, exec_bind_ok _ hwiring]
  dsimp only
  rw [if_neg hadmits.not_noService, exec_orThrow_bind _ _ _ hreload,
    exec_bind_ok _ hcontents, exec_bind_ok _ (exec_notePrev _ _ _)]
  have hhash : expectedHash.filter (fun expected => expected ≠ contents.digest) = none := by
    rw [Option.filter_eq_none_iff]
    intro expected hexpected
    simp [hadmits.hash expected hexpected]
  rw [hhash]
  dsimp only
  rw [exec_orThrow_bind _ _ _ hrenders.decoded,
    exec_orThrow_bind _ _ _ (ofModule_eq_ok.mpr hrenders.applied), if_neg hchanged]
  unfold Cleared at hcleared
  rcases hchecks : (runChecks e (utf8 rendered) wiring.checks).run (engine env)
    (noted contents.digest t) with ⟨checks, v⟩
  rw [hchecks] at hcleared
  have hlifted : exec (engine env) (ExceptT.lift (runChecks e (utf8 rendered)
      wiring.checks) : EngineM _) (noted contents.digest t) = (.ok checks, v) := by
    rw [Fallible.exec_lift, hchecks]
  rw [exec_bind_ok _ hlifted]
  have hfind : checks.find? (fun report => !report.ran || !report.passed) = none :=
    List.find?_eq_none.mpr (fun report hreport => by simp [hcleared.1 report hreport])
  rw [hfind]
  by_cases hrequired : (module.descriptor.commitConfirm || confirm.isSome) = true
  · rw [if_pos hrequired]
    rcases hpending : exec (engine env) (mapped (pendingCommit e)) v with ⟨r, w⟩
    have hnone := hcleared.2 hrequired
    rw [hpending] at hnone
    obtain rfl : r = .ok none := hnone
    rw [exec_bind_ok _ hpending]
    exact ⟨_, _, rfl⟩
  · rw [if_neg hrequired]
    exact ⟨_, _, rfl⟩

end Reads

section Write

variable {e : OpsEngine} {serviceAction : Option ServiceCommand} {confirm : Option Nat}

variable (e) in
/-- What follows the window of a write. -/
def afterWindow (candidate : Candidate) (serviceAction : Option ServiceCommand)
    (receipt : WriteReceipt) (commit : Option PendingCommit) : EngineM ApplyReport := do
  reloadOrDiscard e candidate.reload commit
  let mounts ← ExceptT.lift (startMounts e candidate.descriptor candidate.wiring.target)
  let service ← actOrDiscard e candidate serviceAction commit
  pure { module := candidate.descriptor.id, path := candidate.wiring.path
         prevHash := receipt.prevDigest, newHash := receipt.newDigest, created := receipt.created
         backedUp := receipt.backedUp, service, commit, checks := candidate.checks, mounts }

variable (e) in
/-- What follows the write of a candidate. -/
def afterWrite (candidate : Candidate) (serviceAction : Option ServiceCommand) (confirm : Option Nat)
    (receipt : WriteReceipt) : EngineM ApplyReport := do
  afterWindow e candidate serviceAction receipt (← openWindow e candidate serviceAction confirm receipt)

theorem afterWrite_follows (candidate : Candidate) (receipt : WriteReceipt) :
    Fallible.Uses (Asks Follows) (afterWrite e candidate serviceAction confirm receipt) := by
  refine uses_bind (openWindow_follows e _ _ _ _) (fun commit => ?_)
  refine uses_bind (reloadOrDiscard_follows e _ _) (fun _ => ?_)
  refine uses_bind (lift_uses (startMounts_follows e _ _)) (fun mounts => ?_)
  exact uses_bind (actOrDiscard_follows e _ _ _) (fun _ => trivial)

theorem afterWrite_report {σ : Type} {h : Handler EngineOp σ} {t t' : σ} {candidate : Candidate}
    {receipt : WriteReceipt} {report : ApplyReport}
    (hx : exec h (afterWrite e candidate serviceAction confirm receipt) t =
      (.ok report, t')) :
    report.path = candidate.wiring.path ∧ report.prevHash = receipt.prevDigest ∧
      report.newHash = receipt.newDigest := by
  obtain ⟨commit, t₁, -, hx⟩ := exec_bind_eq_ok _ hx
  obtain ⟨_, t₂, -, hx⟩ := exec_bind_eq_ok _ hx
  obtain ⟨mounts, t₃, -, hx⟩ := exec_bind_eq_ok _ hx
  obtain ⟨service, t₄, -, hx⟩ := exec_bind_eq_ok _ hx
  cases hx
  exact ⟨rfl, rfl, rfl⟩

end Write

section Execute

variable {σ : Type} {env : Env σ} {e : OpsEngine} {id : String} {model : Json}
  {expectedHash : Option Sha256Digest} {serviceAction : Option ServiceCommand} {confirm : Option Nat}
  {who : Identity} {permit : Identity → Operation → Except Denied Unit} {s s' t : Session × σ}
  {ok : Request → Prop}

theorem newRecord_sends (who : Identity) (op : OpKind) (module : Option String)
    (result : AuditLog.AuditResult) : (newRecord who op module result).Uses (Sends ok) :=
  Uses.bind (uses_perform trivial) (fun _ => trivial)

theorem recordOutcome_sends (who : Identity) (op : Operation) (result : Except OpsError OpOutcome) :
    (recordOutcome e who op result).Uses (Sends ok) := by
  refine Uses.bind (uses_perform trivial) (fun hashes => ?_)
  refine Uses.bind (newRecord_sends _ _ _ _) (fun record => ?_)
  exact Uses.bind (uses_perform trivial) (fun _ => trivial)

/-- The operation itself is the apply, with fresh hashes. -/
theorem perform_apply_ok {outcome : OpOutcome}
    (h : (perform e (.apply id model expectedHash serviceAction confirm)).run (engine env) s =
      (.ok outcome, s')) :
    ∃ report, outcome = .applied report ∧ exec (engine env)
      (Engine.apply e id model expectedHash serviceAction confirm)
      ({ s.1 with hashes := Hashes.empty }, s.2) = (.ok report, s') := by
  obtain ⟨_, t, hreset, h⟩ := run_bind_eq _ h
  cases hreset
  obtain ⟨report, t', happly, h⟩ := exec_bind_eq_ok _ h
  cases h
  exact ⟨report, rfl, happly⟩

/-- An apply that `execute` reports as done ran between programs that only look. -/
theorem execute_apply_ok {outcome : OpOutcome}
    (h : (execute e (.apply id model expectedHash serviceAction confirm) who permit).run
      (engine env) s = (.ok outcome, s')) :
    ∃ report t t', outcome = .applied report ∧
      exec (engine env) (Engine.apply e id model expectedHash serviceAction confirm) t =
        (.ok report, t') ∧ Reaches env Looks s t ∧ Reaches env Looks t' s' := by
  unfold execute at h
  split at h
  · -- a refusal reports nothing as done
    obtain ⟨record, t, -, h⟩ := run_bind_eq _ h
    obtain ⟨_, u, -, h⟩ := run_bind_eq _ h
    cases h
  have hmutating : (Operation.apply id model expectedHash serviceAction confirm).isMutating = true :=
    rfl
  rw [if_pos hmutating] at h
  obtain ⟨noop, u, hnoop, h⟩ := run_bind_eq _ h
  have hlooked : Reaches env Looks s u :=
    .of_run (sends_of_asks (fun _ hlook => hlook) (applyIsNoop_looks e _)) hnoop
  have hreset : ∀ v : Session × σ,
      Reaches env Looks v ({ v.1 with hashes := Hashes.empty }, v.2) := fun v =>
    ⟨Unit, Prog.perform (.session (fun s => ((), { s with hashes := Hashes.empty }))),
      uses_perform trivial, rfl⟩
  split at h
  · -- nothing is recorded
    obtain ⟨result, v, hperform, h⟩ := run_bind_eq _ h
    obtain ⟨_, w, hrecord, h⟩ := run_bind_eq _ h
    cases h
    obtain ⟨report, rfl, happly⟩ := perform_apply_ok hperform
    cases hrecord
    exact ⟨report, _, _, rfl, happly, hlooked.trans (hreset u), ⟨Unit, pure (), trivial, rfl⟩⟩
  · obtain ⟨started, v, hstarted, h⟩ := run_bind_eq _ h
    obtain ⟨emitted, w, hemit, h⟩ := run_bind_eq _ h
    have hemits : (emit started).Uses (Sends Looks) := uses_perform trivial
    have hrecorded : Reaches env Looks u w :=
      Reaches.trans (.of_run (newRecord_sends _ _ _ _) hstarted) (.of_run hemits hemit)
    cases emitted with
    | error err => cases h
    | ok _ =>
      obtain ⟨result, x, hperform, h⟩ := run_bind_eq _ h
      obtain ⟨_, y, hrecord, h⟩ := run_bind_eq _ h
      cases h
      obtain ⟨report, rfl, happly⟩ := perform_apply_ok hperform
      exact ⟨report, _, _, rfl, happly, (hlooked.trans hrecorded).trans (hreset w),
        .of_run (recordOutcome_sends _ _ _) hrecord⟩

end Execute

end Detent.Guarantees
