import Detent.Source.Engine

/-!
# What the operations of the engine ask for

Every program of the engine that only looks sends no request that changes the
state, and no operation writes an audit record of its own: the records are written
around it, by `execute`.
-/
namespace Detent.Guarantees
open Lib Source Source.Engine
open Fallible (Uses exec uses_attempt uses_bind uses_perform)
open Prog (Uses.bind)

/-- The effects of a program that writes no audit record and whose requests all
satisfy `ok`. -/
def Asks (ok : Request → Prop) : (β : Type) → EngineOp β → Prop
  | _, .ask request => ok request
  | _, .record _ => False
  | _, _ => True

/-- The effects of a program whose requests all satisfy `ok`. -/
def Sends (ok : Request → Prop) : (β : Type) → EngineOp β → Prop
  | _, .ask request => ok request
  | _, _ => True

/-- The effect with which the engine finds out which file a model stands for. -/
def Probes : (β : Type) → EngineOp β → Prop
  | _, .pathExists _ => True
  | _, _ => False

/-- A request that changes nothing. -/
def Looks (request : Request) : Prop := request.changesState = false

variable {ok : Request → Prop} {may : (β : Type) → EngineOp β → Prop} {α : Type} (e : OpsEngine)

theorem orThrow_uses (x : Except OpsError α) : Uses may (orThrow x) := by
  cases x <;> trivial

theorem modifySession_uses (f : Session → Session) : Uses (Asks ok) (modifySession f) :=
  uses_perform trivial

variable {request : Request}

theorem exchange_uses (h : ok request) (want : String) (select : Response → Option α) :
    (exchange e request want select).Uses (Asks ok) := by
  unfold exchange
  split
  · trivial
  · exact Uses.bind (Prog.uses_perform h) (fun r => by cases r <;> trivial)

theorem exchange_looks (h : request.changesState = false) (want : String)
    (select : Response → Option α) : (exchange e request want select).Uses (Asks Looks) :=
  exchange_uses e h want select

theorem lift_uses {p : Prog EngineOp α} (h : p.Uses may) :
    Uses may (ExceptT.lift p : EngineM α) :=
  Uses.bind h (fun _ => trivial)

theorem mapped_uses {p : Prog EngineOp (Except Client.ClientError α)} (h : p.Uses (Asks ok)) :
    Uses (Asks ok) (mapped p) :=
  uses_bind (lift_uses h) (fun r => by cases r <;> trivial)

theorem firstExisting_probes (targets : List Target) : (firstExisting targets).Uses Probes := by
  induction targets with
  | nil => trivial
  | cons target targets ih =>
    refine Uses.bind (Prog.uses_perform trivial) (fun found => ?_)
    split
    · trivial
    · exact ih

theorem relocated_probes (descriptor : ModuleDescriptor) (chosen : Target) :
    (relocated descriptor chosen).Uses Probes := by
  unfold relocated
  dsimp only
  split
  · trivial
  · refine Uses.bind (Prog.uses_perform trivial) (fun found => ?_)
    split
    · trivial
    · exact Uses.bind (firstExisting_probes _) (fun found => by cases found <;> trivial)

theorem advertisedFor_probes (descriptor : ModuleDescriptor) (advertised : List TargetInfo)
    (target : Option Target) : (advertisedFor descriptor advertised target).Uses Probes := by
  cases target with
  | none => trivial
  | some target => exact Uses.bind (relocated_probes _ _) (fun _ => trivial)

theorem chooseTarget_probes (descriptor : ModuleDescriptor) (advertised : List TargetInfo)
    (modelTarget : Option Path) :
    (chooseTarget descriptor advertised modelTarget).Uses Probes := by
  cases modelTarget with
  | some path => exact advertisedFor_probes _ _ _
  | none => exact Uses.bind (advertisedFor_probes _ _ _) (fun _ => trivial)

theorem wiring_probes (descriptor : ModuleDescriptor) (modelTarget : Option Path) :
    Uses Probes (wiring e descriptor modelTarget) := by
  unfold wiring
  split
  · trivial
  · trivial
  · exact uses_bind (lift_uses (chooseTarget_probes _ _ _)) (fun found => by
      cases found <;> trivial)

theorem modelWiring_probes (id : String) (model : Json) :
    Uses Probes (modelWiring e id model) :=
  uses_bind (orThrow_uses _) (fun _ =>
    uses_bind (orThrow_uses _) (fun _ => wiring_probes e _ _))

theorem asks_of_probes {x : EngineM α} (h : Uses Probes x) : Uses (Asks ok) x :=
  Prog.Uses.weaken h (fun _ effect heffect => by
    cases effect with
    | pathExists path => trivial
    | _ => exact heffect.elim)

theorem wiring_uses (descriptor : ModuleDescriptor) (modelTarget : Option Path) :
    Uses (Asks ok) (wiring e descriptor modelTarget) :=
  asks_of_probes (wiring_probes e descriptor modelTarget)

theorem modelWiring_uses (id : String) (model : Json) :
    Uses (Asks ok) (modelWiring e id model) :=
  asks_of_probes (modelWiring_probes e id model)

theorem validated_uses (module : DynModule) (model : Json) :
    Uses (Asks ok) (validated module model) := by
  refine uses_bind (orThrow_uses _) (fun hasErrors => ?_)
  split <;> trivial

theorem readTarget_looks (target : TargetId) : (readTarget e target).Uses (Asks Looks) :=
  exchange_looks e rfl _ _

theorem runChecks_looks (candidate : Bytes) (checks : List (CheckId × String)) :
    (runChecks e candidate checks).Uses (Asks Looks) := by
  induction checks with
  | nil => trivial
  | cons check checks ih =>
    refine Uses.bind (exchange_looks e rfl _ _) (fun r => ?_)
    cases r with
    | ok | error => exact Uses.bind trivial (fun _ => Uses.bind ih (fun _ => trivial))

theorem getModule_looks (id : String) : Uses (Asks Looks) (getModule e id) := by
  refine uses_bind (orThrow_uses _) (fun module => ?_)
  refine uses_bind (wiring_uses e _ _) (fun wiring => ?_)
  refine uses_bind (lift_uses (readTarget_looks e _)) (fun r => ?_)
  split
  · refine uses_bind (orThrow_uses _) (fun text => ?_)
    refine uses_bind (orThrow_uses _) (fun model => ?_)
    exact uses_bind (orThrow_uses _) (fun _ => trivial)
  · trivial
  · trivial

theorem plan_looks (id : String) (model : Json) : Uses (Asks Looks) (plan e id model) := by
  refine uses_bind (orThrow_uses _) (fun module => ?_)
  refine uses_bind (modelWiring_uses e _ _) (fun wiring => ?_)
  refine uses_bind (mapped_uses (readTarget_looks e _)) (fun contents => ?_)
  refine uses_bind (orThrow_uses _) (fun current => ?_)
  refine uses_bind (validated_uses _ _) (fun _ => ?_)
  refine uses_bind (orThrow_uses _) (fun rendered => ?_)
  exact uses_bind (lift_uses (runChecks_looks e _ _)) (fun _ => trivial)

theorem serviceStatus_looks (id : String) : Uses (Asks Looks) (serviceStatus e id) := by
  refine uses_bind (orThrow_uses _) (fun module => ?_)
  refine uses_bind (orThrow_uses _) (fun _ => ?_)
  refine uses_bind (wiring_uses e _ _) (fun wiring => ?_)
  split
  · trivial
  · exact uses_bind (lift_uses (exchange_looks e rfl _ _)) (fun r => by cases r <;> trivial)

theorem applyIsNoop_looks (op : Operation) : Uses (Asks Looks) (applyIsNoop e op) := by
  unfold applyIsNoop
  split
  · refine uses_bind (orThrow_uses _) (fun module => ?_)
    refine uses_bind (orThrow_uses _) (fun hasErrors => ?_)
    split
    · trivial
    · refine uses_bind (modelWiring_uses e _ _) (fun wiring => ?_)
      split
      · trivial
      · refine uses_bind (mapped_uses (readTarget_looks e _)) (fun contents => ?_)
        split
        · trivial
        · refine uses_bind (orThrow_uses _) (fun current => ?_)
          exact uses_bind (orThrow_uses _) (fun _ => trivial)
  · trivial

theorem prepare_looks (id : String) (model : Json) (expectedHash : Option Sha256Digest)
    (serviceAction : Option ServiceCommand) (confirm : Option Nat) :
    Uses (Asks Looks) (prepare e id model expectedHash serviceAction confirm) := by
  refine uses_bind (orThrow_uses _) (fun module => ?_)
  refine uses_bind (validated_uses _ _) (fun _ => ?_)
  refine uses_bind (modelWiring_uses e _ _) (fun wiring => ?_)
  dsimp only
  split
  · trivial
  · refine uses_bind (orThrow_uses _) (fun reload => ?_)
    refine uses_bind (mapped_uses (readTarget_looks e _)) (fun contents => ?_)
    refine uses_bind (modifySession_uses _) (fun _ => ?_)
    split
    · trivial
    · refine uses_bind (orThrow_uses _) (fun current => ?_)
      refine uses_bind (orThrow_uses _) (fun rendered => ?_)
      split
      · trivial
      · refine uses_bind (lift_uses (runChecks_looks e _ _)) (fun checks => ?_)
        split
        · refine uses_bind (mapped_uses (exchange_looks e rfl _ _)) (fun pending => ?_)
          split
          · trivial
          · split <;> trivial
        · split <;> trivial

/-- Any request. -/
def Anything (_ : Request) : Prop := True

def isWrite : Request → Bool
  | .writeTarget .. => true
  | _ => false

/-- A request that may follow a write. -/
def Follows (request : Request) : Prop := isWrite request = false

theorem exchange_silent (request : Request) (want : String) (select : Response → Option α) :
    (exchange e request want select).Uses (Asks Anything) :=
  exchange_uses e trivial want select

theorem exchange_follows (h : isWrite request = false) (want : String)
    (select : Response → Option α) : (exchange e request want select).Uses (Asks Follows) :=
  exchange_uses e h want select

section Requests

variable (hrollback : ∀ commit, ok (.rollbackCommit commit))
include hrollback

theorem discardCommit_uses (commit : Option PendingCommit) :
    Uses (Asks ok) (discardCommit e commit) := by
  unfold discardCommit
  split
  · trivial
  · refine uses_bind (lift_uses (exchange_uses e (hrollback _) _ _)) (fun r => ?_)
    cases r with
    | ok value => exact modifySession_uses _
    | error err => trivial

theorem reloadOrDiscard_uses (hreload : ∀ module, ok (.reloadUnitFiles module))
    (module : Option ModuleId) (commit : Option PendingCommit) :
    Uses (Asks ok) (reloadOrDiscard e module commit) := by
  unfold reloadOrDiscard
  split
  · trivial
  · refine uses_bind (lift_uses (exchange_uses e (hreload _) _ _)) (fun r => ?_)
    cases r with
    | ok value => trivial
    | error err => exact uses_bind (discardCommit_uses e hrollback _) (fun _ => trivial)

theorem actOrDiscard_uses (hservice : ∀ binding action, ok (.service binding action))
    (candidate : Candidate) (serviceAction : Option ServiceCommand) (commit : Option PendingCommit) :
    Uses (Asks ok) (actOrDiscard e candidate serviceAction commit) := by
  unfold actOrDiscard
  split
  · have hact : ∀ binding unit action, Uses (Asks ok) (act e binding unit action) :=
      fun binding unit action =>
        uses_bind (mapped_uses (exchange_uses e (hservice _ _) _ _)) (fun _ => trivial)
    refine uses_bind (uses_attempt (hact _ _ _)) (fun r => ?_)
    cases r with
    | ok report => trivial
    | error err => exact uses_bind (discardCommit_uses e hrollback _) (fun _ => trivial)
  · trivial

end Requests

theorem startMounts_uses (hmount : ∀ target, ok (.mount target)) (descriptor : ModuleDescriptor)
    (target : TargetId) : (startMounts e descriptor target).Uses (Asks ok) := by
  unfold startMounts
  split
  · exact Uses.bind (exchange_uses e (hmount _) _ _) (fun r => by cases r <;> trivial)
  · trivial

theorem discardCommit_follows (commit : Option PendingCommit) :
    Uses (Asks Follows) (discardCommit e commit) :=
  discardCommit_uses e (fun _ => rfl) commit

theorem reloadOrDiscard_follows (module : Option ModuleId) (commit : Option PendingCommit) :
    Uses (Asks Follows) (reloadOrDiscard e module commit) :=
  reloadOrDiscard_uses e (fun _ => rfl) (fun _ => rfl) module commit

theorem undoWrite_follows (module : String) (target : TargetId) (prev : Option Sha256Digest)
    (backedUp : Bool) : Uses (Asks Follows) (undoWrite e module target prev backedUp) := by
  unfold undoWrite
  split
  · refine uses_bind (orThrow_uses _) (fun module => ?_)
    refine uses_bind (orThrow_uses _) (fun id => ?_)
    refine uses_bind (mapped_uses (exchange_follows e rfl _ _)) (fun backups => ?_)
    split
    · trivial
    · exact uses_bind (mapped_uses (exchange_follows e rfl _ _)) (fun _ => trivial)
  · trivial

theorem armCommit_follows (confirm : Option Nat) (service : Option PendingService) :
    Uses (Asks Follows) (armCommit e confirm service) := by
  refine uses_bind (uses_perform trivial) (fun commit => ?_)
  refine uses_bind (mapped_uses (exchange_follows e rfl _ _)) (fun window => ?_)
  exact uses_bind (uses_perform trivial) (fun _ => trivial)

theorem armOrUndo_follows (confirm : Option Nat) (service : Option PendingService)
    (descriptor : ModuleDescriptor) (wiring : Wiring) (written : WriteReceipt) :
    Uses (Asks Follows) (armOrUndo e confirm service descriptor wiring written) := by
  refine uses_bind (uses_attempt (armCommit_follows e _ _)) (fun r => ?_)
  cases r with
  | ok commit => trivial
  | error arming =>
    refine uses_bind (uses_attempt (undoWrite_follows e _ _ _ _)) (fun r => ?_)
    cases r <;> trivial

theorem openWindow_follows (candidate : Candidate) (serviceAction : Option ServiceCommand)
    (confirm : Option Nat) (receipt : WriteReceipt) :
    Uses (Asks Follows) (openWindow e candidate serviceAction confirm receipt) := by
  unfold openWindow
  split
  · refine uses_bind (armOrUndo_follows e _ _ _ _ _) (fun commit => ?_)
    refine uses_bind (modifySession_uses _) (fun _ => ?_)
    split
    · trivial
    · exact uses_bind (discardCommit_follows e _) (fun _ => trivial)
  · trivial

theorem act_follows (binding : BindingId) (unit : String) (action : ServiceCommand) :
    Uses (Asks Follows) (act e binding unit action) :=
  uses_bind (mapped_uses (exchange_follows e rfl _ _)) (fun _ => trivial)

theorem actOrDiscard_follows (candidate : Candidate) (serviceAction : Option ServiceCommand)
    (commit : Option PendingCommit) :
    Uses (Asks Follows) (actOrDiscard e candidate serviceAction commit) :=
  actOrDiscard_uses e (fun _ => rfl) (fun _ _ => rfl) candidate serviceAction commit

theorem startMounts_follows (descriptor : ModuleDescriptor) (target : TargetId) :
    (startMounts e descriptor target).Uses (Asks Follows) :=
  startMounts_uses e (fun _ => rfl) descriptor target

/-- What asks for certain requests asks for some. -/
theorem silent_of {x : EngineM α} (h : Uses (Asks ok) x) :
    Uses (Asks Anything) x :=
  Prog.Uses.weaken h (fun _ effect heffect => by
    cases effect with
    | record record => exact heffect
    | _ => trivial)

theorem carryOut_silent (candidate : Candidate) (serviceAction : Option ServiceCommand)
    (confirm : Option Nat) :
    Uses (Asks Anything) (carryOut e candidate serviceAction confirm) := by
  refine uses_bind (mapped_uses (exchange_silent e _ _ _)) (fun receipt => ?_)
  refine uses_bind (modifySession_uses _) (fun _ => ?_)
  refine uses_bind (silent_of (openWindow_follows e _ _ _ _)) (fun commit => ?_)
  refine uses_bind (silent_of (reloadOrDiscard_follows e _ _)) (fun _ => ?_)
  refine uses_bind (silent_of (lift_uses (startMounts_follows e _ _))) (fun mounts => ?_)
  exact uses_bind (silent_of (actOrDiscard_follows e _ _ _)) (fun _ => trivial)

theorem apply_silent (id : String) (model : Json) (expectedHash : Option Sha256Digest)
    (serviceAction : Option ServiceCommand) (confirm : Option Nat) :
    Uses (Asks Anything) (Engine.apply e id model expectedHash serviceAction confirm) := by
  refine uses_bind (silent_of (prepare_looks e _ _ _ _ _)) (fun prepared => ?_)
  cases prepared with
  | inl report => trivial
  | inr candidate => exact carryOut_silent e _ _ _

theorem restore_silent (id : String) (backupId : BackupId) (expectedHash : Option Sha256Digest) :
    Uses (Asks Anything) (Engine.restore e id backupId expectedHash) := by
  refine uses_bind (orThrow_uses _) (fun found => ?_)
  refine uses_bind (orThrow_uses _) (fun module => ?_)
  refine uses_bind (wiring_uses e _ _) (fun wiring => ?_)
  refine uses_bind (mapped_uses (exchange_silent e _ _ _)) (fun contents => ?_)
  refine uses_bind (modifySession_uses _) (fun _ => ?_)
  split
  · trivial
  · refine uses_bind (mapped_uses (exchange_silent e _ _ _)) (fun restored => ?_)
    exact uses_bind (modifySession_uses _) (fun _ => trivial)

theorem serviceAction_silent (id : String) (action : ServiceCommand) :
    Uses (Asks Anything) (serviceAction e id action) := by
  refine uses_bind (orThrow_uses _) (fun module => ?_)
  refine uses_bind (wiring_uses e _ _) (fun wiring => ?_)
  split
  · trivial
  · exact uses_bind (silent_of (act_follows e _ _ _)) (fun _ => trivial)

theorem updateApply_silent (version : String) :
    Uses (Asks Anything) (updateApply e version) := by
  unfold updateApply
  split
  · trivial
  · trivial
  · refine uses_bind (lift_uses (exchange_silent e _ _ _)) (fun r => ?_)
    split <;> trivial

theorem certAnswer_uses (what : String) {hook : EngineOp (Except (String × String) Unit)}
    (hhook : Asks ok _ hook) (outcome : OpOutcome) :
    Uses (Asks ok) (certAnswer e what hook outcome) := by
  unfold certAnswer
  split
  · refine uses_bind (uses_perform hhook) (fun r => ?_)
    split <;> trivial
  · trivial

theorem dispatch_looks {op : Operation} (h : op.isMutating = false) :
    Uses (Asks Looks) (Engine.dispatch e op) := by
  cases op with
  | apply | confirmCommit | rollbackCommit | restore | serviceAction | certRenew | updateApply =>
    cases h
  | listModules => trivial
  | getModule id => exact getModule_looks e id
  | validate id model =>
    refine uses_bind (orThrow_uses _) (fun module => ?_)
    exact uses_bind (orThrow_uses _) (fun _ => trivial)
  | plan id model => exact uses_bind (plan_looks e id model) (fun _ => trivial)
  | listBackups id =>
    refine uses_bind (orThrow_uses _) (fun module => ?_)
    refine uses_bind (orThrow_uses _) (fun id => ?_)
    exact uses_bind (mapped_uses (exchange_looks e rfl _ _)) (fun _ => trivial)
  | serviceStatus id => exact serviceStatus_looks e id
  | hostProfile => trivial
  | auditQuery query =>
    exact uses_bind (uses_perform trivial) (fun r => by cases r <;> trivial)
  | updateStatus => trivial
  | certStatus =>
    have hhook : Asks Looks _ EngineOp.certStatus := trivial
    exact certAnswer_uses e _ hhook _

/-- No operation writes an audit record of its own. -/
theorem dispatch_silent (op : Operation) : Uses (Asks Anything) (Engine.dispatch e op) := by
  cases hmutating : op.isMutating with
  | false => exact silent_of (dispatch_looks e hmutating)
  | true =>
    cases op with
    | listModules | getModule | validate | plan | listBackups | serviceStatus | hostProfile
    | auditQuery | updateStatus | certStatus => cases hmutating
    | apply id model expectedHash serviceAction confirm =>
      exact uses_bind (apply_silent e _ _ _ _ _) (fun _ => trivial)
    | confirmCommit | rollbackCommit =>
      refine uses_bind (modifySession_uses _) (fun _ => ?_)
      refine uses_bind (mapped_uses (exchange_silent e _ _ _)) (fun commit => ?_)
      exact uses_bind (modifySession_uses _) (fun _ => trivial)
    | restore id backupId expectedHash => exact restore_silent e _ _ _
    | serviceAction id action => exact serviceAction_silent e _ _
    | certRenew =>
      have hhook : Asks Anything _ EngineOp.certRenew := trivial
      exact certAnswer_uses e _ hhook _
    | updateApply version => exact updateApply_silent e _

section Reaching

variable {σ : Type} {env : Env σ} {s t u : Session × σ} {α : Type} {ok ok' : Request → Prop}

theorem sends_of_asks {p : Prog EngineOp α} (himp : ∀ request, ok request → ok' request)
    (h : p.Uses (Asks ok)) : p.Uses (Sends ok') :=
  h.weaken (fun _ effect heffect => by
    cases effect with
    | ask request => exact himp request heffect
    | _ => trivial)

/-- `t` is reached from `s` by a program whose requests all satisfy `ok`. -/
def Reaches (env : Env σ) (ok : Request → Prop) (s t : Session × σ) : Prop :=
  ∃ (α : Type) (p : Prog EngineOp α), p.Uses (Sends ok) ∧ (p.run (engine env) s).2 = t

theorem Reaches.of_run {p : Prog EngineOp α} {a : α} (hp : p.Uses (Sends ok))
    (h : p.run (engine env) s = (a, t)) : Reaches env ok s t :=
  ⟨α, p, hp, by rw [h]⟩

theorem Reaches.of_exec {x : EngineM α} {r : Except OpsError α}
    (h : exec (engine env) x s = (r, t)) : Reaches env Anything s t :=
  .of_run ((Prog.uses_any _).weaken (fun _ effect _ => by cases effect <;> trivial)) h

theorem Reaches.trans (hs : Reaches env ok s t) (ht : Reaches env ok t u) : Reaches env ok s u := by
  obtain ⟨α, p, hp, rfl⟩ := hs
  obtain ⟨β, q, hq, rfl⟩ := ht
  exact ⟨β, p >>= fun _ => q, hp.bind (fun _ => hq), by rw [Prog.run_bind]⟩

end Reaching

section OrThrow

variable {σ : Type}

@[simp] theorem exec_orThrow (h : Handler EngineOp σ) (x : Except OpsError α) (s : σ) :
    exec h (orThrow x) s = (x, s) := by
  cases x <;> rfl

@[simp] theorem ofModule_eq_ok {x : Except String α} {value : α} :
    ofModule x = .ok value ↔ x = .ok value := by
  cases x <;> simp [ofModule]

/-- How a sequence that starts with `?` on a value can have succeeded. -/
theorem exec_orThrow_bind_eq_ok {β : Type} {h : Handler EngineOp σ} {x : Except OpsError α}
    {f : α → EngineM β} {s u : σ} {b : β}
    (hx : exec h (orThrow x >>= f) s = (.ok b, u)) :
    ∃ a, x = .ok a ∧ exec h (f a) s = (.ok b, u) := by
  obtain ⟨a, t, hfirst, hnext⟩ := Fallible.exec_bind_eq_ok h hx
  rw [exec_orThrow] at hfirst
  cases hfirst
  exact ⟨a, rfl, hnext⟩

theorem exec_orThrow_bind {β : Type} (h : Handler EngineOp σ) {x : Except OpsError α}
    (f : α → EngineM β) (s : σ) {a : α} (hx : x = .ok a) :
    exec h (orThrow x >>= f) s = exec h (f a) s := by
  subst hx
  exact Fallible.exec_bind_ok h rfl

theorem exec_noteHashes (env : Env σ) (f : Hashes → Hashes) (s : Session × σ) :
    exec (engine env) (noteHashes f) s =
      (.ok (), ({ s.1 with hashes := f s.1.hashes }, s.2)) := rfl

end OrThrow

end Detent.Guarantees
