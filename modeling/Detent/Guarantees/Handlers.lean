import Detent.Guarantees.Listing
import Detent.Source.Serve

/-!
# What the request handlers can touch

Most handlers read files and call hooks. Those of the commit-confirm cycle write
the pending-commit marker. Only a write, a restore and a rollback reach targets
and backups.
-/
namespace Detent.Guarantees
open Lib Source Source.Atomic Source.Monitor
open Fallible (exec exec_bind uses_bind)
open Prog (Uses.bind returns_bind run_bind_eq uses_perform)

variable {parts : Part → Prop} (m : Setup)

/-- At most the pending-commit marker. -/
def pendingOnly (part : Part) : Prop := part = .pending

theorem pendingOnly_pending : pendingOnly .pending := rfl

variable {β : Type} {p : Prog SysOp Response} {request : Request} {response : Response}

theorem hook_uses (op : HookOp β) : (hook op).Uses (Inside parts) :=
  uses_perform trivial

theorem runValidators_uses (bytes : Bytes) (entries : List CheckEntry) :
    (runValidators bytes entries).Uses (Inside parts) := by
  induction entries with
  | nil => trivial
  | cons entry entries ih =>
    refine Uses.bind (uses_perform trivial) (fun r => ?_)
    cases r with
    | error err => trivial
    | ok outcome =>
      dsimp only
      split
      · exact ih
      · trivial

theorem revalidate_uses (module : ModuleId) (target : Path) (previous bytes : Bytes) :
    (revalidate m module target previous bytes).Uses (Inside parts) := by
  unfold revalidate
  split
  · trivial
  · split
    · exact runValidators_uses _ _
    · trivial

theorem service_uses (id : BindingId) (action : ServiceAction) :
    (service m id action).Uses (Inside parts) := by
  unfold service
  split
  · trivial
  · split
    · exact Uses.bind (hook_uses _) (fun r => by cases r <;> trivial)
    · split
      · exact Uses.bind (hook_uses _) (fun r => by cases r <;> trivial)
      · trivial

theorem reloadUnitFiles_uses (module : ModuleId) :
    (reloadUnitFiles m module).Uses (Inside parts) := by
  unfold reloadUnitFiles
  split
  · trivial
  · split
    · exact Uses.bind (hook_uses _) (fun r => by cases r <;> trivial)
    · trivial

theorem mount_uses (target : TargetId) : (mount m target).Uses (Inside parts) := by
  unfold mount
  split
  · trivial
  · split
    · trivial
    · split
      · exact Uses.bind (hook_uses _) (fun r => by cases r <;> trivial)
      · trivial

theorem startUpdate_uses (tag : String) : (startUpdate m tag).Uses (Inside parts) := by
  unfold startUpdate
  split
  · trivial
  · split
    · exact Uses.bind (hook_uses _) (fun r => by
        match r with
        | .ok (.started _) | .ok .alreadyRunning | .error _ => trivial)
    · trivial

theorem stopStartedMounts_uses (entries : List RollbackEntry) :
    (stopStartedMounts m entries).Uses (Inside parts) := by
  unfold stopStartedMounts
  split
  · exact Uses.bind (hook_uses _) (fun r => by cases r <;> trivial)
  · trivial

theorem replayReload_uses (entries : List RollbackEntry) :
    (replayReload m entries).Uses (Inside parts) := by
  unfold replayReload
  split
  · exact Uses.bind (hook_uses _) (fun r => by cases r <;> trivial)
  · trivial

theorem replayService_uses (service : Option PendingService) :
    (replayService m service).Uses (Inside parts) := by
  unfold replayService
  split
  · trivial
  · split
    · trivial
    · split
      · trivial
      · split
        · exact Uses.bind (hook_uses _) (fun r => by cases r <;> trivial)
        · trivial

theorem clearMarker_uses (h : parts .pending) : clearMarker.Uses (Inside parts) :=
  Uses.bind (uses_perform (.inr h)) (fun r => by
    match r with
    | .ok () | .error .notFound | .error .alreadyExists | .error .readOnlyFilesystem
    | .error .permissionDenied | .error .other => trivial)

theorem writeMarker_uses (h : parts .pending) (record : PendingCommitMarker) :
    (Monitor.writeMarker record).Uses (Inside parts) := by
  refine Uses.bind (uses_perform (.inr h)) (fun r => ?_)
  cases r with
  | error kind => trivial
  | ok value =>
    refine Uses.bind (uses_perform (.inr h)) (fun r => ?_)
    cases r with
    | error kind => trivial
    | ok value => exact Uses.bind (uses_perform (.inl rfl)) (fun r => by
        cases r <;> trivial)

theorem startConfirmTimer_uses (h : parts .pending) (mem : Mem) (commit : CommitId) (timeoutS : Nat)
    (service : Option PendingService) :
    (startConfirmTimer mem commit timeoutS service).Uses (Inside parts) := by
  unfold startConfirmTimer
  split
  · trivial
  · refine Uses.bind (uses_perform trivial) (fun _ => ?_)
    refine Uses.bind (uses_perform trivial) (fun _ => ?_)
    exact Uses.bind (writeMarker_uses h _) (fun r => by cases r <;> trivial)

theorem forgetStartedMounts_uses (entries : List RollbackEntry) :
    (forgetStartedMounts m entries).Uses (Inside parts) := by
  unfold forgetStartedMounts
  split
  · exact hook_uses _
  · trivial

theorem confirmPending_uses (h : parts .pending) (mem : Mem) (pending : Pending) :
    (confirmPending m mem pending).Uses (Inside parts) := by
  refine Uses.bind (forgetStartedMounts_uses m _) (fun _ => ?_)
  exact Uses.bind (clearMarker_uses h) (fun r => by cases r <;> trivial)

/-- A confirmation leaves no commit pending, whatever comes of the marker. -/
theorem confirmPending_clears (mem : Mem) (pending : Pending) :
    (confirmPending m mem pending).Returns (fun result => result.2.pending = none) :=
  returns_bind (fun _ => returns_bind (fun r => by cases r <;> rfl))

theorem answer_uses (mem : Mem) (h : p.Uses (Inside parts)) : (answer mem p).Uses (Inside parts) :=
  Uses.bind h (fun _ => trivial)

theorem answer_run {host : Host} {d d' : Disk} {mem mem' : Mem}
    {result : Except MonitorError Response}
    (h : (answer mem p).run (sys host) d = ((result, mem'), d')) :
    ∃ response, result = .ok response ∧ mem' = mem ∧ p.run (sys host) d = (response, d') := by
  obtain ⟨response, d₁, hp, h⟩ := run_bind_eq _ h
  cases h
  exact ⟨response, rfl, rfl, hp⟩

/-- The handshake changes nothing but whether it happened. -/
theorem greet_mem (mem : Mem) (request : Request) :
    (greet m mem request).2.pending = mem.pending ∧ (greet m mem request).2.journal = mem.journal := by
  unfold greet
  split
  · split <;> exact ⟨rfl, rfl⟩
  · exact ⟨rfl, rfl⟩

/-- A timer that could not be armed leaves no commit pending. -/
theorem startConfirmTimer_error {host : Host} {d d' : Disk} {mem mem' : Mem} {commit : CommitId}
    {timeoutS : Nat} {service : Option PendingService} {err : MonitorError}
    (h : (startConfirmTimer mem commit timeoutS service).run (sys host) d =
      ((.error err, mem'), d')) : mem'.pending = none := by
  unfold startConfirmTimer at h
  split at h
  · cases h
  · rename_i hnone
    obtain ⟨_, d₁, _, h⟩ := run_bind_eq _ h
    obtain ⟨_, d₂, _, h⟩ := run_bind_eq _ h
    obtain ⟨r, d₃, _, h⟩ := run_bind_eq _ h
    cases r with
    | ok value => cases h
    | error other =>
      cases h
      exact hnone

variable [Sha256]

theorem readTarget_uses (id : TargetId) : (readTarget m id).Uses (Inside parts) := by
  unfold readTarget
  split
  · trivial
  · refine Uses.bind (readWithDigest_confined _) (fun r => ?_)
    split <;> trivial

theorem previousContents_uses (path : Path) : (previousContents path).Uses (Inside parts) := by
  refine Uses.bind (readWithDigest_confined _) (fun r => ?_)
  split <;> trivial

theorem judgedContents_uses (entries : List TargetEntry) :
    (judgedContents entries).Uses (Inside parts) := by
  induction entries with
  | nil => trivial
  | cons entry entries ih =>
    refine Uses.bind (readWithDigest_confined _) (fun r => ?_)
    cases r with
    | ok found => exact Uses.bind ih (fun _ => trivial)
    | error err => exact ih

theorem runCheck_uses (id : CheckId) (bytes : Bytes) : (runCheck m id bytes).Uses (Inside parts) := by
  unfold runCheck
  split
  · trivial
  · refine Uses.bind (judgedContents_uses _) (fun found => ?_)
    dsimp only
    split
    · trivial
    · exact Uses.bind (uses_perform trivial) (fun r => by cases r <;> trivial)

theorem listBackups_uses (module : ModuleId) :
    (Monitor.listBackups m module).Uses (Inside parts) :=
  Uses.bind (collectBackups_uses m module) (fun r => by cases r <;> trivial)

theorem dispatch_ungreeted {mem : Mem} (h : ¬ mem.greeted = true) (request : Request) :
    dispatch m mem request = pure (.ok (greet m mem request).1, (greet m mem request).2) := by
  unfold dispatch
  rw [if_neg h]

/-- The requests that reach no target and no backup. -/
def Plain : Request → Prop
  | .writeTarget .. | .restore .. | .confirmCommit .. | .rollbackCommit .. => False
  | _ => True

/-- A plain request writes at most the pending-commit marker. -/
theorem dispatch_uses (h : parts .pending) (mem : Mem) (hplain : Plain request) :
    (dispatch m mem request).Uses (Inside parts) := by
  unfold dispatch
  split
  · cases request with
    | writeTarget | restore | confirmCommit | rollbackCommit => exact hplain.elim
    | readTarget target => exact answer_uses mem (readTarget_uses m target)
    | runCheck check bytes => exact answer_uses mem (runCheck_uses m check bytes)
    | service binding action => exact answer_uses mem (service_uses m binding action)
    | listBackups module => exact answer_uses mem (listBackups_uses m module)
    | startConfirmTimer commit timeoutS service =>
      exact startConfirmTimer_uses h mem commit timeoutS service
    | mount target => exact answer_uses mem (mount_uses m target)
    | reloadUnitFiles module => exact answer_uses mem (reloadUnitFiles_uses m module)
    | startUpdate tag => exact answer_uses mem (startUpdate_uses m tag)
    | hello | replaceBinary | shutdown | pendingCommit | stageBegin | stageUpdate => trivial
  · trivial

/-! ## Which responses end the connection -/

/-- The errors the handshake reports. -/
def Fatal : ProtoError → Prop
  | .versionMismatch .. | .handshakeRequired => True
  | _ => False

/-- Responses that do not end the connection. -/
def Usual : Response → Prop
  | .error err => ¬ Fatal err
  | _ => True

omit [Sha256] in
theorem Usual.not_fatal (h : Usual response) : Response.fatal response = false := by
  cases response with
  | error err =>
    cases err with
    | versionMismatch | handshakeRequired => exact (h trivial).elim
    | _ => rfl
  | _ => rfl

omit [Sha256] in
theorem not_fatal_atomicToProto (err : AtomicError) : ¬ Fatal (atomicToProto err) := by
  cases err <;> exact id

omit [Sha256] in
theorem not_fatal_hookToProto (err : HookError) : ¬ Fatal (hookToProto err) := by
  cases err <;> exact id

/-- Results whose error does not end the connection. -/
def UsualError {α : Type} : Except ProtoError α → Prop
  | .error err => ¬ Fatal err
  | .ok _ => True

omit [Sha256] in
theorem validateCandidate_usual (module : DynModule) (bytes : Bytes) :
    UsualError (validateCandidate module bytes) := by
  unfold validateCandidate
  split
  · exact id
  · split
    · exact id
    · split
      · exact id
      · exact id
      · trivial

omit [Sha256] in
theorem gateContent_refusal {module : ModuleId} {previous : List Bytes} {bytes : Bytes}
    {err : ProtoError} (h : gateContent m module previous bytes = .error err) : ¬ Fatal err := by
  have husual : UsualError (gateContent m module previous bytes) := by
    unfold gateContent
    split
    · exact id
    · split
      · exact id
      · split
        · exact id
        · exact validateCandidate_usual _ _
  rw [h] at husual
  exact husual

omit [Sha256] in
theorem runValidators_usual (bytes : Bytes) (entries : List CheckEntry) :
    (runValidators bytes entries).Returns UsualError := by
  induction entries with
  | nil => trivial
  | cons entry entries ih =>
    refine returns_bind (fun r => ?_)
    cases r with
    | error err => exact not_fatal_hookToProto err
    | ok outcome =>
      dsimp only
      split
      · exact ih
      · exact id

omit [Sha256] in
theorem revalidate_usual (module : ModuleId) (target : Path) (previous bytes : Bytes) :
    (revalidate m module target previous bytes).Returns UsualError := by
  unfold revalidate
  split
  · rename_i herr
    exact gateContent_refusal m herr
  · split
    · exact runValidators_usual _ _
    · trivial

theorem writeTarget_usual (mem : Mem) (target : TargetId) (expectedPrev : Option Sha256Digest)
    (bytes : Bytes) (journal : Bool) :
    (writeTarget m mem target expectedPrev bytes journal).Returns (fun result => Usual result.1) := by
  unfold writeTarget
  split
  · exact id
  · refine returns_bind (fun previous => ?_)
    cases previous with
    | error err => exact not_fatal_atomicToProto err
    | ok previous =>
      refine (revalidate_usual m _ _ _ _).bind (fun verdict hverdict => ?_)
      cases verdict with
      | error err => exact hverdict
      | ok value =>
        refine returns_bind (fun r => ?_)
        cases r with
        | error err => exact not_fatal_atomicToProto err
        | ok outcome => trivial

theorem readTarget_usual (target : TargetId) : (readTarget m target).Returns Usual := by
  unfold readTarget
  split
  · exact id
  · refine returns_bind (fun r => ?_)
    split
    · trivial
    · exact id
    · exact not_fatal_atomicToProto _

theorem runCheck_usual (check : CheckId) (bytes : Bytes) : (runCheck m check bytes).Returns Usual := by
  unfold runCheck
  split
  · exact id
  · refine returns_bind (fun found => ?_)
    dsimp only
    split
    · rename_i herr
      exact gateContent_refusal m herr
    · refine returns_bind (fun r => ?_)
      cases r with
      | ok outcome => trivial
      | error err => exact not_fatal_hookToProto err

omit [Sha256] in
theorem hook_usual {op : HookOp β} {next : Except HookError β → Prog SysOp Response}
    (hok : ∀ value, (next (.ok value)).Returns Usual)
    (herror : ∀ err, next (.error err) = pure (.error (hookToProto err))) :
    (hook op >>= next).Returns Usual := by
  refine returns_bind (fun r => ?_)
  cases r with
  | ok value => exact hok value
  | error err =>
    rw [herror]
    exact not_fatal_hookToProto err

omit [Sha256] in
theorem service_usual (binding : BindingId) (action : ServiceAction) :
    (service m binding action).Returns Usual := by
  unfold service
  split
  · exact id
  · split
    · exact hook_usual (fun _ => trivial) (fun _ => rfl)
    · split
      · exact hook_usual (fun _ => trivial) (fun _ => rfl)
      · exact id

omit [Sha256] in
theorem reloadUnitFiles_usual (module : ModuleId) : (reloadUnitFiles m module).Returns Usual := by
  unfold reloadUnitFiles
  split
  · exact id
  · split
    · exact hook_usual (fun _ => trivial) (fun _ => rfl)
    · exact id

omit [Sha256] in
theorem mount_usual (target : TargetId) : (mount m target).Returns Usual := by
  unfold mount
  split
  · exact id
  · split
    · exact id
    · split
      · exact hook_usual (fun _ => trivial) (fun _ => rfl)
      · trivial

theorem collectBackups_usual (module : ModuleId) :
    (collectBackups m module).Returns UsualError := by
  unfold collectBackups
  split
  · exact id
  · refine returns_bind (fun r => ?_)
    cases r with
    | ok rows => trivial
    | error err => exact not_fatal_atomicToProto err

theorem listBackups_usual (module : ModuleId) : (Monitor.listBackups m module).Returns Usual := by
  refine (collectBackups_usual m module).bind (fun rows hrows => ?_)
  cases rows with
  | ok rows => trivial
  | error err => exact hrows

theorem restore_usual (module : ModuleId) (backup : BackupId) :
    (restore m module backup).Returns Usual := by
  refine (collectBackups_usual m module).bind (fun rows hrows => ?_)
  cases rows with
  | error err => exact hrows
  | ok rows =>
    dsimp only
    split
    · exact id
    · refine returns_bind (fun r => ?_)
      cases r with
      | ok outcome => trivial
      | error err => exact not_fatal_atomicToProto err

omit [Sha256] in
theorem startUpdate_usual (tag : String) : (startUpdate m tag).Returns Usual := by
  unfold startUpdate
  split
  · exact id
  · split
    · refine hook_usual (fun value => ?_) (fun _ => rfl)
      cases value with
      | started detail => trivial
      | alreadyRunning => exact id
    · exact id

/-- Results of a handler whose response does not end the connection. -/
def UsualResult (result : Except MonitorError Response × Mem) : Prop :=
  ∀ response, result.1 = .ok response → Usual response

omit [Sha256] in
theorem answer_usual (mem : Mem) (h : p.Returns Usual) : (answer mem p).Returns UsualResult :=
  h.bind (fun response hresponse => by
    intro other hother
    cases hother
    exact hresponse)

omit [Sha256] in
theorem usualResult_ok {mem : Mem} (h : Usual response) : UsualResult (.ok response, mem) := by
  intro other hother
  cases hother
  exact h

omit [Sha256] in
theorem usualResult_error {err : MonitorError} {mem : Mem} : UsualResult (.error err, mem) := by
  nofun

omit [Sha256] in
theorem startConfirmTimer_usual (mem : Mem) (commit : CommitId) (timeoutS : Nat)
    (service : Option PendingService) :
    (startConfirmTimer mem commit timeoutS service).Returns UsualResult := by
  unfold startConfirmTimer
  split
  · exact usualResult_ok id
  · refine returns_bind (fun _ => returns_bind (fun _ => returns_bind (fun r => ?_)))
    cases r with
    | ok value => exact usualResult_ok trivial
    | error err => exact usualResult_error

theorem confirmCommit_usual (mem : Mem) (commit : CommitId) :
    (confirmCommit m mem commit).Returns UsualResult := by
  unfold confirmCommit
  split
  · split
    · refine returns_bind (fun now => ?_)
      split
      · refine returns_bind (fun r => ?_)
        split
        · exact usualResult_ok id
        · exact usualResult_error
      · refine returns_bind (fun _ => returns_bind (fun r => ?_))
        cases r with
        | ok value => exact usualResult_ok trivial
        | error err => exact usualResult_error
    · exact usualResult_ok id
  · exact usualResult_ok id

theorem rollbackCommit_usual (mem : Mem) (commit : CommitId) :
    (rollbackCommit m mem commit).Returns UsualResult := by
  unfold rollbackCommit
  split
  · split
    · refine returns_bind (fun r => ?_)
      cases r with
      | ok value => exact usualResult_ok trivial
      | error err => exact usualResult_error
    · exact usualResult_ok id
  · exact usualResult_ok id

/-- After the handshake only a second one ends the connection. -/
theorem dispatch_usual {mem : Mem} (hgreeted : mem.greeted = true)
    (hhello : ∀ proto, request ≠ .hello proto) : (dispatch m mem request).Returns UsualResult := by
  unfold dispatch
  rw [if_pos hgreeted]
  cases request with
  | hello proto => exact (hhello proto rfl).elim
  | readTarget target => exact answer_usual mem (readTarget_usual m target)
  | writeTarget target expectedPrev bytes journal =>
    exact (writeTarget_usual m mem target expectedPrev bytes journal).bind
      (fun result hresult => usualResult_ok hresult)
  | runCheck check bytes => exact answer_usual mem (runCheck_usual m check bytes)
  | service binding action => exact answer_usual mem (service_usual m binding action)
  | listBackups module => exact answer_usual mem (listBackups_usual m module)
  | restore module backup => exact answer_usual mem (restore_usual m module backup)
  | startConfirmTimer commit timeoutS service =>
    exact startConfirmTimer_usual mem commit timeoutS service
  | confirmCommit commit => exact confirmCommit_usual m mem commit
  | rollbackCommit commit => exact rollbackCommit_usual m mem commit
  | mount target => exact answer_usual mem (mount_usual m target)
  | reloadUnitFiles module => exact answer_usual mem (reloadUnitFiles_usual m module)
  | startUpdate tag => exact answer_usual mem (startUpdate_usual m tag)
  | pendingCommit | shutdown => exact usualResult_ok trivial
  | replaceBinary | stageBegin | stageUpdate => exact usualResult_ok id

/-! ## Events -/

theorem program_cases {mem : Option Mem} {event : Event} {p : Prog SysOp Ending}
    (h : program m mem event = some p) :
    (∃ request running, event = .request request ∧ mem = some running ∧
      p = serveStep m running request) ∨
    (∃ running, event = .deadline ∧ mem = some running ∧ p = deadlineStep m running) ∨
    (∃ running, event = .exit ∧ mem = some running ∧ p = leave m none running) ∨
    (event = .restart ∧ mem = none ∧ p = startStep m) := by
  cases event with
  | request request =>
    cases mem with
    | none => cases h
    | some running =>
      cases h
      exact .inl ⟨request, running, rfl, rfl, rfl⟩
  | deadline =>
    cases mem with
    | none => cases h
    | some running =>
      cases h
      exact .inr (.inl ⟨running, rfl, rfl, rfl⟩)
  | exit =>
    cases mem with
    | none => cases h
    | some running =>
      cases h
      exact .inr (.inr (.inl ⟨running, rfl, rfl, rfl⟩))
  | restart =>
    cases mem with
    | some running => cases h
    | none =>
      cases h
      exact .inr (.inr (.inr ⟨rfl, rfl, rfl⟩))

/-- A step that answers a request is a turn of a monitor that is up. -/
theorem step_request {host : Host} {w w' : World} {answer : Option Response}
    (h : Step m host w (.done (.request request) answer) w') :
    ∃ mem, w.mem = some mem ∧
      (serveStep m mem request).run (sys host) w.disk = ((answer, w'.mem), w'.disk) := by
  cases h with
  | done hprogram hrun =>
    rcases program_cases m hprogram with ⟨_, mem, hevent, hmem, rfl⟩ | ⟨_, hevent, -⟩ |
      ⟨_, hevent, -⟩ | ⟨hevent, -⟩
    · cases hevent
      exact ⟨mem, hmem, hrun⟩
    all_goals cases hevent

theorem leave_response {host : Host} {d d' : Disk} {mem : Mem} {response : Option Response}
    {ending : Ending} (h : (leave m response mem).run (sys host) d = (ending, d')) :
    ending = (response, none) := by
  obtain ⟨_, d₁, _, h⟩ := run_bind_eq _ h
  cases h
  rfl

/-- A monitor that goes on after a request has answered it. -/
theorem serveStep_stays {host : Host} {d d' : Disk} {mem mem' : Mem} {answer : Option Response}
    (h : (serveStep m mem request).run (sys host) d = ((answer, some mem'), d')) :
    ∃ response, answer = some response ∧
      (dispatch m mem request).run (sys host) d = ((.ok response, mem'), d') := by
  obtain ⟨⟨result, after⟩, d₁, hserve, h⟩ := run_bind_eq _ h
  have hdispatch : (dispatch m mem request).run (sys host) d = ((result, after), d₁) := hserve
  cases result with
  | error err => cases leave_response m h
  | ok response =>
    dsimp only at h
    split at h
    · cases leave_response m h
    · cases h
      exact ⟨response, rfl, hdispatch⟩

/-- A request that was answered, where the answer does not end the connection. -/
theorem serveStep_answered {host : Host} {d d' : Disk} {mem : Mem} {mem' : Option Mem}
    (hshutdown : request ≠ .shutdown) (husual : Usual response)
    (h : (serveStep m mem request).run (sys host) d = ((some response, mem'), d')) :
    ∃ after, mem' = some after ∧
      (dispatch m mem request).run (sys host) d = ((.ok response, after), d') := by
  obtain ⟨⟨result, mem₁⟩, d₁, hserve, h⟩ := run_bind_eq _ h
  have hdispatch : (dispatch m mem request).run (sys host) d = ((result, mem₁), d₁) := hserve
  cases result with
  | error err => cases leave_response m h
  | ok found =>
    dsimp only at h
    split at h
    · rename_i hleaves
      cases leave_response m h
      rcases hleaves with hleaves | hleaves
      · exact (hshutdown hleaves).elim
      · rw [husual.not_fatal] at hleaves
        cases hleaves
    · cases h
      exact ⟨mem₁, rfl, hdispatch⟩

/-- A response that no handshake gives comes from a greeted monitor. -/
theorem greeted_of_answer {host : Host} {d d' : Disk} {mem mem' : Mem}
    (hack : ∀ ack, response ≠ .helloAck ack) (husual : Usual response)
    (h : (dispatch m mem request).run (sys host) d = ((.ok response, mem'), d')) :
    mem.greeted = true := by
  by_contra hgreeted
  rw [dispatch_ungreeted m hgreeted, Prog.run_pure, Prod.mk.injEq, Prod.mk.injEq] at h
  obtain ⟨⟨hresponse, -⟩, -⟩ := h
  injection hresponse with hresponse
  unfold greet at hresponse
  split at hresponse
  · split at hresponse
    · exact hack _ hresponse.symm
    · rw [← hresponse] at husual
      exact husual trivial
  · rw [← hresponse] at husual
    exact husual trivial

/-! ## Recovery -/

omit [Sha256] in
theorem stateCall_confined {label : String} {op : FileOp β}
    (h : part op = .nothing ∨ parts (part op)) : Confined parts (stateCall label op) :=
  uses_bind (Fallible.uses_perform h) (fun r => by cases r <;> trivial)

omit [Sha256] in
theorem exec_stateCall {host : Host} (label : String) (op : FileOp β) (d : Disk) :
    exec (sys host) (stateCall label op) d =
      match op.perform host d with
      | (.ok value, d') => (.ok value, d')
      | (.error kind, d') => (.error (.state label kind), d') := by
  unfold stateCall
  rcases hperform : op.perform host d with ⟨kind | value, t⟩ <;>
    rw [exec_bind, exec_file hperform] <;> rfl

omit [Sha256] in
theorem stateCall_ok {host : Host} {d d' : Disk} {label : String} {op : FileOp β} {value : β}
    (h : exec (sys host) (stateCall label op) d = (.ok value, d')) :
    op.effect host d.tick d.toFiles = .ok (value, d'.toFiles) ∧ d'.tick = d.tick + 1 := by
  rw [exec_stateCall] at h
  split at h
  · rename_i hperform
    cases h
    exact perform_ok hperform
  · cases h

omit [Sha256] in
theorem removeInPlace_confined (h : parts .inPlace) : Confined parts removeInPlace :=
  uses_bind (Uses.bind (removeMarker_confined h) (fun _ => trivial)) (fun r => by
    cases r <;> trivial)

omit [Sha256] in
/-- A read or a restore whose result is a value. -/
theorem lift_confined {α : Type} {p : Prog SysOp α} (h : p.Uses (Inside parts)) :
    Confined parts (ExceptT.lift p : RecoverM α) :=
  Uses.bind h (fun _ => trivial)

/-- Anything but the pending-commit marker. -/
def notPending (part : Part) : Prop := part ≠ .pending

theorem settleInPlace_confined (record : InPlaceMarker) (backup : BackupPath) :
    Confined notPending (settleInPlace record backup) := by
  have hremove : Confined notPending removeInPlace := removeInPlace_confined (by simp [notPending])
  refine uses_bind (lift_confined (readWithDigest_confined _)) (fun found => ?_)
  dsimp only
  split
  · exact uses_bind hremove (fun _ => trivial)
  · refine uses_bind (lift_confined ?_) (fun r => ?_)
    · refine confined_weaken (restoreBackupWith_confined _ _ _ _) (fun part hpart => ?_)
      rcases hpart with rfl | rfl | rfl <;> simp [notPending]
    · cases r with
      | ok outcome => exact uses_bind hremove (fun _ => trivial)
      | error err => trivial

/-- The recovery of an in-place write leaves the pending-commit marker alone. -/
theorem recoverInPlace_confined : Confined notPending (recoverInPlace m) := by
  have hremove : Confined notPending removeInPlace := removeInPlace_confined (by simp [notPending])
  refine uses_bind (stateCall_confined (.inl rfl)) (fun found => ?_)
  match found with
  | none => trivial
  | some (.torn written) => trivial
  | some (.whole record) =>
    dsimp only
    split
    · exact uses_bind (settleInPlace_confined _ _) (fun _ => trivial)
    · exact uses_bind hremove (fun _ => trivial)

/-- How the recovery of an in-place write can have gone. -/
theorem recoverInPlace_cases {host : Host} {d d' : Disk}
    {r : Except MonitorError (Option InPlaceRecovered)}
    (h : exec (sys host) (recoverInPlace m) d = (r, d')) :
    (d'.toFiles = d.toFiles ∧ ((∃ kind, r = .error (.state "read" kind)) ∨
      (d.inPlace = none ∧ r = .ok none) ∨
      (∃ written, d.inPlace = some (.torn written) ∧ r = .error .corruptMarker))) ∨
    ∃ record d₁, d.inPlace = some (.whole record) ∧ d₁.toFiles = d.toFiles ∧ d.tick ≤ d₁.tick ∧
      ((∃ backup, (markedTarget m record).isSome ∧ record.backup = some backup ∧
        ∃ settled, exec (sys host) (settleInPlace record backup) d₁ = (settled, d') ∧
          r = settled.map (fun outcome => some { path := record.path, outcome })) ∨
      (¬ ((markedTarget m record).isSome ∧ record.backup.isSome) ∧
        ∃ removed, exec (sys host) removeInPlace d₁ = (removed, d') ∧
          r = removed.map (fun _ => some { path := record.path, outcome := .refused }))) := by
  rcases Fallible.exec_bind_cases _ h with ⟨err, rfl, hread⟩ | ⟨found, d₁, hread, h⟩
  · have hd' := exec_reads (stateCall_confined (.inl rfl)) hread
    rw [exec_stateCall] at hread
    split at hread
    · cases hread
    · cases hread
      exact .inl ⟨hd', .inl ⟨_, rfl⟩⟩
  have hd₁ := exec_reads (stateCall_confined (.inl rfl)) hread
  obtain ⟨heffect, -⟩ := stateCall_ok hread
  injection heffect with heffect
  injection heffect with hfound _
  match found with
  | none =>
    cases h
    exact .inl ⟨hd₁, .inr (.inl ⟨hfound, rfl⟩)⟩
  | some (.torn written) =>
    cases h
    exact .inl ⟨hd₁, .inr (.inr ⟨written, hfound, rfl⟩)⟩
  | some (.whole record) =>
    refine .inr ⟨record, d₁, hfound, hd₁, run_tick_le hread, ?_⟩
    dsimp only at h
    split at h
    · rename_i entry backup hentry hbackup
      refine .inl ⟨backup, by rw [hentry]; rfl, hbackup, ?_⟩
      rw [exec_bind] at h
      rcases hsettle : exec (sys host) (settleInPlace record backup) d₁ with ⟨err | outcome, d₂⟩
      all_goals
        rw [hsettle] at h
        cases h
        exact ⟨_, rfl, rfl⟩
    · rename_i hrefused
      refine .inr ⟨?_, ?_⟩
      · rintro ⟨hentry, hbackup⟩
        obtain ⟨entry, hentry⟩ := Option.isSome_iff_exists.mp hentry
        obtain ⟨backup, hbackup⟩ := Option.isSome_iff_exists.mp hbackup
        exact hrefused entry backup hentry hbackup
      · rw [exec_bind] at h
        rcases hremove : exec (sys host) removeInPlace d₁ with ⟨err | value, d₂⟩
        all_goals
          rw [hremove] at h
          cases h
          exact ⟨_, rfl, rfl⟩

section Writes

variable {host : Host} {d d' : Disk} {m}

/-- The receipt of a write. -/
def receipt (id : TargetId) (outcome : WriteOutcome) : WriteReceipt where
  target := id
  prevDigest := outcome.prevDigest
  newDigest := outcome.newDigest
  created := outcome.created
  backedUp := outcome.backup.isSome
  ownerPreserved := outcome.ownerPreserved

/-- `write_target` refuses before it touches anything, or it is one
`write_atomic` of an allow-listed target. -/
theorem writeTarget_cases {mem mem' : Mem} {id : TargetId} {expectedPrev : Option Sha256Digest}
    {bytes : Bytes} {journal : Bool}
    (h : (writeTarget m mem id expectedPrev bytes journal).run (sys host) d =
      ((response, mem'), d')) :
    (d'.toFiles = d.toFiles ∧ mem' = mem ∧ ∃ err, response = .error err) ∨
    ∃ entry d₁ r, m.allow.target id = some entry ∧ d₁.toFiles = d.toFiles ∧ d.tick ≤ d₁.tick ∧
      exec (sys host) (writeAtomic (writeRequest m entry expectedPrev bytes)) d₁ =
        (r, d') ∧
      ((∃ err, r = .error err ∧ response = .error (atomicToProto err) ∧ mem' = mem) ∨
        ∃ outcome, r = .ok outcome ∧ response = .written (receipt id outcome) ∧
          mem' = mem.record journal id entry.path outcome) := by
  unfold writeTarget at h
  split at h
  · cases h
    exact .inl ⟨rfl, rfl, _, rfl⟩
  · rename_i entry hentry
    obtain ⟨previous, d₁, hprevious, h⟩ := run_bind_eq _ h
    have hd₁ := run_reads (previousContents_uses _) hprevious
    have htick₁ := run_tick_le hprevious
    cases previous with
    | error err =>
      cases h
      exact .inl ⟨hd₁, rfl, _, rfl⟩
    | ok previous =>
      obtain ⟨verdict, d₂, hverdict, h⟩ := run_bind_eq _ h
      have hd₂ := (run_reads (revalidate_uses m _ _ _ _) hverdict).trans hd₁
      have htick₂ := run_tick_le hverdict
      cases verdict with
      | error err =>
        cases h
        exact .inl ⟨hd₂, rfl, _, rfl⟩
      | ok value =>
        obtain ⟨r, d₃, hwrite, h⟩ := run_bind_eq _ h
        refine .inr ⟨entry, d₂, r, hentry, hd₂, by omega, ?_⟩
        cases r with
        | error err =>
          cases h
          exact ⟨hwrite, .inl ⟨err, rfl, rfl, rfl⟩⟩
        | ok outcome =>
          cases h
          exact ⟨hwrite, .inr ⟨outcome, rfl, rfl, rfl⟩⟩

theorem restore_cases {module : ModuleId} {backup : BackupId}
    (h : (restore m module backup).run (sys host) d = (response, d')) :
    (d'.toFiles = d.toFiles ∧ ∃ err, response = .error err) ∨
    ∃ row d₁ r, (listingOf m module d.backups)[backup.get]? = some row ∧
      d₁.toFiles = d.toFiles ∧ d.tick ≤ d₁.tick ∧
      exec (sys host) (restoreBackupWith row.entry.path row.path none .marker) d₁ =
        (r, d') ∧
      ((∃ err, r = .error err ∧ response = .error (atomicToProto err)) ∨
        ∃ outcome, r = .ok outcome ∧ response = .restored row.target outcome.newDigest) := by
  obtain ⟨rows, d₁, hrows, h⟩ := run_bind_eq _ h
  have htick₁ := run_tick_le hrows
  cases rows with
  | error err =>
    cases h
    exact .inl ⟨run_reads (collectBackups_uses m module) hrows, _, rfl⟩
  | ok rows =>
    obtain ⟨hlisting, hd₁⟩ := collectBackups_ok hrows
    subst hlisting
    dsimp only at h
    split at h
    · cases h
      exact .inl ⟨hd₁, _, rfl⟩
    · rename_i row hrow
      obtain ⟨r, d₂, hrestore, h⟩ := run_bind_eq _ h
      refine .inr ⟨row, d₁, r, hrow, hd₁, htick₁, ?_⟩
      cases r with
      | error err =>
        cases h
        exact ⟨hrestore, .inl ⟨err, rfl, rfl⟩⟩
      | ok outcome =>
        cases h
        exact ⟨hrestore, .inr ⟨outcome, rfl, rfl⟩⟩

end Writes

theorem step_of_serve {m : Setup} {host : Host} {w : World} {mem : Mem} {response : Option Response}
    (hmem : w.mem = some mem)
    (hresponse : ((serveStep m mem request).run (sys host) w.disk).1.1 = response) :
    Step m host w (.done (.request request) response) (w.after host (serveStep m mem request)) := by
  refine .done (p := serveStep m mem request) ?_ (Prod.ext (Prod.ext hresponse rfl) rfl)
  rw [hmem]
  rfl

/-! ## A small monitor

One module with one file, for concrete runs. -/

namespace Sample

/-- The digests of the short contents the runs use; other contents get a text of
their own. -/
def digestText (bytes : Bytes) : String :=
  if bytes = [] then "e3b0c44298fc1c149afbf4c8996fb92427ae41e4649b934ca495991b7852b855"
  else if bytes = [97] then "ca978112ca1bbdcafac231b39a23dc4da786eff8147c4e72b9807785afee48bb"
  else if bytes = [98] then "3e23e8160039594a33894f6564e1b1348bbd7a0088d42c4acb73eeaed59c009d"
  else if bytes = [99] then "2e7d2c03a9507ae265ecf5b5356885a53393a2029d241394997265a1a25aefc6"
  else "bytes " ++ String.ofList (bytes.map (fun byte => Char.ofNat byte.toNat))

@[reducible] def sha256 : Sha256 where
  of bytes := { hex := digestText bytes }

omit [Sha256] in
theorem byteChar_injective : Function.Injective (fun byte : UInt8 => Char.ofNat byte.toNat) := by
  intro a b hchar
  have hvalid : ∀ byte : UInt8, (Char.ofNat byte.toNat).toNat = byte.toNat := by
    intro byte
    have hbyte : byte.toNat.isValidChar := .inl (by have := byte.toNat_lt; omega)
    rw [Char.ofNat, dif_pos hbyte]
    rfl
  have hnat := congrArg Char.toNat hchar
  dsimp only at hnat
  rw [hvalid, hvalid] at hnat
  exact UInt8.toNat_inj.mp hnat

omit [Sha256] in
/-- Different contents have different digests. -/
theorem of_injective : Function.Injective sha256.of := by
  intro left right h
  have htext : (digestText left).toList = (digestText right).toList :=
    congrArg (fun digest => digest.hex.toList) h
  have hother : ∀ bytes : Bytes, ("bytes " ++ String.ofList
      (bytes.map (fun byte => Char.ofNat byte.toNat))).toList =
        "bytes ".toList ++ bytes.map (fun byte => Char.ofNat byte.toNat) := by
    intro bytes
    simp
  unfold digestText at htext
  -- equal texts of fixed digests, a digest against another text, two other texts
  split_ifs at htext
  all_goals try simp only [hother] at htext
  all_goals first
    | (subst_vars; rfl)
    | exact absurd htext (by decide)
    | exact List.map_injective_iff.mpr byteChar_injective (List.append_cancel_left htext)
    | exact absurd (congrArg List.head? htext) (by simp)

/-- A host on which every call works and no hook is wired up. -/
def host : Host where
  systemTime tick := tick
  instant tick := tick
  modified tick := tick
  fault _ _ _ := none
  tempRefused _ := false
  ownerPreserved _ := true
  runCheck _ _ _ := .error (.unavailable "external checks are not available in this build")
  hook _ _ _ := .error (.unavailable "service control is not available in this build")

def path : Path := "/etc/hosts"

def descriptor : ModuleDescriptor where
  id := "hosts"
  targets := [{ path, kind := .file, backendDetect := true }]
  services := []
  checks := []
  commitConfirm := false
  reloadUnitFiles := false
  addedMounts := false

/-- A module whose model is the text itself. -/
def module : DynModule where
  descriptor := descriptor
  parseToModelJson source := .ok (String.ofList source)
  validateJson _ := .ok false
  applyJson _ model := .ok model.toList
  modelTargetJson _ := .ok none

def backupDir : Path := "backups/hosts/0"

/-- What `from_modules` builds for the module. -/
def allow (keepBackups : Nat) : Allowlist where
  modules := [descriptor]
  targets := TargetTable.empty.push ⟨0⟩ path .file backupDir
  checks := []
  bindings := []
  config := { keepBackups, init := .systemd, activateMounts := false }

def setup (keepBackups : Nat) : Setup where
  allow := allow keepBackups
  modules := [module]
  checksConfigured := false
  updateTagRefusal _ := none
  updater := false

/-- The file holds `contents` and nothing was ever backed up. -/
def disk (contents : Bytes) : Disk where
  node other := if other = path then some (.file contents) else none
  backups _ := BackupDir.empty
  inPlace := none
  pending := none
  taken := []
  tick := 0

def mem : Mem := { greeted := true, journal := [], pending := none }

def world (contents : Bytes) : World := { disk := disk contents, mem := some mem }

/-- The world after one request, served from the memory `mem`. -/
def serve (keepBackups : Nat) (w : World) (request : Request) : World :=
  w.after host (serveStep (setup keepBackups) mem request)

theorem serve_step {keepBackups : Nat} {w : World} {response : Option Response}
    (hmem : w.mem = some mem)
    (hresponse : ((serveStep (setup keepBackups) mem request).run (sys host) w.disk).1.1 =
      response) :
    Step (setup keepBackups) host w (.done (.request request) response)
      (serve keepBackups w request) :=
  step_of_serve hmem hresponse

end Sample

end Detent.Guarantees
