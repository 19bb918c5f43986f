import Detent.Source.Sha256

/-!
# The privsep protocol

`crates/detent-platform/src/privsep/proto.rs:146-1000`: the closed sets of
requests, responses and errors the worker and the monitor exchange. An
identifier is a number in the source's own width; nothing here computes with
one. The update-tag rule and the frame codec are not part of this module.
-/
namespace Detent.Source

/-- Index into the monitor's target table (`u16`). -/
structure TargetId where
  get : Nat
  deriving DecidableEq, Repr

/-- Index into the monitor's external-check table (`u16`). -/
structure CheckId where
  get : Nat
  deriving DecidableEq, Repr

/-- Index into the monitor's service-binding table (`u16`). -/
structure BindingId where
  get : Nat
  deriving DecidableEq, Repr

/-- Index into the monitor's module table (`u16`). -/
structure ModuleId where
  get : Nat
  deriving DecidableEq, Repr

/-- Index into the backup listing most recently produced for a module (`u32`). -/
structure BackupId where
  get : Nat
  deriving DecidableEq, Repr

/-- Identifier the caller chooses for one commit-confirm cycle (`u32`). -/
structure CommitId where
  get : Nat
  deriving DecidableEq, Repr

/-- `PROTO_VERSION`. -/
def protoVersion : Nat := 4

inductive PathKind where
  | file | dropInDir | directory
  deriving DecidableEq, Repr

/-- What may be done to a service; `status` mutates nothing. -/
inductive ServiceAction where
  | restart | reload | start | stop | status
  deriving DecidableEq, Repr

/-- Service mutation to repeat after a pending commit's files are restored. -/
structure PendingService where
  binding : BindingId
  action : ServiceAction
  deriving DecidableEq, Repr

/-- Everything the worker may ask the monitor to do. -/
inductive Request where
  | hello (proto : Nat)
  | readTarget (target : TargetId)
  | writeTarget (target : TargetId) (expectedPrev : Option Sha256Digest) (bytes : Bytes)
      (journal : Bool)
  | runCheck (check : CheckId) (bytes : Bytes)
  | service (binding : BindingId) (action : ServiceAction)
  | listBackups (module : ModuleId)
  | restore (module : ModuleId) (backup : BackupId)
  | startConfirmTimer (commit : CommitId) (timeoutS : Nat) (service : Option PendingService)
  | confirmCommit (commit : CommitId)
  | mount (target : TargetId)
  | replaceBinary (tag : String) (len : Nat) (sha256 : Sha256Digest)
  | shutdown
  | rollbackCommit (commit : CommitId)
  | pendingCommit
  | reloadUnitFiles (module : ModuleId)
  | stageBegin (tag : String) (len : Nat) (sha256 : Sha256Digest) (bundle : Bytes)
  | stageUpdate (offset : Nat) (chunk : Bytes)
  | startUpdate (tag : String)
  deriving DecidableEq, Repr

/-- `Request::changes_state`: a monitor without the state lock refuses these. -/
def Request.changesState : Request → Bool
  | .writeTarget .. | .restore .. | .startConfirmTimer .. | .confirmCommit .. | .rollbackCommit ..
  | .mount .. | .replaceBinary .. | .reloadUnitFiles .. | .stageBegin .. | .stageUpdate ..
  | .startUpdate .. => true
  | .service _ action => action ≠ .status
  | .hello .. | .readTarget .. | .runCheck .. | .listBackups .. | .pendingCommit | .shutdown =>
    false

structure TargetInfo where
  id : TargetId
  module : ModuleId
  path : String
  kind : PathKind
  deriving DecidableEq, Repr

structure CheckInfo where
  id : CheckId
  module : ModuleId
  program : String
  targets : List TargetId
  deriving DecidableEq, Repr

structure BindingInfo where
  id : BindingId
  module : ModuleId
  unit : String
  actions : List ServiceAction
  targets : List TargetId
  deriving DecidableEq, Repr

structure ModuleInfo where
  id : ModuleId
  name : String
  commitConfirm : Bool
  deriving DecidableEq, Repr

/-- The complete set of ids the worker is allowed to name. -/
structure HelloAck where
  proto : Nat
  modules : List ModuleInfo
  targets : List TargetInfo
  checks : List CheckInfo
  bindings : List BindingInfo
  deriving DecidableEq, Repr

/-- Contents of a target, with the digest of `bytes`. -/
structure TargetContents where
  target : TargetId
  bytes : Bytes
  digest : Sha256Digest
  deriving DecidableEq, Repr

/-- Result of a successful `WriteTarget`. -/
structure WriteReceipt where
  target : TargetId
  prevDigest : Option Sha256Digest
  newDigest : Sha256Digest
  created : Bool
  backedUp : Bool
  ownerPreserved : Bool
  deriving DecidableEq, Repr

/-- `<stamp>-<8 hex>`: the stamp has a fixed width, so names sort by it first. -/
structure BackupName where
  stamp : Nat
  short : String
  deriving DecidableEq, Repr

/-- `left` sorts after `right` or is equal to it. -/
def BackupName.After (left right : BackupName) : Prop :=
  right.stamp < left.stamp ∨ left.stamp = right.stamp ∧ right.short ≤ left.short

instance : DecidableRel BackupName.After := fun left right =>
  inferInstanceAs (Decidable (right.stamp < left.stamp ∨
    left.stamp = right.stamp ∧ right.short ≤ left.short))

/-- One retained backup; `id` is its index in the listing. -/
structure BackupInfo where
  id : BackupId
  target : TargetId
  name : BackupName
  createdUnixS : Nat
  digest : Sha256Digest
  len : Nat
  deriving DecidableEq, Repr

structure CheckOutcome where
  check : CheckId
  passed : Bool
  exitCode : Option Int
  detail : String
  deriving DecidableEq, Repr

structure ServiceOutcome where
  binding : BindingId
  active : Bool
  detail : String
  deriving DecidableEq, Repr

inductive UnitState where
  | active | inactive | failed | activating | deactivating | unknown
  deriving DecidableEq, Repr

structure UnitStatus where
  unit : String
  state : UnitState
  enabled : Option Bool
  since : Option (Nat × Nat)
  deriving DecidableEq, Repr

/-- What happened to one mount unit after an apply or at a rollback. -/
inductive MountState where
  | mounted | alreadyMounted | pending | failed | protectedMount | stopped
  deriving DecidableEq, Repr

structure MountOutcome where
  mountpoint : String
  unit : String
  state : MountState
  detail : String
  deriving DecidableEq, Repr

/-- Which allow-list table an unknown id refers to. -/
inductive IdKind where
  | target | check | binding | module | backup | commit
  deriving DecidableEq, Repr

/-- A failure the monitor reports to the worker. -/
inductive ProtoError where
  | versionMismatch (expected got : Nat)
  | handshakeRequired
  | unknownId (kind : IdKind) (id : Nat)
  | actionNotAllowed
  | conflict (expected : Sha256Digest) (actual : Option Sha256Digest)
  | commitPending (commit : CommitId)
  | commitExpired (commit : CommitId)
  | unsupported (message : String)
  | unavailable (message : String)
  | io (message : String)
  | verificationFailed
  | notFound
  | stateLockUnavailable
  | updateRunning
  deriving DecidableEq, Repr

/-- Everything the monitor may answer. -/
inductive Response where
  | helloAck (ack : HelloAck)
  | target (contents : TargetContents)
  | written (receipt : WriteReceipt)
  | checked (outcome : CheckOutcome)
  | serviced (outcome : ServiceOutcome)
  | backups (entries : List BackupInfo)
  | restored (target : TargetId) (newDigest : Sha256Digest)
  | confirmTimerStarted (commit : CommitId) (timeoutS rollbackTargets : Nat)
  | committed (commit : CommitId)
  | shuttingDown
  | error (err : ProtoError)
  | rolledBack (commit : CommitId) (restored : Nat)
  | replaced (version : String)
  | pending (commit : Option CommitId)
  | unitFilesReloaded (detail : String)
  | mounted (activated : Bool) (units : List MountOutcome)
  | staged (received : Nat)
  | updateStarted (detail : String)
  | unitStatus (status : UnitStatus)
  deriving DecidableEq, Repr

end Detent.Source
