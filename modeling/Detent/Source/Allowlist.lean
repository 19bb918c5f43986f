import Mathlib.Algebra.Group.Nat.Defs
import Mathlib.Data.List.Range
import Detent.Lib.Text
import Detent.Source.Files

/-!
# Descriptors and the allow-list

`crates/detent-core/src/descriptor.rs`, the part of a module descriptor the
monitor and the operations engine read, and
`crates/detent-platform/src/privsep/allowlist.rs:39-440`: the tables of targets,
checks and bindings that `from_modules` builds from the enabled modules. A
request names an entry by its position.

`backend_detect` and the module validators read the host profile, which is fixed
while the process runs; here they are already applied to it. The directory of a
validator candidate is part of the effect that runs the validator.
-/
namespace Detent.Source
open Lib

inductive CoreServiceAction where
  | restart | reload | start | stop
  deriving DecidableEq, Repr

/-- `ServiceAction::to_core`: `status` changes nothing and has no counterpart. -/
def ServiceAction.toCore : ServiceAction → Option CoreServiceAction
  | .restart => some .restart
  | .reload => some .reload
  | .start => some .start
  | .stop => some .stop
  | .status => none

/-- `ServiceAction::from`. -/
def ServiceAction.ofCore : CoreServiceAction → ServiceAction
  | .restart => .restart
  | .reload => .reload
  | .start => .start
  | .stop => .stop

structure Target where
  path : Path
  kind : PathKind
  backendDetect : Bool
  deriving DecidableEq, Repr

structure UnitNames where
  systemd : List String
  openrc : List String
  bsdrc : List String
  deriving DecidableEq, Repr

structure ServiceBinding where
  units : UnitNames
  actions : List CoreServiceAction
  appliesTo : List Path
  deriving DecidableEq, Repr

structure ExternalCheck where
  program : Path
  appliesTo : List Path
  deriving DecidableEq, Repr

/-- `added_mounts` is whether the module declares mounts. -/
structure ModuleDescriptor where
  id : String
  targets : List Target
  services : List ServiceBinding
  checks : List ExternalCheck
  commitConfirm : Bool
  reloadUnitFiles : Bool
  addedMounts : Bool
  deriving DecidableEq, Repr

/-- An empty `applies_to` names every target of the module. -/
def namesTarget (paths : List Path) (path : Path) : Bool := paths.isEmpty || paths.contains path

def ExternalCheck.judges (check : ExternalCheck) (path : Path) : Bool :=
  namesTarget check.appliesTo path

def ServiceBinding.serves (binding : ServiceBinding) (path : Path) : Bool :=
  namesTarget binding.appliesTo path

/-- A JSON value; no modelled function looks into one. -/
abbrev Json := String

/-- `DynModule`: what a module does, with the text of its errors.
`validateJson` answers whether its diagnostics hold an error. -/
structure DynModule where
  descriptor : ModuleDescriptor
  parseToModelJson : Text → Except String Json
  validateJson : Json → Except String Bool
  applyJson : Text → Json → Except String Text
  modelTargetJson : Json → Except String (Option Path)

def DynModule.id (module : DynModule) : String := module.descriptor.id

/-- `InitFlavor`. -/
inductive InitFlavor where
  | systemd | openRc | bsdRc
  deriving DecidableEq, Repr

structure Config where
  keepBackups : Nat
  init : InitFlavor
  activateMounts : Bool
  deriving DecidableEq, Repr

inductive AllowlistError where
  | tooManyEntries (kind : String) (width : Nat)
  | duplicateModule (id : String)
  | relativeTargetPath (module : String)
  deriving DecidableEq, Repr

structure TargetEntry where
  id : TargetId
  module : ModuleId
  path : Path
  kind : PathKind
  backupDir : Path
  deriving DecidableEq, Repr

structure CheckEntry where
  id : CheckId
  module : ModuleId
  check : ExternalCheck
  targets : List TargetId
  deriving DecidableEq, Repr

structure BindingEntry where
  id : BindingId
  module : ModuleId
  binding : ServiceBinding
  targets : List TargetId
  deriving DecidableEq, Repr

/-- The target table: the id of an entry is its position. -/
structure TargetTable where
  entries : List TargetEntry
  ids : entries.map (·.id.get) = List.range entries.length

namespace TargetTable

def empty : TargetTable := { entries := [], ids := rfl }

/-- The table with one more entry, under the next id. -/
def push (table : TargetTable) (module : ModuleId) (path : Path) (kind : PathKind)
    (backupDir : Path) : TargetTable where
  entries := table.entries ++
    [{ id := ⟨table.entries.length⟩, module, path, kind, backupDir }]
  ids := by
    rw [List.map_append, table.ids, List.length_append, List.length_singleton, List.range_succ]
    rfl

def get (table : TargetTable) (id : TargetId) : Option TargetEntry := table.entries[id.get]?

theorem get_id {table : TargetTable} {id : TargetId} {entry : TargetEntry}
    (h : table.get id = some entry) : entry.id = id := by
  have hget : (table.entries.map (·.id.get))[id.get]? = some entry.id.get := by
    rw [List.getElem?_map, show table.entries[id.get]? = some entry from h]
    rfl
  rw [table.ids] at hget
  obtain ⟨hlt, heq⟩ := List.getElem?_eq_some_iff.mp hget
  rw [List.getElem_range] at heq
  cases id
  cases hid : entry.id
  simp_all

theorem get_of_mem {table : TargetTable} {entry : TargetEntry} (h : entry ∈ table.entries) :
    table.get entry.id = some entry := by
  obtain ⟨i, hi, hentry⟩ := List.getElem_of_mem h
  have hget : table.get ⟨i⟩ = some entry := by
    rw [← hentry]
    exact List.getElem?_eq_getElem hi
  rw [get_id hget]
  exact hget

end TargetTable

/-- The tables while `from_modules` builds them. -/
structure Tables where
  modules : List ModuleDescriptor
  targets : TargetTable
  checks : List CheckEntry
  bindings : List BindingEntry

structure Allowlist extends Tables where
  config : Config

/-- `narrow_u16`. -/
def narrowU16 (index : Nat) (kind : String) : Except AllowlistError Nat :=
  if index < 2 ^ 16 then .ok index else .error (.tooManyEntries kind 16)

/-- `<state_root>/backups/<module>`, below the state root. -/
def backupDirFor (module : String) : Path := "backups/" ++ module

/-- `Path::is_absolute`. -/
def isAbsolute (path : Path) : Bool := path.startsWith "/"

/-- The targets of a module, from position `ordinal` on (`resolve_target`). -/
def addTargets (module : ModuleId) (descriptor : ModuleDescriptor) :
    Nat → List Target → TargetTable → Except AllowlistError TargetTable
  | _, [], table => pure table
  | ordinal, target :: targets, table => do
    let _ ← narrowU16 table.entries.length "target"
    if isAbsolute target.path then
      addTargets module descriptor (ordinal + 1) targets
        (table.push module target.path target.kind
          (backupDirFor descriptor.id ++ "/" ++ toString ordinal))
    else throw (.relativeTargetPath descriptor.id)

def addChecks (module : ModuleId) (own : List TargetEntry) :
    List ExternalCheck → List CheckEntry → Except AllowlistError (List CheckEntry)
  | [], table => pure table
  | check :: checks, table => do
    let id ← narrowU16 table.length "check"
    let targets := (own.filter (fun entry => check.judges entry.path)).map (·.id)
    addChecks module own checks (table ++ [{ id := ⟨id⟩, module, check, targets }])

def addBindings (module : ModuleId) (own : List TargetEntry) :
    List ServiceBinding → List BindingEntry → Except AllowlistError (List BindingEntry)
  | [], table => pure table
  | binding :: bindings, table => do
    let id ← narrowU16 table.length "binding"
    let targets := (own.filter (fun entry => binding.serves entry.path)).map (·.id)
    addBindings module own bindings (table ++ [{ id := ⟨id⟩, module, binding, targets }])

/-- One module of `from_modules`. -/
def addModule (tables : Tables) (descriptor : ModuleDescriptor) : Except AllowlistError Tables := do
  let module : ModuleId := ⟨← narrowU16 tables.modules.length "module"⟩
  if descriptor.id ∈ tables.modules.map (·.id) then throw (.duplicateModule descriptor.id)
  let targets ← addTargets module descriptor 0 descriptor.targets tables.targets
  let own := targets.entries.drop tables.targets.entries.length
  let checks ← addChecks module own descriptor.checks tables.checks
  let bindings ← addBindings module own descriptor.services tables.bindings
  pure { modules := tables.modules ++ [descriptor], targets, checks, bindings }

namespace Allowlist

/-- `from_modules`. -/
def fromModules (modules : List ModuleDescriptor) (config : Config) :
    Except AllowlistError Allowlist := do
  let tables ← modules.foldlM addModule
    { modules := [], targets := TargetTable.empty, checks := [], bindings := [] }
  pure { tables with config }

variable (allow : Allowlist)

def target (id : TargetId) : Option TargetEntry := allow.targets.get id

def check (id : CheckId) : Option CheckEntry := allow.checks[id.get]?

def binding (id : BindingId) : Option BindingEntry := allow.bindings[id.get]?

def module (id : ModuleId) : Option ModuleDescriptor := allow.modules[id.get]?

/-- Whether `path` is a target of a module that satisfies `declares`. -/
def pathOfModule (declares : ModuleDescriptor → Bool) (path : Path) : Bool :=
  ((allow.targets.entries.filter (fun entry => entry.path = path)).filterMap
    (fun entry => allow.module entry.module)).any declares

def startsMountsAfter (path : Path) : Bool := allow.pathOfModule (·.addedMounts) path

def reloadsUnitFilesAfter (path : Path) : Bool := allow.pathOfModule (·.reloadUnitFiles) path

/-- Every target of `module`, in id order. -/
def targetsOf (module : ModuleId) : List TargetEntry :=
  allow.targets.entries.filter (fun entry => entry.module = module)

/-- Every check of `module`, in id order. -/
def checksOf (module : ModuleId) : List CheckEntry :=
  allow.checks.filter (fun entry => entry.module = module)

/-- `preferred_unit`. -/
def preferredUnit (units : UnitNames) (init : InitFlavor) : String :=
  let list := match init with
    | .systemd => units.systemd
    | .openRc => units.openrc
    | .bsdRc => units.bsdrc
  (list.head?.or units.systemd.head?).getD ""

/-- The handshake reply describing these tables. -/
def helloAck : HelloAck where
  proto := protoVersion
  modules := allow.modules.zipIdx.map (fun (descriptor, index) =>
    { id := ⟨index⟩, name := descriptor.id, commitConfirm := descriptor.commitConfirm })
  targets := allow.targets.entries.map (fun entry =>
    { id := entry.id, module := entry.module, path := entry.path, kind := entry.kind })
  checks := allow.checks.map (fun entry =>
    { id := entry.id, module := entry.module, program := entry.check.program,
      targets := entry.targets })
  bindings := allow.bindings.map (fun entry =>
    { id := entry.id, module := entry.module,
      unit := preferredUnit entry.binding.units allow.config.init,
      actions := entry.binding.actions.map ServiceAction.ofCore, targets := entry.targets })

end Allowlist

end Detent.Source
