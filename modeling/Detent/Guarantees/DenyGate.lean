import Detent.Guarantees.CleanFiles
import Detent.Guarantees.Handlers
import Detent.Guarantees.LineJoins
import Detent.Guarantees.TargetTables

/-!
# No request adds an execution directive

The gate of `write_target` compares a candidate with the contents it replaces,
directive by directive and counted; `restore` and the rollbacks are not gated,
but bring back only what stood at the same target before. So on a host that tears
no write, the directives of a target, and those of every backup in its directory,
stay among those of its first contents, at every point of every run.
-/
namespace Detent.Guarantees.DenyGate
open Lib Source Source.Atomic Source.Monitor
open Prog (Keeps.bind keeps_pure)

section Handlers

variable [Sha256]

/-- The judgement agrees with the targets and the gate of a monitor. -/
structure Fits (m : Setup) (j : Judgement) : Prop where
  linked : ∀ entry ∈ m.allow.targets.entries, j.Linked entry.path entry.backupDir
  gated : ∀ entry ∈ m.allow.targets.entries, ∀ previous bytes,
    gateContent m entry.module [previous] bytes = .ok () → j.good entry.path previous →
      j.good entry.path bytes

/-- Every recorded write names a target and its backup directory. -/
def LinkedEntries (j : Judgement) (entries : List RollbackEntry) : Prop :=
  ∀ entry ∈ entries, j.Linked entry.path entry.backup.dir

structure LinkedMem (j : Judgement) (mem : Mem) : Prop where
  journal : LinkedEntries j mem.journal
  pending : ∀ pending, mem.pending = some pending → LinkedEntries j pending.entries

/-- The memory a program returns is linked. -/
def ReturnsLinked (j : Judgement) {α : Type} (result : α × Mem) : Prop := LinkedMem j result.2

variable {m : Setup} {j : Judgement} {mem : Mem} (hfits : Fits m j)

/-- At most the two markers. -/
def markersOnly (part : Part) : Prop := part = .pending ∨ part = .inPlace

omit [Sha256] in
/-- A program that writes at most the markers keeps every judgement. -/
theorem quiet_keeps {α : Type} {p : Prog SysOp α} (h : p.Uses (Inside markersOnly)) :
    p.Keeps j.contract (fun _ => True) := by
  apply h.keeps
  intro β e he
  cases e with
  | file op =>
    cases op with
    | renameTemp | openTruncate | writeTruncated | createBackup | fillBackup | unlinkBackup =>
      simp [Inside, part, markersOnly] at he
    | _ => trivial
  | hook | runCheck | systemTime | instant => trivial

theorem previousContents_keeps (path : Path) :
    (previousContents path).Keeps j.contract
      (fun result => ∀ contents, result = .ok contents → j.good path contents) := by
  apply Keeps.bind (readWithDigest_keeps path)
  intro result hresult
  split
  · apply keeps_pure
    intro contents hcontents
    cases hcontents
    exact hresult
  · apply keeps_pure
    intro contents hcontents
    cases hcontents
    exact j.good_nil path
  · exact keeps_pure (by simp)

omit [Sha256] in
theorem revalidate_keeps (module : ModuleId) (target : Path) (previous bytes : Bytes) :
    (revalidate m module target previous bytes).Keeps j.contract
      (fun result => result = .ok () → gateContent m module [previous] bytes = .ok ()) := by
  unfold revalidate
  cases hgate : gateContent m module [previous] bytes with
  | error err => exact keeps_pure (by simp)
  | ok _ =>
    dsimp only
    split
    · exact (quiet_keeps (runValidators_uses bytes _)).weaken (fun _ _ _ => rfl)
    · exact keeps_pure (fun _ => rfl)

omit [Sha256] in
theorem record_linked {journal : Bool} {id : TargetId} {path dir : Path} {outcome : WriteOutcome}
    (h : LinkedMem j mem) (hlinked : j.Linked path dir)
    (hdir : ∀ backup, outcome.backup = some backup → backup.dir = dir) :
    LinkedMem j (mem.record journal id path outcome) := by
  unfold Mem.record
  split
  · rename_i backup hbackup
    split
    · refine ⟨?_, h.pending⟩
      intro entry hentry
      rcases List.mem_append.mp hentry with hkept | hnew
      · split at hkept
        · cases hkept
        · exact h.journal entry hkept
      · obtain rfl := List.mem_singleton.mp hnew
        rw [hdir backup hbackup]
        exact hlinked
    · exact h
  · exact h

include hfits

theorem writeTarget_keeps (h : LinkedMem j mem) (id : TargetId)
    (expectedPrev : Option Sha256Digest) (bytes : Bytes) (journal : Bool) :
    (writeTarget m mem id expectedPrev bytes journal).Keeps j.contract (ReturnsLinked j) := by
  unfold writeTarget
  split
  · exact keeps_pure h
  · rename_i entry hentry
    have hmem : entry ∈ m.allow.targets.entries := List.mem_of_getElem? hentry
    apply Keeps.bind (previousContents_keeps entry.path)
    intro previous hprevious
    cases previous with
    | error err => exact keeps_pure h
    | ok previous =>
      apply Keeps.bind (revalidate_keeps entry.module entry.path previous bytes)
      intro accepted haccepted
      cases accepted with
      | error err => exact keeps_pure h
      | ok _ =>
        have hgood : j.good entry.path bytes :=
          hfits.gated entry hmem previous bytes (haccepted rfl) (hprevious previous rfl)
        have hlinked := hfits.linked entry hmem
        have hkept : ∀ contents, j.good entry.path contents → j.kept entry.backupDir contents := by
          intro contents hcontents
          exact (hlinked contents).mp hcontents
        apply Keeps.bind (writeAtomic_keeps (by exact hgood) (by exact hkept))
        intro outcome houtcome
        cases outcome with
        | error err => exact keeps_pure h
        | ok outcome => exact keeps_pure (record_linked h hlinked houtcome)

theorem targetRows_keeps {targets : List TargetEntry}
    (h : ∀ target ∈ targets, target ∈ m.allow.targets.entries) :
    Fallible.Keeps j.contract (fun rows => ∀ row ∈ rows, j.Linked row.path row.entry.path.dir)
      (targetRows targets) := by
  induction targets with
  | nil => exact Fallible.keeps_pure (by simp)
  | cons target targets ih =>
    apply Fallible.Keeps.bind (listBackups_keeps target.backupDir)
    intro entries hentries
    apply Fallible.Keeps.bind (ih (fun other hother => h other (List.mem_cons_of_mem _ hother)))
    intro rows hrows
    apply Fallible.keeps_pure
    intro row hrow
    rcases List.mem_append.mp hrow with hown | hrest
    · obtain ⟨entry, hentry, rfl⟩ := List.mem_map.mp hown
      dsimp only
      rw [hentries entry hentry]
      exact hfits.linked target (h target List.mem_cons_self)
    · exact hrows row hrest

theorem collectBackups_keeps (module : ModuleId) :
    (collectBackups m module).Keeps j.contract
      (fun result => ∀ rows, result = .ok rows → ∀ row ∈ rows,
        j.Linked row.path row.entry.path.dir) := by
  unfold collectBackups
  split
  · exact keeps_pure (by simp)
  · have htargets : ∀ target ∈ m.allow.targetsOf module, target ∈ m.allow.targets.entries := by
      intro target htarget
      exact (List.mem_filter.mp htarget).1
    apply Keeps.bind (targetRows_keeps hfits htargets)
    intro result hresult
    cases result with
    | error err => exact keeps_pure (by simp)
    | ok rows =>
      apply keeps_pure
      intro sorted hsorted row hrow
      cases hsorted
      exact hresult row ((List.mem_insertionSort _).mp hrow)

theorem restore_keeps (module : ModuleId) (backup : BackupId) :
    (restore m module backup).Keeps j.contract (fun _ => True) := by
  apply Keeps.bind (collectBackups_keeps hfits module)
  intro result hresult
  cases result with
  | error err => exact keeps_pure trivial
  | ok rows =>
    dsimp only
    split
    · exact keeps_pure trivial
    · rename_i row hrow
      have hlinked := hresult rows rfl row (List.mem_of_getElem? hrow)
      apply Keeps.bind (restoreBackupWith_keeps hlinked none .marker)
      intro outcome _
      cases outcome <;> exact keeps_pure trivial

omit hfits

theorem restoreEntries_keeps {entries : List RollbackEntry} (h : LinkedEntries j entries) :
    (restoreEntries entries).Keeps j.contract (fun _ => True) := by
  induction entries with
  | nil => exact keeps_pure trivial
  | cons entry entries ih =>
    have hlinked := h entry List.mem_cons_self
    apply Keeps.bind (restoreBackupWith_keeps hlinked entry.newDigest .marker)
    intro result _
    apply Keeps.bind (ih (fun other hother => h other (List.mem_cons_of_mem _ hother)))
    intro results _
    exact keeps_pure trivial

theorem undo_keeps {pending : Pending} (h : LinkedEntries j pending.entries) :
    (undo m pending).Keeps j.contract (fun _ => True) := by
  have hreverse : LinkedEntries j pending.entries.reverse := by
    intro entry hentry
    exact h entry (List.mem_reverse.mp hentry)
  apply Keeps.bind (quiet_keeps (stopStartedMounts_uses m pending.entries))
  intro _ _
  have hrestored : (rollBack pending.entries).Keeps j.contract (fun _ => True) := by
    apply Keeps.bind (restoreEntries_keeps hreverse)
    intro _ _
    exact keeps_pure trivial
  apply Keeps.bind hrestored
  intro restored _
  apply Keeps.bind (quiet_keeps (replayReload_uses m pending.entries))
  intro _ _
  apply Keeps.bind (quiet_keeps (replayService_uses m pending.service))
  intro _ _
  apply Keeps.bind (quiet_keeps (clearMarker_uses (.inl rfl)))
  intro cleared _
  cases cleared <;> exact keeps_pure trivial

omit [Sha256] in
theorem LinkedMem.resolved (h : LinkedMem j mem) : LinkedMem j { mem with pending := none } :=
  ⟨h.journal, by simp⟩

omit [Sha256] in
theorem startConfirmTimer_keeps (h : LinkedMem j mem) (commit : CommitId) (timeoutS : Nat)
    (service : Option PendingService) :
    (startConfirmTimer mem commit timeoutS service).Keeps j.contract (ReturnsLinked j) := by
  unfold startConfirmTimer
  split
  · exact keeps_pure h
  · rename_i hnone
    apply Keeps.bind (Prog.keeps_perform (Q := fun _ => True) trivial (fun _ _ => trivial))
    intro now _
    apply Keeps.bind (Prog.keeps_perform (Q := fun _ => True) trivial (fun _ _ => trivial))
    intro unixNow _
    apply Keeps.bind (quiet_keeps (writeMarker_uses (.inl rfl) _))
    intro written _
    cases written with
    | error err => exact keeps_pure ⟨by simp [LinkedEntries], by simp [hnone]⟩
    | ok _ =>
      apply keeps_pure
      constructor
      · simp [LinkedEntries]
      · intro pending hpending
        cases hpending
        exact h.journal

theorem enforceDeadline_keeps (h : LinkedMem j mem) :
    (enforceDeadline m mem).Keeps j.contract (ReturnsLinked j) := by
  unfold enforceDeadline
  split
  · exact keeps_pure h
  · rename_i pending hpending
    apply Keeps.bind (Prog.keeps_perform (Q := fun _ => True) trivial (fun _ _ => trivial))
    intro now _
    split
    · apply Keeps.bind (undo_keeps (h.pending pending hpending))
      intro result _
      cases result <;> exact keeps_pure h.resolved
    · exact keeps_pure h

omit [Sha256] in
theorem confirmPending_keeps (h : LinkedMem j mem) (pending : Pending) :
    (confirmPending m mem pending).Keeps j.contract (ReturnsLinked j) := by
  apply Keeps.bind (quiet_keeps (forgetStartedMounts_uses m pending.entries))
  intro _ _
  apply Keeps.bind (quiet_keeps (clearMarker_uses (.inl rfl)))
  intro cleared _
  cases cleared <;> exact keeps_pure h.resolved

theorem confirmCommit_keeps (h : LinkedMem j mem) (commit : CommitId) :
    (confirmCommit m mem commit).Keeps j.contract (ReturnsLinked j) := by
  unfold confirmCommit
  split
  · rename_i pending hpending
    split
    · apply Keeps.bind (Prog.keeps_perform (Q := fun _ => True) trivial (fun _ _ => trivial))
      intro now _
      split
      · apply Keeps.bind (enforceDeadline_keeps h)
        rintro ⟨result, mem'⟩ hmem'
        cases result <;> exact keeps_pure hmem'
      · exact confirmPending_keeps h pending
    · exact keeps_pure h
  · exact keeps_pure h

theorem rollbackCommit_keeps (h : LinkedMem j mem) (commit : CommitId) :
    (rollbackCommit m mem commit).Keeps j.contract (ReturnsLinked j) := by
  unfold rollbackCommit
  split
  · rename_i pending hpending
    split
    · apply Keeps.bind (undo_keeps (h.pending pending hpending))
      intro result _
      cases result <;> exact keeps_pure h.resolved
    · exact keeps_pure h
  · exact keeps_pure h

theorem leave_keeps (h : LinkedMem j mem) (response : Option Response) :
    (leave m response mem).Keeps j.contract (fun ending => ending.2 = none) := by
  have hexit : (rollbackPendingOnExit m mem).Keeps j.contract (fun _ => True) := by
    unfold rollbackPendingOnExit
    split
    · exact keeps_pure trivial
    · rename_i pending hpending
      apply Keeps.bind (undo_keeps (h.pending pending hpending))
      intro result _
      cases result <;> exact keeps_pure trivial
  apply Keeps.bind hexit
  intro _ _
  exact keeps_pure rfl

omit [Sha256] in
/-- A handler that leaves the memory alone. -/
theorem answer_keeps (h : LinkedMem j mem) {p : Prog SysOp Response}
    (hp : p.Keeps j.contract (fun _ => True)) :
    (answer mem p).Keeps j.contract (ReturnsLinked j) := by
  apply Keeps.bind hp
  intro _ _
  exact keeps_pure h

include hfits

theorem dispatch_keeps (h : LinkedMem j mem) (request : Request) :
    (dispatch m mem request).Keeps j.contract (ReturnsLinked j) := by
  by_cases hgreeted : mem.greeted = true
  · unfold dispatch
    rw [if_pos hgreeted]
    cases request with
    | writeTarget target expectedPrev bytes journal =>
      apply Keeps.bind (writeTarget_keeps hfits h target expectedPrev bytes journal)
      rintro ⟨response, mem'⟩ hmem'
      exact keeps_pure hmem'
    | restore module backup => exact answer_keeps h (restore_keeps hfits module backup)
    | startConfirmTimer commit timeoutS service =>
      exact startConfirmTimer_keeps h commit timeoutS service
    | confirmCommit commit => exact confirmCommit_keeps h commit
    | rollbackCommit commit => exact rollbackCommit_keeps h commit
    | readTarget target => exact answer_keeps h (quiet_keeps (readTarget_uses m target))
    | runCheck check bytes => exact answer_keeps h (quiet_keeps (runCheck_uses m check bytes))
    | service binding action => exact answer_keeps h (quiet_keeps (service_uses m binding action))
    | listBackups module => exact answer_keeps h (quiet_keeps (listBackups_uses m module))
    | mount target => exact answer_keeps h (quiet_keeps (mount_uses m target))
    | reloadUnitFiles module => exact answer_keeps h (quiet_keeps (reloadUnitFiles_uses m module))
    | startUpdate tag => exact answer_keeps h (quiet_keeps (startUpdate_uses m tag))
    | hello | replaceBinary | shutdown | pendingCommit | stageBegin | stageUpdate =>
      exact answer_keeps h (keeps_pure trivial)
  · rw [dispatch_ungreeted m hgreeted]
    apply keeps_pure
    have hsame := greet_mem m mem request
    refine ⟨?_, ?_⟩
    · rw [hsame.2]
      exact h.journal
    · rw [hsame.1]
      exact h.pending

/-- What a program of a running monitor ends with. -/
def EndsLinked (j : Judgement) (ending : Ending) : Prop :=
  ∀ mem, ending.2 = some mem → LinkedMem j mem

theorem serveStep_keeps (h : LinkedMem j mem) (request : Request) :
    (serveStep m mem request).Keeps j.contract (EndsLinked j) := by
  have hleave : ∀ mem', LinkedMem j mem' → ∀ response,
      (leave m response mem').Keeps j.contract (EndsLinked j) := by
    intro mem' hmem' response
    exact (leave_keeps hmem' response).weaken (fun ending hnone _ hsome => by simp [hnone] at hsome)
  apply Keeps.bind (dispatch_keeps hfits h request)
  rintro ⟨result, mem'⟩ hmem'
  cases result with
  | error err => exact hleave mem' hmem' none
  | ok response =>
    dsimp only
    split
    · exact hleave mem' hmem' (some response)
    · apply keeps_pure
      intro kept hkept
      cases hkept
      exact hmem'

end Handlers

section Directives

/-- `exec_directives` of some contents, counted. -/
def directivesIn (module : String) (bytes : Bytes) : Multiset Text :=
  ExecDeny.execDirectives module (fromUtf8Lossy bytes)

/-- The contents at a path; a missing file is empty. -/
def held (f : Files) (path : Path) : Bytes := (f.contents path).getD []

theorem directivesIn_nil (module : String) : directivesIn module [] = 0 := by
  have hnone : ExecDeny.execDirectives module [] = [] := by
    unfold ExecDeny.execDirectives
    split <;> decide +kernel
  have hdecoded : fromUtf8Lossy [] = [] := by decide +kernel
  rw [directivesIn, hdecoded, hnone]
  rfl

/-- Accepted contents hold no directive more than those they replace. -/
theorem gateContent_le {m : Setup} {module : ModuleId} {previous bytes : Bytes}
    (h : gateContent m module [previous] bytes = .ok ()) :
    ∃ descriptor, m.allow.module module = some descriptor ∧
      directivesIn descriptor.id bytes ≤ directivesIn descriptor.id previous := by
  unfold gateContent at h
  split at h
  · cases h
  · rename_i descriptor hdescriptor
    split at h
    · cases h
    · rename_i hadds
      simp only [List.all_cons, List.all_nil, Bool.and_true, Bool.not_eq_true] at hadds
      refine ⟨descriptor, hdescriptor, ?_⟩
      by_contra hnot
      have hunmatched := (LineJoins.anyUnmatched_iff _ _).mpr hnot
      rw [ExecDeny.addsExecDirective, hunmatched] at hadds
      cases hadds

variable {allow : Allowlist} {f₀ : Files}

/-- Every module with a target at `path` finds no directive in `bytes` that the
first contents do not have. -/
def Bounded (allow : Allowlist) (f₀ : Files) (path : Path) (bytes : Bytes) : Prop :=
  ∀ entry ∈ allow.targets.entries, entry.path = path →
    ∀ descriptor, allow.module entry.module = some descriptor →
      directivesIn descriptor.id bytes ≤ directivesIn descriptor.id (held f₀ path)

theorem bounded_nil (path : Path) : Bounded allow f₀ path [] := by
  intro entry _ _ descriptor _
  rw [directivesIn_nil]
  exact Multiset.zero_le _

/-- The bound of the targets, and of the backups in their directories. -/
def bounds (allow : Allowlist) (f₀ : Files) : Judgement where
  good := Bounded allow f₀
  kept dir bytes := ∀ entry ∈ allow.targets.entries, entry.backupDir = dir →
    Bounded allow f₀ entry.path bytes
  good_nil := bounded_nil
  kept_nil _ entry _ _ := bounded_nil entry.path

theorem bounds_fits {m : Setup} {modules : List ModuleDescriptor} {config : Config}
    (hallow : Allowlist.fromModules modules config = .ok m.allow)
    (hcompiled : Modules.Compiled modules) : Fits m (bounds m.allow f₀) where
  linked entry hentry bytes := by
    have htables := fromModules_tablesOf hallow
    constructor
    · intro hgood other hother hdir
      have hpath := dirs_apart hcompiled (htables.declared other hother)
        (htables.declared entry hentry) hdir
      rw [hpath]
      exact hgood
    · intro hkept
      exact hkept entry hentry rfl
  gated entry hentry previous bytes hgate hprevious := by
    have htables := fromModules_tablesOf hallow
    intro other hother hpath descriptor hdescriptor
    obtain ⟨own, hown, hle⟩ := gateContent_le hgate
    have hsame : descriptor.id = own.id := by
      refine paths_apart hcompiled (htables.declared other hother) (htables.declared entry hentry)
        ?_ ?_ hpath
      · rw [← htables.same]
        exact hdescriptor
      · rw [← htables.same]
        exact hown
    calc directivesIn descriptor.id bytes ≤ directivesIn descriptor.id previous := hsame ▸ hle
      _ ≤ directivesIn descriptor.id (held f₀ entry.path) :=
          hprevious other hother hpath descriptor hdescriptor

/-- The first contents are within the bound, and no backup is there to exceed it. -/
theorem bounds_clean
    (hempty : ∀ entry ∈ allow.targets.entries, (f₀.backups entry.backupDir).files = []) :
    (bounds allow f₀).Clean f₀ where
  node path contents hnode entry _ _ descriptor _ := by
    have hheld : held f₀ path = contents := by simp [held, Files.contents, hnode]
    rw [hheld]
  backups dir file hfile entry hentry hdir := by
    rw [← hdir, hempty entry hentry] at hfile
    cases hfile

end Directives

section Runs

variable [Sha256] {m : Setup} {host : Host} {f₀ : Files} {w w' : World}

/-- Requests, deadline checks and the way out of the serve loop. -/
def Served : Label → Prop
  | .done .restart _ => False
  | .done _ _ => True
  | _ => False

/-- Empty backup directories and a monitor that has recorded nothing. -/
structure Fresh (allow : Allowlist) (w : World) : Prop where
  backups : ∀ entry ∈ allow.targets.entries, (w.disk.backups entry.backupDir).files = []
  mem : ∀ mem, w.mem = some mem → mem.journal = [] ∧ mem.pending = none

/-- The invariant of the runs. -/
structure Within (j : Judgement) (w : World) : Prop where
  files : j.Clean w.disk.toFiles
  mem : ∀ mem, w.mem = some mem → LinkedMem j mem

theorem program_keeps {j : Judgement} {event : Event} {p : Prog SysOp Ending} (hfits : Fits m j)
    (h : Within j w) (hevent : event ≠ .restart) (hprogram : program m w.mem event = some p) :
    p.Keeps j.contract (EndsLinked j) := by
  have hgone : ∀ ending : Ending, ending.2 = none → EndsLinked j ending := by
    intro ending hnone mem hsome
    rw [hnone] at hsome
    cases hsome
  rcases program_cases m hprogram with ⟨request, mem, -, hmem, rfl⟩ | ⟨mem, -, hmem, rfl⟩ |
    ⟨mem, -, hmem, rfl⟩ | ⟨hrestart, -⟩
  · exact serveStep_keeps hfits (h.mem mem hmem) request
  · apply Keeps.bind (enforceDeadline_keeps (h.mem mem hmem))
    rintro ⟨result, mem'⟩ hmem'
    cases result with
    | error err => exact (leave_keeps hmem' none).weaken hgone
    | ok _ =>
      apply keeps_pure
      intro kept hkept
      cases hkept
      exact hmem'
  · exact (leave_keeps (h.mem mem hmem) none).weaken hgone
  · exact absurd hrestart hevent

theorem step_within {j : Judgement} {label : Label} (hfits : Fits m j) (hwhole : WritesWhole host)
    (h : Within j w) (hstep : Guarded (fun _ => Served) (Step m host) w label w') :
    Within j w' := by
  obtain ⟨hserved, hstep⟩ := hstep
  cases hstep with
  | @done event p response mem d hprogram hrun =>
    have hevent : event ≠ .restart := by
      rintro rfl
      exact hserved
    have hkeeps := program_keeps hfits h hevent hprogram
    have hend := hkeeps.run (contract_upheld hwhole) h.files
    rw [hrun] at hend
    exact ⟨hend.2, hend.1⟩
  | crash | edit => exact hserved.elim

omit [Sha256] in
theorem held_le {entry : TargetEntry} {descriptor : ModuleDescriptor} {f : Files}
    (hclean : (bounds m.allow f₀).Clean f) (hentry : entry ∈ m.allow.targets.entries)
    (hmodule : m.allow.module entry.module = some descriptor) :
    directivesIn descriptor.id (held f entry.path) ≤
      directivesIn descriptor.id (held f₀ entry.path) := by
  have hbounded : Bounded m.allow f₀ entry.path (held f entry.path) := by
    unfold held Files.contents
    split
    · rename_i contents hnode
      exact hclean.node entry.path contents hnode
    · exact bounded_nil entry.path
  exact hbounded entry hentry rfl descriptor hmodule

/-- In every run of requests, deadline checks and exits on a host that tears no
write, every target has at most the execution directives it had at first, after
each step and between any two effects of the next one. -/
theorem no_directive_added {modules : List ModuleDescriptor} {config : Config} {labels : List Label}
    {entry : TargetEntry} {descriptor : ModuleDescriptor}
    (hallow : Allowlist.fromModules modules config = .ok m.allow)
    (hcompiled : Modules.Compiled modules) (hwhole : WritesWhole host) (hfresh : Fresh m.allow w)
    (hrun : Run (Guarded (fun _ => Served) (Step m host)) w labels w')
    (hentry : entry ∈ m.allow.targets.entries)
    (hmodule : m.allow.module entry.module = some descriptor) :
    directivesIn descriptor.id (held w'.disk.toFiles entry.path) ≤
      directivesIn descriptor.id (held w.disk.toFiles entry.path) ∧
    ∀ event p d, event ≠ .restart → program m w'.mem event = some p →
      p.Through (sys host) w'.disk d →
        directivesIn descriptor.id (held d.toFiles entry.path) ≤
          directivesIn descriptor.id (held w.disk.toFiles entry.path) := by
  have hfits : Fits m (bounds m.allow w.disk.toFiles) := bounds_fits hallow hcompiled
  have hstart : Within (bounds m.allow w.disk.toFiles) w := by
    refine ⟨bounds_clean hfresh.backups, ?_⟩
    intro mem hmem
    obtain ⟨hjournal, hpending⟩ := hfresh.mem mem hmem
    exact ⟨by simp [LinkedEntries, hjournal], by simp [hpending]⟩
  have hend : Within (bounds m.allow w.disk.toFiles) w' :=
    hrun.invariant (fun _ _ _ hw hstep => step_within hfits hwhole hw hstep) hstart
  refine ⟨held_le hend.files hentry hmodule, ?_⟩
  intro event p d hevent hprogram hthrough
  have hkeeps := program_keeps hfits hend hevent hprogram
  have hupheld := contract_upheld (j := bounds m.allow w.disk.toFiles) hwhole
  have hclean := hkeeps.through hupheld hend.files hthrough
  exact held_le hclean hentry hmodule

end Runs

section Chrony

attribute [local instance] Sample.sha256

def chrony : ModuleDescriptor where
  id := "chrony"
  targets :=
    [{ path := "/etc/chrony/chrony.conf", kind := .file, backendDetect := true },
      { path := "/etc/chrony.conf", kind := .file, backendDetect := false },
      { path := "/etc/chrony/sources.d", kind := .dropInDir, backendDetect := true },
      { path := "/etc/chrony/conf.d", kind := .dropInDir, backendDetect := true }]
  services := []
  checks := []
  commitConfirm := false
  reloadUnitFiles := false
  addedMounts := false

def config : Config := { keepBackups := 20, init := .systemd, activateMounts := false }

theorem chrony_builds : (Allowlist.fromModules [chrony] config).toOption.isSome = true := by
  decide +kernel

def setup : Setup where
  allow := (Allowlist.fromModules [chrony] config).toOption.get chrony_builds
  modules := [{ Sample.module with descriptor := chrony }]
  checksConfigured := false
  updateTagRefusal _ := none
  updater := false

theorem eq_ok_get {ε α : Type} (built : Except ε α) (h : built.toOption.isSome = true) :
    built = .ok (built.toOption.get h) := by
  cases built with
  | error err => cases h
  | ok value => rfl

theorem setup_allow : Allowlist.fromModules [chrony] config = .ok setup.allow :=
  eq_ok_get _ chrony_builds

/-- `/etc/chrony/chrony.conf`. -/
def conf : TargetEntry where
  id := ⟨0⟩
  module := ⟨0⟩
  path := "/etc/chrony/chrony.conf"
  kind := .file
  backupDir := "backups/chrony/0"

def text (s : String) : Bytes := utf8 s.toList

/-- The file runs the daemon as `chrony`, and nothing was ever backed up. -/
def start : World where
  disk :=
    { node path := if path = conf.path then some (.file (text "user chrony\n")) else none
      backups _ := BackupDir.empty
      inPlace := none
      pending := none
      taken := []
      tick := 0 }
  mem := some Sample.mem

theorem start_fresh : Fresh setup.allow start where
  backups _ _ := rfl
  mem mem hmem := by
    cases hmem
    exact ⟨rfl, rfl⟩

/-- The file written without the directive, on a host where every call works. -/
def dropping : Prog SysOp Ending :=
  serveStep setup Sample.mem (.writeTarget ⟨0⟩ none (text "rtcsync\n") false)

def dropped : World := start.after Sample.host dropping

theorem dropped_run : Run (Guarded (fun _ => Served) (Step setup Sample.host)) start
    [.done (.request (.writeTarget ⟨0⟩ none (text "rtcsync\n") false))
      (dropping.run (sys Sample.host) start.disk).1.1] dropped :=
  .cons ⟨trivial, Step.after setup rfl⟩ (.nil dropped)

theorem directive_dropped :
    held dropped.disk.toFiles conf.path = text "rtcsync\n" ∧
      directivesIn "chrony" (held dropped.disk.toFiles conf.path) ≤
        directivesIn "chrony" (held start.disk.toFiles conf.path) := by
  have hcompiled : Modules.Compiled [chrony] := by
    unfold Modules.Compiled
    decide +kernel
  have hwhole : WritesWhole Sample.host := by
    nofun
  have hentry : conf ∈ setup.allow.targets.entries := by decide +kernel
  have hmodule : setup.allow.module conf.module = some chrony := by decide +kernel
  refine ⟨by decide +kernel, ?_⟩
  exact (no_directive_added setup_allow hcompiled hwhole start_fresh dropped_run hentry hmodule).1

/-- The directory takes no temp file, and the file system is full after seven
bytes of the file. -/
def fullHost : Host where
  systemTime := Sample.host.systemTime
  instant := Sample.host.instant
  modified := Sample.host.modified
  fault _ _ op := match op with
    | .writeTruncated _ _ => some (.other, 7)
    | _ => none
  tempRefused _ := true
  ownerPreserved := Sample.host.ownerPreserved
  runCheck := Sample.host.runCheck
  hook := Sample.host.hook

/-- The same directive, and one line more. -/
def extending : Prog SysOp Ending :=
  serveStep setup Sample.mem (.writeTarget ⟨0⟩ none (text "user chrony\nrtcsync\n") false)

def torn : World := start.after fullHost extending

theorem torn_run : Run (Guarded (fun _ => Served) (Step setup fullHost)) start
    [.done (.request (.writeTarget ⟨0⟩ none (text "user chrony\nrtcsync\n") false))
      (extending.run (sys fullHost) start.disk).1.1] torn :=
  .cons ⟨trivial, Step.after setup rfl⟩ (.nil torn)

/-- The write stops inside the directive, which is then another one. -/
theorem torn_write_adds_directive :
    Modules.Compiled [chrony] ∧ Allowlist.fromModules [chrony] config = .ok setup.allow ∧
      conf ∈ setup.allow.targets.entries ∧ Fresh setup.allow start ∧
      (∃ labels, Run (Guarded (fun _ => Served) (Step setup fullHost)) start labels torn) ∧
      held torn.disk.toFiles conf.path = text "user ch" ∧
      ¬ directivesIn "chrony" (held torn.disk.toFiles conf.path) ≤
        directivesIn "chrony" (held start.disk.toFiles conf.path) := by
  have hheld : held torn.disk.toFiles conf.path = text "user ch" := by decide +kernel
  have hcompiled : Modules.Compiled [chrony] := by
    unfold Modules.Compiled
    decide +kernel
  refine ⟨hcompiled, setup_allow, by decide +kernel, start_fresh, ⟨_, torn_run⟩, hheld, ?_⟩
  rw [hheld]
  decide +kernel

end Chrony

end Detent.Guarantees.DenyGate
