import Detent.Guarantees.Attachment

/-!
# Sessions nobody disturbs

While no other program touches the host, the state of a session changes only by the
requests of its engine and by the deadline. `Stable` collects what has to be checked
of one property: that the handlers of some requests and a deadline check keep it,
and what stopping the monitor makes of it. It then holds after any program of the
engine that sends no other request.
-/
namespace Detent.Guarantees
open Lib Source Source.Engine Source.Monitor

/-- A request that writes no file and does not confirm a commit. -/
def Leaves : Request → Prop
  | .writeTarget .. | .restore .. | .startConfirmTimer .. | .confirmCommit _ => False
  | _ => True

variable {request : Request}

theorem leaves_of_looks (h : Looks request) : Leaves request := by
  cases request <;> trivial

section Quiet

variable [Sha256] (m : Setup) (host : Host) (out : Outside)

/-- One deadline check, when a monitor runs. -/
def checked (w : World) : World :=
  match w.mem with
  | none => w
  | some mem => w.after host (deadlineStep m mem)

/-- Between two effects the monitor only checks its deadline, and no file appears
or disappears. -/
structure Quiet : Prop where
  between : ∀ n w, ∃ k, out.between n w = (checked m host)^[k] w
  pathExists : ∀ n n' path, out.pathExists n path = out.pathExists n' path

/-- What the requests `ok` and the deadline keep of a running monitor, and what is
left when it stops. -/
structure Stable (ok : Request → Prop) (running : Mem → Files → Prop) (stopped : Files → Prop) :
    Prop where
  dispatch : ∀ {mem mem' : Mem} {request : Request} {r : Except MonitorError Response} {d d' : Disk},
    ok request → running mem d.toFiles →
    (Monitor.dispatch m mem request).run (sys host) d = ((r, mem'), d') → running mem' d'.toFiles
  deadline : ∀ {mem mem' : Mem} {r : Except MonitorError Unit} {d d' : Disk},
    running mem d.toFiles →
    (enforceDeadline m mem).run (sys host) d = ((r, mem'), d') → running mem' d'.toFiles
  exit : ∀ {mem : Mem} {r : Except MonitorError Unit} {d d' : Disk}, running mem d.toFiles →
    (rollbackPendingOnExit m mem).run (sys host) d = (r, d') → stopped d'.toFiles

/-- The property at a moment, with or without a running monitor. -/
def Within (running : Mem → Files → Prop) (stopped : Files → Prop) (w : World) : Prop :=
  match w.mem with
  | some mem => running mem w.disk.toFiles
  | none => stopped w.disk.toFiles

variable {m host out} {ok : Request → Prop} {running : Mem → Files → Prop} {stopped : Files → Prop}
  {w : World} {mem : Mem}

omit [Sha256] in
theorem Within.of_running (h : Within running stopped w) (hmem : w.mem = some mem) :
    running mem w.disk.toFiles := by
  unfold Within at h
  rwa [hmem] at h

variable {d d' : Disk} {r : Except MonitorError Response} (h : Stable m host ok running stopped)
include h

theorem Stable.leave {response : Option Response} {ending : Ending} (hmem : running mem d.toFiles)
    (hrun : (Monitor.leave m response mem).run (sys host) d = (ending, d')) :
    Within running stopped { disk := d', mem := ending.2 } := by
  obtain ⟨r, d₁, hexit, hrun⟩ := Prog.run_bind_eq _ hrun
  cases hrun
  exact h.exit hmem hexit

theorem Stable.serveStep {ending : Ending} (hok : ok request) (hmem : running mem d.toFiles)
    (hrun : (Monitor.serveStep m mem request).run (sys host) d = (ending, d')) :
    Within running stopped { disk := d', mem := ending.2 } := by
  obtain ⟨⟨r, mem₁⟩, d₁, hserve, hrun⟩ := Prog.run_bind_eq _ hrun
  have hnext : running mem₁ d₁.toFiles := h.dispatch hok hmem hserve
  cases r with
  | error err => exact h.leave hnext hrun
  | ok response =>
    dsimp only at hrun
    split at hrun
    · exact h.leave hnext hrun
    · cases hrun
      exact hnext

theorem Stable.checked (hw : Within running stopped w) :
    Within running stopped (checked m host w) := by
  unfold Guarantees.checked
  split
  · exact hw
  · rename_i mem hmem
    rcases hrun : (deadlineStep m mem).run (sys host) w.disk with ⟨ending, d'⟩
    have hafter : w.after host (deadlineStep m mem) = { disk := d', mem := ending.2 } := by
      simp only [World.after, hrun]
    rw [hafter]
    obtain ⟨⟨r, mem₁⟩, d₁, hdeadline, hrun⟩ := Prog.run_bind_eq _ hrun
    have hnext : running mem₁ d₁.toFiles := h.deadline (hw.of_running hmem) hdeadline
    cases r with
    | error err => exact h.leave hnext hrun
    | ok _ =>
      cases hrun
      exact hnext

/-- Nothing else happens between two effects. -/
theorem Stable.between (hquiet : Quiet m host out) (n : Nat) (hw : Within running stopped w) :
    Within running stopped (out.between n w) := by
  obtain ⟨k, hk⟩ := hquiet.between n w
  rw [hk]
  clear hk
  induction k generalizing w with
  | zero => exact hw
  | succ k ih =>
    rw [Function.iterate_succ_apply]
    exact ih (h.checked hw)

omit h in
/-- Nothing happens to a monitor that is gone. -/
theorem Quiet.between_none (hquiet : Quiet m host out) (n : Nat) (hmem : w.mem = none) :
    out.between n w = w := by
  obtain ⟨k, hk⟩ := hquiet.between n w
  rw [hk]
  apply Function.iterate_fixed
  unfold Guarantees.checked
  rw [hmem]

theorem Stable.serve (hok : ok request) {a : Around} (ha : Within running stopped a.world) :
    Within running stopped (a.serve m host request).2.world := by
  cases hmem : a.world.mem with
  | none =>
    have hsame : a.serve m host request = (.error .closed, a) := by
      simp only [Around.serve, hmem]
    rw [hsame]
    exact ha
  | some mem =>
    rcases hrun : (Monitor.serveStep m mem request).run (sys host) a.world.disk with ⟨ending, d'⟩
    have hafter : (a.serve m host request).2.world = { disk := d', mem := ending.2 } := by
      simp only [Around.serve, hmem, World.after, hrun]
    rw [hafter]
    exact h.serveStep hok (ha.of_running hmem) hrun

theorem Stable.ask (hquiet : Quiet m host out) (hok : ok request) {a : Around}
    (ha : Within running stopped a.world) :
    Within running stopped ((attached m host out).ask request a).2.world :=
  h.serve hok (h.between hquiet a.moment ha)

/-- The run rule: a program that sends no other request keeps the property. -/
theorem Stable.run (hquiet : Quiet m host out) {α : Type} {p : Prog EngineOp α}
    (hp : p.Uses (Sends ok)) {s s' : Session × Around} {r : α}
    (hs : Within running stopped s.2.world)
    (hrun : p.run (engine (attached m host out)) s = (r, s')) :
    Within running stopped s'.2.world := by
  have hend := hp.run_invariant (h := engine (attached m host out))
    (I := fun t => Within running stopped t.2.world) (fun _ effect t hok ht => by
      cases effect with
      | ask request => exact h.ask hquiet hok ht
      | session f => exact ht
      | _ => exact h.between hquiet t.2.moment ht) hs
  rwa [hrun] at hend

omit h

/-- A request that neither writes a file nor has to do with a commit changes
neither the files nor what is pending. -/
theorem dispatch_rests {mem' : Mem} (hleaves : Leaves request)
    (hroll : ∀ commit, request ≠ .rollbackCommit commit)
    (hrun : (Monitor.dispatch m mem request).run (sys host) d = ((r, mem'), d')) :
    mem'.pending = mem.pending ∧ mem'.journal = mem.journal ∧ d'.toFiles = d.toFiles := by
  have hanswer : ∀ {p : Prog SysOp Response}, p.Uses (Inside (fun _ => False)) →
      (answer mem p).run (sys host) d = ((r, mem'), d') →
      mem'.pending = mem.pending ∧ mem'.journal = mem.journal ∧ d'.toFiles = d.toFiles := by
    intro p hp hrun
    obtain ⟨response, -, hsame, hrun⟩ := answer_run hrun
    rw [hsame]
    exact ⟨rfl, rfl, run_reads hp hrun⟩
  by_cases hgreeted : mem.greeted = true
  · unfold Monitor.dispatch at hrun
    rw [if_pos hgreeted] at hrun
    cases request with
    | writeTarget | restore | startConfirmTimer | confirmCommit => exact hleaves.elim
    | rollbackCommit commit => exact absurd rfl (hroll commit)
    | readTarget target => exact hanswer (readTarget_uses m target) hrun
    | runCheck check bytes => exact hanswer (runCheck_uses m check bytes) hrun
    | service binding action => exact hanswer (service_uses m binding action) hrun
    | listBackups module => exact hanswer (listBackups_uses m module) hrun
    | mount target => exact hanswer (mount_uses m target) hrun
    | reloadUnitFiles module => exact hanswer (reloadUnitFiles_uses m module) hrun
    | startUpdate tag => exact hanswer (startUpdate_uses m tag) hrun
    | hello | replaceBinary | shutdown | pendingCommit | stageBegin | stageUpdate =>
      exact hanswer (Prog.uses_pure _) hrun
  · rw [dispatch_ungreeted m hgreeted] at hrun
    obtain ⟨hpending, hjournal⟩ := greet_mem m mem request
    cases hrun
    exact ⟨hpending, hjournal, rfl⟩

theorem rollbackCommit_idle {mem' : Mem} {commit : CommitId} (hnone : mem.pending = none)
    (hrun : (Monitor.rollbackCommit m mem commit).run (sys host) d = ((r, mem'), d')) :
    mem' = mem ∧ d' = d := by
  unfold Monitor.rollbackCommit at hrun
  rw [hnone] at hrun
  cases hrun
  exact ⟨rfl, rfl⟩

/-- The files are `f`, no commit is pending and the journal is as said. -/
def Idle (journal : List RollbackEntry → Prop) (f : Files) : World → Prop :=
  Within (fun mem f' => f' = f ∧ mem.pending = none ∧ journal mem.journal) (· = f)

/-- With no commit pending, such requests and the deadline leave the files alone. -/
theorem idle_stable (journal : List RollbackEntry → Prop) (f : Files) :
    Stable m host Leaves (fun mem f' => f' = f ∧ mem.pending = none ∧ journal mem.journal)
      (· = f) where
  dispatch := by
    rintro mem mem' request r d d' hleaves ⟨hfiles, hnone, hentries⟩ hrun
    by_cases hroll : ∃ commit, request = .rollbackCommit commit
    · obtain ⟨commit, rfl⟩ := hroll
      by_cases hgreeted : mem.greeted = true
      · unfold Monitor.dispatch at hrun
        rw [if_pos hgreeted] at hrun
        obtain ⟨rfl, rfl⟩ := rollbackCommit_idle hnone hrun
        exact ⟨hfiles, hnone, hentries⟩
      · rw [dispatch_ungreeted m hgreeted] at hrun
        cases hrun
        exact ⟨hfiles, hnone, hentries⟩
    · obtain ⟨hpending, hjournal, hsame⟩ :=
        dispatch_rests hleaves (fun commit heq => hroll ⟨commit, heq⟩) hrun
      exact ⟨hsame.trans hfiles, hpending.trans hnone, by rwa [hjournal]⟩
  deadline := by
    rintro mem mem' r d d' ⟨hfiles, hnone, hentries⟩ hrun
    unfold enforceDeadline at hrun
    rw [hnone] at hrun
    cases hrun
    exact ⟨hfiles, hnone, hentries⟩
  exit := by
    rintro mem r d d' ⟨hfiles, hnone, -⟩ hrun
    unfold rollbackPendingOnExit at hrun
    rw [hnone] at hrun
    cases hrun
    exact hfiles

omit [Sha256] in
theorem Idle.files {journal : List RollbackEntry → Prop} {f : Files} (h : Idle journal f w) :
    w.disk.toFiles = f := by
  unfold Idle Within at h
  split at h
  · exact h.1
  · exact h

end Quiet

end Detent.Guarantees
