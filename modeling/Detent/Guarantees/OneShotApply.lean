import Detent.Guarantees.ApplyReads
import Detent.Guarantees.DoomedCommits
import Detent.Lib.Except
import Detent.Source.OneShot

/-!
# One-shot applies

A one-shot command owns its monitor, so a commit that an apply armed is pending when
the command stops the monitor, and is rolled back then. `operate` refuses the modules
that declare `commit_confirm` for this reason, but not a confirm duration for another
module: such an apply reports success and is undone.
-/
namespace Detent.Guarantees.OneShotApply
open Lib Source Source.Engine Source.Monitor Source.OneShot
open Fallible (exec_bind_eq_ok uses_bind)

section Wiring

variable {m : Setup} {e : OpsEngine} {id : String} {model : Json}

theorem advertisedFor_returns (descriptor : ModuleDescriptor) (advertised : List TargetInfo)
    (target : Option Target) : (advertisedFor descriptor advertised target).Returns
      (fun found => ∀ info, found = some info → info ∈ advertised) := by
  cases target with
  | none => exact nofun
  | some target =>
    exact Prog.returns_bind (fun found => fun info hinfo => List.mem_of_find?_eq_some hinfo)

theorem chooseTarget_returns (descriptor : ModuleDescriptor) (advertised : List TargetInfo)
    (modelTarget : Option Path) : (chooseTarget descriptor advertised modelTarget).Returns
      (fun found => ∀ info, found = some info → info ∈ advertised) := by
  cases modelTarget with
  | some path => exact advertisedFor_returns _ _ _
  | none =>
    refine Prog.Returns.bind (advertisedFor_returns _ _ _) (fun found hfound => ?_)
    intro info hinfo
    cases found with
    | some other =>
      cases hinfo
      exact hfound _ rfl
    | none => exact List.mem_of_head? (by simpa using hinfo)

/-- The target of a wiring is in the tables, under the path the wiring names. -/
theorem modelWiring_target {σ : Type} {env : Env σ} {s s' : Engine.Session × σ} {wiring : Wiring}
    (htables : e.tables = some m.allow.helloAck)
    (h : Fallible.exec (engine env) (modelWiring e id model) s = (.ok wiring, s')) :
    ∃ entry, m.allow.target wiring.target = some entry ∧ entry.path = wiring.path := by
  obtain ⟨module, -, h⟩ := exec_orThrow_bind_eq_ok h
  obtain ⟨target, -, h⟩ := exec_orThrow_bind_eq_ok h
  unfold Engine.wiring at h
  split at h
  · cases h
  · cases h
  · next ack id hack hid =>
    obtain rfl : ack = m.allow.helloAck := Option.some.inj (hack.symm.trans htables)
    obtain ⟨found, t, hchosen, h⟩ := Fallible.exec_lift_bind _ h
    have hmem := (chooseTarget_returns _ _ _).run hchosen
    cases found with
    | none => cases h
    | some chosen =>
      cases h
      have hadvertised := List.mem_of_mem_filter (hmem chosen rfl)
      obtain ⟨entry, hentry, rfl⟩ := List.mem_map.mp hadvertised
      exact ⟨entry, TargetTable.get_of_mem hentry, rfl⟩

end Wiring

variable {a : Around} {found : OneShot.Session}

section Start

variable [Sha256] {b : Build} {host : Host} {out : Outside} {m : Setup} {d d' : Disk}

/-- A recovery that succeeds leaves no pending commit behind. -/
theorem recoverPending_clears {recovered : Option Recovered}
    (h : Fallible.exec (sys host) (recoverPending m) d = (.ok recovered, d')) :
    d'.pending = none := by
  obtain ⟨_, d₁, -, h⟩ := exec_bind_eq_ok _ h
  obtain ⟨found, d₂, hread, h⟩ := exec_bind_eq_ok _ h
  obtain ⟨heffect, -⟩ := stateCall_ok hread
  injection heffect with heffect
  obtain ⟨hfound, hsame⟩ := Prod.mk.inj heffect
  cases found with
  | none =>
    cases h
    rw [← hsame]
    exact hfound
  | some marker =>
    cases marker with
    | torn written => cases h
    | whole record =>
      obtain ⟨_, d₃, -, h⟩ := exec_bind_eq_ok _ h
      obtain ⟨_, d₄, -, h⟩ := exec_bind_eq_ok _ h
      obtain ⟨_, d₅, -, h⟩ := exec_bind_eq_ok _ h
      obtain ⟨_, d₆, -, h⟩ := exec_bind_eq_ok _ h
      obtain ⟨_, d₇, hunlink, h⟩ := exec_bind_eq_ok _ h
      cases h
      obtain ⟨heffect, -⟩ := stateCall_ok hunlink
      simp only [FileOp.effect] at heffect
      split at heffect
      · injection heffect with heffect
        rw [← (Prod.mk.inj heffect).2]
      · cases heffect

theorem monitorStart_idle {mem : Mem} (h : (monitorStart m host true d).mem = some mem) :
    mem = Mem.new ∧ (monitorStart m host true d).disk.pending = none := by
  rcases hrecover : (recoverPending m).run.run (sys host) d with ⟨r, d₁⟩
  cases r with
  | error err =>
    have hstart : (startStep m).run (sys host) d = ((none, none), d₁) := by
      unfold startStep
      rw [Prog.run_bind, hrecover]
      rfl
    simp [monitorStart, World.after, hstart] at h
  | ok recovered =>
    have hstart : (startStep m).run (sys host) d = ((none, some Mem.new), d₁) := by
      unfold startStep
      rw [Prog.run_bind, hrecover]
      rfl
    simp only [monitorStart, World.after, hstart, if_true, Option.some.injEq] at h ⊢
    exact ⟨h.symm, recoverPending_clears hrecover⟩

/-- The answer to a handshake is the tables of the monitor. -/
theorem serve_hello {a' : Around} {ack : HelloAck}
    (h : a.serve m host (.hello protoVersion) = (.ok (.helloAck ack), a')) :
    ack = m.allow.helloAck := by
  unfold Around.serve at h
  cases hmem : a.world.mem with
  | none =>
    rw [hmem] at h
    cases h
  | some mem =>
    rw [hmem] at h
    rcases hrun : (serveStep m mem (.hello protoVersion)).run (sys host) a.world.disk with
      ⟨⟨answer, mem'⟩, d'⟩
    simp only [hrun, Prod.mk.injEq] at h
    cases answer with
    | none => cases h.1
    | some response =>
      obtain rfl : response = .helloAck ack := Except.ok.inj h.1
      have husual : Usual (.helloAck ack) := trivial
      obtain ⟨after, -, hdispatch⟩ := serveStep_answered m (by simp) husual hrun
      by_cases hgreeted : mem.greeted = true
      · unfold Monitor.dispatch at hdispatch
        rw [if_pos hgreeted] at hdispatch
        obtain ⟨response, hresponse, -, hrun⟩ := answer_run hdispatch
        cases hresponse
        cases hrun
      · rw [dispatch_ungreeted m hgreeted] at hdispatch
        simp only [greet, if_true, Prog.run_pure, Prod.mk.injEq, Except.ok.injEq,
          Response.helloAck.injEq] at hdispatch
        exact hdispatch.1.1.symm

variable (b) in
/-- The session over some tables, with the state lock. -/
def session (allow : Allowlist) : OneShot.Session :=
  { setup := b.setup allow, lockHeld := true, engine := b.engine allow.helloAck }

theorem session_env (allow : Allowlist) :
    (session b allow).env host out false = attached (b.setup allow) host out := rfl

omit [Sha256] in
theorem fromModules_config {modules : List ModuleDescriptor} {config : Config} {allow : Allowlist}
    (h : Allowlist.fromModules modules config = .ok allow) : allow.config = config := by
  unfold Allowlist.fromModules at h
  obtain ⟨tables, -, h⟩ := ok_of_bind h
  cases h
  rfl

theorem start_idle {lock : LockAnswer}
    (hquiet : ∀ allow, Allowlist.fromModules (b.modules.map (·.descriptor)) withStateRoot =
      .ok allow → Quiet (b.setup allow) host out)
    (h : startSession b host out true lock d = (some found, a)) :
    ∃ allow, Quiet (b.setup allow) host out ∧ found = session b allow ∧ allow.config = withStateRoot ∧
      Idle (fun _ => True) a.world.disk.toFiles a.world ∧ a.world.disk.pending = none := by
  have hlocked : startLocked b host out true d = (some found, a) := by
    cases lock <;> first | exact h | cases h
  unfold startLocked at hlocked
  split at hlocked
  · cases hlocked
  · next allow hallow =>
    have hq := hquiet allow hallow
    have hstable : Stable (b.setup allow) host Leaves _ _ := idle_stable (fun _ => True)
      (monitorStart (b.setup allow) host true d).disk.toFiles
    dsimp only at hlocked
    split at hlocked
    · next ack a' hserve =>
      cases hlocked
      cases hmem : (monitorStart (b.setup allow) host true d).mem with
      | none =>
        simp [Around.serve, Around.next, hq.between_none 0 hmem, hmem] at hserve
      | some mem =>
        obtain ⟨rfl, hpending⟩ := monitorStart_idle hmem
        have hstart : Idle (fun _ => True) (monitorStart (b.setup allow) host true d).disk.toFiles
            (monitorStart (b.setup allow) host true d) := by
          unfold Idle Within
          rw [hmem]
          exact ⟨rfl, rfl, trivial⟩
        have hleaves : Leaves (.hello protoVersion) := trivial
        have hend := hstable.serve hleaves
          (a := Around.next out { world := monitorStart _ host true d, moment := 0, served := [] })
          (hstable.between hq 0 hstart)
        rw [hserve] at hend
        obtain rfl := serve_hello hserve
        have hidle : Idle (fun _ => True) (monitorStart (b.setup allow) host true d).disk.toFiles
            a.world := hend
        refine ⟨allow, hq, rfl, fromModules_config hallow, ?_, ?_⟩
        · rw [hidle.files]
          exact hidle
        · rw [hidle.files]
          exact hpending
    · cases hlocked

end Start

variable {path : Path} {bytes : Bytes} {report : ApplyReport}

section Apply

variable [Sha256] {m : Setup} {host : Host} {out : Outside} {e : OpsEngine} {id : String}
  {model : Json} {expectedHash : Option Sha256Digest} {serviceAction : Option ServiceCommand}
  {confirm : Option Nat} {s t t' : Engine.Session × Around} {f : Files}
  {journal : List RollbackEntry → Prop}

variable (m e id model) in
/-- The file the model stands for is at `path`, holds `bytes`, which read `current`,
and the model renders them into `rendered`. -/
def Finds (env : Env Around) (s : Engine.Session × Around) (path : Path) (bytes : Bytes)
    (current rendered : Text) : Prop :=
  ∃ module wiring entry, findModule e id = .ok module ∧
    (Fallible.exec (engine env) (modelWiring e id model) s).1 = .ok wiring ∧
    m.allow.target wiring.target = some entry ∧ entry.path = path ∧
    s.2.world.disk.contents path = some bytes ∧ ofUtf8 bytes = some current ∧
    module.applyJson current model = .ok rendered

omit [Sha256] in
theorem Finds.unique {env : Env Around} {path' : Path} {bytes' : Bytes}
    {current current' rendered rendered' : Text}
    (h : Finds m e id model env s path bytes current rendered)
    (h' : Finds m e id model env s path' bytes' current' rendered') :
    current = current' ∧ rendered = rendered' := by
  obtain ⟨module, wiring, entry, hmodule, hwiring, hentry, rfl, hbytes, htext, happlied⟩ := h
  obtain ⟨module', wiring', entry', hmodule', hwiring', hentry', rfl, hbytes', htext', happlied'⟩ := h'
  obtain rfl : module = module' := Except.ok.inj (hmodule.symm.trans hmodule')
  obtain rfl : wiring = wiring' := Except.ok.inj (hwiring.symm.trans hwiring')
  obtain rfl : entry = entry' := Option.some.inj (hentry.symm.trans hentry')
  obtain rfl : bytes = bytes' := Option.some.inj (hbytes.symm.trans hbytes')
  obtain rfl : current = current' := Option.some.inj (htext.symm.trans htext')
  exact ⟨rfl, Except.ok.inj (happlied.symm.trans happlied')⟩

/-- Which file a model stands for depends on the files alone. -/
theorem modelWiring_same (hquiet : Quiet m host out) (s t : Engine.Session × Around) :
    (Fallible.exec (engine (attached m host out)) (modelWiring e id model) s).1 =
      (Fallible.exec (engine (attached m host out)) (modelWiring e id model) t).1 :=
  Prog.Uses.run_result (modelWiring_probes e id model) (fun _ effect u u' heffect => by
    cases effect with
    | pathExists path => exact hquiet.pathExists _ _ path
    | _ => exact heffect.elim) s t

theorem Finds.transport (hquiet : Quiet m host out) {current rendered : Text}
    (hfiles : s.2.world.disk.toFiles = t.2.world.disk.toFiles)
    (h : Finds m e id model (attached m host out) s path bytes current rendered) :
    Finds m e id model (attached m host out) t path bytes current rendered := by
  obtain ⟨module, wiring, entry, hmodule, hwiring, hentry, hpath, hbytes, hrest⟩ := h
  refine ⟨module, wiring, entry, hmodule, ?_, hentry, hpath, ?_, hrest⟩
  · rw [modelWiring_same hquiet t s]
    exact hwiring
  · rw [← hfiles]
    exact hbytes

theorem Stable.reaches {ok ok' : Request → Prop} {running : Mem → Files → Prop}
    {stopped : Files → Prop} (h : Stable m host ok running stopped) (hquiet : Quiet m host out)
    (himp : ∀ request, ok' request → ok request) (hreaches : Reaches (attached m host out) ok' s t)
    (hs : Within running stopped s.2.world) : Within running stopped t.2.world := by
  obtain ⟨α, p, hp, rfl⟩ := hreaches
  have hsends : p.Uses (Sends ok) := hp.weaken (fun _ effect heffect => by
    cases effect with
    | ask request => exact himp request heffect
    | _ => trivial)
  exact h.run hquiet hsends hs rfl

/-- What the engine reads is what the file holds. -/
theorem looked_idle (hquiet : Quiet m host out) (htables : e.tables = some m.allow.helloAck)
    (hidle : Idle journal f s.2.world) {wiring : Wiring} {contents : TargetContents}
    (h : Looked e (attached m host out) id model s wiring contents t) :
    contents.digest = Sha256.of contents.bytes ∧
    (Fallible.exec (engine (attached m host out)) (modelWiring e id model) s).1 = .ok wiring ∧
    ∃ entry, m.allow.target wiring.target = some entry ∧ entry.path = wiring.path ∧
      s.2.world.disk.contents entry.path = some contents.bytes := by
  obtain ⟨u, hwiring, hread⟩ := h
  obtain ⟨entry, hentry, hpath⟩ := modelWiring_target htables hwiring
  obtain ⟨-, answer, hserved, hselect⟩ := mapped_served hread
  obtain rfl : answer = .target contents := by
    cases answer <;> first | cases hselect; rfl | cases hselect
  obtain ⟨hheld, hof⟩ := hserved.pass.readTarget
  have hlater : Idle journal f u.2.world :=
    (idle_stable journal f).run hquiet
      (sends_of_asks (fun _ hfalse => False.elim hfalse) (modelWiring_uses e id model)) hidle hwiring
  have hnow : Idle journal f (u.2.next out).world := (idle_stable journal f).between hquiet _ hlater
  refine ⟨hof, by rw [hwiring], entry, hentry, hpath, ?_⟩
  simp only [held, hentry, Option.bind_some, hnow.files] at hheld
  rw [hidle.files]
  exact hheld

variable {candidate : Candidate} {written : WriteReceipt} {entry : RollbackEntry} {old : Bytes}

/-- The write of a candidate, made over the files `f`. -/
theorem carryOut_writes (hquiet : Quiet m host out) (hidle : Idle (fun _ => True) f s.2.world)
    (h : Fallible.exec (engine (attached m host out)) (carryOut e candidate serviceAction confirm)
      s = (.ok report, t)) :
    ∃ (entry : TargetEntry) (outcome : Atomic.WriteOutcome) (d : Disk) (mem : Mem)
      (a : Around) (fields : Engine.Session), m.allow.target candidate.wiring.target = some entry ∧
      d.toFiles = f ∧ mem.pending = none ∧
      Fallible.exec (sys host) (Atomic.writeAtomic (writeRequest m entry (some candidate.current)
        (utf8 candidate.rendered))) d = (.ok outcome, a.world.disk) ∧
      a.world.mem = some (mem.record candidate.commitRequired candidate.wiring.target entry.path
        outcome) ∧
      Fallible.exec (engine (attached m host out)) (afterWrite e candidate serviceAction confirm
        (receipt candidate.wiring.target outcome)) (fields, a) = (.ok report, t) := by
  obtain ⟨written, u, hwrite, h⟩ := exec_bind_eq_ok _ h
  rw [Fallible.exec_bind_ok _ (exec_noteHashes _ _ _)] at h
  change Fallible.exec _ (afterWrite e candidate serviceAction confirm written) _ = _ at h
  obtain ⟨-, response, hserved, hselect⟩ := mapped_served hwrite
  obtain rfl : response = .written written := by
    cases response <;> first | cases hselect; rfl | cases hselect
  obtain ⟨entry, outcome, d, hentry, rfl, hd, hexec, mem, hmem, hrecord⟩ := hserved.pass.write
  have hnow : Idle (fun _ => True) f (s.2.next out).world :=
    (idle_stable (fun _ => True) f).between hquiet _ hidle
  exact ⟨entry, outcome, d, mem, u.2, _, hentry, hd.trans hnow.files,
    (hnow.of_running hmem).2.1, hexec, hrecord, h⟩

omit [Sha256] in
theorem afterWindow_leaves (candidate : Candidate) (written : WriteReceipt)
    (commit : Option PendingCommit) :
    Prog.Uses (Sends Leaves) (afterWindow e candidate serviceAction written commit).run := by
  refine sends_of_asks (fun _ hrequest => hrequest) (uses_bind
    (reloadOrDiscard_uses e (fun _ => trivial) (fun _ => trivial) _ _) (fun _ => ?_))
  refine uses_bind (lift_uses (startMounts_uses e (fun _ => trivial) _ _)) (fun mounts => ?_)
  exact uses_bind (actOrDiscard_uses e (fun _ => trivial) (fun _ _ => trivial) _ _ _)
    (fun _ => trivial)

/-- What follows a write that opened no window leaves the files alone. -/
theorem afterWrite_unarmed (hquiet : Quiet m host out) (hidle : Idle journal f s.2.world)
    (hrequired : candidate.commitRequired = false)
    (h : Fallible.exec (engine (attached m host out))
      (afterWrite e candidate serviceAction confirm written) s = (.ok report, t)) :
    Idle journal f t.2.world := by
  obtain ⟨commit, u, hopen, h⟩ := exec_bind_eq_ok _ h
  unfold openWindow at hopen
  rw [hrequired] at hopen
  cases hopen
  exact (idle_stable journal f).run hquiet (afterWindow_leaves candidate written none) hidle h

/-- A timer that was started makes the journal the pending commit. -/
theorem armCommit_arms (hquiet : Quiet m host out) (hhost : Works host)
    (hidle : Idle (· = [entry]) f s.2.world) (hundoable : Undoable host entry old f)
    {service : Option PendingService} {commit : PendingCommit}
    (h : Fallible.exec (engine (attached m host out)) (armCommit e confirm service) s =
      (.ok commit, t)) : Within (Fated host entry old) (Undone entry old) t.2.world := by
  obtain ⟨commitId, s₁, htake, h⟩ := exec_bind_eq_ok _ h
  cases htake
  obtain ⟨⟨timeoutS, rollbackTargets⟩, u, harm, h⟩ := exec_bind_eq_ok _ h
  obtain ⟨deadline, v, htime, h⟩ := exec_bind_eq_ok _ h
  cases h
  obtain ⟨-, response, hserved, hselect⟩ := mapped_served harm
  have harmed : Within (Fated host entry old) (Undone entry old) u.2.world := by
    cases response with
    | confirmTimerStarted commit secs count =>
      have husual : Usual (.confirmTimerStarted commit secs count) := trivial
      obtain ⟨mem, after, hmem, -, hafter, hdispatch⟩ := hserved.pass.dispatch (by simp) (by simp) husual
      have hnow := ((idle_stable (· = [entry]) f).between hquiet _ hidle).of_running hmem
      unfold Within
      rw [hafter]
      cases dispatch_turn m hdispatch with
      | same _ _ hother | resolved _ hother => cases hother
      | armed hpending hmarker =>
        refine .inl ⟨?_, _, rfl, hnow.2.2⟩
        rw [hmarker]
        exact Undoable.of_pending (hnow.1 ▸ hundoable) _
    | _ => cases hselect
  cases htime
  exact (fated_stable hhost).between hquiet _ harmed

variable {commit : Option PendingCommit}

/-- A window that opened covers a write with a backup. -/
theorem openWindow_arms (hquiet : Quiet m host out) (hhost : Works host)
    (hidle : Idle (· = [entry]) f s.2.world) (hundoable : Undoable host entry old f)
    (hrequired : candidate.commitRequired = true)
    (h : Fallible.exec (engine (attached m host out))
      (openWindow e candidate serviceAction confirm written) s = (.ok commit, t)) :
    Within (Fated host entry old) (Undone entry old) t.2.world := by
  unfold openWindow at h
  rw [if_pos hrequired] at h
  obtain ⟨armed, u, harm, h⟩ := exec_bind_eq_ok _ h
  have hfated : Within (Fated host entry old) (Undone entry old) u.2.world := by
    obtain ⟨r, v, hattempt, harm⟩ := exec_bind_eq_ok _ harm
    rw [Fallible.exec_attempt] at hattempt
    injection hattempt with hresult hv
    injection hresult with hresult
    cases r with
    | ok found =>
      cases harm
      exact armCommit_arms hquiet hhost hidle hundoable (Prod.ext hresult hv)
    | error arming =>
      obtain ⟨restored, w, -, harm⟩ := exec_bind_eq_ok _ harm
      cases restored <;> cases harm
  obtain ⟨_, v, hnote, h⟩ := exec_bind_eq_ok _ h
  cases hnote
  split at h
  · cases h
    exact hfated
  · obtain ⟨_, w, -, h⟩ := exec_bind_eq_ok _ h
    cases h

omit [Sha256] in
theorem openWindow_backedUp {σ : Type} {handler : Handler EngineOp σ} {s t : σ}
    (hrequired : candidate.commitRequired = true)
    (h : Fallible.exec handler (openWindow e candidate serviceAction confirm written) s =
      (.ok commit, t)) : written.backedUp = true := by
  unfold openWindow at h
  rw [if_pos hrequired] at h
  obtain ⟨armed, u, -, h⟩ := exec_bind_eq_ok _ h
  obtain ⟨_, v, -, h⟩ := exec_bind_eq_ok _ h
  split at h
  · assumption
  · obtain ⟨_, w, -, h⟩ := exec_bind_eq_ok _ h
    cases h

/-- An apply that reports an armed write will be undone. -/
theorem afterWrite_armed (hquiet : Quiet m host out) (hhost : Works host)
    (hidle : Idle (· = [entry]) f s.2.world) (hundoable : Undoable host entry old f)
    (hrequired : candidate.commitRequired = true)
    (h : Fallible.exec (engine (attached m host out))
      (afterWrite e candidate serviceAction confirm written) s = (.ok report, t)) :
    Within (Fated host entry old) (Undone entry old) t.2.world := by
  obtain ⟨commit, u, hopen, h⟩ := exec_bind_eq_ok _ h
  exact (fated_stable hhost).run hquiet (afterWindow_leaves candidate written commit)
    (openWindow_arms hquiet hhost hidle hundoable hrequired hopen) h

/-! ## What an apply leaves -/

/-- The file at `path` reads `bytes` and the rest is as in `f`, with no commit
pending. -/
def Settled (f : Files) (path : Path) (bytes : Bytes) (w : World) : Prop :=
  ∃ f', Idle (fun _ => True) f' w ∧ f'.node path = some (.file bytes) ∧ f'.pending = f.pending

/-- A commit that puts `bytes` back at `path` is pending, or has put them back. -/
def Doomed (host : Host) (path : Path) (bytes : Bytes) (w : World) : Prop :=
  ∃ entry, entry.path = path ∧ Within (Fated host entry bytes) (Undone entry bytes) w

/-- A write without a window stays; on a host that works, one with a window does
not. -/
theorem carryOut_leaves (hquiet : Quiet m host out) (hkeep : m.allow.config = withStateRoot)
    (hidle : Idle (fun _ => True) f s.2.world) {entry : TargetEntry}
    (hentry : m.allow.target candidate.wiring.target = some entry)
    (hold : f.node entry.path = some (.file old))
    (h : Fallible.exec (engine (attached m host out)) (carryOut e candidate serviceAction confirm)
      s = (.ok report, t)) :
    report.path = candidate.wiring.path ∧
    report.newHash = Sha256.of (utf8 candidate.rendered) ∧
    (candidate.commitRequired = false → Settled f entry.path (utf8 candidate.rendered) t.2.world) ∧
    (candidate.commitRequired = true → Works host → Doomed host entry.path old t.2.world) := by
  obtain ⟨entry', outcome, d, mem, a, fields, hentry', hd, hpending, hexec, hrecord, h⟩ :=
    carryOut_writes hquiet hidle h
  obtain rfl : entry = entry' := Option.some.inj (hentry.symm.trans hentry')
  obtain ⟨previous, hwrote⟩ := writeAtomic_ok hexec
  rw [hd] at hwrote
  obtain ⟨hpath, -, hnew⟩ := afterWrite_report h
  refine ⟨hpath, hnew.trans hwrote.newDigest, fun hrequired => ?_, fun hrequired hhost => ?_⟩
  · -- nothing is journaled
    have hmem : mem.record candidate.commitRequired candidate.wiring.target entry.path outcome = mem := by
      rw [hrequired]
      unfold Mem.record
      split <;> rfl
    have hwritten : Idle (fun _ => True) a.world.disk.toFiles a.world := by
      unfold Idle Within
      rw [hrecord, hmem]
      exact ⟨rfl, hpending, trivial⟩
    refine ⟨_, afterWrite_unarmed hquiet hwritten hrequired h, ?_, ?_⟩
    · rw [hwrote.written]
      exact Function.update_self _ _ _
    · exact hwrote.frame.pending (by simp [writeParts])
  · obtain ⟨commit, v, hopen, -⟩ := exec_bind_eq_ok _ h
    have hbacked : outcome.backup.isSome = true := openWindow_backedUp hrequired hopen
    obtain ⟨backup, hbackup⟩ := Option.isSome_iff_exists.mp hbacked
    have hsmall : (writeRequest m entry (some candidate.current)
        (utf8 candidate.rendered)).keepBackups < Atomic.nameAttempts := by
      simp only [writeRequest, hkeep]
      decide
    obtain ⟨previous, hfound, hundoable⟩ := undoable_of_write rfl hsmall hexec hbackup
      candidate.wiring.target.get
    have hsame : d.node entry.path = f.node entry.path := by rw [hd]
    obtain rfl : previous = old := by
      have hnode := hfound.symm.trans (hsame.trans hold)
      simpa using hnode
    refine ⟨_, rfl, afterWrite_armed hquiet hhost ?_ hundoable hrequired h⟩
    unfold Idle Within
    rw [hrecord, hrequired]
    simp [Mem.record, hbackup, hpending, writeRequest]

omit [Sha256] in
theorem node_of_contents {f : Files} (h : f.contents path = some bytes) :
    f.node path = some (.file bytes) := by
  unfold Files.contents at h
  split at h
  · next found hnode =>
    cases h
    exact hnode
  · cases h

/-- An apply to a module without `commit_confirm` leaves the file as it was when it
reads as asked. Otherwise the write stays without a confirm duration and, on a host
that works, does not stay with one. -/
theorem apply_leaves (hquiet : Quiet m host out) (htables : e.tables = some m.allow.helloAck)
    (hkeep : m.allow.config = withStateRoot) (hidle : Idle (fun _ => True) f s.2.world)
    (hmodule : ∀ module, findModule e id = .ok module → module.descriptor.commitConfirm = false)
    (h : Fallible.exec (engine (attached m host out))
      (Engine.apply e id model expectedHash serviceAction confirm) s = (.ok report, t)) :
    ∃ bytes current rendered,
      Finds m e id model (attached m host out) s report.path bytes current rendered ∧
      (current = rendered ∧ report.newHash = Sha256.of bytes ∧ Idle (fun _ => True) f t.2.world ∨
        current ≠ rendered ∧ report.newHash = Sha256.of (utf8 rendered) ∧
          (confirm = none → Settled f report.path (utf8 rendered) t.2.world) ∧
          (confirm ≠ none → Works host → Doomed host report.path bytes t.2.world)) := by
  obtain ⟨prepared, u, hprepare, h⟩ := exec_bind_eq_ok _ h
  have hread : Idle (fun _ => True) f u.2.world := (idle_stable (fun _ => True) f).run hquiet
    (sends_of_asks (fun _ => leaves_of_looks) (prepare_looks e _ _ _ _ _)) hidle hprepare
  rcases prepare_ok hprepare with ⟨_, rfl, module, wiring, contents, text, v, hfound, hlooked,
    hrenders, hreport⟩ | ⟨candidate, rfl, module, contents, current, v, hfound, -, hlooked, -, -,
    hrenders, hchanged, -, -, -, hrequired, -⟩
  · cases h
    subst hreport
    obtain ⟨hdigest, hwiring, entry, hentry, hpath, hcontents⟩ :=
      looked_idle hquiet htables hidle hlooked
    refine ⟨contents.bytes, text, text, ⟨module, wiring, entry, hfound, hwiring, hentry, hpath, ?_,
      decode_ok hrenders.decoded, hrenders.applied⟩, .inl ⟨rfl, hdigest, hread⟩⟩
    rw [hpath] at hcontents
    exact hcontents
  · obtain ⟨hdigest, hwiring, entry, hentry, hpath, hcontents⟩ :=
      looked_idle hquiet htables hidle hlooked
    have hold : f.node entry.path = some (.file contents.bytes) := by
      rw [hidle.files] at hcontents
      exact node_of_contents hcontents
    obtain ⟨hreport, hnew, hsettled, hdoomed⟩ := carryOut_leaves hquiet hkeep hread hentry hold h
    rw [hmodule module hfound, Bool.false_or] at hrequired
    rw [hrequired] at hsettled hdoomed
    rw [hreport, ← hpath]
    refine ⟨contents.bytes, current, candidate.rendered, ⟨module, candidate.wiring, entry, hfound,
      hwiring, hentry, rfl, hcontents, decode_ok hrenders.decoded, hrenders.applied⟩,
      .inr ⟨hchanged, hnew, fun hnone => hsettled (by rw [hnone]; rfl), fun hsome => hdoomed ?_⟩⟩
    exact Option.isSome_iff_ne_none.mpr hsome

end Apply

section Command

variable [Sha256] (b : Build) (host : Host) (out : Outside) (id : String) (model : Json)
  (expectedHash : Option Sha256Digest) (serviceAction : Option ServiceCommand) (confirm : Option Nat)
  (who : Identity) (lock : LockAnswer) (d : Disk)

/-- The file the report names holds contents of the digest it names, and no commit is
pending. -/
def Stays (report : ApplyReport) (d : Disk) : Prop :=
  (∃ bytes, d.contents report.path = some bytes ∧ Sha256.of bytes = report.newHash) ∧
    d.pending = none

/-- The model renders the file it stands for into the text the file holds when the
engine of the session starts. -/
def RendersSame (found : OneShot.Session) (a : Around) : Prop :=
  ∃ path bytes text, Finds found.setup found.engine id model (found.env host out false)
    (fields, a) path bytes text text

/-- `config apply`. -/
def configApply : Ended :=
  operate b host out (.apply id model expectedHash serviceAction confirm) false who lock d

variable {b host out id model expectedHash serviceAction confirm who lock d} {m : Setup} {w : World}

/-- A monitor that was told to stop is gone. -/
theorem shutdown_stops (a : Around) : ((attached m host out).ask .shutdown a).2.world.mem = none := by
  change ((a.next out).serve m host .shutdown).2.world.mem = none
  cases hmem : (a.next out).world.mem with
  | none =>
    simp only [Around.serve, hmem]
  | some mem =>
    rcases hrun : (serveStep m mem .shutdown).run (sys host) (a.next out).world.disk with
      ⟨⟨answer, mem'⟩, d'⟩
    have hgone : mem' = none := by
      obtain ⟨⟨r, mem₁⟩, d₁, -, hrun⟩ := Prog.run_bind_eq _ hrun
      cases r with
      | error err => exact (Prod.mk.inj (leave_response m hrun)).2
      | ok response =>
        dsimp only at hrun
        rw [if_pos (.inl rfl)] at hrun
        exact (Prod.mk.inj (leave_response m hrun)).2
    simp only [Around.serve, hmem, World.after, hrun, hgone]

theorem Settled.reaches (hquiet : Quiet m host out) {f : Files} {s t : Engine.Session × Around}
    (h : Settled f path bytes s.2.world) (hreaches : Reaches (attached m host out) Looks s t) :
    Settled f path bytes t.2.world := by
  obtain ⟨f', hidle, hrest⟩ := h
  exact ⟨f', Stable.reaches (idle_stable (fun _ => True) f') hquiet (fun _ => leaves_of_looks)
    hreaches hidle, hrest⟩

theorem Doomed.reaches (hquiet : Quiet m host out) (hhost : Works host)
    {s t : Engine.Session × Around} (h : Doomed host path bytes s.2.world)
    (hreaches : Reaches (attached m host out) Looks s t) : Doomed host path bytes t.2.world := by
  obtain ⟨entry, hpath, hwithin⟩ := h
  exact ⟨entry, hpath, Stable.reaches (fated_stable hhost) hquiet (fun _ => leaves_of_looks)
    hreaches hwithin⟩

/-- What is settled stays settled when the command ends. -/
theorem Settled.finish (hquiet : Quiet m host out) {f : Files} (h : Settled f path bytes a.world) :
    Settled f path bytes ((attached m host out).ask .shutdown a).2.world := by
  obtain ⟨f', hidle, hnode, hpending⟩ := h
  have hleaves : Leaves .shutdown := trivial
  exact ⟨f', (idle_stable (fun _ => True) f').ask hquiet hleaves hidle, hnode, hpending⟩

/-- A doomed write is undone when the command ends. -/
theorem Doomed.finish (hquiet : Quiet m host out) (hhost : Works host)
    (h : Doomed host path bytes a.world) :
    ((attached m host out).ask .shutdown a).2.world.disk.node path = some (.file bytes) := by
  obtain ⟨entry, rfl, hwithin⟩ := h
  have hleaves : Leaves .shutdown := trivial
  have hend := (fated_stable hhost).ask hquiet hleaves hwithin
  unfold Within at hend
  rw [shutdown_stops] at hend
  exact hend

theorem Settled.stays {f : Files} (h : Settled f path bytes w) (hpending : f.pending = none)
    (hpath : report.path = path) (hnew : report.newHash = Sha256.of bytes) :
    Stays report w.disk := by
  obtain ⟨f', hidle, hnode, hsame⟩ := h
  have hfiles := hidle.files
  refine ⟨⟨bytes, ?_, hnew.symm⟩, ?_⟩
  · rw [hpath, hfiles]
    simp only [Files.contents, hnode]
  · rw [hfiles, hsame, hpending]

omit [Sha256] in
theorem exitFor_ne_ok (err : OpsError) : b.exitFor err ≠ .ok := by
  unfold Build.exitFor
  split
  · simp
  · split <;> simp

omit [Sha256] in
/-- Without `--dryrun` the operation itself is run. -/
theorem executeAs_ok {σ : Type} {env : Env σ} {op : Operation} {s s' : Engine.Session × σ}
    {executed : Executed}
    (h : (found.executeAs op false who allowAll).run (engine env) s = (.ok executed, s')) :
    ∃ outcome, executed = .ran outcome ∧
      (execute found.engine op who allowAll).run (engine env) s = (.ok outcome, s') := by
  obtain ⟨r, t, hexecute, h⟩ := Prog.run_bind_eq _ h
  cases r with
  | error err => cases h
  | ok outcome =>
    cases h
    exact ⟨outcome, rfl, hexecute⟩

/-- A command that reported success ran the apply in a session of its own. -/
theorem configApply_ok
    (h : (configApply b host out id model expectedHash serviceAction confirm who lock d).exit = .ok) :
    b.needsServe (.apply id model expectedHash serviceAction confirm) = false ∧
    ∃ found a outcome t, startSession b host out true lock d = (some found, a) ∧
      (execute found.engine (.apply id model expectedHash serviceAction confirm) who allowAll).run
        (engine (found.env host out false)) (fields, a) = (.ok outcome, t) ∧
      configApply b host out id model expectedHash serviceAction confirm who lock d =
        { exit := .ok, result := some (.ok (.ran outcome)), around := found.finish host out t.2 } := by
  unfold configApply operate at h ⊢
  split at h
  · cases h
  · next hneeds =>
    rw [if_neg hneeds]
    refine ⟨by simpa using hneeds, ?_⟩
    change (runSession _ _ _ _ _ _ (startSession b host out true lock d)).exit = .ok at h
    change ∃ found a outcome t, _ ∧ _ ∧ runSession _ _ _ _ _ _ (startSession b host out true lock d) = _
    rcases hstart : startSession b host out true lock d with ⟨_ | found, a⟩
    · rw [hstart] at h
      cases h
    · rw [hstart] at h
      rcases hran : (found.executeAs (.apply id model expectedHash serviceAction confirm) false who
        allowAll).run (engine (found.env host out false)) (fields, a) with ⟨err | executed, t⟩
      · simp only [runSession, hran, Build.exitOf] at h
        exact absurd h (exitFor_ne_ok err)
      · obtain ⟨outcome, rfl, hexecute⟩ := executeAs_ok hran
        simp only [runSession, hran] at h ⊢
        exact ⟨found, a, outcome, t, rfl, hexecute, by rw [h]⟩

omit [Sha256] in
/-- The module of an apply that `operate` lets through does not ask for a window. -/
theorem not_commitConfirm {e : OpsEngine} (hmodules : e.modules = b.modules)
    (h : b.needsServe (.apply id model expectedHash serviceAction confirm) = false) :
    ∀ module, findModule e id = .ok module → module.descriptor.commitConfirm = false := by
  intro module hfound
  unfold findModule at hfound
  split at hfound
  · next found hfind =>
    cases hfound
    simp only [Build.needsServe, List.any_eq_false, Bool.and_eq_true, decide_eq_true_eq,
      not_and, Bool.not_eq_true] at h
    rw [hmodules] at hfind
    exact h module (List.mem_of_find?_eq_some hfind) (by simpa using List.find?_some hfind)
  · cases hfound

/-- A `config apply` that reports success leaves what it reported, exactly when no
confirm duration was given or there was nothing to write. The first direction holds on
every host; for the other the calls of the rollback must work. -/
theorem one_shot_apply_stays_iff (hinj : Function.Injective (Sha256.of : Bytes → Sha256Digest))
    (hquiet : ∀ allow, Allowlist.fromModules (b.modules.map (·.descriptor)) withStateRoot =
      .ok allow → Quiet (b.setup allow) host out)
    (hok : (configApply b host out id model expectedHash serviceAction confirm who lock d).exit = .ok) :
    ∃ found a report, startSession b host out true lock d = (some found, a) ∧
      (configApply b host out id model expectedHash serviceAction confirm who lock d).result =
        some (.ok (.ran (.applied report))) ∧
      ((confirm = none ∨ RendersSame host out id model found a) → Stays report
        (configApply b host out id model expectedHash serviceAction confirm who lock
          d).around.world.disk) ∧
      (Works host → Stays report
        (configApply b host out id model expectedHash serviceAction confirm who lock
          d).around.world.disk → confirm = none ∨ RendersSame host out id model found a) := by
  obtain ⟨hneeds, found, a, outcome, t, hstart, hexecute, hended⟩ := configApply_ok hok
  obtain ⟨allow, hq, rfl, hconfig, hidle, hpending⟩ := start_idle hquiet hstart
  rw [session_env] at hexecute
  obtain ⟨report, u, v, rfl, happly, hbefore, hafter⟩ := execute_apply_ok hexecute
  have hu : Idle (fun _ => True) a.world.disk.toFiles u.2.world :=
    Stable.reaches (idle_stable (fun _ => True) _) hq (fun _ => leaves_of_looks) hbefore hidle
  obtain ⟨bytes, current, rendered, hlater, hcases⟩ :=
    apply_leaves hq rfl hconfig hu (not_commitConfirm rfl hneeds) happly
  have hfinds : Finds (b.setup allow) (b.engine allow.helloAck) id model _ (fields, a) report.path
      bytes current rendered := hlater.transport hq hu.files
  refine ⟨session b allow, a, report, hstart, by rw [hended], ?_⟩
  rw [hended]
  rcases hcases with ⟨rfl, hnew, hv⟩ | ⟨hchanged, hnew, hsettled, hdoomed⟩
  · -- nothing was written
    have hcopy := hfinds
    obtain ⟨module, wiring, entry, -, -, -, -, hcontents, -⟩ := hcopy
    have hkept : Settled a.world.disk.toFiles report.path bytes v.2.world :=
      ⟨_, hv, node_of_contents hcontents, rfl⟩
    exact ⟨fun _ => ((hkept.reaches hq hafter).finish hq).stays hpending rfl hnew,
      fun _ _ => .inr ⟨report.path, bytes, current, hfinds⟩⟩
  · refine ⟨fun hwhen => ?_, fun hhost hstays => ?_⟩
    · rcases hwhen with hnone | ⟨path, bytes', text, hsame⟩
      · exact (((hsettled hnone).reaches hq hafter).finish hq).stays hpending rfl hnew
      · obtain ⟨hcurrent, hrendered⟩ := hfinds.unique hsame
        exact absurd (hcurrent.trans hrendered.symm) hchanged
    · by_contra hnot
      have hundone := ((hdoomed (fun hnone => hnot (.inl hnone)) hhost).reaches hq hhost
        hafter).finish hq hhost
      obtain ⟨⟨left, hleft, hdigest⟩, -⟩ := hstays
      -- the file holds the previous contents, which read differently
      have hback : left = bytes := by
        have hnode := (node_of_contents hleft).symm.trans hundone
        simpa using hnode
      obtain ⟨module, wiring, entry, -, -, -, -, -, htext, -⟩ := hfinds
      have hbytes : bytes = utf8 rendered := hinj (hback ▸ hdigest.trans hnew)
      rw [hbytes, ofUtf8_utf8] at htext
      exact hchanged (Option.some.inj htext).symm

end Command

section Runs

attribute [local instance] Sample.sha256

/-- A program with the one small module. -/
def build : Build where
  modules := [Sample.module]
  updateTagRefusal _ := none
  updater := false
  checkUpdateTag _ := none
  moduleErrorId _ := "module-error"
  permissionDenied _ := false

def surroundings : Outside := Sample.outside (fun _ w => w)

theorem surroundings_quiet (m : Setup) : Quiet m Sample.host surroundings :=
  ⟨fun _ _ => ⟨0, rfl⟩, fun _ _ _ => rfl⟩

/-- `config apply` of `b` to a file that reads `a`. -/
def applied (confirm : Option Nat) : Ended :=
  configApply build Sample.host surroundings "hosts" "b" none none confirm Sample.caller .held
    (Sample.disk [97])

def reportOf (ended : Ended) : Option ApplyReport :=
  match ended.result with
  | some (.ok (.ran (.applied report))) => some report
  | _ => none

theorem result_of_report {ended : Ended} (h : reportOf ended = some report) :
    ended.result = some (.ok (.ran (.applied report))) := by
  unfold reportOf at h
  split at h
  · next found hresult =>
    cases h
    exact hresult
  · cases h

/-- Without a confirm duration the write stays. -/
theorem plain_apply_stays : (applied none).around.world.disk.contents Sample.path = some [98] ∧
    ∃ found a report, startSession build Sample.host surroundings true .held (Sample.disk [97]) =
        (some found, a) ∧
      (applied none).result = some (.ok (.ran (.applied report))) ∧
      (((none : Option Nat) = none ∨ RendersSame Sample.host surroundings "hosts" "b" found a) →
        Stays report (applied none).around.world.disk) ∧
      (Works Sample.host → Stays report (applied none).around.world.disk →
        (none : Option Nat) = none ∨ RendersSame Sample.host surroundings "hosts" "b" found a) :=
  ⟨by decide +kernel, one_shot_apply_stays_iff Sample.of_injective
    (fun _ _ => surroundings_quiet _) (by decide +kernel)⟩

/-- With one, the command reports success and the file reads as before. -/
theorem windowed_apply_is_undone : (applied (some 90)).exit = .ok ∧
    (applied (some 90)).around.world.disk.contents Sample.path = some [97] ∧
    ∃ report, (applied (some 90)).result = some (.ok (.ran (.applied report))) ∧
      report.path = Sample.path ∧ ¬ Stays report (applied (some 90)).around.world.disk := by
  have hcontents : (applied (some 90)).around.world.disk.contents Sample.path = some [97] := by
    decide +kernel
  have hreport : (reportOf (applied (some 90))).map (fun report => (report.path, report.newHash)) =
      some (Sample.path, Sha256.of [98]) := by
    decide +kernel
  obtain ⟨report, hfound, hpair⟩ := Option.map_eq_some_iff.mp hreport
  obtain ⟨hpath, hnew⟩ := Prod.mk.inj hpair
  refine ⟨by decide +kernel, hcontents, report, result_of_report hfound, hpath, ?_⟩
  rintro ⟨⟨bytes, hbytes, hdigest⟩, -⟩
  rw [hpath, hcontents] at hbytes
  obtain rfl := Option.some.inj hbytes
  have hsame := Sample.of_injective (hdigest.trans hnew)
  revert hsame
  decide

end Runs

end Detent.Guarantees.OneShotApply
