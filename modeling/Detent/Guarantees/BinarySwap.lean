import Detent.Source.Install

/-!
# What a swap leaves behind

`crates/detent-update/src/install.rs:32-145`. One lemma for each step says when the
step succeeds and what it changes; `swap_cases` puts them together. The steps up to
the rename leave the target alone, so a swap that fails there is undone; a failure
to flush the directory comes after the rename.
-/
namespace Detent.Guarantees.BinarySwap
open Lib Source Source.Install
open Fallible (Cut Uses cut_bind cut_end cut_pure cut_throw exec exec_attempt exec_bind
  exec_bind_cases exec_bind_eq_ok exec_perform uses_bind uses_perform uses_pure uses_throw)
open InstallOp (cutShort effect perform)

variable {host : Host} {d d' : Dir} {target previous candidate : Path}

/-! ## Calls -/

/-- The calls that leave the file at `path` alone. -/
def Spares (path : Path) : (β : Type) → Effect β → Prop
  | _, .call (.removePrevious other) | _, .call (.takeBack other)
  | _, .call (.hardLink _ other) | _, .call (.copyPrevious _ other)
  | _, .call (.renameStaged other) => other ≠ path
  | _, .call (.renamePrevious one other) => one ≠ path ∧ other ≠ path
  | _, _ => True

variable {path : Path} {β : Type} {r : Except UpdateError Unit}

theorem set_of_ne {d : Dir} {other : Path} {node : Option Node} (h : other ≠ path) :
    (d.set other node).node path = d.node path :=
  Function.update_of_ne h.symm _ _

theorem set_self {d : Dir} {node : Option Node} : (d.set path node).node path = node :=
  Function.update_self ..

theorem effect_spares {op : InstallOp β} (h : Spares path _ (.call op)) :
    (op.effect d).2.node path = d.node path := by
  cases op with
  | symlinkMetadata other | openCandidate other =>
    simp only [effect]
    split <;> rfl
  | removePrevious other | takeBack other =>
    simp only [effect, Dir.removeFile]
    split
    · exact set_of_ne h
    all_goals rfl
  | hardLink from' other =>
    simp only [effect]
    split
    · exact set_of_ne h
    all_goals rfl
  | copyPrevious from' other =>
    simp only [effect]
    split
    · rfl
    · exact set_of_ne h
    all_goals rfl
  | renameStaged other =>
    simp only [effect]
    split
    · exact set_of_ne h
    · rfl
  | renamePrevious one other =>
    simp only [effect]
    split
    · exact (set_of_ne h.1).trans (set_of_ne h.2)
    · rfl
  | _ => rfl

theorem cutShort_spares {op : InstallOp β} {written : Nat} (h : Spares path _ (.call op))
    (hcut : op.cutShort written d = some d') : d'.node path = d.node path := by
  cases op with
  | copyStaged bytes =>
    cases hcut
    rfl
  | copyPrevious from' other =>
    simp only [cutShort] at hcut
    split at hcut <;> cases hcut
    exact set_of_ne h
  | _ => cases hcut

theorem apply_spares (host : Host) (e : Effect β) (h : Spares path β e) :
    ((sys host).apply e d).2.node path = d.node path := by
  cases e with
  | call op =>
    change (op.perform host d).2.node path = _
    unfold perform
    split
    · exact effect_spares h
    · rename_i kind written _
      dsimp only
      cases hcut : op.cutShort written d with
      | none => rfl
      | some t => exact cutShort_spares h hcut

theorem torn_spares {e : Effect β} (h : Spares path β e) (htorn : (sys host).torn e d d') :
    d'.node path = d.node path := by
  cases e with
  | call op =>
    obtain ⟨written, hcut⟩ := htorn
    exact cutShort_spares h hcut

section Programs

variable {α : Type} {x : InstallM α}

/-- A crash of a program that spares a file leaves it as it was. -/
theorem cut_spares (hx : Uses (Spares target) x) (h : Cut (sys host) x d d') :
    d'.node target = d.node target :=
  Prog.Uses.cut_invariant (I := fun t => t.node target = d.node target) hx
    (fun _ _ _ he ht => (apply_spares host _ he).trans ht) (fun _ _ _ _ he ht htorn =>
      (torn_spares he htorn).trans ht) rfl h

theorem exec_spares {r : Except UpdateError α} (hx : Uses (Spares target) x)
    (h : exec (sys host) x d = (r, d')) : d'.node target = d.node target :=
  cut_spares hx (cut_end (sys host) h)

theorem exec_node {r : Except UpdateError α} (hx : ∀ path, Uses (Spares path) x)
    (h : exec (sys host) x d = (r, d')) : d'.node = d.node :=
  funext fun path => exec_spares (hx path) h

theorem uses_call {step : String} {op : InstallOp β} (h : Spares target _ (.call op)) :
    Uses (Spares target) (call step op) := by
  refine uses_bind (uses_perform h) (fun r => ?_)
  cases r with
  | ok value => exact uses_pure value
  | error kind => exact uses_throw _

theorem uses_orDrop (hx : Uses (Spares target) x) :
    Uses (Spares target) (orDrop x) := by
  refine uses_bind (Fallible.uses_attempt hx) (fun r => ?_)
  cases r with
  | ok value => exact uses_pure value
  | error err =>
    exact uses_bind (uses_perform trivial) (fun _ => uses_throw _)

theorem uses_stage (mode : Nat) : Uses (Spares target) (stage candidate mode) := by
  refine uses_bind (uses_call trivial) (fun _ => uses_orDrop ?_)
  refine uses_bind (uses_call trivial) (fun _ => ?_)
  refine uses_bind (uses_call trivial) (fun _ => ?_)
  exact uses_bind (uses_call trivial) (fun _ => uses_call trivial)

theorem uses_keepPrevious (h : previous ≠ target) :
    Uses (Spares target) (keepPrevious target previous) := by
  refine uses_bind (uses_perform h) (fun _ => ?_)
  refine uses_bind (uses_perform h) (fun r => ?_)
  cases r with
  | ok value => exact uses_pure _
  | error kind => exact uses_call h

theorem uses_syncDirectory : Uses (Spares target) syncDirectory :=
  uses_bind (uses_call trivial) (fun _ => uses_call trivial)

end Programs

/-! ## Steps -/

theorem perform_ok {op : InstallOp β} {value : β} (h : op.perform host d = (.ok value, d')) :
    host.fault op = none ∧ op.effect d = (.ok value, d') := by
  unfold perform at h
  split at h
  · rename_i hfault
    exact ⟨hfault, h⟩
  · cases h

theorem perform_error {op : InstallOp β} {kind : ErrorKind}
    (h : op.perform host d = (.error kind, d')) :
    host.fault op ≠ none ∨ op.effect d = (.error kind, d') := by
  unfold perform at h
  split at h
  · exact .inr h
  · rename_i hfault
    rw [hfault]
    exact .inl nofun

theorem perform_none {op : InstallOp β} (h : host.fault op = none) :
    op.perform host d = op.effect d := by
  unfold perform
  rw [h]

theorem exec_call (step : String) (op : InstallOp β) (d : Dir) :
    exec (sys host) (call step op) d =
      match op.perform host d with
      | (.ok value, t) => (.ok value, t)
      | (.error kind, t) => (.error (.install step kind), t) := by
  have hperform : (sys host).apply (.call op) d = op.perform host d := rfl
  rw [call, exec_bind, exec_perform, hperform]
  rcases op.perform host d with ⟨value | kind, t⟩ <;> rfl

theorem call_ok {step : String} {op : InstallOp β} {value : β}
    (h : exec (sys host) (call step op) d = (.ok value, d')) :
    host.fault op = none ∧ op.effect d = (.ok value, d') := by
  rw [exec_call] at h
  split at h
  · rename_i hperform
    cases h
    exact perform_ok hperform
  · cases h

theorem call_error {step : String} {op : InstallOp β} {err : UpdateError}
    (h : exec (sys host) (call step op) d = (.error err, d')) :
    host.fault op ≠ none ∨ ∃ kind, op.effect d = (.error kind, d') := by
  rw [exec_call] at h
  split at h
  · cases h
  · rename_i kind t hperform
    cases h
    exact (perform_error hperform).imp_right (fun heffect => ⟨kind, heffect⟩)

/-- A step that drops the staged file when it fails. -/
theorem exec_orDrop {x : InstallM β} {r : Except UpdateError β}
    (h : exec (sys host) (orDrop x) d = (r, d')) :
    (∃ value, r = .ok value ∧ exec (sys host) x d = (.ok value, d')) ∨
      ∃ err t, r = .error err ∧ exec (sys host) x d = (.error err, t) ∧
        d'.node = t.node := by
  unfold orDrop at h
  rw [exec_bind, exec_attempt] at h
  rcases hx : exec (sys host) x d with ⟨err | value, t⟩
  · simp only [hx] at h
    refine .inr ⟨err, t, ?_⟩
    rw [exec_bind, exec_perform] at h
    cases h
    refine ⟨rfl, rfl, ?_⟩
    funext path
    exact apply_spares host (.call .removeStaged) trivial
  · simp only [hx] at h
    cases h
    exact .inl ⟨value, rfl, rfl⟩

/-- Every call of `stage` succeeds, and `bytes` are the candidate's. -/
structure Stages (host : Host) (d : Dir) (candidate : Path) (mode : Nat) (bytes : Bytes) :
    Prop where
  found : ∃ m, d.node candidate = some (.file bytes m)
  create : host.fault .createStaged = none
  read : host.fault (.openCandidate candidate) = none
  copy : host.fault (.copyStaged bytes) = none
  setMode : host.fault (.setMode mode) = none
  sync : host.fault .syncStaged = none

theorem stage_cases {mode : Nat} (h : exec (sys host) (stage candidate mode) d = (r, d')) :
    (∃ bytes, Stages host d candidate mode bytes ∧ r = .ok () ∧ d'.staged = some (bytes, mode)) ∨
      (∀ bytes, ¬Stages host d candidate mode bytes) ∧ ∃ err, r = .error err := by
  rcases exec_bind_cases (sys host) h with ⟨err, rfl, hcreate⟩ | ⟨_, t, hcreate, hrest⟩
  · refine .inr ⟨fun bytes hstages => ?_, err, rfl⟩
    rcases call_error hcreate with hfault | ⟨kind, heffect⟩
    · exact hfault hstages.create
    · cases heffect
  obtain ⟨hcreated, heffect⟩ := call_ok hcreate
  cases heffect
  clear h hcreate
  rcases exec_orDrop hrest with ⟨⟨⟩, rfl, hsteps⟩ | ⟨err, u, rfl, hsteps, -⟩
  · obtain ⟨bytes, t₁, hopen, hsteps⟩ := exec_bind_eq_ok (sys host) hsteps
    obtain ⟨hread, hopened⟩ := call_ok hopen
    obtain ⟨_, t₂, hcopy, hsteps⟩ := exec_bind_eq_ok (sys host) hsteps
    obtain ⟨hcopied, hcopy⟩ := call_ok hcopy
    obtain ⟨_, t₃, hmode, hsync⟩ := exec_bind_eq_ok (sys host) hsteps
    obtain ⟨hmoded, hmode⟩ := call_ok hmode
    obtain ⟨hsynced, hsync⟩ := call_ok hsync
    simp only [effect] at hopened
    split at hopened
    · rename_i hfound
      cases hopened
      cases hcopy
      cases hmode
      cases hsync
      exact .inl ⟨bytes, ⟨⟨_, hfound⟩, hcreated, hread, hcopied, hmoded, hsynced⟩, rfl, rfl⟩
    all_goals cases hopened
  · refine .inr ⟨fun bytes hstages => ?_, err, rfl⟩
    obtain ⟨m, hfound⟩ := hstages.found
    rcases exec_bind_cases (sys host) hsteps with ⟨_, -, hopen⟩ | ⟨read, t₁, hopen, hsteps⟩
    · rcases call_error hopen with hfault | ⟨kind, heffect⟩
      · exact hfault hstages.read
      · simp only [effect, hfound] at heffect
        cases heffect
    obtain ⟨-, hopened⟩ := call_ok hopen
    simp only [effect, hfound] at hopened
    cases hopened
    rcases exec_bind_cases (sys host) hsteps with ⟨_, -, hcopy⟩ | ⟨_, t₂, hcopy, hsteps⟩
    · rcases call_error hcopy with hfault | ⟨kind, heffect⟩
      · exact hfault hstages.copy
      · cases heffect
    rcases exec_bind_cases (sys host) hsteps with ⟨_, -, hmode⟩ | ⟨_, t₃, hmode, hsync⟩
    · rcases call_error hmode with hfault | ⟨kind, heffect⟩
      · exact hfault hstages.setMode
      · cases heffect
    rcases call_error hsync with hfault | ⟨kind, heffect⟩
    · exact hfault hstages.sync
    · cases heffect

/-- The old binary can be kept: a link to a free name, or else a copy. -/
def Keeps (host : Host) (d : Dir) (target previous : Path) : Prop :=
  (host.fault (.hardLink target previous) = none ∧
    (d.node previous = none ∨ ((∃ bytes mode, d.node previous = some (.file bytes mode)) ∧
      host.fault (.removePrevious previous) = none))) ∨
  (host.fault (.copyPrevious target previous) = none ∧ d.node previous ≠ some .special)

/-- What the removal of the binary kept before leaves. -/
theorem removePrevious_cases (host : Host) (d : Dir) (previous : Path) :
    let after := ((InstallOp.removePrevious previous).perform host d).2
    after.staged = d.staged ∧
    (after.node previous = none ↔ d.node previous = none ∨
      ((∃ bytes mode, d.node previous = some (.file bytes mode)) ∧
        host.fault (.removePrevious previous) = none)) ∧
    (after.node previous = some .special ↔ d.node previous = some .special) := by
  unfold perform
  cases hfault : host.fault (.removePrevious previous) with
  | some fault => simp [cutShort]
  | none =>
    cases hnode : d.node previous with
    | none => simp [effect, Dir.removeFile, hnode]
    | some found =>
      cases found with
      | special => simp [effect, Dir.removeFile, hnode]
      | file bytes mode => simp [effect, Dir.removeFile, hnode, Dir.set]

section Keep

variable {old : Bytes} {mode : Nat}

theorem hardLink_cases (host : Host) (previous : Path)
    (htarget : d.node target = some (.file old mode)) :
    (host.fault (.hardLink target previous) = none ∧ d.node previous = none ∧
      (InstallOp.hardLink target previous).perform host d =
        (.ok (), d.set previous (some (.file old mode)))) ∨
    (¬(host.fault (.hardLink target previous) = none ∧ d.node previous = none) ∧
      ∃ kind, (InstallOp.hardLink target previous).perform host d = (.error kind, d)) := by
  unfold perform
  cases hfault : host.fault (.hardLink target previous) with
  | some fault => exact .inr ⟨fun h => by simp at h, fault.1, rfl⟩
  | none =>
    cases hnode : d.node previous with
    | none => exact .inl ⟨rfl, rfl, by simp [effect, htarget, hnode]⟩
    | some found =>
      exact .inr ⟨fun h => by simp at h, .alreadyExists, by simp [effect, hnode]⟩

theorem copyPrevious_cases (host : Host) (previous : Path)
    (htarget : d.node target = some (.file old mode)) :
    (host.fault (.copyPrevious target previous) = none ∧ d.node previous ≠ some .special ∧
      (InstallOp.copyPrevious target previous).perform host d =
        (.ok (), d.set previous (some (.file old mode)))) ∨
    (¬(host.fault (.copyPrevious target previous) = none ∧ d.node previous ≠ some .special) ∧
      ∃ kind t, (InstallOp.copyPrevious target previous).perform host d = (.error kind, t) ∧
        t.staged = d.staged) := by
  unfold perform
  cases hfault : host.fault (.copyPrevious target previous) with
  | some fault =>
    refine .inr ⟨fun h => by simp at h, fault.1, _, rfl, ?_⟩
    simp only [cutShort, htarget]
    split <;> rfl
  | none =>
    cases hnode : d.node previous with
    | none => exact .inl ⟨rfl, nofun, by simp [effect, htarget, hnode]⟩
    | some found =>
      cases found with
      | special =>
        exact .inr ⟨fun h => h.2 rfl, .notAFile, d, by simp [effect, htarget, hnode], rfl⟩
      | file bytes m => exact .inl ⟨rfl, nofun, by simp [effect, htarget, hnode]⟩

theorem keepPrevious_cases (hne : previous ≠ target) (hold : d.node target = some (.file old mode))
    (h : exec (sys host) (keepPrevious target previous) d = (r, d')) :
    d'.staged = d.staged ∧
      ((Keeps host d target previous ∧ r = .ok () ∧ d'.node previous = some (.file old mode)) ∨
        (¬Keeps host d target previous ∧ ∃ err, r = .error err)) := by
  obtain ⟨hstaged, hnone, hspecial⟩ := removePrevious_cases host d previous
  have htarget : ((InstallOp.removePrevious previous).perform host d).2.node target =
      some (.file old mode) :=
    (apply_spares host (.call (.removePrevious previous)) hne).trans hold
  have hkeeps : Keeps host d target previous ↔
      (host.fault (.hardLink target previous) = none ∧
        ((InstallOp.removePrevious previous).perform host d).2.node previous = none) ∨
      (host.fault (.copyPrevious target previous) = none ∧
        ((InstallOp.removePrevious previous).perform host d).2.node previous ≠ some .special) := by
    rw [Keeps, hnone, ne_eq, ne_eq, hspecial]
  have happly : ∀ (op : InstallOp Unit) t, (sys host).apply (.call op) t = op.perform host t :=
    fun _ _ => rfl
  rw [keepPrevious, exec_bind, exec_perform] at h
  dsimp only at h
  rw [exec_bind, exec_perform] at h
  simp only [happly] at h
  rw [hkeeps, ← hstaged]
  generalize ((InstallOp.removePrevious previous).perform host d).2 = t at *
  rcases hardLink_cases host previous htarget with
    ⟨hfault, hfree, hlink⟩ | ⟨hnot, kind, hlink⟩
  · simp only [hlink] at h
    cases h
    exact ⟨rfl, .inl ⟨.inl ⟨hfault, hfree⟩, rfl, set_self⟩⟩
  · simp only [hlink, exec_call] at h
    rcases copyPrevious_cases host previous htarget with
      ⟨hfault, hfile, hcopy⟩ | ⟨hno, kind, u, hcopy, hsame⟩
    · simp only [hcopy] at h
      cases h
      exact ⟨rfl, .inl ⟨.inr ⟨hfault, hfile⟩, rfl, set_self⟩⟩
    · simp only [hcopy] at h
      cases h
      exact ⟨hsame, .inr ⟨fun hkept => hkept.elim hnot hno, _, rfl⟩⟩

end Keep

/-- The directory can be opened and flushed. -/
def Syncs (host : Host) : Prop :=
  host.fault .openDirectory = none ∧ host.fault .syncDirectory = none

theorem syncDirectory_cases (h : exec (sys host) syncDirectory d = (r, d')) :
    d'.node = d.node ∧ ((Syncs host ∧ r = .ok ()) ∨ (¬Syncs host ∧ ∃ err, r = .error err)) := by
  have hsame : d'.node = d.node := exec_node (fun _ => uses_syncDirectory) h
  refine ⟨hsame, ?_⟩
  rcases exec_bind_cases (sys host) h with ⟨err, rfl, hopen⟩ | ⟨_, t, hopen, hsync⟩
  · refine .inr ⟨fun hsyncs => ?_, err, rfl⟩
    rcases call_error hopen with hfault | ⟨kind, heffect⟩
    · exact hfault hsyncs.1
    · cases heffect
  · cases r with
    | ok value => exact .inl ⟨⟨(call_ok hopen).1, (call_ok hsync).1⟩, rfl⟩
    | error err =>
      refine .inr ⟨fun hsyncs => ?_, err, rfl⟩
      rcases call_error hsync with hfault | ⟨kind, heffect⟩
      · exact hfault hsyncs.2
      · cases heffect

/-! ## The swap -/

theorem previousPath_ne (target : Path) : previousPath target ≠ target := by
  intro h
  have hlength := congrArg String.length h
  simp [previousPath, String.length_append] at hlength

section Swap

variable {old new : Bytes} {mode : Nat}

theorem keepAndPersist_cases (hne : previous ≠ target)
    (hold : d.node target = some (.file old mode)) (hstaged : d.staged = some (new, mode))
    (h : exec (sys host) (keepAndPersist target previous) d = (r, d')) :
    (Keeps host d target previous ∧ host.fault (.renameStaged target) = none ∧
      d'.node target = some (.file new mode) ∧ d'.node previous = some (.file old mode) ∧
      ((Syncs host ∧ r = .ok ()) ∨ (¬Syncs host ∧ ∃ err, r = .error err))) ∨
    (¬(Keeps host d target previous ∧ host.fault (.renameStaged target) = none) ∧
      d'.node target = d.node target ∧ ∃ err, r = .error err) := by
  have hkept := uses_orDrop (uses_keepPrevious hne)
  rcases exec_bind_cases (sys host) h with ⟨err, rfl, hkeep⟩ | ⟨_, t, hkeep, hrest⟩
  · refine .inr ⟨fun hboth => ?_, exec_spares hkept hkeep, err, rfl⟩
    rcases exec_orDrop hkeep with ⟨_, hok, -⟩ | ⟨_, u, -, hfailed, -⟩
    · cases hok
    · obtain ⟨-, ⟨-, hok, -⟩ | ⟨hnot, -⟩⟩ := keepPrevious_cases hne hold hfailed
      · cases hok
      · exact hnot hboth.1
  have htarget : t.node target = some (.file old mode) := (exec_spares hkept hkeep).trans hold
  obtain ⟨hkeeps, htstaged, htprevious⟩ : Keeps host d target previous ∧
      t.staged = d.staged ∧ t.node previous = some (.file old mode) := by
    rcases exec_orDrop hkeep with ⟨_, -, hdone⟩ | ⟨_, _, hfailed, -⟩
    · obtain ⟨hsame, ⟨hkeeps, -, hprevious⟩ | ⟨-, _, hfailed⟩⟩ := keepPrevious_cases hne hold hdone
      · exact ⟨hkeeps, hsame, hprevious⟩
      · cases hfailed
    · cases hfailed
  rcases exec_bind_cases (sys host) hrest with ⟨err, rfl, hpersist⟩ | ⟨_, u, hpersist, hsync⟩
  · -- a failed rename changes nothing
    refine .inr ?_
    rcases exec_orDrop hpersist with ⟨_, hok, -⟩ | ⟨_, u, -, hfailed, hsame⟩
    · cases hok
    · have hfault : host.fault (.renameStaged target) ≠ none := by
        rcases call_error hfailed with hfault | ⟨kind, heffect⟩
        · exact hfault
        · simp only [effect, htstaged, hstaged] at heffect
          cases heffect
      refine ⟨fun hboth => hfault hboth.2, ?_, err, rfl⟩
      rw [hsame, hold, ← htarget]
      rw [persist, exec_call, perform] at hfailed
      cases hf : host.fault (.renameStaged target) with
      | none => exact absurd hf hfault
      | some fault =>
        simp only [hf] at hfailed
        cases hfailed
        rfl
  · obtain ⟨hrename, heffect⟩ : host.fault (.renameStaged target) = none ∧
        (InstallOp.renameStaged target).effect t = (.ok (), u) := by
      rcases exec_orDrop hpersist with ⟨_, -, hdone⟩ | ⟨_, _, hfailed, -⟩
      · exact call_ok hdone
      · cases hfailed
    simp only [effect, htstaged, hstaged] at heffect
    cases heffect
    obtain ⟨hsame, hend⟩ := syncDirectory_cases hsync
    refine .inl ⟨hkeeps, hrename, ?_, ?_, hend⟩
    · rw [hsame]
      exact set_self
    · rw [hsame]
      exact (set_of_ne hne.symm).trans htprevious

/-- Every step of the swap up to the rename succeeds: the target is the file `old`,
and `new` are the candidate's bytes. -/
structure Replaces (host : Host) (d : Dir) (candidate target : Path) (old new : Bytes)
    (mode : Nat) : Prop where
  regular : d.node target = some (.file old mode)
  metadata : host.fault (.symlinkMetadata target) = none
  stages : Stages host d candidate mode new
  keeps : Keeps host d target (previousPath target)
  rename : host.fault (.renameStaged target) = none

/-- The metadata of the target: a regular file the host lets be read, or nothing. -/
theorem metadata_cases (host : Host) (d : Dir) (target : Path) :
    (∃ old mode, d.node target = some (.file old mode) ∧
      host.fault (.symlinkMetadata target) = none ∧
      (InstallOp.symlinkMetadata target).perform host d = (.ok (.file old mode), d)) ∨
    ((∀ old mode, ¬(d.node target = some (.file old mode) ∧
        host.fault (.symlinkMetadata target) = none)) ∧
      ((InstallOp.symlinkMetadata target).perform host d = (.ok .special, d) ∨
        ∃ kind, (InstallOp.symlinkMetadata target).perform host d = (.error kind, d))) := by
  unfold perform
  cases hfault : host.fault (.symlinkMetadata target) with
  | some fault => exact .inr ⟨fun _ _ h => by simp at h, .inr ⟨fault.1, rfl⟩⟩
  | none =>
    cases hnode : d.node target with
    | none => exact .inr ⟨fun _ _ h => by simp at h, .inr ⟨.notFound, by simp [effect, hnode]⟩⟩
    | some found =>
      cases found with
      | special => exact .inr ⟨fun _ _ h => by simp at h, .inl (by simp [effect, hnode])⟩
      | file old mode => exact .inl ⟨old, mode, rfl, rfl, by simp [effect, hnode]⟩

theorem swap_cases {r : Except UpdateError Installed}
    (h : exec (sys host) (swap candidate target) d = (r, d')) :
    (∃ old new mode, Replaces host d candidate target old new mode ∧
      d'.node target = some (.file new mode) ∧
      ((Syncs host ∧ r = .ok { target, previous := previousPath target } ∧
          d'.node (previousPath target) = some (.file old mode)) ∨
        (¬Syncs host ∧ ∃ err, r = .error err))) ∨
    ((∀ old new mode, ¬Replaces host d candidate target old new mode) ∧
      d'.node target = d.node target ∧ ∃ err, r = .error err) := by
  have happly : (sys host).apply (.call (.symlinkMetadata target)) d =
      (InstallOp.symlinkMetadata target).perform host d := rfl
  rw [swap, exec_bind, exec_perform, happly] at h
  rcases metadata_cases host d target with ⟨old, mode, hold, hmeta, hfound⟩ | ⟨hnot, hfound⟩
  · simp only [hfound] at h
    rcases exec_bind_cases (sys host) h with ⟨err, rfl, hstage⟩ | ⟨_, t, hstage, hrest⟩
    · refine .inr ⟨fun _ new _ hreplaces => ?_, exec_spares (uses_stage mode) hstage, err, rfl⟩
      obtain rfl : _ = mode := by
        have hsame := hreplaces.regular.symm.trans hold
        simp only [Option.some.injEq, Node.file.injEq] at hsame
        exact hsame.2
      rcases stage_cases hstage with ⟨_, -, hok, -⟩ | ⟨hno, -⟩
      · cases hok
      · exact hno new hreplaces.stages
    obtain ⟨new, hstages, hstaged⟩ : ∃ new, Stages host d candidate mode new ∧
        t.staged = some (new, mode) := by
      rcases stage_cases hstage with ⟨new, hstages, -, hstaged⟩ | ⟨-, _, hfailed⟩
      · exact ⟨new, hstages, hstaged⟩
      · cases hfailed
    have hsame : t.node = d.node := exec_node (fun _ => uses_stage mode) hstage
    rw [exec_bind, exec_attempt] at hrest
    rcases hsteps : exec (sys host) (keepAndPersist target (previousPath target)) t with
      ⟨result, u⟩
    simp only [hsteps] at hrest
    have hkeepsSame : Keeps host t target (previousPath target) ↔
        Keeps host d target (previousPath target) := by
      rw [Keeps, Keeps, hsame]
    have hends := keepAndPersist_cases (previousPath_ne target) (by rw [hsame, hold]) hstaged hsteps
    rw [hkeepsSame] at hends
    rcases hends with ⟨hkeeps, hrename, htarget, hprevious, hend⟩ | ⟨hfailed, htarget, err, rfl⟩
    · refine .inl ⟨old, new, mode, ⟨hold, hmeta, hstages, hkeeps, hrename⟩, ?_⟩
      rcases hend with ⟨hsyncs, rfl⟩ | ⟨hunsynced, err, rfl⟩
      · cases hrest
        exact ⟨htarget, .inl ⟨hsyncs, rfl, hprevious⟩⟩
      · rw [exec_bind, exec_perform] at hrest
        cases hrest
        refine ⟨?_, .inr ⟨hunsynced, err, rfl⟩⟩
        rw [← htarget]
        exact apply_spares host (.call (.takeBack (previousPath target))) (previousPath_ne target)
    · rw [exec_bind, exec_perform] at hrest
      cases hrest
      refine .inr ⟨fun _ _ _ hreplaces => hfailed ⟨hreplaces.keeps, hreplaces.rename⟩, ?_, err, rfl⟩
      rw [← congrFun hsame target, ← htarget]
      exact apply_spares host (.call (.takeBack (previousPath target))) (previousPath_ne target)
  · refine .inr ⟨fun old _ mode hreplaces => hnot old mode ⟨hreplaces.regular, hreplaces.metadata⟩,
      ?_⟩
    rcases hfound with hfound | ⟨kind, hfound⟩
    all_goals
      simp only [hfound] at h
      cases h
      exact ⟨rfl, _, rfl⟩

/-! ## Crashes -/

theorem orDrop_cut {x : InstallM β} (h : Cut (sys host) (orDrop x) d d') :
    Cut (sys host) x d d' ∨ ∃ err t, exec (sys host) x d = (.error err, t) ∧
      d'.node = t.node := by
  rcases (cut_bind (sys host) _ _ _ _).mp h with hx | ⟨result, t, hattempt, hrest⟩
  · exact .inl ((Fallible.cut_attempt (sys host) x d d').mp hx)
  · rw [exec_attempt] at hattempt
    rcases hx : exec (sys host) x d with ⟨err | value, u⟩
    · rw [hx] at hattempt
      cases hattempt
      refine .inr ⟨err, u, rfl, funext fun path => ?_⟩
      have hspares : Spares path _ (.call .removeStaged) := trivial
      exact cut_spares (uses_bind (uses_perform hspares)
        (fun _ => uses_throw _)) hrest
    · rw [hx] at hattempt
      cases hattempt
      rw [(cut_pure (sys host) _ _ _).mp hrest]
      exact .inl (cut_end (sys host) hx)

theorem persist_cut (hstaged : d.staged = some (new, mode))
    (h : Cut (sys host) (orDrop (persist target)) d d') :
    d'.node target = d.node target ∨ d'.node target = some (.file new mode) := by
  have hperform : ∀ t : Dir, t.node = ((InstallOp.renameStaged target).perform host d).2.node →
      t.node target = d.node target ∨ t.node target = some (.file new mode) := by
    intro t ht
    rw [ht]
    unfold perform
    split
    · simp only [effect, hstaged]
      exact .inr set_self
    · exact .inl rfl
  have hexec : ∀ r t, exec (sys host) (persist target) d = (r, t) →
      t = ((InstallOp.renameStaged target).perform host d).2 := by
    intro r t hrun
    rw [persist, exec_call] at hrun
    rcases hp : (InstallOp.renameStaged target).perform host d with ⟨value | kind, u⟩ <;>
      (rw [hp] at hrun; cases hrun; rfl)
  rcases orDrop_cut h with hcut | ⟨err, t, hrun, hsame⟩
  · rcases (cut_bind (sys host) _ _ _ _).mp hcut with hcall | ⟨value, t, hcall, hrest⟩
    · rcases (Fallible.cut_perform (sys host) _ _ _).mp hcall with rfl | ⟨_, htorn⟩ | rfl
      · exact .inl rfl
      · cases htorn
      · exact hperform _ rfl
    · obtain rfl : t = ((InstallOp.renameStaged target).perform host d).2 := by
        cases hcall
        rfl
      cases value with
      | ok value =>
        rw [(cut_pure (sys host) _ _ _).mp hrest]
        exact hperform _ rfl
      | error kind =>
        rw [(cut_throw (sys host) _ _ _).mp hrest]
        exact hperform _ rfl
  · exact hperform _ (hsame.trans (congrArg Dir.node (hexec _ _ hrun)))

theorem keepAndPersist_cut (hne : previous ≠ target) (hstaged : d.staged = some (new, mode))
    (hold : d.node target = some (.file old mode))
    (h : Cut (sys host) (keepAndPersist target previous) d d') :
    d'.node target = d.node target ∨ d'.node target = some (.file new mode) := by
  have hkept := uses_orDrop (uses_keepPrevious hne)
  rcases (cut_bind (sys host) _ _ _ _).mp h with hkeep | ⟨_, t, hkeep, hrest⟩
  · exact .inl (cut_spares hkept hkeep)
  have htarget := exec_spares hkept hkeep
  have htstaged : t.staged = some (new, mode) := by
    rcases exec_orDrop hkeep with ⟨_, -, hdone⟩ | ⟨_, _, hfailed, -⟩
    · rw [(keepPrevious_cases hne hold hdone).1, hstaged]
    · cases hfailed
  rw [← htarget]
  rcases (cut_bind (sys host) _ _ _ _).mp hrest with hpersist | ⟨_, u, hpersist, hsync⟩
  · exact persist_cut htstaged hpersist
  · rw [cut_spares uses_syncDirectory hsync]
    exact persist_cut htstaged (cut_end (sys host) hpersist)

/-- Wherever a swap stops, the target is the old binary or the whole new one. -/
theorem swap_cut (h : Cut (sys host) (swap candidate target) d d') :
    d'.node target = d.node target ∨ ∃ old new mode m, d.node target = some (.file old mode) ∧
      d.node candidate = some (.file new m) ∧ d'.node target = some (.file new mode) := by
  rcases (cut_bind (sys host) _ _ _ _).mp h with hmeta | ⟨found, t, hmeta, hrest⟩
  · have hspares : Spares target _ (.call (.symlinkMetadata target)) := trivial
    exact .inl (cut_spares (uses_perform hspares) hmeta)
  have happly : (sys host).apply (.call (.symlinkMetadata target)) d =
      (InstallOp.symlinkMetadata target).perform host d := rfl
  rw [exec_perform, happly] at hmeta
  rcases metadata_cases host d target with ⟨old, mode, hold, -, hfound⟩ | ⟨-, hfound⟩
  · rw [hfound] at hmeta
    cases hmeta
    rcases (cut_bind (sys host) _ _ _ _).mp hrest with hstage | ⟨_, u, hstage, hsteps⟩
    · exact .inl (cut_spares (uses_stage mode) hstage)
    have hsame : u.node = d.node := exec_node (fun _ => uses_stage mode) hstage
    obtain ⟨new, ⟨m, hcandidate⟩, hstaged⟩ : ∃ new, (∃ m, d.node candidate = some (.file new m)) ∧
        u.staged = some (new, mode) := by
      rcases stage_cases hstage with ⟨new, hstages, -, hstaged⟩ | ⟨-, _, hfailed⟩
      · exact ⟨new, hstages.found, hstaged⟩
      · cases hfailed
    have hwhole : ∀ v : Dir, v.node target = u.node target ∨ v.node target = some (.file new mode) →
        v.node target = d.node target ∨ ∃ old new mode m, d.node target = some (.file old mode) ∧
          d.node candidate = some (.file new m) ∧ v.node target = some (.file new mode) := by
      intro v hv
      rw [hsame] at hv
      exact hv.imp_right (fun hnew => ⟨old, new, mode, m, hold, hcandidate, hnew⟩)
    have hcuts : ∀ v, Cut (sys host) (keepAndPersist target (previousPath target)) u v →
        v.node target = u.node target ∨ v.node target = some (.file new mode) :=
      fun v hv => keepAndPersist_cut (previousPath_ne target) hstaged (by rw [hsame, hold]) hv
    refine hwhole _ ?_
    rcases (cut_bind (sys host) _ _ _ _).mp hsteps with hcut | ⟨result, v, hcut, hlast⟩
    · exact hcuts _ ((Fallible.cut_attempt (sys host) _ _ _).mp hcut)
    · rcases hrun : exec (sys host) (keepAndPersist target (previousPath target)) u with
        ⟨ended, w⟩
      rw [exec_attempt, hrun] at hcut
      cases hcut
      have hw := hcuts w (cut_end (sys host) hrun)
      have hspares : Spares target _ (.call (.takeBack (previousPath target))) :=
        previousPath_ne target
      have hlastSame : d'.node target = w.node target := by
        refine cut_spares ?_ hlast
        cases ended with
        | ok value => exact uses_pure _
        | error err =>
          exact uses_bind (uses_perform hspares) (fun _ => uses_throw _)
      rwa [← hlastSame] at hw
  · rcases hfound with hfound | ⟨kind, hfound⟩
    all_goals
      rw [hfound] at hmeta
      cases hmeta
      rw [(cut_throw (sys host) _ _ _).mp hrest]
      exact .inl rfl

end Swap

/-! ## All or nothing -/

/-- A swap that succeeds puts the candidate's bytes in place with the target's mode and
keeps the old ones; one that fails leaves the target alone; one that is cut leaves the
old binary or the whole new one. -/
structure AllOrNothing (host : Host) (d : Dir) (candidate target : Path) : Prop where
  installed : ∀ installed d', exec (sys host) (swap candidate target) d =
      (.ok installed, d') → ∃ old mode new m kept, d.node target = some (.file old mode) ∧
    d.node candidate = some (.file new m) ∧ d'.node target = some (.file new mode) ∧
    d'.node (previousPath target) = some (.file old kept)
  failed : ∀ err d', exec (sys host) (swap candidate target) d = (.error err, d') →
    d'.node target = d.node target
  cut : ∀ d', Cut (sys host) (swap candidate target) d d' →
    d'.node target = d.node target ∨ ∃ old new mode m, d.node target = some (.file old mode) ∧
      d.node candidate = some (.file new m) ∧ d'.node target = some (.file new mode)

/-- A rollback that fails leaves the new binary in place and the old one beside it. -/
def RollbackKeeps (host : Host) (d : Dir) (installed : Installed) : Prop :=
  ∀ err d', exec (sys host) installed.rollback d = (.error err, d') →
    d'.node installed.target = d.node installed.target ∧
      d'.node installed.previous = d.node installed.previous

theorem rollback_keeps_iff {installed : Installed} {node : Node}
    (hprevious : d.node installed.previous = some node) :
    RollbackKeeps host d installed ↔
      host.fault (.renamePrevious installed.previous installed.target) ≠ none ∨ Syncs host := by
  have hrename : ∀ r d', exec (sys host) installed.rollback d = (r, d') →
      host.fault (.renamePrevious installed.previous installed.target) = none →
      d'.node installed.previous = none ∧
        ((Syncs host ∧ r = .ok ()) ∨ (¬Syncs host ∧ ∃ err, r = .error err)) := by
    intro r d' hrun hfault
    have hperform : (InstallOp.renamePrevious installed.previous installed.target).perform host d =
        (.ok (), (d.set installed.target (some node)).set installed.previous none) := by
      rw [perform_none hfault]
      simp only [effect, hprevious]
    rw [Installed.rollback, exec_bind, exec_call, hperform] at hrun
    obtain ⟨hsame, hend⟩ := syncDirectory_cases hrun
    rw [hsame]
    exact ⟨set_self, hend⟩
  constructor
  · intro hkeeps
    by_contra hneither
    rw [not_or, not_not] at hneither
    rcases hrun : exec (sys host) installed.rollback d with ⟨r, d'⟩
    obtain ⟨hgone, ⟨hsyncs, -⟩ | ⟨-, err, rfl⟩⟩ := hrename r d' hrun hneither.1
    · exact hneither.2 hsyncs
    · have hkept := (hkeeps err d' hrun).2
      rw [hgone, hprevious] at hkept
      cases hkept
  · intro hcond err d' hrun
    cases hfault : host.fault (.renamePrevious installed.previous installed.target) with
    | none =>
      obtain ⟨-, ⟨-, hok⟩ | ⟨hunsynced, -⟩⟩ := hrename _ d' hrun hfault
      · cases hok
      · exact absurd (hcond.resolve_left (not_not.mpr hfault)) hunsynced
    | some fault =>
      rw [Installed.rollback, exec_bind, exec_call, perform, hfault] at hrun
      cases hrun
      exact ⟨rfl, rfl⟩

/-- A swap is all or nothing exactly when the directory can be flushed after a rename
that changed the binary; the rollback of a swap keeps its word exactly when its rename
fails or the directory can be flushed after it. -/
theorem swap_all_or_nothing_iff (host host' : Host) (d : Dir) (candidate target : Path) :
    (AllOrNothing host d candidate target ↔ ∀ old new mode,
      Replaces host d candidate target old new mode → Syncs host ∨ new = old) ∧
    ∀ installed d', Fallible.exec (sys host) (swap candidate target) d = (.ok installed, d') →
      (RollbackKeeps host' d' installed ↔
        host'.fault (.renamePrevious installed.previous installed.target) ≠ none ∨
          Syncs host') := by
  constructor
  · constructor
    · intro hall old new mode hreplaces
      by_contra hneither
      rw [not_or] at hneither
      rcases hrun : exec (sys host) (swap candidate target) d with ⟨r, d'⟩
      rcases swap_cases hrun with ⟨old', new', mode', hother, htarget, hend⟩ | ⟨hnot, -⟩
      · rcases hend with ⟨hsyncs, -⟩ | ⟨-, err, rfl⟩
        · exact hneither.1 hsyncs
        · have hsame := hall.failed err d' hrun
          rw [htarget, hreplaces.regular] at hsame
          obtain ⟨m, hfound⟩ := hreplaces.stages.found
          obtain ⟨m', hfound'⟩ := hother.stages.found
          rw [hfound] at hfound'
          simp only [Option.some.injEq, Node.file.injEq] at hsame hfound'
          exact hneither.2 (hfound'.1.trans hsame.1)
      · exact hnot old new mode hreplaces
    · intro hcond
      refine ⟨fun installed d' hrun => ?_, fun err d' hrun => ?_, fun d' hcut => swap_cut hcut⟩
      · rcases swap_cases hrun with ⟨old, new, mode, hreplaces, htarget, hend⟩ | ⟨-, -, _, hfailed⟩
        · rcases hend with ⟨-, -, hprevious⟩ | ⟨-, _, hfailed⟩
          · obtain ⟨m, hfound⟩ := hreplaces.stages.found
            exact ⟨old, mode, new, m, mode, hreplaces.regular, hfound, htarget, hprevious⟩
          · cases hfailed
        · cases hfailed
      · rcases swap_cases hrun with ⟨old, new, mode, hreplaces, htarget, hend⟩ | ⟨-, hsame, -⟩
        · rcases hend with ⟨-, hok, -⟩ | ⟨hunsynced, -⟩
          · cases hok
          · rw [htarget, hreplaces.regular]
            rw [(hcond old new mode hreplaces).resolve_left hunsynced]
        · exact hsame
  · intro installed d' hrun
    rcases swap_cases hrun with ⟨old, new, mode, -, -, hend⟩ | ⟨-, -, _, hfailed⟩
    · rcases hend with ⟨-, hok, hprevious⟩ | ⟨-, _, hfailed⟩
      · cases hok
        exact rollback_keeps_iff hprevious
      · cases hfailed
    · cases hfailed

/-- A host on which only the flush of the directory fails. -/
def unflushed : Host where
  fault
    | .syncDirectory => some (.other, 0)
    | _ => none

/-- A binary and the candidate beside it. -/
def installation : Dir where
  node path :=
    if path = "detent" then some (.file [1] 493)
    else if path = "candidate" then some (.file [2] 384)
    else none
  staged := none

/-- A host on which nothing fails, and one on which only the rename of a rollback does. -/
def flushed : Host where
  fault _ := none

def unrenamed : Host where
  fault
    | .renamePrevious .. => some (.other, 0)
    | _ => none

/-- A swap that succeeded: a rollback whose rename fails keeps its word, one whose
directory cannot be flushed does not. -/
theorem swap_rolled_back :
    AllOrNothing flushed installation "candidate" "detent" ∧
    ∃ installed d', Fallible.exec (sys flushed) (swap "candidate" "detent") installation =
        (.ok installed, d') ∧
      RollbackKeeps unrenamed d' installed ∧ ¬RollbackKeeps unflushed d' installed := by
  have hrun : ∃ installed d', exec (sys flushed) (swap "candidate" "detent") installation =
      (.ok installed, d') := ⟨_, _, rfl⟩
  obtain ⟨installed, d', hrun⟩ := hrun
  obtain ⟨hall, -⟩ := swap_all_or_nothing_iff flushed flushed installation "candidate" "detent"
  obtain ⟨-, hfails⟩ := swap_all_or_nothing_iff flushed unrenamed installation "candidate" "detent"
  obtain ⟨-, hflush⟩ := swap_all_or_nothing_iff flushed unflushed installation "candidate" "detent"
  refine ⟨hall.mpr (fun _ _ _ _ => .inl ⟨rfl, rfl⟩), installed, d', hrun,
    (hfails installed d' hrun).mpr (.inl (Option.some_ne_none _)), fun hkeeps => ?_⟩
  rcases (hflush installed d' hrun).mp hkeeps with hrename | hsyncs
  · exact hrename rfl
  · cases hsyncs.2

/-- The flush of the directory fails: the swap reports an error with the new binary in
place and the old one deleted. -/
theorem swap_unflushed :
    ¬AllOrNothing unflushed installation "candidate" "detent" ∧
    ∃ err d', Fallible.exec (sys unflushed) (swap "candidate" "detent") installation =
      (.error err, d') ∧ d'.node "detent" = some (.file [2] 493) ∧
      d'.node "detent.prev" = none := by
  have hrun : ∃ err d', exec (sys unflushed) (swap "candidate" "detent") installation =
      (.error err, d') ∧ d'.node "detent" = some (.file [2] 493) ∧
      d'.node "detent.prev" = none :=
    ⟨.install "sync-dir" .other,
      (exec (sys unflushed) (swap "candidate" "detent") installation).2, rfl,
      by decide +kernel, by decide +kernel⟩
  refine ⟨fun hall => ?_, hrun⟩
  obtain ⟨err, d', hexec, htarget, -⟩ := hrun
  have hsame := hall.failed err d' hexec
  rw [htarget] at hsame
  exact absurd hsame (by decide)

end Detent.Guarantees.BinarySwap
