import Detent.Guarantees.UserRecords
import Detent.Lib.Machine

/-!
# Updates of a shared credential file

`crates/detent-web/src/auth/users.rs:585-610`, `crates/detent-web/src/auth/token.rs:408-461`
and `crates/detent-web/src/auth/mod.rs:372-392`: the worker and the command line change
one file, each by a refresh, an edited copy and a rename of a whole new file. Nothing
but the in-process lock orders them, so a rename over a file that was replaced since the
refresh drops the change in between.
-/
namespace Detent.Guarantees.CredentialUpdates
open Lib Source Source.Sessions Source.Credentials UserRecords

variable {ρ χ : Type} [DecidableEq ρ] {kind : Kind ρ χ}

/-- The two processes that open the file. -/
inductive Side where
  | worker
  | cli
  deriving DecidableEq

/-- The file, the two processes and the changes of the calls that returned `Ok`, in the
order in which they returned. -/
structure System (ρ χ : Type) where
  file : Version
  worker : Proc ρ χ
  cli : Proc ρ χ
  done : List χ
  deriving DecidableEq

def System.proc (s : System ρ χ) : Side → Proc ρ χ
  | .worker => s.worker
  | .cli => s.cli

/-- The change of a `mutate` that returned `Ok`. -/
def succeeded : Option (Returned χ) → List χ
  | some { call := some change, ok := true } => [change]
  | _ => []

/-- What a file operation of `side` leaves behind. -/
def System.after (s : System ρ χ) (side : Side) (done : Version × Proc ρ χ × Option (Returned χ)) :
    System ρ χ :=
  match side with
  | .worker => { s with file := done.1, worker := done.2.1, done := s.done ++ succeeded done.2.2 }
  | .cli => { s with file := done.1, cli := done.2.1, done := s.done ++ succeeded done.2.2 }

/-- One file operation of one of the processes. -/
def systemStep (kind : Kind ρ χ) (s : System ρ χ) (e : Side × FileEvent χ) : Option (System ρ χ) :=
  (kind.step s.file (s.proc e.1) e.2).map (s.after e.1)

/-- A new file is renamed over the version its change was applied to, and no file
operation of a `mutate` fails after its rename. -/
def Undisturbed (kind : Kind ρ χ) (s : System ρ χ) : Side × FileEvent χ → Prop
  | (side, .write _) => kind.recordsOf s.file = .ok (s.proc side).records
  | (side, .fail _) => ∀ change candidate, (s.proc side).phase ≠ .written change candidate
  | _ => True

/-- The file operations of the two processes that keep to it. -/
abbrev Event (kind : Kind ρ χ) : System ρ χ → Side × FileEvent χ → System ρ χ → Prop :=
  Guarded (Undisturbed kind) (Steps (systemStep kind))

/-- A change of the records, when it is admitted. -/
def changing (kind : Kind ρ χ) (records : List ρ) (change : χ) : Option (List ρ) :=
  (kind.apply change records).toOption

/-- Both processes before they open the file. -/
def opened (file : Version) : System ρ χ :=
  { file, worker := { records := [], fp := none, phase := .unloaded },
    cli := { records := [], fp := none, phase := .unloaded }, done := [] }

/-- No call is under way. -/
def System.Quiescent (s : System ρ χ) : Prop :=
  ∀ side, (s.proc side).phase = .idle ∨ (s.proc side).phase = .unloaded

/-- A `mutate` with `change` was called. -/
def Called (es : List (Side × FileEvent χ)) (change : χ) : Prop :=
  ∃ side, (side, .call (some change)) ∈ es

/-! ## One file operation -/

/-- The change of the call under way. -/
def underWay : Phase ρ χ → Option χ
  | .refreshing _ change => change
  | .writing change _ | .written change _ => some change
  | _ => none

/-- The change whose file was renamed into place and whose call has not returned. -/
def landed : Phase ρ χ → List χ
  | .written change _ => [change]
  | _ => []

/-- A candidate is the records in memory with the change made. -/
def Computed (kind : Kind ρ χ) (p : Proc ρ χ) : Prop :=
  ∀ change candidate, p.phase = .writing change candidate →
    kind.apply change p.records = .ok candidate

omit [DecidableEq ρ] in
theorem proceed_computed (p : Proc ρ χ) (change : Option χ) :
    Computed kind (kind.proceed p change).1 := by
  intro c candidate hphase
  cases change with
  | none => cases hphase
  | some change =>
    cases h : kind.apply change p.records with
    | error err =>
      simp only [Kind.proceed, h] at hphase
      cases hphase
    | ok fresh =>
      simp only [Kind.proceed, h] at hphase ⊢
      cases hphase
      exact h

omit [DecidableEq ρ] in
/-- The rest of a call renames nothing and succeeds in no `mutate`. -/
theorem proceed_plain (kind : Kind ρ χ) (p : Proc ρ χ) (change : Option χ) :
    landed (kind.proceed p change).1.phase = [] ∧ succeeded (kind.proceed p change).2 = [] ∧
    ∀ c, underWay (kind.proceed p change).1.phase = some c → change = some c := by
  cases change with
  | none => exact ⟨rfl, rfl, nofun⟩
  | some change =>
    cases h : kind.apply change p.records with
    | error err =>
      simp only [Kind.proceed, h]
      exact ⟨rfl, rfl, nofun⟩
    | ok fresh =>
      simp only [Kind.proceed, h]
      exact ⟨rfl, rfl, fun _ hunder => hunder⟩

/-- What a file operation does to the file and to the change it is made for. -/
inductive Effect (kind : Kind ρ χ) (file : Version) (p : Proc ρ χ) (e : FileEvent χ) :
    Version × Proc ρ χ × Option (Returned χ) → Prop
  /-- The rename of a new file. -/
  | renamed {change candidate fp} (hphase : p.phase = .writing change candidate)
      (hevent : e = .write fp) (hcontents : kind.reading fp = .ok candidate) :
      Effect kind file p e (some fp, { p with phase := .written change candidate }, none)
  /-- The call whose file was renamed returns. -/
  | succeeds {change candidate p'} (hphase : p.phase = .written change candidate)
      (hidle : p'.phase = .idle) :
      Effect kind file p e (file, p', some { call := some change, ok := true })
  /-- Any other operation. -/
  | plain {p' r} (hbefore : landed p.phase = []) (hafter : landed p'.phase = [])
      (hnone : succeeded r = []) (hcomputed : Computed kind p → Computed kind p')
      (hunder : ∀ c, underWay p'.phase = some c → underWay p.phase = some c ∨ e = .call (some c)) :
      Effect kind file p e (file, p', r)
  | broken {change candidate assigned done} (hphase : p.phase = .written change candidate)
      (hevent : e = .fail assigned) : Effect kind file p e done

theorem step_effect {file : Version} {p : Proc ρ χ} {e : FileEvent χ}
    {done : Version × Proc ρ χ × Option (Returned χ)} (h : kind.step file p e = some done) :
    Effect kind file p e done := by
  cases e with
  | loadRead =>
    simp only [Kind.step] at h
    split at h
    · rename_i hphase
      cases h
      exact .plain (by rw [hphase]; rfl) rfl rfl nofun
        nofun
    · rename_i hphase
      split at h
      · cases h
        exact .plain (by rw [hphase]; rfl) rfl rfl nofun
          nofun
      · cases h
        exact .plain (by rw [hphase]; rfl) (by rw [hphase]; rfl) rfl (fun hc => hc)
          (fun _ hunder => .inl hunder)
    · cases h
  | loadStat =>
    simp only [Kind.step] at h
    split at h
    · rename_i hphase
      cases h
      exact .plain (by rw [hphase]; rfl) rfl rfl nofun
        nofun
    · cases h
  | call change =>
    simp only [Kind.step] at h
    split at h
    · rename_i hphase
      split at h
      · cases h
        obtain ⟨hafter, hnone, hunder⟩ := proceed_plain kind p change
        exact .plain (by rw [hphase]; rfl) hafter hnone (fun _ => proceed_computed p change)
          (fun c hc => .inr (congrArg FileEvent.call (hunder c hc)))
      · cases h
        exact .plain (by rw [hphase]; rfl) rfl rfl nofun
          (fun c hc => .inr (congrArg FileEvent.call hc))
    · cases h
  | read =>
    simp only [Kind.step] at h
    split at h
    · rename_i cur change hphase
      split at h
      · cases h
        exact .plain (by rw [hphase]; rfl) rfl (by cases change <;> rfl)
          nofun nofun
      · rename_i records hread
        cases h
        obtain ⟨hafter, hnone, hunder⟩ :=
          proceed_plain kind { p with records, fp := cur } change
        refine .plain (by rw [hphase]; rfl) hafter hnone (fun _ => proceed_computed _ change)
          (fun c hc => .inl ?_)
        rw [hphase]
        exact hunder c hc
    · cases h
  | write fp =>
    simp only [Kind.step] at h
    split at h
    · rename_i change candidate hphase
      split at h
      · rename_i records hread
        split at h
        · rename_i hsame
          cases h
          exact .renamed hphase rfl (hsame ▸ hread)
        · cases h
      · cases h
    · cases h
  | stat =>
    simp only [Kind.step] at h
    split at h
    · rename_i change candidate hphase
      cases h
      exact .succeeds hphase rfl
    · cases h
  | fail assigned =>
    simp only [Kind.step] at h
    split at h
    · rename_i hphase
      cases h
      exact .plain (by rw [hphase]; rfl) rfl rfl nofun
        nofun
    · rename_i cur change hphase
      cases h
      exact .plain (by rw [hphase]; rfl) rfl (by cases change <;> rfl)
        nofun nofun
    · rename_i hphase
      cases h
      exact .plain (by rw [hphase]; rfl) rfl rfl nofun
        nofun
    · rename_i hphase
      exact .broken hphase rfl
    · cases h

/-! ## Runs -/

/-- What is known after the events `es`: the file holds the initial records with the
changes made whose files were renamed into place, in the order of the renames. -/
structure Accounted (kind : Kind ρ χ) (records : List ρ) (es : List (Side × FileEvent χ))
    (s : System ρ χ) : Prop where
  computed : ∀ side, Computed kind (s.proc side)
  called : ∀ side change, underWay (s.proc side).phase = some change → Called es change
  applied : ∃ order current, Run (Steps (changing kind)) records order current ∧
    kind.recordsOf s.file = .ok current ∧
    order.Perm (s.done ++ landed s.worker.phase ++ landed s.cli.phase) ∧
    ∀ change ∈ order, Called es change

omit [DecidableEq ρ] in
theorem Called.later {es : List (Side × FileEvent χ)} {change : χ} (h : Called es change)
    (e : Side × FileEvent χ) : Called (es ++ [e]) change := by
  obtain ⟨side, hmem⟩ := h
  exact ⟨side, List.mem_append_left _ hmem⟩

omit [DecidableEq ρ] in
theorem perm_insert {order first second : List χ} (change : χ) (h : order.Perm (first ++ second)) :
    (order ++ [change]).Perm (first ++ [change] ++ second) := by
  refine (h.append_right [change]).trans ?_
  rw [List.append_assoc, List.append_assoc]
  exact List.perm_append_comm.append_left first

omit [DecidableEq ρ] in
theorem after_proc (s : System ρ χ) (side other : Side)
    (done : Version × Proc ρ χ × Option (Returned χ)) :
    (s.after side done).proc other = if other = side then done.2.1 else s.proc other := by
  cases side <;> cases other <;> rfl

omit [DecidableEq ρ] in
theorem renamed_applied {records : List ρ} {es : List (Side × FileEvent χ)} {s : System ρ χ}
    {side : Side} {change : χ} {candidate : List ρ} {fp : Nat} (h : Accounted kind records es s)
    (hphase : (s.proc side).phase = .writing change candidate)
    (hcontents : kind.reading fp = .ok candidate)
    (hfile : kind.recordsOf s.file = .ok (s.proc side).records) :
    ∃ order current, Run (Steps (changing kind)) records order current ∧
      kind.recordsOf (some fp) = .ok current ∧
      order.Perm (s.done ++ (if side = .worker then [change] else landed s.worker.phase) ++
        (if side = .cli then [change] else landed s.cli.phase)) ∧
      ∀ c ∈ order, Called es c := by
  obtain ⟨order, current, hrun, hcurrent, hperm, hcalled⟩ := h.applied
  obtain rfl : current = (s.proc side).records := Except.ok.inj (hcurrent.symm.trans hfile)
  have happly := h.computed side change candidate hphase
  have hstep : changing kind (s.proc side).records change = some candidate := by
    rw [changing, happly]
    rfl
  refine ⟨order ++ [change], candidate, hrun.snoc hstep, hcontents, ?_, ?_⟩
  · cases side with
    | worker =>
      have hnone : landed s.worker.phase = [] := by
        rw [show s.worker.phase = .writing change candidate from hphase]
        rfl
      rw [hnone, List.append_nil] at hperm
      exact perm_insert change hperm
    | cli =>
      have hnone : landed s.cli.phase = [] := by
        rw [show s.cli.phase = .writing change candidate from hphase]
        rfl
      rw [hnone] at hperm
      simpa using perm_insert change hperm
  · intro c hc
    rcases List.mem_append.mp hc with hc | hc
    · exact hcalled c hc
    · obtain rfl := List.mem_singleton.mp hc
      exact h.called side _ (by rw [hphase]; rfl)

theorem step_accounted {records : List ρ} {es : List (Side × FileEvent χ)} {s s' : System ρ χ}
    {e : Side × FileEvent χ} (h : Accounted kind records es s) (hstep : Event kind s e s') :
    Accounted kind records (es ++ [e]) s' := by
  obtain ⟨hquiet, hstep⟩ := hstep
  obtain ⟨side, e⟩ := e
  obtain ⟨done, hown, hs'⟩ := Option.map_eq_some_iff.mp hstep
  cases hs'
  have hcases := step_effect hown
  have hlater : ∀ side' change, underWay (s.proc side').phase = some change →
      Called (es ++ [(side, e)]) change :=
    fun side' change hunder => (h.called side' change hunder).later _
  cases hcases with
  | renamed hphase hevent hcontents =>
    cases hevent
    obtain ⟨order, current, hrun, hcurrent, hperm, hcalled⟩ :=
      renamed_applied h hphase hcontents hquiet
    refine ⟨fun other => ?_, fun other c hunder => ?_, order, current, hrun, ?_, ?_,
      fun c hc => (hcalled c hc).later _⟩
    · rw [after_proc]
      split
      · nofun
      · exact h.computed other
    · rw [after_proc] at hunder
      split at hunder
      · cases hunder
        exact hlater side _ (by rw [hphase]; rfl)
      · exact hlater other c hunder
    · cases side <;> exact hcurrent
    · cases side <;> simpa [System.after, succeeded, landed] using hperm
  | succeeds hphase hidle =>
    obtain ⟨order, current, hrun, hcurrent, hperm, hcalled⟩ := h.applied
    refine ⟨fun other => ?_, fun other c hunder => ?_, order, current, hrun, ?_, ?_,
      fun c hc => (hcalled c hc).later _⟩
    · rw [after_proc]
      split
      · intro _ _ hp
        rw [hidle] at hp
        cases hp
      · exact h.computed other
    · rw [after_proc] at hunder
      split at hunder
      · rw [hidle] at hunder
        cases hunder
      · exact hlater other c hunder
    · cases side <;> exact hcurrent
    · cases side with
      | worker =>
        rw [show s.worker.phase = _ from hphase] at hperm
        simpa [System.after, succeeded, hidle, landed] using hperm
      | cli =>
        rw [show s.cli.phase = _ from hphase] at hperm
        refine hperm.trans ?_
        simp only [System.after, succeeded, hidle, landed, List.append_nil, List.append_assoc]
        exact List.perm_append_comm.append_left s.done
  | plain hbefore hafter hnone hcomputed hunder =>
    obtain ⟨order, current, hrun, hcurrent, hperm, hcalled⟩ := h.applied
    refine ⟨fun other => ?_, fun other c hother => ?_, order, current, hrun, ?_, ?_,
      fun c hc => (hcalled c hc).later _⟩
    · rw [after_proc]
      split
      · exact hcomputed (h.computed side)
      · exact h.computed other
    · rw [after_proc] at hother
      split at hother
      · rcases hunder c hother with hunder | rfl
        · exact hlater side c hunder
        · exact ⟨side, by simp⟩
      · exact hlater other c hother
    · cases side <;> exact hcurrent
    · cases side with
      | worker =>
        rw [show landed s.worker.phase = [] from hbefore] at hperm
        simpa [System.after, hnone, hafter] using hperm
      | cli =>
        rw [show landed s.cli.phase = [] from hbefore] at hperm
        simpa [System.after, hnone, hafter] using hperm
  | broken hphase hevent =>
    cases hevent
    exact absurd hphase (hquiet _ _)

theorem run_accounted {init : Version} {records : List ρ} {es : List (Side × FileEvent χ)}
    {s : System ρ χ} (hinit : kind.recordsOf init = .ok records)
    (hrun : Run (Event kind) (opened init) es s) : Accounted kind records es s := by
  refine hrun.history (fun es s e s' hs hstep => step_accounted hs hstep) ?_
  refine ⟨fun side => ?_, fun side change hunder => ?_, [], records, .nil _, hinit, .nil, ?_⟩
  · cases side <;> exact fun _ _ hp => by cases hp
  · cases side <;> cases hunder
  · exact nofun

omit [DecidableEq ρ] in
theorem Accounted.order {records : List ρ} {es : List (Side × FileEvent χ)} {s : System ρ χ}
    (h : Accounted kind records es s) (hquiescent : s.Quiescent) :
    ∃ order current, Run (Steps (changing kind)) records order current ∧
      kind.recordsOf s.file = .ok current ∧ order.Perm s.done := by
  obtain ⟨order, current, hrun, hcurrent, hperm, -⟩ := h.applied
  have hlanded : ∀ side, landed (s.proc side).phase = [] := by
    intro side
    rcases hquiescent side with hphase | hphase <;> rw [hphase] <;> rfl
  rw [show landed s.worker.phase = [] from hlanded .worker,
    show landed s.cli.phase = [] from hlanded .cli, List.append_nil, List.append_nil] at hperm
  exact ⟨order, current, hrun, hcurrent, hperm⟩

omit [DecidableEq ρ] in
/-- What a change that returned `Ok` brings about and every change called keeps, holds of
the file. -/
theorem Accounted.lasting {records current : List ρ} {es : List (Side × FileEvent χ)}
    {s : System ρ χ} {P : List ρ → Prop} {change : χ} (h : Accounted kind records es s)
    (hdone : change ∈ s.done)
    (hsets : ∀ before after, kind.apply change before = .ok after → P after)
    (hkeeps : ∀ c, Called es c → ∀ before after, P before → kind.apply c before = .ok after →
      P after) (hcurrent : kind.recordsOf s.file = .ok current) : P current := by
  obtain ⟨order, current', hrun, hcurrent', hperm, hcalled⟩ := h.applied
  obtain rfl : current' = current := Except.ok.inj (hcurrent'.symm.trans hcurrent)
  have hadmitted : ∀ {before after c}, changing kind before c = some after →
      kind.apply c before = .ok after := by
    intro before after c hc
    unfold changing at hc
    cases happly : kind.apply c before with
    | error err => rw [happly] at hc; cases hc
    | ok fresh =>
      rw [happly] at hc
      cases hc
      rfl
  refine hrun.absorbs (hperm.mem_iff.mpr ?_) (fun before after hc => hsets _ _ (hadmitted hc)) ?_
  · simp [hdone]
  · intro c hc before after hbefore hstep
    exact hkeeps c (hcalled c hc) _ _ hbefore (hadmitted hstep)

/-! ## What stays away -/

/-- The password hash a change gives its account. -/
def givenHash : UserChange → Option String
  | .create _ phc .. | .rehash _ _ phc _ | .setPassword _ _ phc _ => some phc
  | _ => none

variable {name : String} {before after : List UserRecord}

/-- A change that does not give the hash `old` does not bring it back. -/
theorem hash_away {c : UserChange} {old : String}
    (hgiven : account c = name → givenHash c ≠ some old)
    (hbefore : ∀ r, recordOf name before = some r → r.phc ≠ old)
    (happly : c.apply before = .ok after) : ∀ r, recordOf name after = some r → r.phc ≠ old := by
  by_cases hname : account c = name
  · have hrecord := apply_onRecord happly
    rw [hname] at hrecord
    have hgiven := hgiven hname
    intro r hr
    rw [hr] at hrecord
    cases hbefore' : recordOf name before with
    | none =>
      rw [hbefore'] at hrecord
      cases c <;> cases hrecord
      exact fun h => hgiven (congrArg some h)
    | some r' =>
      have hold := hbefore r' hbefore'
      rw [hbefore'] at hrecord
      cases c with
      | create | remove => cases hrecord
      | rehash | setPassword =>
        cases hrecord
        exact fun h => hgiven (congrArg some h)
      | setTotp =>
        cases hrecord
        exact hold
      | noteTotpCounter =>
        simp only [onRecord] at hrecord
        split at hrecord
        · cases hrecord
        · cases hrecord
          exact hold
  · rw [apply_other happly (Ne.symm hname)]
    exact hbefore

/-- A change of the password gives the hash it was called with. -/
theorem hash_replaced {password phc now : String}
    (happly : (UserChange.setPassword name password phc now).apply before = .ok after) :
    ∀ r, recordOf name after = some r → r.phc = phc := by
  obtain ⟨r', -, hrecord⟩ := apply_own happly rfl
  intro r hr
  simp only [account] at hrecord
  rw [hr] at hrecord
  cases hrecord
  rfl

theorem user_removed (happly : (UserChange.remove name).apply before = .ok after) :
    recordOf name after = none := by
  obtain ⟨_, -, hrecord⟩ := apply_own happly rfl
  exact (Except.ok.inj hrecord).symm

/-- Only `create` brings an account back. -/
theorem user_away {c : UserChange} (hcreate : ∀ phc must now, c ≠ .create name phc must now)
    (hbefore : recordOf name before = none) (happly : c.apply before = .ok after) :
    recordOf name after = none := by
  by_cases hname : account c = name
  · have hrecord := apply_onRecord happly
    rw [hname, hbefore] at hrecord
    cases c with
    | create name' phc must now =>
      obtain rfl : name' = name := hname
      exact absurd rfl (hcreate phc must now)
    | rehash | setPassword | setTotp | noteTotpCounter | remove => cases hrecord
  · rw [apply_other happly (Ne.symm hname)]
    exact hbefore

theorem token_revoked {id : String} {before after : List TokenRecord}
    (happly : (TokenChange.revoke id).apply before = .ok after) : ∀ r ∈ after, r.id ≠ id := by
  simp only [TokenChange.apply] at happly
  split at happly
  · cases happly
  · cases happly
    intro r hr
    simpa using (List.mem_filter.mp hr).2

theorem token_away {c : TokenChange} {id : String} {before after : List TokenRecord}
    (hissue : ∀ record, c = .issue record → record.id ≠ id) (hbefore : ∀ r ∈ before, r.id ≠ id)
    (happly : c.apply before = .ok after) : ∀ r ∈ after, r.id ≠ id := by
  intro r hr
  cases c with
  | issue record =>
    simp only [TokenChange.apply] at happly
    split at happly
    · cases happly
    · cases happly
      rcases List.mem_append.mp hr with hr | hr
      · exact hbefore r hr
      · obtain rfl := List.mem_singleton.mp hr
        exact hissue _ rfl
  | revoke id' =>
    simp only [TokenChange.apply] at happly
    split at happly
    · cases happly
    · cases happly
      exact hbefore r (List.mem_filter.mp hr).1
  | sweepExpired nowUnix =>
    cases happly
    exact hbefore r (List.mem_filter.mp hr).1

/-- In every run whose renames replace the version their change was applied to, and no
file operation of a `mutate` fails after its rename: when no call is under way the file
holds the initial records with the changes that returned `Ok`, in some order; and in
every state reached a revoked token, a removed user and a replaced password hash stay
away until a later call brings them back. -/
theorem no_update_lost (users : Nat → Except AuthError (List UserRecord))
    (tokens : Nat → Except AuthError (List TokenRecord)) :
    (∀ init records es s, (usersKind users).recordsOf init = .ok records →
      Run (Event (usersKind users)) (opened init) es s →
      (s.Quiescent → ∃ order current, Run (Steps (changing (usersKind users))) records order current ∧
        (usersKind users).recordsOf s.file = .ok current ∧ order.Perm s.done) ∧
      ∀ current, (usersKind users).recordsOf s.file = .ok current →
        (∀ name, .remove name ∈ s.done →
          (∀ phc must now, ¬ Called es (.create name phc must now)) → recordOf name current = none) ∧
        ∀ name password phc now old, .setPassword name password phc now ∈ s.done → old ≠ phc →
          (∀ c, Called es c → account c = name → givenHash c ≠ some old) →
          ∀ r, recordOf name current = some r → r.phc ≠ old) ∧
    ∀ init records es s, (tokensKind tokens).recordsOf init = .ok records →
      Run (Event (tokensKind tokens)) (opened init) es s →
      (s.Quiescent → ∃ order current, Run (Steps (changing (tokensKind tokens))) records order current ∧
        (tokensKind tokens).recordsOf s.file = .ok current ∧ order.Perm s.done) ∧
      ∀ current, (tokensKind tokens).recordsOf s.file = .ok current →
        ∀ id, .revoke id ∈ s.done → (∀ record, Called es (.issue record) → record.id ≠ id) →
          ∀ r ∈ current, r.id ≠ id := by
  constructor
  · intro init records es s hinit hrun
    have haccounted := run_accounted hinit hrun
    refine ⟨haccounted.order, fun current hcurrent => ⟨?_, ?_⟩⟩
    · intro name hdone hcreate
      refine haccounted.lasting (P := fun users => recordOf name users = none) hdone
        (fun _ _ => user_removed) (fun c hcalled _ _ => user_away ?_) hcurrent
      rintro phc must now rfl
      exact hcreate phc must now hcalled
    · intro name password phc now old hdone hne hgiven
      refine haccounted.lasting (P := fun users => ∀ r, recordOf name users = some r → r.phc ≠ old)
        hdone (fun before after happly r hr => ?_)
        (fun c hcalled _ _ => hash_away (hgiven c hcalled)) hcurrent
      have happly : (UserChange.setPassword name password phc now).apply before = .ok after := happly
      rw [hash_replaced happly r hr]
      exact hne.symm
  · intro init records es s hinit hrun
    have haccounted := run_accounted hinit hrun
    refine ⟨haccounted.order, fun current hcurrent id hdone hissue => ?_⟩
    refine haccounted.lasting (P := fun tokens => ∀ r ∈ tokens, r.id ≠ id) hdone
      (fun before after happly => ?_) (fun c hcalled _ _ => token_away ?_) hcurrent
    · have happly : (TokenChange.revoke id).apply before = .ok after := happly
      exact token_revoked happly
    · rintro record rfl
      exact hissue record hcalled

namespace RevocationSample

def record (id : String) : TokenRecord :=
  { id, label := id, digest := { hex := id }, scope := { write := true }, created := "",
    expiresAt := none }

/-- The file with two tokens and with one of them, and with three, two and one. -/
def reading : Nat → Except AuthError (List TokenRecord)
  | 0 => .ok [record "t1", record "t2"]
  | 1 => .ok [record "t2"]
  | 2 => .ok [record "t1"]
  | 3 => .ok [record "t1", record "t2", record "t3"]
  | 4 => .ok [record "t2", record "t3"]
  | 5 => .ok [record "t3"]
  | _ => .error .invalidCredentials

def tokensStore : Kind TokenRecord TokenChange := tokensKind reading

def loads : List (Side × FileEvent TokenChange) :=
  [(.worker, .loadRead), (.worker, .loadStat), (.cli, .loadRead), (.cli, .loadStat)]

/-- Both processes have refreshed when the first one renames its file. -/
def overlapping : List (Side × FileEvent TokenChange) :=
  [(.worker, .call (some (.revoke "t1"))), (.cli, .call (some (.revoke "t2"))),
    (.worker, .write 1), (.worker, .stat), (.cli, .write 2), (.cli, .stat)]

/-- The worker revokes a token, then the command line, which reads the file again,
another one. -/
def inTurn : List (Side × FileEvent TokenChange) :=
  loads ++ [(.worker, .call (some (.revoke "t1"))), (.worker, .write 4), (.worker, .stat),
    (.cli, .call (some (.revoke "t2"))), (.cli, .read), (.cli, .write 5), (.cli, .stat)]

/-- The state after the overlapping calls. -/
def lost : System TokenRecord TokenChange :=
  { file := some 2, worker := { records := [record "t2"], fp := some 1, phase := .idle },
    cli := { records := [record "t1"], fp := some 2, phase := .idle },
    done := [.revoke "t1", .revoke "t2"] }

/-- The state after the calls in turn. -/
def revoked : System TokenRecord TokenChange :=
  { file := some 5, worker := { records := [record "t2", record "t3"], fp := some 4, phase := .idle },
    cli := { records := [record "t3"], fp := some 5, phase := .idle },
    done := [.revoke "t1", .revoke "t2"] }

end RevocationSample

/-- Both revocations return `Ok`, and the first token is in the file. -/
theorem revoked_token_back :
    exec (systemStep RevocationSample.tokensStore) (opened (some 0))
      (RevocationSample.loads ++ RevocationSample.overlapping) = some RevocationSample.lost ∧
    .revoke "t1" ∈ RevocationSample.lost.done ∧
    (RevocationSample.tokensStore.recordsOf RevocationSample.lost.file).toOption
      = some [RevocationSample.record "t1"] := by
  decide +kernel

/-- Both revocations are in the file, and both last. -/
theorem no_update_lost_in_turn :
    (∃ order current, Run (Steps (changing RevocationSample.tokensStore))
        [RevocationSample.record "t1", RevocationSample.record "t2", RevocationSample.record "t3"]
        order current ∧
      RevocationSample.tokensStore.recordsOf (some 5) = .ok current ∧
      order.Perm [.revoke "t1", .revoke "t2"]) ∧
    ∀ id ∈ ["t1", "t2"], ∀ r ∈ [RevocationSample.record "t3"], r.id ≠ id := by
  have hrun : Run (Event RevocationSample.tokensStore) (opened (some 3)) RevocationSample.inTurn
      RevocationSample.revoked :=
    .cons ⟨trivial, rfl⟩ (.cons ⟨trivial, rfl⟩ (.cons ⟨trivial, rfl⟩ (.cons ⟨trivial, rfl⟩
      (.cons ⟨trivial, rfl⟩ (.cons ⟨rfl, rfl⟩ (.cons ⟨trivial, rfl⟩
        (.cons ⟨trivial, rfl⟩ (.cons ⟨trivial, rfl⟩ (.cons ⟨rfl, rfl⟩ (.cons ⟨trivial, rfl⟩
          (.nil _)))))))))))
  have hquiet : RevocationSample.revoked.Quiescent := fun side => by cases side <;> exact .inl rfl
  have hissue : ∀ id record, Called RevocationSample.inTurn (.issue record) → record.id ≠ id := by
    rintro id record ⟨side, hmem⟩
    simp [RevocationSample.inTurn, RevocationSample.loads] at hmem
  obtain ⟨horder, hlast⟩ :=
    (no_update_lost (fun _ => .ok []) RevocationSample.reading).2 _ _ _ _ rfl hrun
  refine ⟨horder hquiet, fun id hid => hlast _ rfl id ?_ (hissue id)⟩
  rcases List.mem_cons.mp hid with rfl | hid
  · exact List.mem_cons_self
  · obtain rfl := List.mem_singleton.mp hid
    exact List.mem_cons_of_mem _ List.mem_cons_self

end Detent.Guarantees.CredentialUpdates
