import Detent.Guarantees.TornAppends
import Detent.Lib.Machine
import Detent.Source.AuthLog

/-!
# Rotations of the auth log

`FileAuthAudit::append` takes no lock: between the size check, the rename, the
open and the write of one call another call can take any of its steps, and a crash
can cut the write. `State` follows the calls of any number of callers with the
bytes appended so far, and `Kept` is the condition on a step under which no record
is lost: a write goes to a file that still has one of the two names and does not
end in a torn line, and a rename takes the name from no file that got a line
within the last `ROTATE_AT` bytes.
-/
namespace Detent.Guarantees.AuthRotations
open Lib Source Source.AuditLog Source.AuditFile Source.AuthLog
open TornAppends

variable {π : Type} [DecidableEq π]

/-- The files and the calls in progress. `appended` counts the bytes appended to
the log, `latest` is its value after the last whole line of a file, and `acked`
holds each record whose append returned `Ok`, with the value after its line. -/
structure State (π : Type) where
  files : AuthFiles
  calls : π → Option (AuthRecord × Stage)
  appended : Nat
  latest : Nat → Option Nat
  acked : List (AuthRecord × Nat)

def State.setCall (s : State π) (p : π) (call : Option (AuthRecord × Stage)) : State π :=
  { s with calls := Function.update s.calls p call }

@[simp] theorem State.setCall_calls_self (s : State π) (p : π)
    (call : Option (AuthRecord × Stage)) : (s.setCall p call).calls p = call :=
  Function.update_self ..

theorem State.setCall_calls_of_ne (s : State π) {p q : π} (h : q ≠ p)
    (call : Option (AuthRecord × Stage)) : (s.setCall p call).calls q = s.calls q :=
  Function.update_of_ne h ..

/-- A step of the call of one caller. `cut` is a write that fails or is killed
after some bytes, `stop` a crash or an error between two steps. -/
inductive Event (π : Type) where
  | call (p : π) (record : AuthRecord)
  | check (p : π)
  | rename (p : π) (works : Bool)
  | openLog (p : π)
  | write (p : π)
  | sync (p : π)
  | cut (p : π) (n : Nat)
  | stop (p : π)

def step (s : State π) : Event π → Option (State π)
  | .call p record =>
    match s.calls p with
    | none => some (s.setCall p (some (record, .checking)))
    | some _ => none
  | .check p =>
    match s.calls p with
    | some (record, .checking) =>
      some (s.setCall p (some (record, if s.files.full then .rotating else .opening)))
    | _ => none
  | .rename p works =>
    match s.calls p with
    | some (record, .rotating) =>
      if works then
        s.files.rename.map (fun files => { s with files }.setCall p (some (record, .opening)))
      else some (s.setCall p (some (record, .opening)))
    | _ => none
  | .openLog p =>
    match s.calls p with
    | some (record, .opening) =>
      let (file, files) := s.files.openLog
      some ({ s with files }.setCall p (some (record, .writing file)))
    | _ => none
  | .write p =>
    match s.calls p with
    | some (record, .writing file) =>
      let mark := s.appended + (line record).length
      some ({ s with
        files := s.files.append file (line record)
        appended := mark
        latest := Function.update s.latest file (some mark) }.setCall p
          (some (record, .syncing mark)))
    | _ => none
  | .sync p =>
    match s.calls p with
    | some (record, .syncing mark) =>
      some ({ s with acked := s.acked ++ [(record, mark)] }.setCall p none)
    | _ => none
  | .cut p n =>
    match s.calls p with
    | some (record, .writing file) =>
      let bytes := (line record).take n
      some ({ s with
        files := s.files.append file bytes
        appended := s.appended + bytes.length }.setCall p none)
    | _ => none
  | .stop p =>
    match s.calls p with
    | some _ => some (s.setCall p none)
    | none => none

/-- No call yet, over any contents of the two files. -/
def start (log rotated : Option Bytes) : State π where
  files :=
    { log := log.map (fun _ => 0)
      rotated := rotated.map (fun _ => 1)
      contents := fun file => if file = 0 then log.getD [] else rotated.getD []
      fresh := 2 }
  calls := fun _ => none
  appended := 0
  latest := fun _ => none
  acked := []

/-- The files under the two names. -/
def Names (f : AuthFiles) (file : Nat) : Prop := f.log = some file ∨ f.rotated = some file

instance (f : AuthFiles) (file : Nat) : Decidable (Names f file) := inferInstanceAs (Decidable (_ ∨ _))

/-- The record is parsed from a line of the log or of the rotated log. `query` reads the
log as one UTF-8 text before it parses lines, and finds nothing where that fails; this is
left out. -/
def Found (parse : Bytes → Option AuthRecord) (f : AuthFiles) (record : AuthRecord) : Prop :=
  ∃ file, Names f file ∧ record ∈ records parse (f.contents file)

/-- Each record whose append returned `Ok` is found, until `ROTATE_AT` bytes were
appended after its line. -/
def KeepsRecent (parse : Bytes → Option AuthRecord) (s : State π) : Prop :=
  ∀ record mark, (record, mark) ∈ s.acked → s.appended < mark + rotateAt →
    Found parse s.files record

/-- The condition on a step. -/
def Kept (s : State π) : Event π → Prop
  | .rename _ true =>
    match s.files.rotated.bind s.latest with
    | none => True
    | some mark => mark + rotateAt ≤ s.appended
  | .write p =>
    match s.calls p with
    | some (_, .writing file) =>
      Names s.files file ∧ endsOpen (some (s.files.contents file)) = false
    | _ => True
  | _ => True

instance (s : State π) (e : Event π) : Decidable (Kept s e) :=
  match e with
  | .rename _ true =>
    match h : s.files.rotated.bind s.latest with
    | none => .isTrue (by simp only [Kept, h])
    | some mark => decidable_of_iff (mark + rotateAt ≤ s.appended) (by simp only [Kept, h])
  | .write p =>
    match h : s.calls p with
    | some (_, .writing file) =>
      decidable_of_iff (Names s.files file ∧ endsOpen (some (s.files.contents file)) = false)
        (by simp only [Kept, h])
    | none => .isTrue (by simp only [Kept, h])
    | some (_, .checking) => .isTrue (by simp only [Kept, h])
    | some (_, .rotating) => .isTrue (by simp only [Kept, h])
    | some (_, .opening) => .isTrue (by simp only [Kept, h])
    | some (_, .syncing _) => .isTrue (by simp only [Kept, h])
  | .rename _ false | .call .. | .check _ | .openLog _ | .sync _ | .cut .. | .stop _ =>
    .isTrue trivial

/-- A whole line of its own: nothing but whole lines before it. -/
def HasLine (raw text : Bytes) : Prop :=
  ∃ before after, raw = before ++ (text ++ newline :: after) ∧ endsOpen (some before) = false

variable {raw : Bytes} {record : AuthRecord}

theorem HasLine.append {text : Bytes} (h : HasLine raw text) (more : Bytes) :
    HasLine (raw ++ more) text := by
  obtain ⟨before, after, rfl, hclosed⟩ := h
  exact ⟨before, after ++ more, by simp [List.append_assoc], hclosed⟩

/-- A record whose line stands in a file is parsed from it. -/
theorem HasLine.parsed {parse : Bytes → Option AuthRecord}
    (reads : parse (toVec record) = some record) (h : HasLine raw (toVec record)) :
    record ∈ records parse raw := by
  obtain ⟨before, after, rfl, hclosed⟩ := h
  have hown : visibleLines (toVec record) = [toVec record] := by
    rw [visibleLines_of_line _ (newline_not_mem_toVec record), isBlank_toVec]
    rfl
  have hmem : toVec record ∈ visibleLines (before ++ (toVec record ++ newline :: after)) := by
    rw [visibleLines_append_closed before _ hclosed, visibleLines_append_newline, hown]
    simp
  refine List.mem_filterMap.mpr ⟨toVec record, ?_, reads⟩
  exact List.mem_map.mpr ⟨toVec record, hmem, stripReturn_toVec record⟩

/-- A line appended to a file that does not end in a torn one. -/
theorem hasLine_of_append (record : AuthRecord) (hclosed : endsOpen (some raw) = false) :
    HasLine (raw ++ line record) (toVec record) :=
  ⟨raw, [], rfl, hclosed⟩

/-- The record is promised, or will be once its `sync_data` returns. -/
def Owed (s : State π) (record : AuthRecord) (mark : Nat) : Prop :=
  (record, mark) ∈ s.acked ∨ ∃ p, s.calls p = some (record, .syncing mark)

/-- A call set to another stage than the last owes nothing new. -/
theorem owed_of_setCall {s : State π} {p : π} {call : Option (AuthRecord × Stage)}
    (hother : ∀ record mark, call ≠ some (record, .syncing mark)) {mark : Nat}
    (h : Owed (s.setCall p call) record mark) : Owed s record mark := by
  rcases h with hacked | ⟨q, hq⟩
  · exact .inl hacked
  · by_cases hsame : q = p
    · subst hsame
      rw [State.setCall_calls_self] at hq
      exact absurd hq (hother record mark)
    · rw [State.setCall_calls_of_ne _ hsame] at hq
      exact .inr ⟨q, hq⟩

/-- What a step does to the files and to what is owed. -/
inductive Effect (s : State π) : Event π → State π → Prop
  | quiet {e : Event π} {s' : State π} (hfiles : s'.files = s.files)
      (happended : s'.appended = s.appended) (hlatest : s'.latest = s.latest)
      (howed : ∀ record mark, Owed s' record mark → Owed s record mark) : Effect s e s'
  | renamed {p : π} {s' : State π} {file : Nat} (hlog : s.files.log = some file)
      (hfiles : s'.files = { s.files with log := none, rotated := some file })
      (happended : s'.appended = s.appended) (hlatest : s'.latest = s.latest)
      (howed : ∀ record mark, Owed s' record mark → Owed s record mark) :
      Effect s (.rename p true) s'
  | created {e : Event π} {s' : State π} (hlog : s.files.log = none)
      (hfiles : s'.files =
        { s.files with
          log := some s.files.fresh
          contents := Function.update s.files.contents s.files.fresh []
          fresh := s.files.fresh + 1 })
      (happended : s'.appended = s.appended) (hlatest : s'.latest = s.latest)
      (howed : ∀ record mark, Owed s' record mark → Owed s record mark) : Effect s e s'
  | torn {e : Event π} {s' : State π} {file : Nat} {bytes : Bytes}
      (hfiles : s'.files = s.files.append file bytes)
      (happended : s'.appended = s.appended + bytes.length) (hlatest : s'.latest = s.latest)
      (howed : ∀ record mark, Owed s' record mark → Owed s record mark) : Effect s e s'
  | wrote {p : π} {s' : State π} {record : AuthRecord} {file : Nat}
      (hcall : s.calls p = some (record, .writing file))
      (hfiles : s'.files = s.files.append file (line record))
      (happended : s'.appended = s.appended + (line record).length)
      (hlatest : s'.latest = Function.update s.latest file (some s'.appended))
      (howed : ∀ other mark, Owed s' other mark →
        Owed s other mark ∨ other = record ∧ mark = s'.appended) : Effect s (.write p) s'

theorem step_effect {s s' : State π} {e : Event π} (h : step s e = some s') : Effect s e s' := by
  cases e with
  | call p record =>
    simp only [step] at h
    split at h
    · cases h
      exact .quiet rfl rfl rfl (fun _ _ => owed_of_setCall (by simp))
    · cases h
  | check p =>
    simp only [step] at h
    split at h
    · cases h
      refine .quiet rfl rfl rfl (fun _ _ => owed_of_setCall ?_)
      intro record mark
      split <;> simp
    · cases h
  | rename p works =>
    simp only [step] at h
    split at h
    · cases works with
      | false =>
        cases h
        exact .quiet rfl rfl rfl (fun _ _ => owed_of_setCall (by simp))
      | true =>
        obtain ⟨files, hrename, rfl⟩ := Option.map_eq_some_iff.mp h
        unfold AuthFiles.rename at hrename
        split at hrename
        · cases hrename
        · next file hlog =>
          cases hrename
          exact .renamed hlog rfl rfl rfl (fun _ _ => owed_of_setCall (by simp))
    · cases h
  | openLog p =>
    simp only [step] at h
    split at h
    · cases h
      unfold AuthFiles.openLog
      split
      · exact .quiet rfl rfl rfl (fun _ _ => owed_of_setCall (by simp))
      · next hlog => exact .created hlog rfl rfl rfl (fun _ _ => owed_of_setCall (by simp))
    · cases h
  | write p =>
    simp only [step] at h
    split at h
    · next record file hcall =>
      cases h
      refine .wrote hcall rfl rfl rfl ?_
      rintro other mark (hacked | ⟨q, hq⟩)
      · exact .inl (.inl hacked)
      · by_cases hsame : q = p
        · subst hsame
          rw [State.setCall_calls_self] at hq
          cases hq
          exact .inr ⟨rfl, rfl⟩
        · rw [State.setCall_calls_of_ne _ hsame] at hq
          exact .inl (.inr ⟨q, hq⟩)
    · cases h
  | sync p =>
    simp only [step] at h
    split at h
    · next record mark hcall =>
      cases h
      refine .quiet rfl rfl rfl ?_
      rintro other m howed
      rcases owed_of_setCall (by simp) howed with hacked | hcalls
      · rcases List.mem_append.mp hacked with hold | hnew
        · exact .inl hold
        · obtain ⟨rfl, rfl⟩ := Prod.mk.inj (List.mem_singleton.mp hnew)
          exact .inr ⟨p, hcall⟩
      · exact .inr hcalls
    · cases h
  | cut p n =>
    simp only [step] at h
    split at h
    · cases h
      exact .torn rfl rfl rfl (fun _ _ => owed_of_setCall (by simp))
    · cases h
  | stop p =>
    simp only [step] at h
    split at h
    · cases h
      exact .quiet rfl rfl rfl (fun _ _ => owed_of_setCall (by simp))
    · cases h

/-- The line of a record stands in a file with a name, and was not the last line
of it to be written, or enough was appended since. -/
def Held (s : State π) (record : AuthRecord) (mark : Nat) : Prop :=
  mark + rotateAt ≤ s.appended ∨
    ∃ file, Names s.files file ∧ HasLine (s.files.contents file) (toVec record) ∧
      ∃ last, s.latest file = some last ∧ mark ≤ last

structure Sound (s : State π) : Prop where
  named : ∀ file, Names s.files file → file < s.files.fresh
  marked : ∀ file last, s.latest file = some last → last ≤ s.appended
  held : ∀ record mark, Owed s record mark → Held s record mark

omit [DecidableEq π] in
theorem start_sound (log rotated : Option Bytes) : Sound (start log rotated : State π) where
  named := by
    rintro file (h | h)
    · obtain ⟨_, -, rfl⟩ := Option.map_eq_some_iff.mp h
      exact Nat.zero_lt_two
    · obtain ⟨_, -, rfl⟩ := Option.map_eq_some_iff.mp h
      exact Nat.one_lt_two
  marked := by
    nofun
  held := by
    rintro record mark (h | ⟨p, h⟩)
    · cases h
    · cases h

theorem HasLine.grown {f : AuthFiles} {file : Nat} {text : Bytes}
    (h : HasLine (f.contents file) text) (other : Nat) (bytes : Bytes) :
    HasLine ((f.append other bytes).contents file) text := by
  by_cases hsame : file = other
  · subst hsame
    rw [AuthFiles.append_contents_self]
    exact h.append bytes
  · rw [AuthFiles.append_contents_of_ne _ hsame]
    exact h

omit [DecidableEq π] in
theorem step_held {s s' : State π} {e : Event π} (sound : Sound s) (kept : Kept s e)
    (effect : Effect s e s') {mark : Nat} (h : Held s record mark) : Held s' record mark := by
  rcases h with hlong | ⟨file, hname, hline, last, hlast, hle⟩
  · left
    cases effect <;> omega
  cases effect with
  | quiet hfiles happended hlatest howed =>
    rw [Held, hfiles, happended, hlatest]
    exact .inr ⟨file, hname, hline, last, hlast, hle⟩
  | renamed hlog hfiles happended hlatest howed =>
    rw [Held, hfiles, happended, hlatest]
    rcases hname with hcurrent | hold
    · obtain rfl := Option.some.inj (hlog.symm.trans hcurrent)
      exact .inr ⟨_, .inr rfl, hline, last, hlast, hle⟩
    · -- The file that loses its name got its last line long enough ago.
      left
      simp only [Kept, hold, Option.bind_some, hlast] at kept
      omega
  | created hlog hfiles happended hlatest howed =>
    have hother : file ≠ s.files.fresh := Nat.ne_of_lt (sound.named file hname)
    rcases hname with hcurrent | hold
    · rw [hlog] at hcurrent
      cases hcurrent
    · rw [Held, hfiles, happended, hlatest]
      refine .inr ⟨file, .inr hold, ?_, last, hlast, hle⟩
      dsimp only
      rw [Function.update_of_ne hother]
      exact hline
  | torn hfiles happended hlatest howed =>
    rw [Held, hfiles, hlatest]
    exact .inr ⟨file, hname, hline.grown _ _, last, hlast, hle⟩
  | @wrote p s' written target hcall hfiles happended hlatest howed =>
    rw [Held, hfiles, hlatest]
    have hbound := sound.marked file last hlast
    refine .inr ⟨file, hname, hline.grown _ _, ?_⟩
    by_cases hsame : file = target
    · subst hsame
      exact ⟨s'.appended, Function.update_self .., by omega⟩
    · exact ⟨last, by rw [Function.update_of_ne hsame]; exact hlast, hle⟩

theorem step_sound {s s' : State π} {e : Event π} (sound : Sound s) (kept : Kept s e)
    (hstep : step s e = some s') : Sound s' := by
  have effect := step_effect hstep
  have hkeep : ∀ {record mark}, Owed s record mark → Held s' record mark :=
    fun howed => step_held sound kept effect (sound.held _ _ howed)
  cases effect with
  | quiet hfiles happended hlatest howed =>
    refine ⟨?_, ?_, fun record mark h => hkeep (howed record mark h)⟩
    · rw [hfiles]
      exact sound.named
    · rw [happended, hlatest]
      exact sound.marked
  | renamed hlog hfiles happended hlatest howed =>
    refine ⟨?_, ?_, fun record mark h => hkeep (howed record mark h)⟩
    · rw [hfiles]
      rintro file (h | h)
      · cases h
      · cases h
        exact sound.named _ (.inl hlog)
    · rw [happended, hlatest]
      exact sound.marked
  | created hlog hfiles happended hlatest howed =>
    refine ⟨?_, ?_, fun record mark h => hkeep (howed record mark h)⟩
    · rw [hfiles]
      rintro file (h | h)
      · cases h
        exact Nat.lt_succ_self _
      · exact Nat.lt_succ_of_lt (sound.named file (.inr h))
    · rw [happended, hlatest]
      exact sound.marked
  | torn hfiles happended hlatest howed =>
    refine ⟨?_, ?_, fun record mark h => hkeep (howed record mark h)⟩
    · rw [hfiles]
      exact sound.named
    · intro file last h
      rw [hlatest] at h
      have := sound.marked file last h
      omega
  | @wrote p s' written target hcall hfiles happended hlatest howed =>
    simp only [Kept, hcall] at kept
    refine ⟨?_, ?_, ?_⟩
    · rw [hfiles]
      exact sound.named
    · intro file last h
      rw [hlatest] at h
      by_cases hsame : file = target
      · subst hsame
        rw [Function.update_self] at h
        exact Nat.le_of_eq (Option.some.inj h).symm
      · rw [Function.update_of_ne hsame] at h
        have := sound.marked file last h
        omega
    · intro record mark h
      rcases howed record mark h with hold | ⟨rfl, rfl⟩
      · exact hkeep hold
      · rw [Held, hfiles, hlatest]
        refine .inr ⟨target, kept.1, ?_, s'.appended, Function.update_self .., Nat.le_refl _⟩
        rw [AuthFiles.append_contents_self]
        exact hasLine_of_append record kept.2

/-- **Recent records.** In every run of any number of callers, cut anywhere, whose
steps all meet `Kept`, every record whose append returned `Ok` is found until
`ROTATE_AT` bytes were appended after its line. -/
theorem keepsRecent_of_kept (parse : Bytes → Option AuthRecord)
    (reads : ∀ record, parse (toVec record) = some record) (log rotated : Option Bytes)
    (es : List (Event π)) (s : State π)
    (run : Run (Guarded Kept (Steps step)) (start log rotated) es s) : KeepsRecent parse s := by
  have hstep : ∀ (t : State π) e t', Sound t → Guarded Kept (Steps step) t e t' → Sound t' :=
    fun _ _ _ sound h => step_sound sound h.1 h.2
  have sound := run.invariant hstep (start_sound log rotated)
  intro record mark hacked hrecent
  rcases sound.held record mark (.inl hacked) with hlong | ⟨file, hname, hline, -⟩
  · omega
  · exact ⟨file, hname, hline.parsed (reads record)⟩

/-- A failed login of `subject`. -/
def failedLogin (subject : String) : AuthRecord where
  ts := "2026-01-01T00:00:00Z"
  event := .loginFailed
  subject := subject
  kind := .session
  clientIp := none
  result := .error
  detail := none
  suppressed := none
  actor := none

/-- Two whole appends, the second over the log of the first. -/
def twoLogins : List (Event Process) :=
  [.call .worker (failedLogin "alice"), .call .commandLine (failedLogin "bob"),
    .check .worker, .check .commandLine, .openLog .worker, .openLog .commandLine,
    .write .commandLine, .sync .commandLine, .write .worker, .sync .worker]

theorem twoLogins_keepsRecent :
    ∃ s : State Process, Run (Guarded Kept (Steps step)) (start none none) twoLogins s ∧
      s.acked.length = 2 ∧ KeepsRecent fromStr s := by
  have hrun : ∃ s : State Process,
      Run (Guarded Kept (Steps step)) (start none none) twoLogins s ∧ s.acked.length = 2 :=
    ⟨_, run_guarded_of_exec rfl, rfl⟩
  obtain ⟨s, hrun, hacked⟩ := hrun
  exact ⟨s, hrun, hacked, keepsRecent_of_kept fromStr fromStr_toVec none none twoLogins s hrun⟩

/-- The worker dies after one byte of its line; then the command line appends. -/
def tornLogin : List (Event Process) :=
  [.call .worker (failedLogin "alice"), .check .worker, .openLog .worker, .cut .worker 1,
    .call .commandLine (failedLogin "bob"), .check .commandLine, .openLog .commandLine,
    .write .commandLine, .sync .commandLine]

/-- The second line goes behind the byte of the first, and its append returns `Ok`. -/
theorem tornLogin_swallows :
    ¬ ∀ (es : List (Event Process)) (s : State Process),
      Run (Steps step) (start none none) es s → KeepsRecent fromStr s := by
  intro holds
  have hrecent := holds tornLogin _ (run_of_exec rfl) (failedLogin "bob") _ List.mem_cons_self
    (by decide +kernel)
  obtain ⟨file, hname | hname, hmem⟩ := hrecent
  · obtain rfl := Option.some.inj hname
    revert hmem
    decide +kernel
  · cases hname

end Detent.Guarantees.AuthRotations
