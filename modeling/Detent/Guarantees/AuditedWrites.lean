import Detent.Guarantees.ApplyReads
import Detent.Guarantees.Attachment

/-!
# No write without an audit record

`execute` writes an intent record before a mutating operation and an outcome
record after it. It leaves both out for an apply that changes nothing, which it
decides from a first read of the target; `apply` then decides from a second read.
An edit between the two reads gets a write past the audit log: `Races` says
exactly when.

The surroundings are arbitrary: any monitor, any audit sink and any edit between
two requests is some `Env`.
-/
namespace Detent.Guarantees.AuditedWrites
open Lib Source Source.Engine Source.AuditLog
open List (append_nil filterMap_append mem_append mem_singleton)
open Prog (Performed trace_bind trace_pure)

/-- A request that makes the monitor change something. -/
def mutates : Request → Bool
  | .writeTarget .. | .restore .. | .startConfirmTimer .. | .confirmCommit .. | .rollbackCommit ..
  | .mount .. | .reloadUnitFiles .. | .startUpdate .. => true
  | .service _ action => action ≠ .status
  | _ => false

/-- An effect that sends such a request. -/
def changes : Performed EngineOp → Bool
  | ⟨_, .ask request, _⟩ => mutates request
  | _ => false

/-- The record an effect writes. -/
def emitted : Performed EngineOp → Option AuditRecord
  | ⟨_, .record record, _⟩ => some record
  | _ => none

/-- The record an effect writes, when the sink keeps it. -/
def persisted : Performed EngineOp → Option AuditRecord
  | ⟨_, .record record, .ok ()⟩ => some record
  | _ => none

/-- The effect of writing a record the sink keeps. -/
def kept (record : AuditRecord) : Performed EngineOp := ⟨_, .record record, .ok ()⟩

/-- An `Ok` or `Error` record. -/
def isOutcome (record : AuditRecord) : Bool := record.result = .ok || record.result = .error

variable {x : Performed EngineOp} {ok : Request → Prop}

section Calls

variable {σ α : Type} (e : OpsEngine) (op : Operation) (who : Identity)

/-- A record about this operation of this caller. -/
structure About (record : AuditRecord) : Prop where
  sameOp : record.op = op.kind
  sameWho : record.who = who.subject
  sameKind : record.kind = who.kind
  sameModule : record.module = auditedModule e op

/-- Whenever a request changes something, a `Started` record was kept before it
and exactly one `Ok` or `Error` record is written after it. -/
def Audited (trace : List (Performed EngineOp)) : Prop :=
  ∀ before x after, trace = before ++ x :: after → changes x = true →
    (∃ record ∈ before.filterMap persisted, record.result = .started ∧ About e op who record) ∧
    ∃ record, (after.filterMap emitted).filter isOutcome = [record] ∧ About e op who record

theorem mutates_changesState {request : Request} (h : mutates request = true) :
    request.changesState = true := by
  cases request <;> first | rfl | exact h

theorem persisted_emitted {record : AuditRecord} (h : persisted x = some record) :
    emitted x = some record := by
  unfold persisted at h
  split at h
  · exact h
  · cases h

theorem not_changes_of_asks (h : Asks Looks x.type x.effect) : changes x = false := by
  unfold changes
  split
  · next request answer =>
    cases hmutates : mutates request with
    | false => rfl
    | true =>
      have hlooks : request.changesState = false := h
      rw [mutates_changesState hmutates] at hlooks
      cases hlooks
  · rfl

theorem emitted_of_asks (h : Asks ok x.type x.effect) : emitted x = none := by
  unfold emitted
  split
  · exact h.elim
  · rfl

variable {h : Handler EngineOp σ} {s : σ}

theorem looking_changes_nothing {p : Prog EngineOp α} (hp : p.Uses (Asks Looks)) :
    ∀ x ∈ p.trace h s, changes x = false :=
  fun x hx => not_changes_of_asks (hp.trace h s x hx)

theorem silent_emits_nothing {p : Prog EngineOp α} (hp : p.Uses (Asks ok)) :
    (p.trace h s).filterMap emitted = [] :=
  List.filterMap_eq_nil_iff.mpr (fun x hx => emitted_of_asks (hp.trace h s x hx))

variable {trace first middle last : List (Performed EngineOp)}

/-- A call without a change needs no record. -/
theorem audited_of_unchanged (hall : ∀ x ∈ trace, changes x = false) : Audited e op who trace := by
  intro before x after htrace hx
  have hmem : x ∈ trace := by
    rw [htrace]
    exact List.mem_append_right _ List.mem_cons_self
  rw [hall x hmem] at hx
  cases hx

/-- Where a change stands in a trace whose ends change nothing. -/
theorem split_at_change {before after : List (Performed EngineOp)}
    (hfirst : ∀ y ∈ first, changes y = false) (hlast : ∀ y ∈ last, changes y = false)
    (hx : changes x = true) (hsplit : first ++ (middle ++ last) = before ++ x :: after) :
    ∃ left right, before = first ++ left ∧ middle = left ++ x :: right ∧ after = right ++ last := by
  have hnotFirst : x ∉ first := fun hmem => by simp [hfirst x hmem] at hx
  have hnotLast : x ∉ last := fun hmem => by simp [hlast x hmem] at hx
  -- the change is not in the first part
  obtain ⟨left, hbefore, hrest⟩ :
      ∃ left, before = first ++ left ∧ middle ++ last = left ++ x :: after := by
    rcases List.append_eq_append_iff.mp hsplit with ⟨left, hb, hr⟩ | ⟨rest, hf, hr⟩
    · exact ⟨left, hb, hr⟩
    · cases rest with
      | nil => exact ⟨[], by simpa using hf.symm, by simpa using hr.symm⟩
      | cons y rest =>
        injection hr with hy _
        exact absurd (by simp [hf, hy]) hnotFirst
  -- nor in the last
  rcases List.append_eq_append_iff.mp hrest with ⟨rest, _, hl⟩ | ⟨rest, hm, hr⟩
  · exact absurd (by simp [hl]) hnotLast
  · cases rest with
    | nil => exact absurd (by simp [show last = x :: after by simpa using hr.symm]) hnotLast
    | cons y right =>
      injection hr with hy hafter
      exact ⟨left, right, hbefore, by rw [hm, hy], hafter⟩

/-- A call audited on both sides of its changes. -/
theorem audited_of_records {started outcome : AuditRecord} (hfirst : ∀ y ∈ first, changes y = false)
    (hstarted : started ∈ first.filterMap persisted) (hresult : started.result = .started)
    (habout : About e op who started) (hmiddle : middle.filterMap emitted = [])
    (hlast : ∀ y ∈ last, changes y = false)
    (houtcome : (last.filterMap emitted).filter isOutcome = [outcome])
    (haboutOutcome : About e op who outcome) : Audited e op who (first ++ (middle ++ last)) := by
  intro before x after hsplit hx
  obtain ⟨left, right, rfl, rfl, rfl⟩ := split_at_change hfirst hlast hx hsplit
  rw [filterMap_append, List.append_eq_nil_iff] at hmiddle
  have hright : right.filterMap emitted = [] := by
    have hcons := hmiddle.2
    rw [List.filterMap_cons] at hcons
    split at hcons
    · exact hcons
    · cases hcons
  refine ⟨⟨started, ?_, hresult, habout⟩, outcome, ?_, haboutOutcome⟩
  · rw [filterMap_append]
    exact List.mem_append_left _ hstarted
  · rw [filterMap_append, hright, List.nil_append]
    exact houtcome

/-- A change in a call that keeps no `Started` record. -/
theorem not_audited (hx : x ∈ trace) (hchanges : changes x = true)
    (hnone : ∀ record ∈ trace.filterMap emitted, record.result ≠ .started) :
    ¬ Audited e op who trace := by
  intro haudited
  obtain ⟨before, after, htrace⟩ := List.append_of_mem hx
  obtain ⟨⟨record, hrecord, hresult, _⟩, _⟩ := haudited before x after htrace hchanges
  obtain ⟨y, hy, hpersisted⟩ := List.mem_filterMap.mp hrecord
  refine hnone record (List.mem_filterMap.mpr ⟨y, ?_, persisted_emitted hpersisted⟩) hresult
  rw [htrace]
  exact List.mem_append_left _ hy

end Calls

section Call

variable {σ : Type} (e : OpsEngine) (env : Env σ) (op : Operation) (who : Identity)
  (permit : Identity → Operation → Except Denied Unit) (s : Session × σ)

/-- An operation starts with no digests noted. -/
def fresh (s : Session × σ) : Session × σ := ({ s.1 with hashes := Hashes.empty }, s.2)

/-- An apply whose first read finds nothing to write and whose second read does. -/
def Races : Prop :=
  permit who op = .ok () ∧ ∃ id model expectedHash serviceAction confirm s',
    op = .apply id model expectedHash serviceAction confirm ∧
    Keeps e env id model expectedHash serviceAction s s' ∧
    Rewrites e env id model expectedHash serviceAction confirm (fresh s')

theorem newRecord_uses (kind : OpKind) (module : Option String) (result : AuditResult) :
    (newRecord who kind module result).Uses (Asks ok) :=
  Prog.Uses.bind (Prog.uses_perform trivial) (fun _ => trivial)

theorem perform_uses (h : Fallible.Uses (Asks ok) (Engine.dispatch e op)) :
    (Engine.perform e op).Uses (Asks ok) :=
  Prog.Uses.bind (Prog.uses_perform trivial) (fun _ => h)

theorem newRecord_about {h : Handler EngineOp σ} {t u : σ} {record : AuditRecord}
    {result : AuditResult}
    (hrun : (newRecord who op.kind (auditedModule e op) result).run h t = (record, u)) :
    About e op who record ∧ record.result = result := by
  obtain ⟨ts, v, _, hrest⟩ := Prog.run_bind_eq h hrun
  cases hrest
  exact ⟨⟨rfl, rfl, rfl, rfl⟩, rfl⟩

theorem emit_changes_nothing (record : AuditRecord) {h : Handler EngineOp σ} {t : σ} :
    ∀ x ∈ (emit record).trace h t, changes x = false := by
  intro x hx
  obtain rfl := mem_singleton.mp hx
  rfl

theorem recordOutcome_trace (result : Except OpsError OpOutcome) (t : Session × σ) :
    (∀ x ∈ (recordOutcome e who op result).trace (engine env) t, changes x = false) ∧
    ∃ record, (((recordOutcome e who op result).trace (engine env) t).filterMap emitted).filter
      isOutcome = [record] ∧ About e op who record := by
  refine ⟨fun x hx => ?_, ?_⟩
  · simp only [recordOutcome, newRecord, emit, trace_bind, Prog.trace_perform, trace_pure,
      append_nil, mem_append, mem_singleton] at hx
    rcases hx with rfl | rfl | rfl <;> rfl
  · cases result with
    | ok | error => exact ⟨_, rfl, ⟨rfl, rfl, rfl, rfl⟩⟩

variable {looked : List (Performed EngineOp)} {id : String} {model : Json}
  {expectedHash : Option Sha256Digest} {serviceAction : Option ServiceCommand}
  {confirm : Option Nat}

/-- An operation between its two records is audited, whatever the sink does. -/
theorem executeAudited_audited (hlooked : ∀ x ∈ looked, changes x = false) (t : Session × σ) :
    Audited e op who (looked ++ (executeAudited e op who).trace (engine env) t) := by
  unfold executeAudited
  rw [trace_bind]
  rcases hrun : (newRecord who op.kind (auditedModule e op) .started).run (engine env) t
    with ⟨started, u⟩
  obtain ⟨habout, hresult⟩ := newRecord_about e op who hrun
  have hnew := looking_changes_nothing (h := engine env) (s := t)
    (newRecord_uses who op.kind (auditedModule e op) .started)
  rw [trace_bind]
  rcases hsink : (emit started).run (engine env) u with ⟨answer, v⟩
  cases answer with
  | error err =>
    apply audited_of_unchanged
    intro x hx
    simp only [trace_pure, append_nil, mem_append] at hx
    rcases hx with hx | hx | hx
    · exact hlooked x hx
    · exact hnew x hx
    · exact emit_changes_nothing started x hx
  | ok _ =>
    rcases hperform : (Engine.perform e op).run (engine env) v with ⟨result, w⟩
    obtain ⟨hlast, outcome, houtcome, haboutOutcome⟩ := recordOutcome_trace e env op who result w
    have hemit : (emit started).trace (engine env) u = [kept started] := by
      rw [emit, Prog.run_perform] at hsink
      rw [emit, Prog.trace_perform, hsink]
      rfl
    simp only [trace_bind, trace_pure, append_nil, hperform, hemit]
    rw [← List.append_assoc, ← List.append_assoc]
    have hfirst : ∀ x ∈ looked ++ (newRecord who op.kind (auditedModule e op) .started).trace
        (engine env) t ++ [kept started], changes x = false := by
      intro x hx
      simp only [mem_append, mem_singleton] at hx
      rcases hx with (hx | hx) | rfl
      · exact hlooked x hx
      · exact hnew x hx
      · rfl
    have hstarted : started ∈ (looked ++ (newRecord who op.kind (auditedModule e op)
        .started).trace (engine env) t ++ [kept started]).filterMap
          persisted := by
      simp [filterMap_append, persisted, kept]
    exact audited_of_records e op who hfirst hstarted hresult habout
      (silent_emits_nothing (perform_uses e op (dispatch_silent e op))) hlast houtcome haboutOutcome

/-- What a plan leaves behind is no intent record, and it changes nothing. -/
theorem recordPlan_trace (result : Except OpsError OpOutcome) (t : Session × σ) :
    (∀ x ∈ (recordPlan e who op result).trace (engine env) t, changes x = false) ∧
    ∀ record ∈ ((recordPlan e who op result).trace (engine env) t).filterMap emitted,
      record.result ≠ .started := by
  unfold recordPlan
  split
  · split
    · refine ⟨fun x hx => ?_, fun record hrecord => ?_⟩
      · simp only [newRecord, emit, trace_bind, Prog.trace_perform, trace_pure,
          append_nil, mem_append, mem_singleton] at hx
        rcases hx with rfl | rfl <;> rfl
      · obtain rfl := mem_singleton.mp hrecord
        nofun
    · simp
  · simp

theorem executeQuietly_trace (t : Session × σ) :
    ∃ result u, (executeQuietly e op who).trace (engine env) t =
      (Engine.perform e op).trace (engine env) t ++
        (recordPlan e who op result).trace (engine env) u := by
  unfold executeQuietly
  simp only [trace_bind, trace_pure, append_nil]
  exact ⟨_, _, rfl⟩

/-- A quiet operation that changes nothing needs no record. -/
theorem executeQuietly_unchanged {t : Session × σ}
    (hperform : ∀ x ∈ (Engine.perform e op).trace (engine env) t, changes x = false) :
    ∀ x ∈ (executeQuietly e op who).trace (engine env) t, changes x = false := by
  intro x hx
  obtain ⟨result, u, htrace⟩ := executeQuietly_trace e env op who t
  rw [htrace, mem_append] at hx
  rcases hx with hx | hx
  · exact hperform x hx
  · exact (recordPlan_trace e env op who result u).1 x hx

/-- A quiet operation leaves no intent record. -/
theorem executeQuietly_not_started (t : Session × σ) :
    ∀ record ∈ ((executeQuietly e op who).trace (engine env) t).filterMap emitted,
      record.result ≠ .started := by
  intro record hrecord
  obtain ⟨result, u, htrace⟩ := executeQuietly_trace e env op who t
  rw [htrace, filterMap_append,
    silent_emits_nothing (perform_uses e op (dispatch_silent e op)), List.nil_append] at hrecord
  exact (recordPlan_trace e env op who result u).2 record hrecord

/-- An apply that finds nothing to write changes nothing. -/
theorem apply_unchanged {t : Session × σ}
    (h : ¬ Rewrites e env id model expectedHash serviceAction confirm t) :
    ∀ x ∈ Fallible.trace (engine env)
      (Engine.apply e id model expectedHash serviceAction confirm) t, changes x = false := by
  have hlooks := looking_changes_nothing (h := engine env) (s := t)
    (prepare_looks e id model expectedHash serviceAction confirm)
  unfold Engine.apply
  rcases hprepare : Fallible.exec (engine env)
    (prepare e id model expectedHash serviceAction confirm) t with ⟨err | prepared, u⟩
  · rw [Fallible.trace_bind_error _ hprepare]
    exact hlooks
  · rw [Fallible.trace_bind_ok _ hprepare]
    cases prepared with
    | inr candidate => exact absurd (prepared_of_exec hprepare).rewrites h
    | inl report =>
      intro x hx
      rcases mem_append.mp hx with hx | hx
      · exact hlooks x hx
      · cases hx

/-- A client that was greeted sends what it is asked to send. -/
theorem exchange_asks {α : Type} (htables : e.tables.isNone = false) (h : Handler EngineOp σ)
    (t : σ) (request : Request) (want : String) (select : Response → Option α) :
    ∃ answer, ⟨_, .ask request, answer⟩ ∈ (exchange e request want select).trace h t := by
  unfold exchange
  rw [if_neg (by simp [htables])]
  exact ⟨_, List.mem_cons_self⟩

/-- An apply that gets a candidate sends the write. -/
theorem exists_write_of_rewrites {t : Session × σ}
    (h : Rewrites e env id model expectedHash serviceAction confirm t) :
    ∃ x ∈ Fallible.trace (engine env)
      (Engine.apply e id model expectedHash serviceAction confirm) t, changes x = true := by
  obtain ⟨candidate, u, hprepare⟩ := prepare_of_rewrites h
  have htables : e.tables.isNone = false := by
    obtain ⟨_, wiring, _, _, _, _, _, _, _, ⟨v, _, hread⟩, _⟩ := h
    cases htables : e.tables.isNone with
    | false => rfl
    | true =>
      unfold mapped readTarget exchange at hread
      rw [htables] at hread
      cases hread
  obtain ⟨answer, hasked⟩ := exchange_asks e htables (engine env) u
    (.writeTarget candidate.wiring.target (some candidate.current) (utf8 candidate.rendered)
      candidate.commitRequired) "Written" Client.asWritten
  refine ⟨_, ?_, show changes ⟨_, .ask (.writeTarget candidate.wiring.target
    (some candidate.current) (utf8 candidate.rendered) candidate.commitRequired), answer⟩ = true
      from rfl⟩
  unfold Engine.apply
  rw [Fallible.trace_bind_ok _ hprepare]
  refine List.mem_append_right _ (Fallible.mem_trace_bind _ ?_)
  refine Fallible.mem_trace_bind _ ?_
  rw [Fallible.trace_lift]
  exact hasked

/-- The effects of the operation itself are those of the apply. -/
theorem mem_perform_apply {t : Session × σ} (hx : changes x = true) :
    x ∈ (Engine.perform e (.apply id model expectedHash serviceAction confirm)).trace (engine env) t ↔
      x ∈ Fallible.trace (engine env)
        (Engine.apply e id model expectedHash serviceAction confirm) (fresh t) := by
  have hsession : x ≠ ⟨_, EngineOp.session (fun s : Session =>
      ((), { s with hashes := Hashes.empty })), ()⟩ := by
    rintro rfl
    cases hx
  have hdispatch : Fallible.trace (engine env)
      (Engine.dispatch e (.apply id model expectedHash serviceAction confirm)) (fresh t) =
        Fallible.trace (engine env) (Engine.apply e id model expectedHash serviceAction confirm)
          (fresh t) := by
    unfold Engine.dispatch
    rcases happly : Fallible.exec (engine env)
      (Engine.apply e id model expectedHash serviceAction confirm) (fresh t) with ⟨err | report, u⟩
    · exact Fallible.trace_bind_error _ happly
    · rw [Fallible.trace_bind_ok _ happly]
      exact append_nil _
  rw [← hdispatch]
  constructor
  · intro hmem
    rcases List.mem_cons.mp hmem with rfl | hrest
    · exact absurd rfl hsession
    · exact hrest
  · exact List.mem_cons_of_mem _

theorem apply_of_noop {s' : Session × σ}
    (h : Fallible.exec (engine env) (applyIsNoop e op) s = (.ok true, s')) :
    ∃ id model expectedHash serviceAction confirm,
      op = .apply id model expectedHash serviceAction confirm := by
  cases op with
  | apply id model expectedHash serviceAction confirm => exact ⟨_, _, _, _, _, rfl⟩
  | _ => cases h

/-- An apply that is taken for one that changes nothing is audited exactly when it
changes nothing. -/
theorem quiet_apply_audited_iff (hlooked : ∀ x ∈ looked, changes x = false)
    (hsilent : looked.filterMap emitted = []) (t : Session × σ) :
    Audited e (.apply id model expectedHash serviceAction confirm) who
        (looked ++ (executeQuietly e (.apply id model expectedHash serviceAction confirm) who).trace
          (engine env) t) ↔
      ¬ Rewrites e env id model expectedHash serviceAction confirm (fresh t) := by
  by_cases hrewrites : Rewrites e env id model expectedHash serviceAction confirm (fresh t)
  · refine iff_of_false ?_ (not_not.mpr hrewrites)
    obtain ⟨x, hx, hchanges⟩ := exists_write_of_rewrites e env hrewrites
    obtain ⟨result, u, htrace⟩ := executeQuietly_trace e env
      (.apply id model expectedHash serviceAction confirm) who t
    refine not_audited e _ who (List.mem_append_right _ ?_) hchanges ?_
    · rw [htrace]
      exact List.mem_append_left _ ((mem_perform_apply e env hchanges).mpr hx)
    · rw [filterMap_append, hsilent]
      exact executeQuietly_not_started e env _ who t
  · refine iff_of_true (audited_of_unchanged e _ who ?_) hrewrites
    intro x hx
    rcases mem_append.mp hx with hx | hx
    · exact hlooked x hx
    · refine executeQuietly_unchanged e env _ who (fun y hy => ?_) x hx
      cases hchanges : changes y with
      | false => rfl
      | true =>
        have hunchanged := apply_unchanged e env hrewrites y
          ((mem_perform_apply e env hchanges).mp hy)
        rw [hunchanged] at hchanges
        cases hchanges

/-- A call is audited exactly when it does not race with an edit of the target. -/
theorem execute_audited_iff :
    Audited e op who ((execute e op who permit).trace (engine env) s) ↔
      ¬ Races e env op who permit s := by
  unfold execute
  cases hpermit : permit who op with
  | error denied =>
    have hraces : ¬ Races e env op who permit s := by
      intro hraces
      have hok := hraces.1
      rw [hpermit] at hok
      cases hok
    refine iff_of_true (audited_of_unchanged e op who (fun x hx => ?_)) hraces
    simp only [newRecord, emit, trace_bind, Prog.trace_perform, trace_pure,
      append_nil, mem_append, mem_singleton] at hx
    rcases hx with rfl | rfl <;> rfl
  | ok _ =>
    cases hmutating : op.isMutating with
    | false =>
      have hraces : ¬ Races e env op who permit s := by
        rintro ⟨_, id, model, expectedHash, serviceAction, confirm, s', rfl, _⟩
        cases hmutating
      refine iff_of_true (audited_of_unchanged e op who ?_) hraces
      exact executeQuietly_unchanged e env op who
        (looking_changes_nothing (perform_uses e op (dispatch_looks e hmutating)))
    | true =>
      have hlooked := looking_changes_nothing (h := engine env) (s := s) (applyIsNoop_looks e op)
      rw [if_pos rfl, trace_bind]
      rcases hnoop : (applyIsNoop e op).run.run (engine env) s with ⟨answer, s'⟩
      by_cases hquiet : answer = .ok true
      · subst hquiet
        obtain ⟨id, model, expectedHash, serviceAction, confirm, rfl⟩ :=
          apply_of_noop e env op s hnoop
        rw [quiet_apply_audited_iff e env who hlooked (silent_emits_nothing (applyIsNoop_looks e _)),
          not_iff_not]
        constructor
        · exact fun hrewrites => ⟨hpermit, _, _, _, _, _, s', rfl, keeps_of_noop hnoop, hrewrites⟩
        · rintro ⟨_, _, _, _, _, _, s'', hop, hkeeps, hrewrites⟩
          cases hop
          have hagain := (noop_of_keeps confirm hkeeps).symm.trans hnoop
          injection hagain with _ hstate
          rw [← hstate]
          exact hrewrites
      · have hraces : ¬ Races e env op who permit s := by
          rintro ⟨_, id, model, expectedHash, serviceAction, confirm, s'', rfl, hkeeps, _⟩
          have hagain := (noop_of_keeps confirm hkeeps).symm.trans hnoop
          injection hagain with hanswer _
          exact hquiet hanswer.symm
        refine iff_of_true ?_ hraces
        cases answer with
        | error err => exact executeAudited_audited e env op who hlooked s'
        | ok noop =>
          cases noop with
          | false => exact executeAudited_audited e env op who hlooked s'
          | true => exact absurd rfl hquiet

end Call

section Runs

attribute [local instance] Sample.sha256

/-- The file reads `b`, as the model asks, and is edited to `a` after the first
read. -/
def racingTrace : List (Performed EngineOp) :=
  (execute (Sample.ops (Sample.setup 20)) (.apply "hosts" "b" none none none) Sample.caller
    (fun _ _ => .ok ())).trace
      (engine (attached (Sample.setup 20) Sample.host (Sample.outside (Sample.editAt 1 [97]))))
      (Sample.start (Sample.world [98]))

/-- The write is sent, and no record of it is ever written. -/
theorem edited_between_reads_unaudited :
    ¬ Audited (Sample.ops (Sample.setup 20)) (.apply "hosts" "b" none none none) Sample.caller
      racingTrace := by
  have hany : racingTrace.any changes = true := by decide +kernel
  have hnone : (racingTrace.filterMap emitted).isEmpty = true := by decide +kernel
  obtain ⟨x, hx, hchanges⟩ := List.any_eq_true.mp hany
  refine not_audited _ _ _ hx hchanges ?_
  rw [List.isEmpty_iff.mp hnone]
  simp

end Runs

end Detent.Guarantees.AuditedWrites
