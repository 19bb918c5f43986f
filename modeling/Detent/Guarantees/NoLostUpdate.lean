import Detent.Guarantees.ApplyReads
import Detent.Guarantees.TimelyAnswers
import Detent.Lib.Except

/-!
# No lost update

An apply reads the target, renders the model into what it read and sends the digest of it
with the write; the monitor writes only over contents with that digest. So whatever other
programs do, an apply that takes its own answers and reports a write has replaced the
contents it rendered from (`applies_replace`). An apply that takes the answers to earlier
requests, because calls before it gave up waiting, may report the write of another
(`stale_receipt_reported`).
-/
namespace Detent.Guarantees.NoLostUpdate
open Lib Source Source.Engine Source.Monitor
open TimelyAnswers

section Updates

variable [Sha256] (m : Setup) (e : OpsEngine) (id : String) (model : Json)
  (expectedHash : Option Sha256Digest)

/-- The write `x` replaced the contents `old`, which the report names and the new
contents were rendered from. -/
structure Replaces (report : ApplyReport) (x : Exchange) (target : TargetId) (module : DynModule)
    (old : Bytes) (current rendered : Text) : Prop where
  request : ∃ journal, x.request =
    .writeTarget target (some (Sha256.of old)) (utf8 rendered) journal
  before : held m x.before target = some old
  after : held m x.after target = some (utf8 rendered)
  prevHash : report.prevHash = some (Sha256.of old)
  newHash : report.newHash = Sha256.of (utf8 rendered)
  expected : ∀ expected ∈ expectedHash, expected = Sha256.of old
  found : findModule e id = .ok module
  decoded : ofUtf8 old = some current
  applied : module.applyJson current model = .ok rendered

variable {m e id model expectedHash} {host : Host} {link : Link}
  {serviceAction : Option ServiceCommand} {confirm : Option Nat} {s s' : Session × Linked}
  {report : ApplyReport}

theorem carryOut_replaces (hinj : Function.Injective (Sha256.of : Bytes → Sha256Digest))
    {candidate : Candidate} {t : Session × Linked}
    (hprepared : Prepared e (linked m host link) id model expectedHash serviceAction confirm t
      candidate s)
    (h : Fallible.exec (engine (linked m host link)) (carryOut e candidate serviceAction confirm)
      s = (.ok report, s')) (hin : InTime s'.2) :
    ∃ x sent target module old current rendered,
      s'.2.served = s.2.served ++ x :: sent ∧
      Replaces m e id model expectedHash report x target module old current rendered ∧
      ∀ y ∈ sent, isWrite y.request = false := by
  obtain ⟨written, s₁, hwrite, h⟩ := Fallible.exec_bind_eq_ok _ h
  rw [Fallible.exec_bind_ok _ (exec_noteHashes _ _ _)] at h
  have hfollows : Reaches (linked m host link) Follows _ s' :=
    .of_run (sends_of_asks (fun _ hrequest => hrequest) (afterWrite_follows candidate written)) h
  have hinNoted := hin.of_reaches hfollows
  have hin₁ : InTime s₁.2 := hinNoted
  obtain ⟨sent, hsent, hnone⟩ := reaches_served hfollows hin
  obtain ⟨-, hprev, hnew⟩ := afterWrite_report h
  obtain ⟨-, x, response, hanswered, hresponse, hselect⟩ := mapped_answered hwrite hin₁
  obtain rfl : response = .written written := by
    cases response <;> first | cases hselect; rfl | cases hselect
  obtain ⟨w, w', hpass, hbefore, hafter⟩ := hanswered.pass
  rw [hresponse] at hpass
  obtain ⟨entry, previous, outcome, hentry, rfl, hwrote⟩ := hpass.writeTarget
  -- what the engine read
  obtain ⟨module, contents, current, u, hmodule, -, ⟨v, -, hread⟩, hadmits, -, hrenders, -, -, -,
    hcurrent, -, hreaches⟩ := hprepared
  have hins : InTime s.2 := hin₁.of_reaches (.of_exec hwrite)
  obtain ⟨-, y, answer, hansweredRead, hanswer, hselectRead⟩ :=
    mapped_answered hread (hins.of_reaches hreaches)
  obtain rfl : answer = .target contents := by
    cases answer <;> first | cases hselectRead; rfl | cases hselectRead
  obtain ⟨v, v', hpassRead, -, -⟩ := hansweredRead.pass
  rw [hanswer] at hpassRead
  obtain ⟨-, hof⟩ := hpassRead.readTarget
  -- what the monitor replaced has the same digest
  obtain ⟨old, rfl, hold⟩ : ∃ old, previous = some old ∧ Sha256.of old = candidate.current :=
    Option.map_eq_some_iff.mp (hwrote.expected candidate.current rfl)
  obtain rfl : old = contents.bytes := hinj (hold.trans (hcurrent.trans hof))
  refine ⟨x, sent, candidate.wiring.target, module, contents.bytes, current, candidate.rendered, ?_,
    ⟨⟨candidate.commitRequired, ?_⟩, ?_, ?_, ?_, ?_, ?_, hmodule, ?_, ?_⟩, hnone⟩
  · rw [hsent]
    dsimp only
    rw [hanswered.served, List.append_assoc, List.singleton_append]
  · rw [hanswered.own, hold]
  · have hnode : w.disk.node entry.path = some (.file contents.bytes) := hwrote.found
    simp only [held, hentry, Option.bind_some, Files.contents, hbefore, hnode]
  · have hnode : w'.disk.node entry.path = some (.file (utf8 candidate.rendered)) := by
      rw [hwrote.written]
      exact Function.update_self _ _ _
    simp only [held, hentry, Option.bind_some, Files.contents, hafter, hnode]
  · rw [hprev]
    exact hwrote.prevDigest
  · rw [hnew]
    exact hwrote.newDigest
  · intro expected hexpected
    rw [hadmits.hash expected hexpected, hof]
  · exact decode_ok hrenders.decoded
  · exact hrenders.applied

omit [Sha256] in
theorem not_write_of_looks {request : Request} (h : Looks request) : isWrite request = false := by
  cases request with
  | writeTarget => cases h
  | _ => rfl

variable (m e id model expectedHash) in
/-- A report of an apply and the requests served for it: the file was as asked and nothing
was written, or the one write replaced what the report says. -/
def Accounted (report : ApplyReport) (served : List Exchange) : Prop :=
  (∃ name path digest, report = unchangedReport name path digest) ∧
      (∀ y ∈ served, isWrite y.request = false) ∨
    ∃ before x after target module old current rendered, served = before ++ x :: after ∧
      Replaces m e id model expectedHash report x target module old current rendered ∧
      ∀ y ∈ before ++ after, isWrite y.request = false

/-- Requests that write nothing may come before and after. -/
theorem Accounted.widen {first served last : List Exchange}
    (h : Accounted m e id model expectedHash report served)
    (hfirst : ∀ y ∈ first, isWrite y.request = false)
    (hlast : ∀ y ∈ last, isWrite y.request = false) :
    Accounted m e id model expectedHash report (first ++ served ++ last) := by
  rcases h with ⟨hreport, hnone⟩ |
    ⟨before, x, after, target, module, old, current, rendered, rfl, hreplaces, hnone⟩
  · refine .inl ⟨hreport, fun y hy => ?_⟩
    rcases List.mem_append.mp hy with hy | hy
    · rcases List.mem_append.mp hy with hy | hy
      · exact hfirst y hy
      · exact hnone y hy
    · exact hlast y hy
  · refine .inr ⟨first ++ before, x, after ++ last, target, module, old, current, rendered, ?_,
      hreplaces, fun y hy => ?_⟩
    · simp only [List.append_assoc, List.cons_append]
    · simp only [List.mem_append] at hy
      rcases hy with (hy | hy) | hy | hy
      · exact hfirst y hy
      · exact hnone y (List.mem_append_left _ hy)
      · exact hnone y (List.mem_append_right _ hy)
      · exact hlast y hy

/-- An apply that takes its own answers accounts for what it reports. -/
theorem apply_accounted (hinj : Function.Injective (Sha256.of : Bytes → Sha256Digest))
    (h : Fallible.exec (engine (linked m host link))
      (Engine.apply e id model expectedHash serviceAction confirm) s = (.ok report, s'))
    (hin : InTime s'.2) :
    ∃ sent, s'.2.served = s.2.served ++ sent ∧ Accounted m e id model expectedHash report sent := by
  obtain ⟨prepared, s₁, hprepare, h⟩ := Fallible.exec_bind_eq_ok _ h
  have hlooks : Reaches (linked m host link) Looks s s₁ :=
    .of_run (sends_of_asks (fun _ hlook => hlook) (prepare_looks e _ _ _ _ _)) hprepare
  have hread : ∀ sent : List Exchange, (∀ y ∈ sent, Looks y.request) →
      ∀ y ∈ sent, isWrite y.request = false := fun sent hall y hy => not_write_of_looks (hall y hy)
  rcases prepare_ok hprepare with ⟨_, rfl, module, wiring, contents, text, t, -, -, -, rfl⟩ |
    ⟨candidate, rfl, hprepared⟩
  · cases h
    obtain ⟨looked, hlooked, hall⟩ := reaches_served hlooks hin
    exact ⟨looked, hlooked, .inl ⟨⟨module.id, wiring.path, contents.digest, rfl⟩, hread _ hall⟩⟩
  · obtain ⟨x, sent, target, module, old, current, rendered, hsent, hreplaces, hfollows⟩ :=
      carryOut_replaces hinj hprepared h hin
    obtain ⟨looked, hlooked, hall⟩ := reaches_served hlooks (hin.of_reaches (.of_exec h))
    refine ⟨looked ++ x :: sent, ?_, .inr ⟨looked, x, sent, target, module, old, current, rendered,
      rfl, hreplaces, ?_⟩⟩
    · rw [hsent, hlooked, List.append_assoc]
    · intro y hy
      rcases List.mem_append.mp hy with hy | hy
      · exact hread _ hall y hy
      · exact hfollows y hy

end Updates

/-- A call of `execute` that has returned: the requests the monitor served during it, and
for every request it sent the earlier ones whose answers were still due. -/
structure Executed where
  op : Operation
  who : Identity
  result : Except OpsError OpOutcome
  served : List Exchange
  due : List (List Nat)

/-- The call sent no request while an earlier answer was due. -/
def Executed.Timely (call : Executed) : Prop := ∀ due ∈ call.due, due = []

section Sequences

variable [Sha256] (m : Setup) (host : Host) (link : Link) (e : OpsEngine)
  (permit : Identity → Operation → Except Denied Unit)

/-- One call on the engine. -/
structure Executes (s : Session × Linked) (call : Executed) (s' : Session × Linked) : Prop where
  run : (execute e call.op call.who permit).run (engine (linked m host link)) s = (call.result, s')
  served : s'.2.served = s.2.served ++ call.served
  due : s'.2.due = s.2.due ++ call.due

/-- An apply among the calls that reports a file as applied accounts for it. -/
def Lossless (call : Executed) : Prop :=
  ∀ id model expectedHash serviceAction confirm report,
    call.op = .apply id model expectedHash serviceAction confirm →
    call.result = .ok (.applied report) →
    Accounted m e id model expectedHash report call.served

variable {m host link e permit}

/-- A call that takes its own answers is lossless. -/
theorem Executes.lossless (hinj : Function.Injective (Sha256.of : Bytes → Sha256Digest))
    {s s' : Session × Linked} {call : Executed} (h : Executes m host link e permit s call s')
    (hin : InTime s'.2) : Lossless m e call := by
  intro id model expectedHash serviceAction confirm report hop hresult
  have hrun := h.run
  rw [hop, hresult] at hrun
  obtain ⟨found, t, t', hfound, happly, hfirst, hlast⟩ := execute_apply_ok hrun
  cases hfound
  have hin' : InTime t'.2 := hin.of_reaches hlast
  obtain ⟨sent, hsent, haccounted⟩ := apply_accounted hinj happly hin'
  obtain ⟨before, hbefore, hlooks⟩ := reaches_served hfirst (hin'.of_reaches (.of_exec happly))
  obtain ⟨after, hafter, hlooks'⟩ := reaches_served hlast hin
  have hserved : call.served = before ++ sent ++ after := by
    refine List.append_cancel_left (h.served.symm.trans ?_)
    rw [hafter, hsent, hbefore]
    simp only [List.append_assoc]
  rw [hserved]
  exact haccounted.widen (fun y hy => not_write_of_looks (hlooks y hy))
    (fun y hy => not_write_of_looks (hlooks' y hy))

/-- However the monitor, other programs and other engines go on during and between the
calls on an engine, as long as no request is sent while an earlier answer is due every
apply that reports a file as applied found it as asked, or replaced, with the only write it
sent, the contents it rendered from. -/
theorem applies_replace (hinj : Function.Injective (Sha256.of : Bytes → Sha256Digest))
    {session : Session} {world : World} {calls : List Executed} {s : Session × Linked}
    (run : Run (Guarded (fun _ call => call.Timely) (Executes m host link e permit))
      (session, Linked.start world) calls s) :
    ∀ call ∈ calls, Lossless m e call := by
  have hstart : InTime (session, Linked.start world).2 := fun _ hdue => by cases hdue
  have hall := Run.history (R := Guarded (fun _ call => call.Timely) (Executes m host link e permit))
    (I := fun calls s => InTime s.2 ∧ ∀ call ∈ calls, Lossless m e call)
    (fun calls t call t' ht hstep => by
      obtain ⟨htimely, hexecutes⟩ := hstep
      have hin : InTime t'.2 := by
        intro due hdue
        rw [hexecutes.due] at hdue
        rcases List.mem_append.mp hdue with hold | hnew
        · exact ht.1 due hold
        · exact htimely due hnew
      refine ⟨hin, fun found hfound => ?_⟩
      rcases List.mem_append.mp hfound with hold | hnew
      · exact ht.2 found hold
      · obtain rfl := List.mem_singleton.mp hnew
        exact hexecutes.lossless hinj hin)
    run ⟨hstart, fun _ hcall => by cases hcall⟩
  exact hall.2

/-- A call and the state it leads to. -/
def execution (m : Setup) (host : Host) (link : Link) (e : OpsEngine)
    (permit : Identity → Operation → Except Denied Unit) (who : Identity) (s : Session × Linked)
    (op : Operation) : Executed × (Session × Linked) :=
  let ended := (execute e op who permit).run (engine (linked m host link)) s
  ({ op, who, result := ended.1, served := ended.2.2.served.drop s.2.served.length
     due := ended.2.2.due.drop s.2.due.length }, ended.2)

theorem executes_execution (who : Identity) (s : Session × Linked) (op : Operation) :
    Executes m host link e permit s (execution m host link e permit who s op).1
      (execution m host link e permit who s op).2 := by
  obtain ⟨hserved, hdue⟩ := histories_grow m host link (execute e op who permit) s
  exact ⟨rfl, List.prefix_iff_eq_append.mp hserved |>.symm, List.prefix_iff_eq_append.mp hdue |>.symm⟩

/-- Calls one after the other, and the state they lead to. -/
def executions (m : Setup) (host : Host) (link : Link) (e : OpsEngine)
    (permit : Identity → Operation → Except Denied Unit) (who : Identity) :
    List Operation → Session × Linked → List Executed × (Session × Linked)
  | [], s => ([], s)
  | op :: ops, s =>
    let first := execution m host link e permit who s op
    let rest := executions m host link e permit who ops first.2
    (first.1 :: rest.1, rest.2)

theorem run_executions {ok : Session × Linked → Executed → Prop} (who : Identity)
    (ops : List Operation) (s : Session × Linked)
    (hok : ∀ call ∈ (executions m host link e permit who ops s).1, ∀ t, ok t call) :
    Run (Guarded ok (Executes m host link e permit)) s
      (executions m host link e permit who ops s).1
      (executions m host link e permit who ops s).2 := by
  induction ops generalizing s with
  | nil => exact .nil s
  | cons op ops ih =>
    exact .cons ⟨hok _ List.mem_cons_self s, executes_execution who s op⟩
      (ih _ (fun call hcall => hok call (List.mem_cons_of_mem _ hcall)))

end Sequences

section Runs

attribute [local instance] Sample.sha256

/-- The calls of an engine of the small monitor, whose file reads `a`. -/
def sampleCalls (link : Link) (ops : List Operation) : List Executed × (Session × Linked) :=
  executions (Sample.setup 20) Sample.host link (Sample.ops (Sample.setup 20)) (fun _ _ => .ok ())
    Sample.caller ops (Sample.session, Linked.start (Sample.world [97]))

def applyModel (model : Json) : Operation := .apply "hosts" model none none none

/-- Another program writes `c` between two applies of `b`. -/
def timelyCalls : List Executed × (Session × Linked) :=
  sampleCalls (patient (Sample.outside (Sample.editAt 7 [99]))) [applyModel "b", applyModel "b"]

/-- The digests a report names. -/
def digestsOf (call : Executed) : Option (Option Sha256Digest × Sha256Digest) :=
  match call.result with
  | .ok (.applied report) => some (report.prevHash, report.newHash)
  | _ => none

theorem timely_calls_replace :
    timelyCalls.1.map digestsOf = [some (some (Sha256.of [97]), Sha256.of [98]),
        some (some (Sha256.of [99]), Sha256.of [98])] ∧
      ∀ call ∈ timelyCalls.1, Lossless (Sample.setup 20) (Sample.ops (Sample.setup 20)) call := by
  have htimely : ∀ call ∈ timelyCalls.1, ∀ due ∈ call.due, due = [] := by decide +kernel
  exact ⟨by decide +kernel, applies_replace Sample.of_injective
    (run_executions Sample.caller _ _ (fun call hcall _ => htimely call hcall))⟩

/-- A monitor that is slow at first: the first three reads time out, and their answers are
there when the second apply looks for its own. -/
def slowLink : Link where
  out := Sample.outside (fun _ w => w)
  sendFails _ := none
  moves n := if n = 9 then [.serve] else if n = 10 then [.serve, .serve, .serve, .serve]
    else if n = 17 then [.serve, .serve, .serve] else []
  receiveFails _ := none

def slowCalls : List Executed × (Session × Linked) :=
  sampleCalls slowLink [applyModel "b", applyModel "b", applyModel "c"]

/-- The report of the apply of `c`: what it names as new is `b`. -/
def staleReport : ApplyReport where
  module := "hosts"
  path := Sample.path
  prevHash := some (Sha256.of [97])
  newHash := Sha256.of [98]
  created := false
  backedUp := true
  service := none
  commit := none
  checks := []
  mounts := none

/-- The third apply takes the receipt of the second for its own, whose write was refused:
the monitor answered it with a conflict. -/
theorem stale_receipt_reported :
    Run (Guarded (fun _ _ => True) (Executes (Sample.setup 20) Sample.host slowLink
        (Sample.ops (Sample.setup 20)) (fun _ _ => .ok ())))
      (Sample.session, Linked.start (Sample.world [97])) slowCalls.1 slowCalls.2 ∧
    ∃ call ∈ slowCalls.1, call.op = applyModel "c" ∧
      call.result.toOption = some (.applied staleReport) ∧
      (call.served.map (·.response)).getLast? =
        some (some (.error (.conflict (Sha256.of [97]) (some (Sha256.of [98]))))) ∧
      ¬ Lossless (Sample.setup 20) (Sample.ops (Sample.setup 20)) call := by
  refine ⟨run_executions Sample.caller _ _ (fun _ _ _ => trivial), ?_⟩
  have hlast : slowCalls.1.getLast?.map (fun call => (call.op, call.result.toOption,
      (call.served.map (·.response)).getLast?)) =
        some (applyModel "c", some (.applied staleReport),
          some (some (.error (.conflict (Sha256.of [97]) (some (Sha256.of [98])))))) := by
    decide +kernel
  obtain ⟨call, hcall, hfields⟩ := Option.map_eq_some_iff.mp hlast
  obtain ⟨hop, hfields⟩ := Prod.mk.inj hfields
  obtain ⟨hresult, hresponse⟩ := Prod.mk.inj hfields
  refine ⟨call, List.mem_of_getLast? hcall, hop, hresult, hresponse, fun hlossless => ?_⟩
  have hok : call.result = .ok (.applied staleReport) := eq_ok_of_toOption hresult
  rcases hlossless "hosts" "c" none none none staleReport hop hok with
    ⟨⟨name, path, digest, hunchanged⟩, -⟩ |
    ⟨before, x, after, target, module, old, current, rendered, -, hreplaces, -⟩
  · have hprev : some (Sha256.of [97]) = some digest := congrArg ApplyReport.prevHash hunchanged
    have hnew : Sha256.of [98] = digest := congrArg ApplyReport.newHash hunchanged
    rw [← hnew] at hprev
    revert hprev
    decide
  · -- the model renders `c`
    have hmodule : Sample.module = module := Except.ok.inj hreplaces.found
    have happlied := hreplaces.applied
    rw [← hmodule] at happlied
    have hrendered : "c".toList = rendered := Except.ok.inj happlied
    have hnew : Sha256.of [98] = Sha256.of (utf8 rendered) := hreplaces.newHash
    rw [← hrendered] at hnew
    revert hnew
    decide

end Runs

end Detent.Guarantees.NoLostUpdate
