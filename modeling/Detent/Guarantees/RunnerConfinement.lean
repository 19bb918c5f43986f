import Detent.Lib.Orderly
import Detent.Source.Runner

/-!
# The runner is confined

Whatever the monitor sends and the host answers, the runner runs only declared validators,
on plain files in its staging directory or candidate-named ones in a trusted directory
beside a declared file target; it performs only declared actions on declared bindings,
reloads unit files only for a module that declares it, starts the updater only for a
release tag. It answers each request once, and reports a success only where the call it
is about succeeded (`runner_confined`).
-/
namespace Detent.Guarantees.RunnerConfinement
open Lib
open Source Source.Runner

abbrev Asked := Prog.Performed RunnerOp

/-- What the runner is at: waiting for a message, or at a request, with what it asked so far. -/
inductive Phase
  | waiting
  | serving (request : RunnerRequest) (asked : List Asked)

def Phase.next : Phase → Asked → Phase
  | _, ⟨_, .recv, .ok request⟩ => .serving request []
  | _, ⟨_, .recv, .error _⟩ => .waiting
  | _, ⟨_, .send _, _⟩ => .waiting
  | .serving request asked, e => .serving request (asked ++ [e])
  | .waiting, _ => .waiting

def phase (past : List Asked) : Phase := past.foldl Phase.next .waiting

section Permitted

variable (rs : RunnerSetup)

/-- A declared file target that the check is about, or one of the check's module. -/
def Beside (entry : CheckEntry) (dir : Path) : Prop :=
  ∃ target ∈ rs.allow.targets.entries, target.kind = .file ∧ parent target.path = some dir ∧
    (target.module = entry.module ∨ target.id ∈ entry.targets)

/-- Where the validator of a check may be pointed. -/
def MayJudge (entry : CheckEntry) (name : Text) (asked : List Asked) (path : Path) : Prop :=
  isPlainName name = true ∧ ⟨_, .isFile path, true⟩ ∈ asked ∧
    (path = join rs.stagingDir name ∨
      ∃ dir, path = join dir name ∧ Beside rs entry dir ∧ candidatePrefix <+: name ∧
        ⟨_, .trustedDir dir (rs.ownerOf entry.check), true⟩ ∈ asked)

/-- A tag that is one plain argument and one plain part of a unit name. -/
def TagShape (tag : Text) : Prop :=
  tag.head? = some 'v' ∧ tag.length ≤ maxReleaseTagLen ∧
    ∀ c ∈ tag, c.isAlphanum = true ∨ c = '.' ∨ c = '-'

/-- A response that reports a success reports the answer of a call made for the request. -/
def Honest (asked : List Asked) : RunnerResponse → Prop
  | .checked outcome => ∃ check path, ⟨_, .runCheck check path, .ok outcome⟩ ∈ asked
  | .serviced outcome => ∃ binding core, ⟨_, .service binding core, .ok outcome⟩ ∈ asked
  | .reloaded detail => ⟨_, .reloadUnitFiles, .ok detail⟩ ∈ asked
  | .mounts units => (∃ dir target, ⟨_, .startAdded dir target, .ok units⟩ ∈ asked) ∨
      ∃ dir, ⟨_, .stopStarted dir, .ok units⟩ ∈ asked
  | .forgotten => ∃ dir, ⟨_, .forgetStarted dir, .ok ()⟩ ∈ asked
  | .updateStarted detail => ∃ tag, ⟨_, .startUpdate tag, .ok (.started detail)⟩ ∈ asked
  | .updateRunning => ∃ tag, ⟨_, .startUpdate tag, .ok .alreadyRunning⟩ ∈ asked
  | .unitStatus status => ∃ binding, ⟨_, .serviceStatus binding, .ok status⟩ ∈ asked
  | .unavailable _ | .failed _ => True

/-- The calls a request permits, after those made for it. -/
def Permitted (request : RunnerRequest) (asked : List Asked) : (β : Type) → RunnerOp β → Prop
  | _, .recv => False
  | _, .send response => Honest asked response
  | _, .existing | _, .trustedDir .. | _, .isFile _ => ∃ id name, request = .check id name
  | _, .runCheck check path => ∃ id name entry, request = .check id name ∧
      rs.allow.check id = some entry ∧ check = entry.check ∧ MayJudge rs entry name asked path
  | _, .service binding core => ∃ id action entry, request = .service id action ∧
      rs.allow.binding id = some entry ∧ binding = entry.binding ∧ action.toCore = some core ∧
      core ∈ entry.binding.actions
  | _, .serviceStatus binding => ∃ id entry, request = .serviceStatus id ∧
      rs.allow.binding id = some entry ∧ binding = entry.binding
  | _, .reloadUnitFiles => request = .reloadUnitFiles ∧
      ∃ module ∈ rs.allow.modules, module.reloadUnitFiles = true
  | _, .startAdded dir target => request = .startAddedMounts target ∧ rs.recordDir = some dir
  | _, .stopStarted dir => request = .stopStartedMounts ∧ rs.recordDir = some dir
  | _, .forgetStarted dir => request = .forgetStartedMounts ∧ rs.recordDir = some dir
  | _, .startUpdate tag => request = .startUpdate tag ∧ TagShape tag

def IsRecv : {β : Type} → RunnerOp β → Prop
  | _, .recv => True
  | _, _ => False

/-- A message is taken only between requests; every other call is permitted by the request. -/
def Justified (past : List Asked) (e : Asked) : Prop :=
  match phase past with
  | .waiting => IsRecv e.effect
  | .serving request asked => Permitted rs request asked e.type e.effect

end Permitted

theorem targetsOf_mem {allow : Allowlist} {module : ModuleId} {entry : TargetEntry}
    (h : entry ∈ allow.targetsOf module) : entry ∈ allow.targets.entries ∧ entry.module = module := by
  obtain ⟨hmem, hmodule⟩ := List.mem_filter.mp h
  exact ⟨hmem, by simpa using hmodule⟩

theorem candidateDir_beside {present : Path → Bool} {allow : Allowlist} {module : ModuleId}
    {dir : Path} (h : candidateDir present allow module = some dir) :
    ∃ target ∈ allow.targets.entries, target.kind = .file ∧ parent target.path = some dir ∧
      target.module = module := by
  unfold candidateDir at h
  obtain ⟨descriptor, -, h⟩ := Option.bind_eq_some_iff.mp h
  obtain ⟨primary, hprimary, hparent⟩ := Option.bind_eq_some_iff.mp h
  have hmem : primary ∈ (allow.targetsOf module).filter (fun entry => entry.kind = .file) := by
    rcases Option.or_eq_some_iff.mp hprimary with hfound | ⟨-, hhead⟩
    · obtain ⟨target, -, hfind⟩ := Option.bind_eq_some_iff.mp hfound
      exact List.mem_of_find?_eq_some hfind
    · exact List.mem_of_mem_head? hhead
  obtain ⟨hof, hkind⟩ := List.mem_filter.mp hmem
  obtain ⟨hentries, hmodule⟩ := targetsOf_mem hof
  exact ⟨primary, hentries, by simpa using hkind, hparent, hmodule⟩

variable {id : CheckId} {entry : CheckEntry}

theorem checkCandidateDir_beside {rs : RunnerSetup} {present : Path → Bool} {dir : Path}
    (hentry : rs.allow.check id = some entry)
    (h : checkCandidateDir present rs.allow id = some dir) : Beside rs entry dir := by
  rw [checkCandidateDir, hentry] at h
  change (if entry.check.appliesTo.isEmpty then _ else _) = _ at h
  split at h
  · obtain ⟨target, hmem, hkind, hparent, hmodule⟩ := candidateDir_beside h
    exact ⟨target, hmem, hkind, hparent, .inl hmodule⟩
  · obtain ⟨target, hfind, hparent⟩ := Option.bind_eq_some_iff.mp h
    have hkind : target.kind = .file := by simpa using List.find?_some hfind
    obtain ⟨id, hid, htarget⟩ := List.mem_filterMap.mp (List.mem_of_find?_eq_some hfind)
    have hsame : target.id = id := TargetTable.get_id htarget
    exact ⟨target, List.mem_of_getElem? htarget, hkind, hparent, .inr (hsame ▸ hid)⟩

section Serving

variable {rs : RunnerSetup} {request : RunnerRequest} {asked : List Asked} {α β : Type}

/-- While `request` is served, after `asked`, `p` makes permitted calls only, and `Q` holds
of all calls with the value. -/
def Serves (rs : RunnerSetup) (request : RunnerRequest) (asked : List Asked)
    (p : Prog RunnerOp α) (Q : List Asked → α → Prop) : Prop :=
  ∀ past, phase past = .serving request asked → p.Orderly (Justified rs)
    (fun later a => ∃ more, phase later = .serving request (asked ++ more) ∧ Q (asked ++ more) a) past

/-- A call made for a request. -/
def Inner : (β : Type) → RunnerOp β → Prop
  | _, .recv | _, .send _ => False
  | _, _ => True

theorem phase_snoc {past : List Asked} (h : phase past = .serving request asked) {e : Asked}
    (he : Inner e.type e.effect) : phase (past ++ [e]) = .serving request (asked ++ [e]) := by
  rw [phase, List.foldl_append, show past.foldl Phase.next .waiting = _ from h]
  rcases e with ⟨_, _ | _ | _ | _ | _ | _ | _ | _ | _ | _ | _ | _ | _, answer⟩ <;>
    first | exact he.elim | rfl

theorem serves_pure {a : α} {Q : List Asked → α → Prop} (h : Q asked a) :
    Serves rs request asked (pure a) Q :=
  fun _ hphase => Prog.orderly_pure ⟨[], by rwa [List.append_nil], by rwa [List.append_nil]⟩

theorem serves_ask {op : RunnerOp β} {f : β → Prog RunnerOp α} {Q : List Asked → α → Prop}
    (hinner : Inner β op) (hop : Permitted rs request asked β op)
    (h : ∀ b, Serves rs request (asked ++ [⟨β, op, b⟩]) (f b) Q) :
    Serves rs request asked (Prog.perform op >>= f) Q := by
  refine fun past hphase => Prog.orderly_ask (fun b => ⟨?_, ?_⟩)
  · rw [Justified, hphase]
    exact hop
  · refine (h b _ (phase_snoc hphase hinner)).weaken ?_
    rintro later a ⟨more, hlater, hq⟩
    rw [List.append_assoc] at hlater hq
    exact ⟨_, hlater, hq⟩

theorem Serves.bind {p : Prog RunnerOp β} {f : β → Prog RunnerOp α} {Q : List Asked → β → Prop}
    {R : List Asked → α → Prop} (hp : Serves rs request asked p Q)
    (hf : ∀ more b, Q (asked ++ more) b → Serves rs request (asked ++ more) (f b) R) :
    Serves rs request asked (p >>= f) R := by
  refine fun past hphase => (hp past hphase).bind ?_
  rintro later b ⟨more, hlater, hq⟩
  refine (hf more b hq later hlater).weaken ?_
  rintro last a ⟨rest, hlast, hr⟩
  rw [List.append_assoc] at hlast hr
  exact ⟨_, hlast, hr⟩

theorem Serves.weaken {p : Prog RunnerOp α} {Q R : List Asked → α → Prop}
    (hp : Serves rs request asked p Q) (h : ∀ later a, Q later a → R later a) :
    Serves rs request asked p R := by
  refine fun past hphase => (hp past hphase).weaken ?_
  rintro later a ⟨more, hlater, hq⟩
  exact ⟨more, hlater, h _ a hq⟩

theorem honest_respond {success : α → RunnerResponse} {outcome : Except HookError α}
    (h : ∀ value, outcome = .ok value → Honest asked (success value)) :
    Honest asked (respond success outcome) := by
  rcases outcome with err | value
  · cases err <;> trivial
  · exact h value rfl

theorem serves_once {op : RunnerOp (Except HookError α)} {success : α → RunnerResponse}
    (hinner : Inner _ op) (hop : Permitted rs request asked _ op)
    (hhonest : ∀ value later, ⟨_, op, .ok value⟩ ∈ later → Honest later (success value)) :
    Serves rs request asked
      (do let outcome ← Prog.perform op; pure (respond success outcome)) Honest :=
  serves_ask hinner hop (fun outcome => serves_pure (honest_respond (fun value hvalue =>
    hhonest value _ (by simp [hvalue]))))

variable {name : Text}

theorem stagedCandidate_serves (dir : Path) (hrequest : request = .check id name) :
    Serves rs request asked (stagedCandidate dir name)
      (fun later found => ∀ path, found = some path →
        path = join dir name ∧ isPlainName name = true ∧ ⟨_, .isFile path, true⟩ ∈ later) := by
  unfold stagedCandidate
  split
  · rename_i hplain
    refine serves_ask trivial ⟨id, name, hrequest⟩ (fun found => serves_pure ?_)
    rintro path hpath
    cases found with
    | false => cases hpath
    | true =>
      obtain rfl : join dir name = path := Option.some.inj hpath
      exact ⟨rfl, hplain, by simp⟩
  · exact serves_pure nofun

variable (hrequest : request = .check id name)
include hrequest

theorem stagingDir_serves :
    Serves rs request asked (stagedCandidate rs.stagingDir name)
      (fun later found => ∀ path, found = some path → MayJudge rs entry name later path) := by
  refine (stagedCandidate_serves rs.stagingDir hrequest).weaken (fun later found hstaged => ?_)
  intro path hpath
  obtain ⟨hjoin, hplain, hfile⟩ := hstaged path hpath
  exact ⟨hplain, hfile, .inl hjoin⟩

theorem besideTarget_serves {dir : Path} (hbeside : Beside rs entry dir)
    (hstarts : candidatePrefix <+: name) (trusted : Bool)
    (htrusted : ⟨_, .trustedDir dir (rs.ownerOf entry.check), trusted⟩ ∈ asked) :
    Serves rs request asked (besideTarget rs dir name trusted)
      (fun later found => ∀ path, found = some path → MayJudge rs entry name later path) := by
  cases trusted with
  | false => exact serves_pure nofun
  | true =>
    refine (stagedCandidate_serves dir hrequest).bind (fun more found hfound => ?_)
    cases found with
    | some path =>
      refine serves_pure (fun other hother => ?_)
      obtain rfl := Option.some.inj hother
      obtain ⟨hpath, hplain, hfile⟩ := hfound path rfl
      exact ⟨hplain, hfile, .inr ⟨dir, hpath, hbeside, hstarts, List.mem_append_left _ htrusted⟩⟩
    | none => exact stagingDir_serves hrequest

theorem candidatePath_serves (dir : Option Path) (hdir : ∀ d, dir = some d → Beside rs entry d) :
    Serves rs request asked (candidatePath rs entry name dir)
      (fun later found => ∀ path, found = some path → MayJudge rs entry name later path) := by
  cases dir with
  | none => exact stagingDir_serves hrequest
  | some dir =>
    dsimp only [candidatePath]
    split
    · rename_i hstarts
      refine serves_ask trivial ⟨id, name, hrequest⟩ (fun trusted => ?_)
      exact besideTarget_serves hrequest (hdir dir rfl) (List.isPrefixOf_iff_prefix.mp hstarts)
        trusted (by simp)
    · exact serves_pure nofun

theorem answerCheck_serves : Serves rs request asked (answerCheck rs id name) Honest := by
  unfold answerCheck
  cases hentry : rs.allow.check id with
  | none => exact serves_pure trivial
  | some entry =>
    refine serves_ask trivial ⟨id, name, hrequest⟩ (fun present => ?_)
    refine (candidatePath_serves hrequest _
      (fun dir hdir => checkCandidateDir_beside hentry hdir)).bind (fun more found hfound => ?_)
    cases found with
    | none => exact serves_pure trivial
    | some path =>
      exact serves_once trivial ⟨id, name, entry, hrequest, hentry, rfl, hfound path rfl⟩
        (fun _ _ hmem => ⟨_, _, hmem⟩)

omit hrequest

theorem answerService_serves {id : BindingId} {action : ServiceAction}
    (hrequest : request = .service id action) :
    Serves rs request asked (answerService rs id action) Honest := by
  unfold answerService
  cases hentry : rs.allow.binding id with
  | none => exact serves_pure trivial
  | some entry =>
    dsimp only
    cases hcore : action.toCore.filter (fun core => core ∈ entry.binding.actions) with
    | none => exact serves_pure trivial
    | some core =>
      obtain ⟨haction, hdeclared⟩ := Option.filter_eq_some_iff.mp hcore
      exact serves_once trivial
        ⟨id, action, entry, hrequest, hentry, rfl, haction, by simpa using hdeclared⟩
        (fun _ _ hmem => ⟨_, _, hmem⟩)

theorem withRecord_serves (success : α → RunnerResponse)
    (ask : Path → RunnerOp (Except HookError α)) (hinner : ∀ dir, Inner _ (ask dir))
    (hask : ∀ dir, rs.recordDir = some dir → Permitted rs request asked _ (ask dir))
    (hhonest : ∀ dir value later, ⟨_, ask dir, .ok value⟩ ∈ later → Honest later (success value)) :
    Serves rs request asked (withRecord rs success ask) Honest := by
  unfold withRecord
  cases hdir : rs.recordDir with
  | none => exact serves_pure trivial
  | some dir => exact serves_once (hinner dir) (hask dir hdir) (hhonest dir)

theorem tagShape {tag : Text} (h : rs.isReleaseTag tag = true) : TagShape tag := by
  simp only [RunnerSetup.isReleaseTag, Bool.and_eq_true, decide_eq_true_eq, List.all_eq_true,
    Bool.or_eq_true, beq_iff_eq] at h
  obtain ⟨⟨hlength, hchars⟩, hversion⟩ := h
  refine ⟨?_, hlength, fun c hc => by simpa [or_assoc] using hchars c hc⟩
  cases hstrip : Text.stripStart ['v'] tag with
  | none =>
    rw [hstrip] at hversion
    cases hversion
  | some version =>
    rw [Text.stripStart] at hstrip
    split at hstrip
    · rename_i hstart
      obtain ⟨rest, rfl⟩ := List.isPrefixOf_iff_prefix.mp hstart
      rfl
    · cases hstrip

theorem answer_serves (rs : RunnerSetup) (asked : List Asked) (request : RunnerRequest) :
    Serves rs request asked (answer rs request) Honest := by
  cases request with
  | check id candidate => exact answerCheck_serves rfl
  | service id action => exact answerService_serves rfl
  | reloadUnitFiles =>
    dsimp only [answer]
    split
    · rename_i hreloads
      exact serves_once trivial ⟨rfl, List.any_eq_true.mp hreloads⟩ (fun _ _ hmem => hmem)
    · exact serves_pure trivial
  | startAddedMounts target =>
    exact withRecord_serves _ _ (fun _ => trivial) (fun _ hdir => ⟨rfl, hdir⟩)
      (fun _ _ _ hmem => .inl ⟨_, _, hmem⟩)
  | stopStartedMounts =>
    exact withRecord_serves _ _ (fun _ => trivial) (fun _ hdir => ⟨rfl, hdir⟩)
      (fun _ _ _ hmem => .inr ⟨_, hmem⟩)
  | forgetStartedMounts =>
    exact withRecord_serves _ _ (fun _ => trivial) (fun _ hdir => ⟨rfl, hdir⟩)
      (fun _ _ _ hmem => ⟨_, hmem⟩)
  | startUpdate tag =>
    dsimp only [answer]
    split
    · rename_i htag
      refine serves_once trivial ⟨rfl, tagShape htag⟩ (fun started _ hmem => ?_)
      cases started <;> exact ⟨_, hmem⟩
    · exact serves_pure trivial
  | serviceStatus id =>
    dsimp only [answer]
    cases hentry : rs.allow.binding id with
    | none => exact serves_pure trivial
    | some entry =>
      exact serves_once trivial ⟨id, entry, rfl, hentry, rfl⟩ (fun _ _ hmem => ⟨_, hmem⟩)

end Serving

theorem phase_recv (past : List Asked) (answer : Except Client.ChannelError RunnerRequest) :
    phase (past ++ [⟨_, .recv, answer⟩]) =
      answer.toOption.elim .waiting (fun request => .serving request []) := by
  rw [phase, List.foldl_append]
  cases answer <;> rfl

theorem phase_send {past : List Asked} (response : RunnerResponse)
    (answer : Except Client.ChannelError Unit) :
    phase (past ++ [⟨_, .send response, answer⟩]) = .waiting := by
  rw [phase, List.foldl_append]
  rfl

theorem serveRunner_orderly (rs : RunnerSetup) (turns : Nat) (past : List Asked)
    (hphase : phase past = .waiting) :
    (serveRunner rs turns).Orderly (Justified rs) (fun _ _ => True) past := by
  induction turns generalizing past with
  | zero => exact Prog.orderly_pure trivial
  | succ turns ih =>
    refine Prog.orderly_ask (fun message => ⟨by rw [Justified, hphase]; trivial, ?_⟩)
    have hnext := phase_recv past message
    rcases message with err | request
    · cases err with
      | timeout => exact ih _ hnext
      | _ => exact Prog.orderly_pure trivial
    · refine (answer_serves rs [] request _ hnext).bind ?_
      rintro later response ⟨more, hserving, hhonest⟩
      refine Prog.orderly_ask (fun sent => ⟨by rw [Justified, hserving]; exact hhonest, ?_⟩)
      cases sent with
      | error err => exact Prog.orderly_pure trivial
      | ok _ => exact ih _ (phase_send response _)

/-- Whatever is sent to it and whatever its calls answer, every call of the runner is
permitted by the request it serves, and it takes a message only between requests. -/
theorem runner_confined {σ : Type} (h : Handler RunnerOp σ) (rs : RunnerSetup) (turns : Nat) (s : σ) :
    Disciplined (Justified rs) [] ((serveRunner rs turns).trace h s) :=
  ((serveRunner_orderly rs turns [] rfl).trace s).1

end Detent.Guarantees.RunnerConfinement
