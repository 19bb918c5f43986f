import Detent.Lib.Machine
import Detent.Source.Client

/-!
# Requests and responses are paired

A call of the worker's client returns the oldest unread response. After a call
timed out its answer is still due, so the next call of the same client reads
that answer and accepts it when its variant fits. `client_pairing` proves the
pairing for the runs that never call with an answer outstanding;
`runner_pairing` proves it for every run of `RunnerClient`, which gives up the
channel instead.
-/
namespace Detent.Guarantees.ClientPairing
open Lib Source Source.Client
open Option (some.inj)

/-- A successful result is made from the response to the call's own request. -/
def Paired (r : Returned) : Prop :=
  ∀ value, r.result = .ok value →
    ∃ number response, r.number = some number ∧ r.response = some (number, response) ∧
      r.call.finish response = .ok value

/-- The condition on a step: no call starts while an answer is outstanding. -/
def Synchronised (s : State) : Event → Prop
  | .call _ => s.wire.outstanding = []
  | _ => True

/-- Every returned call is paired, and a call in progress awaits only its own
answer. -/
structure Invariant (s : State) : Prop where
  paired : ∀ r ∈ s.returned, Paired r
  waiting : ∀ number call, s.waiting = some (number, call) → s.wire.AwaitsOnly number

theorem invariant_new : Invariant State.new := by
  constructor
  · intro r hr
    cases hr
  · intro number call h
    cases h

/-- A call that fails without a response is paired: it returned no value. -/
theorem Invariant.fail {s : State} (hs : Invariant s) (call : Call) (number : Option Nat)
    (err : ClientError) : Invariant (s.fail call number err) := by
  constructor
  · intro r hr
    rcases List.mem_append.mp hr with hold | hnew
    · exact hs.paired r hold
    · obtain rfl := List.mem_singleton.mp hnew
      nofun
  · intro n c h
    cases h

/-- A call that awaits only its own answer returns paired. -/
theorem Invariant.finish {s : State} (hs : Invariant s) {call : Call} {number n : Nat}
    {response : Response} {wire : Wire Request Response}
    (hwait : s.waiting = some (number, call)) (htake : s.wire.take = some ((n, response), wire)) :
    Invariant (s.finish call number (n, response) wire) := by
  obtain ⟨hn, _⟩ := Wire.take_of_awaitsOnly (hs.waiting number call hwait) htake
  constructor
  · intro r hr
    rcases List.mem_append.mp hr with hold | hnew
    · exact hs.paired r hold
    · obtain rfl := List.mem_singleton.mp hnew
      intro value hvalue
      exact ⟨number, response, rfl, by rw [hn], hvalue⟩
  · nofun

theorem invariant_step (s : State) (e : Event) (s' : State) (hs : Invariant s)
    (h : Guarded Synchronised (Steps step) s e s') : Invariant s' := by
  obtain ⟨hsync, hstep⟩ := h
  unfold Steps step at hstep
  cases e with
  | call call =>
    simp only at hstep
    split at hstep
    · cases hstep
    · split at hstep
      · obtain rfl := some.inj hstep
        exact hs.fail call none _
      · obtain rfl := some.inj hstep
        refine ⟨hs.paired, fun number c hwait => ?_⟩
        obtain ⟨rfl, rfl⟩ := Prod.mk.inj (some.inj hwait)
        exact Wire.send_awaitsOnly s.wire _ hsync
  | sendFails call err =>
    simp only at hstep
    split at hstep
    · cases hstep
    · obtain rfl := some.inj hstep
      exact hs.fail call none _
  | answer response =>
    obtain ⟨wire, hwire, rfl⟩ := Option.map_eq_some_iff.mp hstep
    refine ⟨hs.paired, fun number c hwait n hn => ?_⟩
    rw [Wire.answer_outstanding hwire] at hn
    exact hs.waiting number c hwait n hn
  | receive =>
    simp only at hstep
    split at hstep
    next number call response wire hwait htake =>
      obtain rfl := some.inj hstep
      obtain ⟨n, response⟩ := response
      exact hs.finish hwait htake
    next => cases hstep
  | timeout =>
    simp only at hstep
    split at hstep
    next number call _ =>
      obtain rfl := some.inj hstep
      exact hs.fail call (some number) _
    next => cases hstep

/-- **In every run in which no call starts while an answer is outstanding, a
call that succeeds returns the response to its own request.** -/
theorem client_pairing (events : List Event) (s : State)
    (run : Run (Guarded Synchronised (Steps step)) State.new events s) :
    ∀ r ∈ s.returned, Paired r :=
  (Run.invariant invariant_step run invariant_new).paired

/-- The advertised tables of a monitor without modules. -/
def bareAck : HelloAck :=
  { proto := protoVersion, modules := [], targets := [], checks := [], bindings := [] }

def contentsOf (target : Nat) (bytes : Bytes) : TargetContents :=
  { target := ⟨target⟩, bytes := bytes, digest := ⟨""⟩ }

/-- A handshake and a read answered in time, and a second read that is not. -/
def timelyEvents : List Event :=
  [.call .hello, .answer (.helloAck bareAck), .receive,
    .call (.readTarget ⟨0⟩), .answer (.target (contentsOf 0 [97])), .receive,
    .call (.readTarget ⟨1⟩), .timeout]

/-- Evaluate a run and check the condition on the way. -/
theorem timely_run_paired :
    ∃ s, exec step State.new timelyEvents = some s ∧ s.returned.length = 3 ∧
      ∀ r ∈ s.returned, Paired r := by
  refine ⟨_, rfl, rfl, client_pairing timelyEvents _ ?_⟩
  exact .cons ⟨rfl, rfl⟩ (.cons ⟨trivial, rfl⟩ (.cons ⟨trivial, rfl⟩ (.cons ⟨rfl, rfl⟩
    (.cons ⟨trivial, rfl⟩ (.cons ⟨trivial, rfl⟩ (.cons ⟨rfl, rfl⟩ (.cons ⟨trivial, rfl⟩
      (.nil _))))))))

/-- The first read times out and the second starts before the answer arrives. -/
def lateEvents : List Event :=
  [.call .hello, .answer (.helloAck bareAck), .receive,
    .call (.readTarget ⟨0⟩), .timeout,
    .call (.readTarget ⟨1⟩), .answer (.target (contentsOf 0 [97])), .receive]

/-- The read of target 1 returns the contents of target 0. -/
theorem late_answer_taken :
    ∃ s, Run (Steps step) State.new lateEvents s ∧
      ∃ r ∈ s.returned, r.call = .readTarget ⟨1⟩ ∧ r.number = some 2 ∧
        r.response = some (1, .target (contentsOf 0 [97])) ∧
        r.result = .ok (.contents (contentsOf 0 [97])) ∧ ¬ Paired r := by
  refine ⟨_, run_of_exec rfl, _, List.mem_of_getLast? rfl, rfl, rfl, rfl, rfl, ?_⟩
  intro hpaired
  obtain ⟨number, response, hnumber, hresponse, _⟩ := hpaired _ rfl
  cases hnumber
  cases hresponse

section Runner

variable {Req Resp : Type}

/-- A result of `RunnerClient::call` is the response to its own request. -/
def RunnerPaired (r : RunnerReturned Resp) : Prop :=
  ∀ value, r.result = some value →
    ∃ number, r.number = some number ∧ r.response = some (number, value)

/-- Between calls a channel that is still in use has no answer outstanding. -/
structure RunnerInvariant (s : RunnerState Req Resp) : Prop where
  paired : ∀ r ∈ s.returned, RunnerPaired r
  waiting : ∀ number wire, s.waiting = some number → s.channel = some wire →
    wire.outstanding = [number]
  idle : ∀ wire, s.waiting = none → s.channel = some wire → wire.outstanding = []

theorem RunnerInvariant.fail {s : RunnerState Req Resp} (hs : RunnerInvariant s)
    (number : Option Nat) : RunnerInvariant (s.fail number) := by
  refine ⟨?_, ?_, ?_⟩
  · intro r hr
    rcases List.mem_append.mp hr with hold | hnew
    · exact hs.paired r hold
    · obtain rfl := List.mem_singleton.mp hnew
      nofun
  · intro n wire h
    cases h
  · nofun

theorem runnerInvariant_step (s : RunnerState Req Resp) (e : RunnerEvent Req Resp)
    (s' : RunnerState Req Resp) (hs : RunnerInvariant s) (h : Steps runnerStep s e s') :
    RunnerInvariant s' := by
  unfold Steps runnerStep at h
  cases e with
  | call request =>
    simp only at h
    split at h
    next => cases h
    next =>
      obtain rfl := some.inj h
      exact hs.fail none
    next wire hwait hchan =>
      obtain rfl := some.inj h
      refine ⟨hs.paired, ?_, fun _ h => (by cases h)⟩
      intro number wire' hn hw
      obtain rfl := some.inj hn
      obtain rfl := some.inj hw
      have hidle := hs.idle wire hwait hchan
      simp only [Wire.outstanding, List.append_eq_nil_iff, List.map_eq_nil_iff] at hidle
      simp [Wire.outstanding, Wire.send, hidle]
  | sendFails request =>
    simp only at h
    split at h
    next =>
      obtain rfl := some.inj h
      exact hs.fail none
    next => cases h
  | answer response =>
    simp only at h
    split at h
    next => cases h
    next wire hchan =>
      obtain ⟨wire', hwire, rfl⟩ := Option.map_eq_some_iff.mp h
      have hout := Wire.answer_outstanding hwire
      refine ⟨hs.paired, ?_, ?_⟩
      · intro number w hn hw
        obtain rfl := some.inj hw
        rw [hout]
        exact hs.waiting number wire hn hchan
      · intro w hn hw
        obtain rfl := some.inj hw
        rw [hout]
        exact hs.idle wire hn hchan
  | receive =>
    simp only at h
    split at h
    next number wire hwait hchan =>
      obtain ⟨⟨⟨n, response⟩, wire'⟩, htake, rfl⟩ := Option.map_eq_some_iff.mp h
      have hout := Wire.take_outstanding htake
      rw [hs.waiting number wire hwait hchan] at hout
      obtain ⟨hn, hrest⟩ := List.cons.inj hout
      refine ⟨?_, fun _ _ h => (by cases h), ?_⟩
      · intro r hr
        rcases List.mem_append.mp hr with hold | hnew
        · exact hs.paired r hold
        · obtain rfl := List.mem_singleton.mp hnew
          intro value hvalue
          obtain rfl := some.inj hvalue
          exact ⟨number, rfl, by rw [hn]⟩
      · intro w _ hw
        obtain rfl := some.inj hw
        exact hrest.symm
    next => cases h
  | timeout =>
    simp only at h
    split at h
    next number _ =>
      obtain rfl := some.inj h
      exact hs.fail (some number)
    next => cases h

/-- `RunnerClient` needs no condition: it never reads after a failure. -/
theorem runner_pairing (events : List (RunnerEvent Req Resp)) (s : RunnerState Req Resp)
    (run : Run (Steps runnerStep) RunnerState.new events s) : ∀ r ∈ s.returned, RunnerPaired r := by
  have hnew : RunnerInvariant (RunnerState.new : RunnerState Req Resp) := by
    refine ⟨fun r hr => (by cases hr), fun _ _ h => (by cases h), ?_⟩
    intro wire _ hw
    obtain rfl := some.inj hw
    rfl
  exact (Run.invariant runnerInvariant_step run hnew).paired

end Runner

/-- A call that is answered, one that times out, and one after it. -/
def lateRunnerEvents : List (RunnerEvent Bool Nat) :=
  [.call true, .answer 1, .receive, .call false, .timeout, .call true]

theorem late_runner_paired :
    ∃ s, exec runnerStep RunnerState.new lateRunnerEvents = some s ∧ s.returned.length = 3 ∧
      ∀ r ∈ s.returned, RunnerPaired r :=
  ⟨_, rfl, rfl, runner_pairing lateRunnerEvents _ (run_of_exec rfl)⟩

end Detent.Guarantees.ClientPairing
