import Detent.Guarantees.Attachment
import Detent.Source.Linked

/-!
# Answers in time

While no request is sent with an earlier answer still due, what an engine takes from its
channel is what the monitor made of the request just sent (`call_cases`). An engine whose
every wait lasts until the answer is an attached one (`linked_attached`).
-/
namespace Detent.Guarantees.TimelyAnswers
open Lib Source Source.Engine Source.Monitor

/-- Every request was sent when no earlier answer was due. -/
def InTime (l : Linked) : Prop := ∀ due ∈ l.due, due = []

section Calls

variable [Sha256] {m : Setup} {host : Host} {link : Link} {α : Type} {e : OpsEngine}
  {s s' : Session × Linked} {request : Request} {l l' before : Linked} {want : String}
  {select : Response → Option α}

/-- What the monitor made of a request of the engine. -/
structure Answered (m : Setup) (host : Host) (request : Request) (l l' : Linked)
    (x : Exchange) : Prop where
  own : x.request = request
  pass : ∃ w w', Pass m host request w w' x.response ∧ x.before = w.disk ∧ x.after = w'.disk
  served : l'.served = l.served ++ [x]

/-- A request waits for its answer, which is the only one due: it is not served yet, or
it is and the answer, if any, is next. -/
inductive Waiting (m : Setup) (host : Host) (request : Request) (before l : Linked) : Prop
  | queued (hwire : l.wire.unread = [] ∧ l.wire.queue = [(before.wire.sent, request)])
      (hserved : l.served = before.served)
  | answered {x : Exchange} (hanswered : Answered m host request before l x)
      (hqueue : l.wire.queue = [])
      (hunread : l.wire.unread = (x.response.map (fun r => (before.wire.sent, r))).toList)

theorem Waiting.move (h : Waiting m host request before l) (move : Move) :
    Waiting m host request before (l.move m host move) := by
  cases move with
  | change change =>
    cases h with
    | queued hwire hserved => exact .queued hwire hserved
    | answered hanswered hqueue hunread =>
      exact .answered ⟨hanswered.own, hanswered.pass, hanswered.served⟩ hqueue hunread
  | serve =>
    unfold Linked.move Linked.serve
    cases h with
    | answered hanswered hqueue hunread =>
      -- the queue is empty
      simp only [hqueue]
      split
      · next hnone => cases hnone
      · exact .answered hanswered hqueue hunread
    | queued hwire hserved =>
      simp only [hwire.2]
      cases hmem : l.world.mem with
      | none => exact .queued hwire hserved
      | some mem =>
        refine .answered (x := ⟨request, l.world.disk, _, _⟩)
          ⟨rfl, ⟨l.world, _, pass_serveStep hmem, rfl, rfl⟩, ?_⟩ ?_ ?_
        · simp only [hserved]
        · simp only [Wire.settle, hwire.2]
        · simp only [Wire.settle, hwire.2, hwire.1, List.nil_append]

theorem Waiting.moves (h : Waiting m host request before l) (moves : List Move) :
    Waiting m host request before (moves.foldl (Linked.move m host) l) := by
  induction moves generalizing l with
  | nil => exact h
  | cons move moves ih => exact ih (h.move move)

variable (m host) in
theorem foldl_grows (moves : List Move) (l : Linked) :
    (moves.foldl (Linked.move m host) l).due = l.due ∧
      l.served <+: (moves.foldl (Linked.move m host) l).served := by
  induction moves generalizing l with
  | nil => exact ⟨rfl, List.prefix_rfl⟩
  | cons move moves ih =>
    obtain ⟨hdue, hserved⟩ := ih (l.move m host move)
    suffices hmove : (l.move m host move).due = l.due ∧ l.served <+: (l.move m host move).served from
      ⟨hdue.trans hmove.1, hmove.2.trans hserved⟩
    cases move with
    | change change => exact ⟨rfl, List.prefix_rfl⟩
    | serve =>
      unfold Linked.move Linked.serve
      dsimp only
      split
      · exact ⟨rfl, List.prefix_append _ _⟩
      · exact ⟨rfl, List.prefix_rfl⟩

omit [Sha256] in
theorem receive_same (l : Linked) : l.receive.2.due = l.due ∧ l.receive.2.served = l.served := by
  unfold Linked.receive
  split
  · exact ⟨rfl, rfl⟩
  · split <;> exact ⟨rfl, rfl⟩

variable (m host link request) in
/-- The histories only grow. -/
theorem call_grows (l : Linked) : l.served <+: (l.call m host link request).2.served ∧
    l.due <+: (l.call m host link request).2.due := by
  obtain ⟨hdue, hserved⟩ := foldl_grows m host (link.moves l.moment)
    ((l.next link.out).send request)
  unfold Linked.call
  split
  · exact ⟨List.prefix_rfl, List.prefix_rfl⟩
  · dsimp only
    split
    · rw [hdue]
      exact ⟨hserved, List.prefix_append _ _⟩
    · rw [(receive_same _).1, (receive_same _).2, hdue]
      exact ⟨hserved, List.prefix_append _ _⟩

omit [Sha256] in
theorem InTime.of_prefix (h : InTime l') (hdues : l.due <+: l'.due) : InTime l :=
  fun due hdue => h due (hdues.subset hdue)

/-- What a call in time returns: nothing was served and it failed, or its own request was
served, and a response it returns is the one to that request. -/
theorem call_cases {answer : Except Client.ChannelError Response}
    (h : l.call m host link request = (answer, l')) (hin : InTime l') :
    l'.served = l.served ∧ (∃ err, answer = .error err) ∨
      ∃ x, Answered m host request l l' x ∧
        ∀ response, answer = .ok response → x.response = some response := by
  have hdue : ∀ moved : Linked, moved.due = ((l.next link.out).send request).due →
      InTime moved → l.wire.unread = [] ∧ l.wire.queue = [] := by
    intro moved hmoved hin
    refine Wire.outstanding_eq_nil.mp (hin _ ?_)
    rw [hmoved]
    exact List.mem_append_right _ List.mem_cons_self
  unfold Linked.call at h
  cases hsend : link.sendFails l.moment with
  | some err =>
    rw [hsend] at h
    cases h
    exact .inl ⟨rfl, err, rfl⟩
  | none =>
    rw [hsend] at h
    have hwaiting : l.wire.unread = [] ∧ l.wire.queue = [] →
        Waiting m host request l ((link.moves l.moment).foldl (Linked.move m host)
          ((l.next link.out).send request)) := by
      rintro ⟨hunread, hqueue⟩
      have hqueued : l.wire.queue ++ [(l.wire.sent, request)] = [(l.wire.sent, request)] := by
        rw [hqueue, List.nil_append]
      have hsent : Waiting m host request l ((l.next link.out).send request) :=
        .queued ⟨hunread, hqueued⟩ rfl
      exact hsent.moves _
    have hdues := (foldl_grows m host (link.moves l.moment)
      ((l.next link.out).send request)).1
    generalize (link.moves l.moment).foldl (Linked.move m host) ((l.next link.out).send request)
      = waited at h hwaiting hdues
    dsimp only at h
    cases hreceive : link.receiveFails l.moment with
    | some err =>
      rw [hreceive] at h
      cases h
      cases hwaiting (hdue _ hdues hin) with
      | queued hwire hserved => exact .inl ⟨hserved, err, rfl⟩
      | answered hanswered _ _ => exact .inr ⟨_, hanswered, nofun⟩
    | none =>
      rw [hreceive] at h
      replace h : waited.receive = (answer, l') := h
      have hin' : InTime waited := by
        rw [InTime, ← (receive_same waited).1, h]
        exact hin
      have hsame : l'.served = waited.served := by
        rw [← (receive_same waited).2, h]
      cases hwaiting (hdue _ hdues hin') with
      | queued hwire hserved =>
        refine .inl ⟨hsame.trans hserved, ?_⟩
        simp only [Linked.receive, Wire.take, hwire.1] at h
        split at h <;> cases h <;> exact ⟨_, rfl⟩
      | @answered x hanswered hqueue hunread =>
        refine .inr ⟨x, ⟨hanswered.own, hanswered.pass, hsame.trans hanswered.served⟩, ?_⟩
        rintro response rfl
        cases hresponse : x.response with
        | none =>
          rw [hresponse] at hunread
          simp only [Linked.receive, Wire.take, hunread, Option.map_none, Option.toList_none] at h
          split at h <;> cases h
        | some own =>
          rw [hresponse] at hunread
          simp only [Linked.receive, Wire.take, hunread, Option.map_some, Option.toList_some] at h
          cases h
          rfl

variable (m host link) in
theorem histories_grow (p : Prog EngineOp α) (s : Session × Linked) :
    s.2.served <+: (p.run (engine (linked m host link)) s).2.2.served ∧
      s.2.due <+: (p.run (engine (linked m host link)) s).2.2.due :=
  (Prog.uses_any p).run_invariant (I := fun t : Session × Linked => s.2.served <+: t.2.served ∧ s.2.due <+: t.2.due)
    (fun _ effect t _ ht => by
      cases effect with
      | ask request =>
        have hgrows := call_grows m host link request t.2
        exact ⟨ht.1.trans hgrows.1, ht.2.trans hgrows.2⟩
      | _ => exact ht)
    ⟨List.prefix_rfl, List.prefix_rfl⟩

theorem InTime.of_reaches {ok : Request → Prop} (hin : InTime s'.2)
    (h : Reaches (linked m host link) ok s s') : InTime s.2 := by
  obtain ⟨β, p, -, rfl⟩ := h
  exact hin.of_prefix (histories_grow m host link p s).2

/-- A request that succeeded in time was answered, and its own answer has the wanted
form. -/
theorem mapped_answered {value : α}
    (h : Fallible.exec (engine (linked m host link)) (mapped (exchange e request want select)) s =
      (.ok value, s')) (hin : InTime s'.2) :
    s'.1 = s.1 ∧ ∃ x response, Answered m host request s.2 s'.2 x ∧
      x.response = some response ∧ select response = some value := by
  obtain ⟨hsession, response, hask, hselect⟩ := mapped_ok h
  refine ⟨hsession, ?_⟩
  rcases call_cases hask hin with ⟨-, err, herr⟩ | ⟨x, hanswered, hown⟩
  · cases herr
  · exact ⟨x, response, hanswered, hown response rfl, hselect⟩

/-- What programs that keep in time add to the history are requests of theirs. -/
theorem reaches_served {ok : Request → Prop} (h : Reaches (linked m host link) ok s s')
    (hin : InTime s'.2) :
    ∃ sent, s'.2.served = s.2.served ++ sent ∧ ∀ x ∈ sent, ok x.request := by
  obtain ⟨β, p, hp, rfl⟩ := h
  have hrun := hp.run_invariant (h := engine (linked m host link)) (s := s)
    (I := fun t => InTime t.2 →
      ∃ sent, t.2.served = s.2.served ++ sent ∧ ∀ x ∈ sent, ok x.request)
    (fun _ effect t hok ht => by
      cases effect with
      | ask request =>
        intro hin
        obtain ⟨sent, hsent, hall⟩ := ht (hin.of_prefix (call_grows m host link request t.2).2)
        rcases call_cases (Prod.ext rfl rfl) hin with ⟨hserved, -⟩ | ⟨x, hanswered, -⟩
        · exact ⟨sent, hserved.trans hsent, hall⟩
        · refine ⟨sent ++ [x], ?_, fun y hy => ?_⟩
          · rw [← List.append_assoc, ← hsent]
            exact hanswered.served
          · rcases List.mem_append.mp hy with hy | hy
            · exact hall y hy
            · obtain rfl := List.mem_singleton.mp hy
              rw [hanswered.own]
              exact hok
      | _ => exact ht)
    (fun _ => ⟨[], by simp⟩)
  exact hrun hin

end Calls

section Patience

variable [Sha256] (m : Setup) (host : Host) (out : Outside) {l : Linked}

/-- A link on which nothing fails and every wait lasts until the answer. -/
def patient : Link where
  out := out
  sendFails _ := none
  moves _ := [.serve]
  receiveFails _ := none

/-- The two surroundings differ in the channel only, and nothing is due on it. -/
structure Alike (a : Around) (l : Linked) : Prop where
  world : l.world = a.world
  moment : l.moment = a.moment
  served : l.served = a.served
  idle : l.wire.unread = [] ∧ l.wire.queue = []
  inTime : InTime l

/-- A call that waits for its answer is a request to an attached monitor. -/
theorem call_patient (request : Request) {a : Around} (h : Alike a l) :
    ((attached m host out).ask request a).1 = (l.call m host (patient out) request).1 ∧
      Alike ((attached m host out).ask request a).2 (l.call m host (patient out) request).2 := by
  obtain ⟨_, _, _⟩ := a
  have hin : ∀ due ∈ l.due ++ [l.wire.outstanding], due = [] := by
    intro due hdue
    rcases List.mem_append.mp hdue with hold | hnew
    · exact h.inTime due hold
    · rw [List.mem_singleton.mp hnew]
      exact Wire.outstanding_eq_nil.mpr h.idle
  obtain ⟨world, ⟨sent, queue, unread⟩, moment, served, due⟩ := l
  obtain ⟨hworld, hmoment, hserved, ⟨hunread, hqueue⟩, -⟩ := h
  dsimp only at hworld hmoment hserved hunread hqueue
  subst hworld hmoment hserved hunread hqueue
  simp only [attached, Around.serve, Around.next, Linked.call, patient, List.foldl_cons,
    List.foldl_nil, Linked.move, Linked.serve, Linked.send, Linked.next, Wire.send, List.nil_append]
  rcases hmem : (out.between moment world).mem with _ | mem
  · -- the monitor is gone
    simp only [Linked.receive, Wire.take, hmem, Option.isNone_none, if_true, Wire.close]
    exact ⟨trivial, rfl, rfl, rfl, ⟨rfl, rfl⟩, hin⟩
  · have hpass : Pass m host request _ _ _ := pass_serveStep hmem
    dsimp only
    generalize ((serveStep m mem request).run (sys host) (out.between moment world).disk).1.1
      = answer at hpass ⊢
    generalize (out.between moment world).after host (serveStep m mem request) = after at hpass ⊢
    cases answer with
    | none =>
      simp only [Linked.receive, Wire.settle, Wire.take, Option.map_none, Option.toList_none,
        List.append_nil, hpass.gone, Option.isNone_none, if_true, Wire.close]
      exact ⟨trivial, rfl, rfl, rfl, ⟨rfl, rfl⟩, hin⟩
    | some response => exact ⟨rfl, rfl, rfl, rfl, ⟨rfl, rfl⟩, hin⟩

/-- With patience an engine on its channel is an attached one: every program returns the
same and the monitor serves the same. -/
theorem linked_attached {α : Type} (p : Prog EngineOp α) {session : Session} {a : Around}
    (h : Alike a l) :
    (p.run (engine (attached m host out)) (session, a)).1 =
        (p.run (engine (linked m host (patient out))) (session, l)).1 ∧
      Alike (p.run (engine (attached m host out)) (session, a)).2.2
        (p.run (engine (linked m host (patient out))) (session, l)).2.2 := by
  have hrun := Prog.run_simulates (h := engine (attached m host out))
    (k := engine (linked m host (patient out))) (R := fun s t => s.1 = t.1 ∧ Alike s.2 t.2)
    (fun β effect s t hst => by
      obtain ⟨session, a⟩ := s
      obtain ⟨session', l⟩ := t
      obtain ⟨hsession, halike⟩ := hst
      dsimp only at hsession halike
      subst hsession
      cases effect with
      | ask request =>
        obtain ⟨hanswer, hnext⟩ := call_patient m host out request halike
        exact ⟨hanswer, rfl, hnext⟩
      | session f => exact ⟨rfl, rfl, halike⟩
      | _ =>
        obtain ⟨hworld, hmoment, hserved, hidle, hin⟩ := halike
        refine ⟨?_, rfl, ?_, ?_, hserved, hidle, hin⟩ <;>
          simp only [engine, Env.outside, attached, linked, patient, Around.next, Linked.next,
            hworld, hmoment])
    p (s := (session, a)) (t := (session, l)) ⟨rfl, h⟩
  exact ⟨hrun.1, hrun.2.2⟩

end Patience

end Detent.Guarantees.TimelyAnswers
