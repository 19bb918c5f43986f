import Detent.Source.AcmeLink

/-!
# Calls on the acme channel

What is on the channel while a message waits for its answer, move by move of the
worker. A call reads the answer to its own message, unless the worker answered an
earlier message after the wait for it was over.
-/
namespace Detent.Guarantees.AcmeExchange
open Lib Source.Client Source.AcmeChannel Source.Acme
open Source.AcmeLink

/-- The wait for the answer to an `Install` ended with a failure of the channel. -/
def Abandoned (log : List Happening) (number : Nat) : Prop :=
  ∃ err, .installEnded number (.error (.channel err)) ∈ log

/-- The worker answered an `Install` whose wait ended without the answer. -/
def Late (log : List Happening) : Prop :=
  ∃ number answer, Abandoned log number ∧ .answered number answer ∈ log

variable {log : List Happening} {number : Option Nat} {l : Link}

theorem Abandoned.append {number : Nat} (h : Abandoned log number) (more : List Happening) :
    Abandoned (log ++ more) number := by
  obtain ⟨err, hmem⟩ := h
  exact ⟨err, List.mem_append_left more hmem⟩

theorem Late.append (h : Late log) (more : List Happening) : Late (log ++ more) := by
  obtain ⟨number, answer, habandoned, hanswered⟩ := h
  exact ⟨number, answer, habandoned.append more, List.mem_append_left more hanswered⟩

/-- A request for a renewal, on its way. -/
def renewal : Sent := ⟨.renewNow, none⟩

/-- An answer to the message `number` that the worker sent. -/
def AnswerTo (number : Nat) (log : List Happening) (s : Sent) : Prop :=
  s.answers = some number ∧ s.message ≠ .renewNow ∧ .answered number s.message ∈ log

/-- The channel while the message `number` waits for its answer, or no message does.
Besides requests only that answer is unread, the worker holds no other message whose
wait is not over, and the message and its answer are on the channel at most once. -/
structure Busy (number : Option Nat) (l : Link) : Prop where
  messages : ∀ s ∈ l.toAcme, s = renewal ∨ ∃ n, number = some n ∧ AnswerTo n l.log s
  below : ∀ p ∈ l.toWorker, p.1 < l.sent
  waiting : ∀ p ∈ l.toWorker, number = some p.1 ∨ Abandoned l.log p.1
  once : ∀ n, number = some n → l.toAcme.countP (fun s => s.answers = some n) +
    l.toWorker.countP (fun p => p.1 = n) ≤ 1

theorem AnswerTo.append {number : Nat} {s : Sent} (h : AnswerTo number log s)
    (more : List Happening) : AnswerTo number (log ++ more) s :=
  ⟨h.1, h.2.1, List.mem_append_left more h.2.2⟩

theorem serveOn_answer_ne (greeted : Bool) (installed : Except String Unit)
    (message : AcmeMessage) : (serveOn greeted installed message).2.answer ≠ .renewNow := by
  cases message with
  | hello version => by_cases hv : version = acmeProtoVersion <;> simp [serveOn, hv]
  | install chainPem keyPem => cases greeted <;> cases installed <;> simp [serveOn]

theorem move_busy (hbusy : Busy number l) (m : Move) :
    Late (l.move m).log ∨ Busy number (l.move m) := by
  unfold Link.move
  split
  · exact .inr hbusy
  · cases m with
    | close => exact .inr ⟨hbusy.messages, hbusy.below, hbusy.waiting, hbusy.once⟩
    | renewNow =>
      refine .inr ⟨?_, hbusy.below, hbusy.waiting, ?_⟩
      · intro s hs
        rcases List.mem_append.mp hs with hold | hnew
        · exact hbusy.messages s hold
        · exact .inl (List.mem_singleton.mp hnew)
      · intro n hn
        simpa [List.countP_append] using hbusy.once n hn
    | serve installed =>
      cases hqueue : l.toWorker with
      | nil => exact .inr hbusy
      | cons first rest =>
        obtain ⟨n, message⟩ := first
        have hanswer := serveOn_answer_ne l.greeted installed message
        rcases hbusy.waiting (n, message) (by simp [hqueue]) with rfl | habandoned
        · refine .inr ⟨?_, ?_, ?_, ?_⟩
          · intro s hs
            rcases List.mem_append.mp hs with hold | hnew
            · exact (hbusy.messages s hold).imp_right (fun ⟨n, hn, h⟩ => ⟨n, hn, h.append _⟩)
            · obtain rfl := List.mem_singleton.mp hnew
              exact .inr ⟨n, rfl, rfl, hanswer, List.mem_append_right _ List.mem_cons_self⟩
          · exact fun p hp => hbusy.below p (by simp [hqueue, hp])
          · intro p hp
            exact (hbusy.waiting p (by simp [hqueue, hp])).imp_right (fun h => h.append _)
          · intro n hn
            cases hn
            have honce := hbusy.once n rfl
            simp [hqueue, List.countP_append] at honce ⊢
            omega
        · exact .inl ⟨n, _, habandoned.append _, List.mem_append_right _ List.mem_cons_self⟩

/-- The log only grows while the worker moves. -/
theorem move_log (l : Link) (m : Move) : ∃ more, (l.move m).log = l.log ++ more := by
  unfold Link.move
  split
  · exact ⟨[], by simp⟩
  · cases m with
    | close | renewNow => exact ⟨[], by simp⟩
    | serve installed =>
      cases hqueue : l.toWorker with
      | nil => exact ⟨[], by simp⟩
      | cons first rest => exact ⟨[_], rfl⟩

theorem move_late (hlate : Late l.log) (m : Move) : Late (l.move m).log := by
  obtain ⟨more, hlog⟩ := move_log l m
  rw [hlog]
  exact hlate.append more

theorem moves_busy (moves : List Move) (hbusy : Late l.log ∨ Busy number l) :
    Late (moves.foldl Link.move l).log ∨ Busy number (moves.foldl Link.move l) := by
  induction moves generalizing l with
  | nil => exact hbusy
  | cons m moves ih =>
    refine ih ?_
    rcases hbusy with hlate | hbusy
    · exact .inl (move_late hlate m)
    · exact move_busy hbusy m

/-- A request that is read leaves the channel as it was. -/
theorem busy_after_renewal {rest : List Sent} (hbusy : Busy number l)
    (hunread : l.toAcme = renewal :: rest) :
    Busy number ({ l with toAcme := rest }.record .renewRead) := by
  refine ⟨?_, hbusy.below, ?_, ?_⟩
  · intro s hs
    have hold := hbusy.messages s (by rw [hunread]; exact List.mem_cons_of_mem _ hs)
    exact hold.imp_right (fun ⟨n, hn, h⟩ => ⟨n, hn, h.append _⟩)
  · exact fun p hp => (hbusy.waiting p hp).imp_right (fun h => h.append _)
  · intro n hn
    have honce := hbusy.once n hn
    rw [hunread] at honce
    simpa [renewal, Link.record] using honce

/-- Once the answer is read no message waits: the answer was there only once. -/
theorem idle_after_answer {number : Nat} {sent : Sent} {rest : List Sent}
    (hbusy : Busy (some number) l) (hunread : l.toAcme = sent :: rest)
    (hanswer : sent.answers = some number) : Busy none { l with toAcme := rest } := by
  have honce := hbusy.once number rfl
  rw [hunread, List.countP_cons_of_pos (by simpa using hanswer)] at honce
  have hnone : rest.countP (fun s => s.answers = some number) = 0 := by omega
  have hserved : l.toWorker.countP (fun p => p.1 = number) = 0 := by omega
  rw [List.countP_eq_zero] at hnone hserved
  refine ⟨?_, hbusy.below, ?_, nofun⟩
  · intro s hs
    rcases hbusy.messages s (by rw [hunread]; exact List.mem_cons_of_mem _ hs) with
      hs' | ⟨n, hn, hs'⟩
    · exact .inl hs'
    · cases hn
      exact absurd (by simpa using hs'.1) (hnone s hs)
  · intro p hp
    rcases hbusy.waiting p hp with hp' | habandoned
    · exact absurd (by simpa using hp'.symm) (hserved p hp)
    · exact .inr habandoned

/-- What a receive brings: a failure, a request, or the answer that is waited for. -/
def Brings (number : Option Nat) (l : Link) : Except ChannelError WorkerMessage → Prop
  | .error _ | .ok .renewNow => Busy number l
  | .ok answer => ∃ n, number = some n ∧ .answered n answer ∈ l.log ∧ Busy none l

theorem recv_brings (hbusy : Late l.log ∨ Busy number l) (r : Receive) :
    Late (l.recv r).2.log ∨ Brings number (l.recv r).2 (l.recv r).1 := by
  unfold Link.recv
  have hmoved := moves_busy r.moves hbusy
  generalize r.moves.foldl Link.move l = moved at hmoved ⊢
  cases r.failure with
  | some err => exact hmoved
  | none =>
    cases hunread : moved.toAcme with
    | nil =>
      simp only [hunread]
      exact hmoved
    | cons sent rest =>
      simp only [hunread]
      rcases hmoved with hlate | hbusy
      · left
        split
        · exact hlate.append _
        · exact hlate
      · right
        rcases hbusy.messages sent (by simp [hunread]) with rfl | ⟨n, rfl, hanswer, hne, hlogged⟩
        · exact busy_after_renewal hbusy hunread
        · have hidle := idle_after_answer hbusy hunread hanswer
          rw [if_neg hne]
          cases hmessage : sent.message with
          | renewNow => exact absurd hmessage hne
          | _ =>
            rw [hmessage] at hlogged
            exact ⟨n, rfl, hlogged, hidle⟩

theorem recvFirst_brings (hbusy : Late l.log ∨ Busy number l) (receives : List Receive) :
    Late (l.recvFirst receives).2.log ∨
      Brings number (l.recvFirst receives).2 (l.recvFirst receives).1 := by
  cases receives with
  | nil => exact hbusy
  | cons r rest => exact recv_brings hbusy r

/-- How a call left the channel: it read the answer to its message, or the channel
failed first. -/
def Ended (number : Nat) (l : Link) : Option (Except AcmeChannelError WorkerMessage) → Prop
  | some (.ok answer) => .answered number answer ∈ l.log ∧ Busy none l
  | some (.error (.refused reason)) => .answered number (.refused reason) ∈ l.log ∧ Busy none l
  | some (.error (.channel _)) | none => Busy (some number) l
  | some (.error _) => False

theorem awaitAnswer_ended (number fuel : Nat) (pendingRenew : Bool) {x : Exchange}
    (hbusy : Late x.link.log ∨ Busy (some number) x.link) :
    let ran := (awaitAnswer fuel pendingRenew).run exchange x
    Late ran.2.link.log ∨ Ended number ran.2.link ran.1.1 := by
  induction fuel generalizing pendingRenew x with
  | zero => exact hbusy
  | succ fuel ih =>
    have hrecv := recvFirst_brings hbusy x.receives
    simp only [awaitAnswer, Prog.run_bind, Prog.run_perform, exchange, Exchange.apply]
    generalize x.link.recvFirst x.receives = received at hrecv ⊢
    obtain ⟨result, link⟩ := received
    match result with
    | .error err => exact hrecv
    | .ok .renewNow => exact ih true hrecv
    | .ok (.refused reason) | .ok (.hello version) | .ok .installed =>
      rcases hrecv with hlate | ⟨n, hn, hlogged, hidle⟩
      · exact .inl hlate
      · cases hn
        exact .inr ⟨hlogged, hidle⟩

theorem send_busy (hidle : Busy none l) (failure : Option ChannelError) (message : AcmeMessage) :
    Busy (some l.sent) (l.send failure message).2 := by
  have hmessages : ∀ s ∈ l.toAcme, s = renewal := by
    intro s hs
    rcases hidle.messages s hs with hs' | ⟨n, hn, -⟩
    · exact hs'
    · cases hn
  have habandoned : ∀ p ∈ l.toWorker, Abandoned l.log p.1 := by
    intro p hp
    rcases hidle.waiting p hp with hp' | hp'
    · cases hp'
    · exact hp'
  have hunread : l.toAcme.countP (fun s => s.answers = some l.sent) = 0 := by
    rw [List.countP_eq_zero]
    intro s hs
    rw [hmessages s hs]
    simp [renewal]
  have hqueued : l.toWorker.countP (fun p => p.1 = l.sent) = 0 := by
    rw [List.countP_eq_zero]
    intro p hp
    have hlt := hidle.below p hp
    simp only [decide_eq_true_eq]
    omega
  cases failure with
  | some err =>
    refine ⟨fun s hs => .inl (hmessages s hs), ?_, fun p hp => .inr (habandoned p hp), ?_⟩
    · intro p hp
      have hlt := hidle.below p hp
      exact Nat.lt_succ_of_lt hlt
    · intro n hn
      cases hn
      simp [Link.send, hunread, hqueued]
  | none =>
    refine ⟨fun s hs => .inl (hmessages s hs), ?_, ?_, ?_⟩
    · intro p hp
      rcases List.mem_append.mp hp with hold | hnew
      · exact Nat.lt_succ_of_lt (hidle.below p hold)
      · rw [List.mem_singleton.mp hnew]
        exact Nat.lt_succ_self l.sent
    · intro p hp
      rcases List.mem_append.mp hp with hold | hnew
      · exact .inr (habandoned p hold)
      · exact .inl (by rw [List.mem_singleton.mp hnew])
    · intro n hn
      cases hn
      simp [Link.send, List.countP_append, hunread, hqueued]

theorem call_ended (fuel : Nat) (message : AcmeMessage) (pendingRenew : Bool) {x : Exchange}
    (hidle : Late x.link.log ∨ Busy none x.link) :
    let ran := (call fuel message pendingRenew).run exchange x
    Late ran.2.link.log ∨ Ended x.link.sent ran.2.link ran.1.1 := by
  have hsent : Late (x.link.send x.failure message).2.log ∨
      Busy (some x.link.sent) (x.link.send x.failure message).2 := by
    rcases hidle with hlate | hidle
    · left
      cases hfailure : x.failure <;> exact hlate
    · exact .inr (send_busy hidle x.failure message)
  simp only [call, Prog.run_bind, Prog.run_perform, exchange, Exchange.apply]
  cases (x.link.send x.failure message).1 with
  | error err => exact hsent
  | ok done => exact awaitAnswer_ended x.link.sent fuel pendingRenew hsent

/-- From `l` to `l'` only answers were recorded, and requests only where `renew`. -/
def Grown (renew : Bool) (l l' : Link) : Prop :=
  ∃ more, l'.log = l.log ++ more ∧
    ∀ x ∈ more, (∃ number answer, x = .answered number answer) ∨ (x = .renewRead ∧ renew = true)

theorem Grown.refl (renew : Bool) (l : Link) : Grown renew l l := ⟨[], by simp, by simp⟩

theorem Grown.trans {first second : Bool} {m n : Link} (h : Grown first l m) (h' : Grown second m n)
    (hle : first = true → second = true) : Grown second l n := by
  obtain ⟨before, hbefore, hfirst⟩ := h
  obtain ⟨after, hafter, hsecond⟩ := h'
  refine ⟨before ++ after, by rw [hafter, hbefore, List.append_assoc], ?_⟩
  intro x hx
  rcases List.mem_append.mp hx with hx | hx
  · exact (hfirst x hx).imp_right (fun h => ⟨h.1, hle h.2⟩)
  · exact hsecond x hx

theorem move_grown (l : Link) (m : Move) : Grown false l (l.move m) := by
  unfold Link.move
  split
  · exact .refl false l
  · cases m with
    | close | renewNow => exact .refl false l
    | serve installed =>
      cases hqueue : l.toWorker with
      | nil => exact .refl false l
      | cons first rest => exact ⟨[_], rfl, by simp⟩

theorem moves_grown (moves : List Move) (l : Link) : Grown false l (moves.foldl Link.move l) := by
  induction moves generalizing l with
  | nil => exact .refl false l
  | cons m moves ih => exact (move_grown l m).trans (ih (l.move m)) id

theorem recv_grown (l : Link) (r : Receive) :
    Grown (decide ((l.recv r).1 = .ok .renewNow)) l (l.recv r).2 := by
  unfold Link.recv
  have hmoved := moves_grown r.moves l
  generalize r.moves.foldl Link.move l = moved at hmoved ⊢
  cases r.failure with
  | some err => exact hmoved.trans (.refl _ moved) (by simp)
  | none =>
    cases hunread : moved.toAcme with
    | nil =>
      simp only [hunread]
      exact hmoved.trans (.refl _ moved) (by simp)
    | cons sent rest =>
      simp only [hunread]
      by_cases hrenew : sent.message = .renewNow
      · simp only [hrenew, if_true]
        exact hmoved.trans ⟨[.renewRead], rfl, by simp⟩ (by simp)
      · simp only [hrenew, if_false]
        exact hmoved.trans ⟨[], by simp, by simp⟩ (by simp)

theorem recvFirst_grown (l : Link) (receives : List Receive) :
    Grown (decide ((l.recvFirst receives).1 = .ok .renewNow)) l (l.recvFirst receives).2 := by
  cases receives with
  | nil => exact .refl _ l
  | cons r rest => exact recv_grown l r

/-- A call that read a request has it pending. -/
theorem awaitAnswer_grown (fuel : Nat) (pendingRenew : Bool) (x : Exchange) :
    let ran := (awaitAnswer fuel pendingRenew).run exchange x
    Grown ran.1.2 x.link ran.2.link ∧ (pendingRenew = true → ran.1.2 = true) := by
  induction fuel generalizing pendingRenew x with
  | zero => exact ⟨.refl _ _, id⟩
  | succ fuel ih =>
    have hrecv := recvFirst_grown x.link x.receives
    simp only [awaitAnswer, Prog.run_bind, Prog.run_perform, exchange, Exchange.apply]
    generalize x.link.recvFirst x.receives = received at hrecv ⊢
    obtain ⟨result, link⟩ := received
    match result with
    | .error err => exact ⟨hrecv.trans (.refl _ _) (by simp), id⟩
    | .ok .renewNow =>
      have hrest := ih true ⟨link, x.failure, x.receives.tail⟩
      exact ⟨hrecv.trans hrest.1 (fun _ => hrest.2 rfl), fun _ => hrest.2 rfl⟩
    | .ok (.refused reason) => exact ⟨hrecv.trans (.refl _ _) (by simp), id⟩
    | .ok (.hello version) => exact ⟨hrecv.trans (.refl _ _) (by simp), id⟩
    | .ok .installed => exact ⟨hrecv.trans (.refl _ _) (by simp), id⟩

theorem call_grown (fuel : Nat) (message : AcmeMessage) (pendingRenew : Bool) (x : Exchange) :
    let ran := (call fuel message pendingRenew).run exchange x
    Grown ran.1.2 x.link ran.2.link ∧ (pendingRenew = true → ran.1.2 = true) := by
  have hsent : (x.link.send x.failure message).2.log = x.link.log := by
    unfold Link.send
    split <;> rfl
  simp only [call, Prog.run_bind, Prog.run_perform, exchange, Exchange.apply]
  cases (x.link.send x.failure message).1 with
  | error err => exact ⟨⟨[], by simp [hsent], by simp⟩, id⟩
  | ok done =>
    obtain ⟨⟨more, hmore, hnew⟩, hpending⟩ := awaitAnswer_grown fuel pendingRenew
      ⟨(x.link.send x.failure message).2, x.failure, x.receives⟩
    exact ⟨⟨more, by rw [← hsent]; exact hmore, hnew⟩, hpending⟩

theorem Grown.late {renew : Bool} {l' : Link} (h : Grown renew l l') (hlate : Late l.log) :
    Late l'.log := by
  obtain ⟨more, hlog, -⟩ := h
  rw [hlog]
  exact hlate.append more

/-- A call of the client: what it records, and the requests it has pending. -/
theorem world_call_grown (w : World) (around : Surroundings) (message : AcmeMessage) :
    Grown (w.call around message).2.pendingRenew w.link (w.call around message).2.link ∧
    (w.pendingRenew = true → (w.call around message).2.pendingRenew = true) :=
  call_grown (around.receives.length + 1) message w.pendingRenew
    ⟨w.link, around.sendFailure, around.receives⟩

/-- A call of the client from an idle channel. -/
theorem world_call_ended (w : World) (around : Surroundings) (message : AcmeMessage)
    (hidle : Late w.link.log ∨ Busy none w.link) :
    Late (w.call around message).2.link.log ∨
      Ended w.link.sent (w.call around message).2.link (some (w.call around message).1) := by
  have hended := call_ended (x := ⟨w.link, around.sendFailure, around.receives⟩)
    (around.receives.length + 1) message w.pendingRenew hidle
  simp only [World.call]
  generalize (call (around.receives.length + 1) message w.pendingRenew).run exchange
    ⟨w.link, around.sendFailure, around.receives⟩ = ran at hended ⊢
  obtain ⟨⟨result, pendingRenew⟩, x⟩ := ran
  cases result <;> exact hended

theorem Busy.record {number : Option Nat} {l : Link} (h : Busy number l) (event : Happening) :
    Busy number (l.record event) :=
  ⟨fun s hs => (h.messages s hs).imp_right (fun ⟨n, hn, ha⟩ => ⟨n, hn, ha.append _⟩), h.below,
    fun p hp => (h.waiting p hp).imp_right (fun ha => ha.append _), h.once⟩

/-- Giving up the wait for an answer: no message waits any more, unless its answer is
there. -/
theorem abandon_idle {number : Nat} (h : Busy (some number) l) (err : ChannelError) :
    Late (l.record (.installEnded number (.error (.channel err)))).log ∨
      Busy none (l.record (.installEnded number (.error (.channel err)))) := by
  have hgiven : Abandoned (l.record (.installEnded number (.error (.channel err)))).log number :=
    ⟨err, by simp [Link.record]⟩
  have hrecorded := h.record (.installEnded number (.error (.channel err)))
  by_cases hthere : ∃ s ∈ l.toAcme, AnswerTo number l.log s
  · obtain ⟨s, -, hanswer⟩ := hthere
    exact .inl ⟨number, s.message, hgiven, List.mem_append_left _ hanswer.2.2⟩
  · refine .inr ⟨?_, hrecorded.below, ?_, nofun⟩
    · intro s hs
      rcases h.messages s hs with hs' | ⟨n, hn, ha⟩
      · exact .inl hs'
      · cases hn
        exact absurd ⟨s, hs, ha⟩ hthere
    · intro p hp
      rcases hrecorded.waiting p hp with hn | ha
      · cases hn
        exact .inr hgiven
      · exact .inr ha

end Detent.Guarantees.AcmeExchange
