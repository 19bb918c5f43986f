import Detent.Guarantees.AcmeExchange
import Detent.Guarantees.RenewalOrders

/-!
# Late answers on the acme channel

An answer that the worker sends after the acme process gave up waiting is read as the
answer to the next message, or ends the loop. While there is none, an install that
returns `Ok` was answered with `Installed`, the loop returns only when the channel
fails, and every renewal request that was read forces the next round.
-/
namespace Detent.Guarantees.LateAnswers
open Lib Source.Client Source.AcmeChannel Source.Acme
open Source.AcmeLink AcmeExchange
open RenewalOrders (newPair oneLeaf)
open Prog (Ensures.bind Uses.bind ensures_perform uses_perform uses_pure)

/-- Every install that returned `Ok` was answered with `Installed`. -/
def Told (log : List Happening) : Prop :=
  ∀ number, .installEnded number (.ok ()) ∈ log → .answered number .installed ∈ log

/-- Every request that could not be read failed for the channel. -/
def Plain (log : List Happening) : Prop :=
  ∀ err, .requestEnded (.error err) ∈ log → ∃ cause, err = .channel cause

/-- Between two effects of the loop. -/
structure Sound (l : Link) : Prop where
  idle : Busy none l
  told : Told l.log
  plain : Plain l.log

variable {renew : Bool}

theorem Told.grown {l l' : Link} (htold : Told l.log) (h : Grown renew l l') : Told l'.log := by
  obtain ⟨more, hlog, hnew⟩ := h
  intro number hended
  rw [hlog] at hended ⊢
  rcases List.mem_append.mp hended with hold | hmore
  · exact List.mem_append_left more (htold number hold)
  · rcases hnew _ hmore with ⟨n, answer, hx⟩ | ⟨hx, -⟩ <;> cases hx

theorem Plain.grown {l l' : Link} (hplain : Plain l.log) (h : Grown renew l l') : Plain l'.log := by
  obtain ⟨more, hlog, hnew⟩ := h
  intro err hended
  rw [hlog] at hended
  rcases List.mem_append.mp hended with hold | hmore
  · exact hplain err hold
  · rcases hnew _ hmore with ⟨n, answer, hx⟩ | ⟨hx, -⟩ <;> cases hx

theorem Told.record {l : Link} (h : Told l.log) {event : Happening}
    (hevent : ∀ number, event ≠ .installEnded number (.ok ())) : Told (l.record event).log := by
  intro number hmem
  rcases List.mem_append.mp hmem with hold | hnew
  · exact List.mem_append_left _ (h number hold)
  · exact absurd (List.mem_singleton.mp hnew).symm (hevent number)

theorem Plain.record {l : Link} (h : Plain l.log) {event : Happening}
    (hevent : ∀ err, event = .requestEnded (.error err) → ∃ cause, err = .channel cause) :
    Plain (l.record event).log := by
  intro err hmem
  rcases List.mem_append.mp hmem with hold | hnew
  · exact h err hold
  · exact hevent err (List.mem_singleton.mp hnew).symm

variable {w : World}

theorem install_sound {around : Surroundings} (chainPem keyPem : String)
    (hsound : Late w.link.log ∨ Sound w.link) :
    let called := w.call around (.install chainPem keyPem)
    let after := called.2.link.record (.installEnded w.link.sent (installResult called.1))
    Late after.log ∨ Sound after := by
  have hgrown := (world_call_grown w around (.install chainPem keyPem)).1
  have hended := world_call_ended w around (.install chainPem keyPem)
    (hsound.imp_right Sound.idle)
  generalize w.call around (.install chainPem keyPem) = called at hgrown hended ⊢
  obtain ⟨answer, after⟩ := called
  rcases hsound with hlate | hsound
  · exact .inl ((hgrown.late hlate).append _)
  have htold : Told after.link.log := hsound.told.grown hgrown
  have hplain : Plain after.link.log := hsound.plain.grown hgrown
  rcases hended with hlate | hended
  · exact .inl (hlate.append _)
  match answer with
  | .ok .installed =>
    refine .inr ⟨hended.2.record _, ?_, hplain.record (by simp)⟩
    intro number hmem
    rcases List.mem_append.mp hmem with hold | hnew
    · exact List.mem_append_left _ (htold number hold)
    · cases List.mem_singleton.mp hnew
      exact List.mem_append_left _ hended.1
  | .error (.channel err) =>
    refine (abandon_idle hended err).imp_right (fun hidle => ?_)
    exact ⟨hidle, htold.record (by simp [installResult]), hplain.record (by simp)⟩
  | .ok (.hello version) | .ok (.refused reason) | .ok .renewNow | .error (.refused reason) =>
    exact .inr ⟨hended.2.record _, htold.record (by simp [installResult]), hplain.record (by simp)⟩

theorem request_sound {around : Surroundings} (hsound : Late w.link.log ∨ Sound w.link) :
    Late (w.request around).2.link.log ∨ Sound (w.request around).2.link := by
  have hgrown := recvFirst_grown w.link around.receives
  have hbrings := recvFirst_brings (hsound.imp_right Sound.idle) around.receives
  simp only [World.request]
  generalize w.link.recvFirst around.receives = received at hgrown hbrings ⊢
  obtain ⟨result, link⟩ := received
  rcases hsound with hlate | hsound
  · exact .inl ((hgrown.late hlate).append _)
  have htold : Told link.log := hsound.told.grown hgrown
  have hplain : Plain link.log := hsound.plain.grown hgrown
  rcases hbrings with hlate | hbrings
  · exact .inl (hlate.append _)
  match result with
  | .error err | .ok .renewNow =>
    exact .inr ⟨hbrings.record _, htold.record (by simp), hplain.record (by simp [nextRequest])⟩
  | .ok (.hello version) | .ok .installed | .ok (.refused reason) =>
    obtain ⟨n, hn, -⟩ := hbrings
    cases hn

theorem wait_sound {around : Surroundings} (hsound : Late w.link.log ∨ Sound w.link) :
    Late (w.wait around).2.link.log ∨ Sound (w.wait around).2.link := by
  have hgrown := moves_grown (around.receives.flatMap Receive.moves) w.link
  rcases moves_busy (around.receives.flatMap Receive.moves) (hsound.imp_right Sound.idle) with
    hlate | hidle
  · exact .inl hlate
  · rcases hsound with hlate | hsound
    · exact .inl (hgrown.late hlate)
    · exact .inr ⟨hidle, hsound.told.grown hgrown, hsound.plain.grown hgrown⟩

/-- Every effect of the loop leaves the channel sound, unless an answer is late. -/
theorem apply_sound (around : Nat → Surroundings) {β : Type} (e : AcmeOp β)
    (hsound : Late w.link.log ∨ Sound w.link) :
    Late ((world around).apply e w).2.link.log ∨ Sound ((world around).apply e w).2.link := by
  cases e with
  | install chainPem keyPem => exact install_sound chainPem keyPem hsound
  | nextRequest => exact request_sound hsound
  | sleep secs => exact wait_sound hsound
  | now at_ =>
    cases at_ with
    | backoff => exact hsound
    | roundStart force =>
      rcases hsound with hlate | hsound
      · exact .inl (hlate.append _)
      · exact .inr ⟨hsound.idle.record _, hsound.told.record (by simp),
          hsound.plain.record (by simp)⟩
  | loadAcme | renewalWindow leafDer | issue | takePendingRenew => exact hsound

/-- Whether a request was read since the last round started. -/
def owed (log : List Happening) : Bool :=
  log.foldl (fun pending event => match event with
    | .renewRead => true
    | .roundStarted _ => false
    | _ => pending) false

/-- The first round after a request that was read is forced. -/
def Forced (log : List Happening) : Prop :=
  ∀ before between after force,
    log = before ++ .renewRead :: (between ++ .roundStarted force :: after) →
    (∀ f, .roundStarted f ∉ between) → force = true

theorem owed_snoc (log : List Happening) (event : Happening) :
    owed (log ++ [event]) = match event with
      | .renewRead => true
      | .roundStarted _ => false
      | _ => owed log := by
  simp [owed, List.foldl_append]

theorem owed_of_read (before between : List Happening) (hquiet : ∀ f, .roundStarted f ∉ between) :
    owed (before ++ .renewRead :: between) = true := by
  induction between using List.reverseRecOn with
  | nil => simp [owed_snoc]
  | append_singleton between event ih =>
    have hrest := ih (fun f hf => hquiet f (by simp [hf]))
    have hevent : ∀ f, event ≠ .roundStarted f := fun f hf => hquiet f (by simp [hf])
    rw [show before ++ .renewRead :: (between ++ [event]) =
      (before ++ .renewRead :: between) ++ [event] by simp, owed_snoc]
    cases event with
    | renewRead => rfl
    | roundStarted f => exact absurd rfl (hevent f)
    | _ => exact hrest

theorem Forced.snoc {log : List Happening} (h : Forced log) {event : Happening}
    (hevent : ∀ f, event = .roundStarted f → owed log = true → f = true) :
    Forced (log ++ [event]) := by
  intro before between after force hlog hquiet
  rcases List.eq_nil_or_concat after with rfl | ⟨init, last, rfl⟩
  · have hsplit : log ++ [event] =
        (before ++ .renewRead :: between) ++ [.roundStarted force] := by simp [hlog]
    obtain ⟨rfl, hlast⟩ := List.append_inj' hsplit rfl
    exact hevent force (List.singleton_inj.mp hlast) (owed_of_read before between hquiet)
  · have hsplit : log ++ [event] =
        (before ++ .renewRead :: (between ++ .roundStarted force :: init)) ++ [last] := by
      simp [hlog]
    obtain ⟨hfirst, -⟩ := List.append_inj' hsplit rfl
    exact h before between init force hfirst hquiet

/-- What a growth of the log leaves of both. -/
theorem Forced.grown {l l' : Link} (hforced : Forced l.log) (h : Grown renew l l') :
    Forced l'.log ∧ (owed l'.log = true → owed l.log = true ∨ renew = true) := by
  obtain ⟨more, hlog, hnew⟩ := h
  rw [hlog]
  clear hlog
  induction more using List.reverseRecOn with
  | nil => exact ⟨by simpa using hforced, fun h => .inl (by simpa using h)⟩
  | append_singleton more event ih =>
    obtain ⟨hsofar, howed⟩ := ih (fun x hx => hnew x (by simp [hx]))
    rw [← List.append_assoc, owed_snoc]
    rcases hnew event (by simp) with ⟨number, answer, rfl⟩ | ⟨rfl, hrenew⟩
    · exact ⟨hsofar.snoc (by simp), howed⟩
    · exact ⟨hsofar.snoc (by simp), fun _ => .inr hrenew⟩

/-- Within a round: every request that was read is pending. -/
structure Noted (w : World) : Prop where
  forced : Forced w.link.log
  pending : owed w.link.log = true → w.pendingRenew = true

/-- Between rounds: every request that was read is known to the loop. -/
structure Known (force : Bool) (w : World) : Prop where
  forced : Forced w.link.log
  known : owed w.link.log = true → force = true
  taken : w.pendingRenew = false

/-- What a round does before its end. -/
def Works : (β : Type) → AcmeOp β → Prop
  | _, .loadAcme | _, .renewalWindow _ | _, .issue | _, .install _ _ => True
  | _, _ => False

theorem apply_noted (around : Nat → Surroundings) {β : Type} (e : AcmeOp β) (he : Works β e)
    (hnoted : Noted w) : Noted ((world around).apply e w).2 := by
  cases e with
  | install chainPem keyPem =>
    obtain ⟨hgrown, hpending⟩ :=
      world_call_grown w (around w.effects) (.install chainPem keyPem)
    obtain ⟨hforced, howed⟩ := hnoted.forced.grown hgrown
    refine ⟨hforced.snoc (by simp), ?_⟩
    intro hstill
    change owed ((w.call (around w.effects) (.install chainPem keyPem)).2.link.log ++ [_]) = true
      at hstill
    rw [owed_snoc] at hstill
    rcases howed hstill with hold | hrenew
    · exact hpending (hnoted.pending hold)
    · exact hrenew
  | loadAcme | renewalWindow leafDer | issue => exact ⟨hnoted.forced, hnoted.pending⟩
  | now at_ | takePendingRenew | nextRequest | sleep secs => cases he

section Rounds

variable (readers : Readers)

theorem order_works (now : Int) (kept : Kept) : (order readers now kept).Uses Works := by
  refine Uses.bind (uses_perform trivial) (fun answer => ?_)
  cases answer with
  | error err => exact uses_pure _
  | ok issued =>
    dsimp only
    split
    · exact uses_pure _
    · refine Uses.bind (uses_perform trivial) (fun installed => ?_)
      cases installed <;> exact uses_pure _

theorem loadAndRenew_works (now : Int) (force : Bool) (kept : Kept) :
    (loadAndRenew readers now force kept).Uses Works := by
  refine Uses.bind (uses_perform trivial) (fun loaded => ?_)
  cases loaded with
  | error err => exact uses_pure _
  | ok served =>
    dsimp only
    unfold renewOnce
    split
    · exact order_works readers now kept
    · split
      · exact order_works readers now kept
      · split
        · exact order_works readers now kept
        · refine Uses.bind (uses_perform trivial) (fun window => ?_)
          split
          · exact order_works readers now kept
          · exact uses_pure _

theorem round_works (now : Int) (force : Bool) (kept : Kept) :
    (round readers now force kept).Uses Works := by
  unfold Source.Acme.round
  split
  · exact loadAndRenew_works readers now force kept
  · split
    · refine Uses.bind (uses_perform trivial) (fun installed => ?_)
      cases installed <;> exact uses_pure _
    · exact loadAndRenew_works readers now force _

/-- The failure of an install that a round ends with is the last thing recorded. -/
def EndsWith (result : Except RenewError Outcome × Kept) (w : World) : Prop :=
  ∀ err, result.1 = .error (.install err) →
    ∃ number, w.link.log.getLast? = some (.installEnded number (.error err))

variable (around : Nat → Surroundings)

theorem endsWith_other {result : Except RenewError Outcome} (kept : Kept) (w : World)
    (hresult : ∀ err, result ≠ .error (.install err)) :
    Prog.Ensures (world around) (pure (result, kept)) w EndsWith :=
  Prog.ensures_pure (fun err herr => absurd herr (hresult err))

theorem install_endsWith (pair : Held) (kept : Kept) (w : World) :
    Prog.Ensures (world around) (install pair kept) w EndsWith := by
  refine Ensures.bind (Q := fun answer v => ∃ number,
    v.link.log.getLast? = some (.installEnded number answer)) ?_ (fun answer v hlast => ?_)
  · refine ensures_perform ⟨w.link.sent, ?_⟩
    simp [world, World.apply, Link.record]
  · cases answer with
    | ok done => exact endsWith_other around kept v (by simp)
    | error cause =>
      refine Prog.ensures_pure (fun err herr => ?_)
      cases herr
      exact hlast

theorem order_endsWith (now : Int) (kept : Kept) (w : World) :
    Prog.Ensures (world around) (order readers now kept) w EndsWith := by
  refine Ensures.bind (Q := fun _ _ => True) trivial (fun answer v _ => ?_)
  cases answer with
  | error err => exact endsWith_other around kept v (by simp)
  | ok issued =>
    dsimp only
    split
    · exact endsWith_other around _ v (by simp)
    · exact install_endsWith around _ _ v

theorem loadAndRenew_endsWith (now : Int) (force : Bool) (kept : Kept) (w : World) :
    Prog.Ensures (world around) (loadAndRenew readers now force kept) w EndsWith := by
  refine Ensures.bind (Q := fun _ _ => True) trivial (fun loaded v _ => ?_)
  cases loaded with
  | error err => exact endsWith_other around kept v (by simp)
  | ok served =>
    dsimp only
    unfold renewOnce
    split
    · exact order_endsWith readers around now kept v
    · split
      · exact order_endsWith readers around now kept v
      · split
        · exact order_endsWith readers around now kept v
        · refine Ensures.bind (Q := fun _ _ => True) trivial (fun window u _ => ?_)
          split
          · exact order_endsWith readers around now kept u
          · exact endsWith_other around kept u (by simp)

theorem round_endsWith (now : Int) (force : Bool) (kept : Kept) (w : World) :
    Prog.Ensures (world around) (round readers now force kept) w EndsWith := by
  unfold Source.Acme.round
  split
  · exact loadAndRenew_endsWith readers around now force kept w
  · split
    · exact install_endsWith around _ _ w
    · exact loadAndRenew_endsWith readers around now force _ w

end Rounds

/-- The last thing recorded is the failure that ends the loop. -/
def Stopped (log : List Happening) : Prop :=
  (∃ err, log.getLast? = some (.requestEnded (.error err))) ∨
    ∃ number, log.getLast? = some (.installEnded number (.error (.channel .closed)))

/-- How a part of the loop ends: what was read is known to the next turn, and only a
failure makes the loop return. -/
structure Leaves {α : Type} (force : α → Bool) (flow : Flow α) (w : World) : Prop where
  forced : Forced w.link.log
  next : ∀ a, flow = .next a → Known (force a) w
  returned : flow = .returned → Stopped w.link.log

theorem Leaves.of_next {α : Type} {force : α → Bool} {a : α} (hknown : Known (force a) w) :
    Leaves force (.next a) w :=
  ⟨hknown.forced, fun b hb => by cases hb; exact hknown, nofun⟩

theorem Leaves.of_stopped {α : Type} {force : α → Bool} (hforced : Forced w.link.log)
    (hstopped : Stopped w.link.log) : Leaves force .returned w :=
  ⟨hforced, fun _ hb => (nomatch hb), fun _ => hstopped⟩

theorem Leaves.of_waiting {α : Type} {force : α → Bool} (hforced : Forced w.link.log) :
    Leaves force .waiting w :=
  ⟨hforced, fun _ hb => (nomatch hb), nofun⟩

section Loops

variable (around : Nat → Surroundings) {force : Bool}

/-- A read between rounds: a request is owed, anything else stops the loop. -/
theorem request_known (hknown : Known force w) :
    Prog.Ensures (world around) (Prog.perform .nextRequest) w (fun read v =>
      Known true v ∧ ∀ err, read = .error err → Stopped v.link.log) := by
  have hgrown := recvFirst_grown w.link (around w.effects).receives
  obtain ⟨hforced, -⟩ := hknown.forced.grown hgrown
  refine ensures_perform ⟨⟨hforced.snoc (by simp), fun _ => rfl, hknown.taken⟩, ?_⟩
  intro err herr
  refine .inl ⟨err, ?_⟩
  rw [← herr]
  simp [world, World.apply, World.request, Link.record]

theorem wait_known (hknown : Known force w) (secs : Nat) :
    Prog.Ensures (world around) (Prog.perform (.sleep secs)) w (fun _ v => Known force v) := by
  have hgrown := moves_grown ((around w.effects).receives.flatMap Receive.moves) w.link
  obtain ⟨hforced, howed⟩ := hknown.forced.grown hgrown
  refine ensures_perform ⟨hforced, ?_, hknown.taken⟩
  intro hstill
  rcases howed hstill with hold | hrenew
  · exact hknown.known hold
  · cases hrenew

theorem backoff_leaves (deadline : Int) (waits wait : Nat) (renewSeen : Bool)
    (hknown : Known renewSeen w) :
    Prog.Ensures (world around) (backoff deadline waits wait renewSeen) w (Leaves id) := by
  induction waits generalizing wait renewSeen w with
  | zero => exact .of_waiting hknown.forced
  | succ waits ih =>
    refine Ensures.bind (wait_known around hknown wait) (fun ended v hv => ?_)
    cases ended with
    | true => exact .of_next hv
    | false =>
      refine Ensures.bind (request_known around hv) (fun read u hu => ?_)
      cases read with
      | error err => exact .of_stopped hu.1.forced (hu.2 err rfl)
      | ok done =>
        refine Ensures.bind (Q := fun _ t => Known true t) ?_ (fun now t ht => ih _ true ht)
        exact ensures_perform ⟨hu.1.forced, hu.1.known, hu.1.taken⟩

theorem afterRound_leaves (waits : Nat) (startedAt : Int) (result : Except RenewError Outcome)
    (kept : Kept) (retry : Nat) (hknown : Known force w) (hlast : EndsWith (result, kept) w) :
    Prog.Ensures (world around) (afterRound waits startedAt result kept retry force) w
      (Leaves Loop.force) := by
  unfold afterRound
  split
  · split
    · exact .of_next hknown
    · refine Ensures.bind (wait_known around hknown _) (fun ended v hv => ?_)
      cases ended with
      | true => exact .of_next hv
      | false =>
        refine Ensures.bind (request_known around hv) (fun read u hu => ?_)
        cases read with
        | error err => exact .of_stopped hu.1.forced (hu.2 err rfl)
        | ok done => exact .of_next hu.1
  · exact .of_stopped hknown.forced (.inr (hlast _ rfl))
  · refine Ensures.bind (backoff_leaves around _ waits _ force hknown) (fun flow v hv => ?_)
    cases flow with
    | next renewSeen => exact .of_next (hv.next renewSeen rfl)
    | returned => exact .of_stopped hv.forced (hv.returned rfl)
    | waiting => exact .of_waiting hv.forced

variable (readers : Readers)

/-- A round keeps every request it read pending. -/
theorem round_noted (now : Int) (force : Bool) (kept : Kept) (hnoted : Noted w) :
    Prog.Ensures (world around) (round readers now force kept) w (fun _ v => Noted v) :=
  (round_works readers now force kept).run_invariant
    (fun _ e _ he hv => apply_noted around e he hv) hnoted

theorem turn_leaves (waits : Nat) (s : Loop) (hknown : Known s.force w) :
    Prog.Ensures (world around) (turn readers waits s) w (Leaves Loop.force) := by
  refine Ensures.bind (Q := fun _ v => Noted v) ?_ (fun now v hv => ?_)
  · refine ensures_perform ⟨hknown.forced.snoc ?_, ?_⟩
    · intro f hf howed
      cases hf
      exact hknown.known howed
    · intro hstill
      change owed (w.link.log ++ [_]) = true at hstill
      simp [owed_snoc] at hstill
  · have hround : Prog.Ensures (world around) (round readers now s.force s.kept) v
        (fun result u => Noted u ∧ EndsWith result u) :=
      ⟨round_noted around readers now s.force s.kept hv,
        round_endsWith readers around now s.force s.kept v⟩
    refine Ensures.bind hround (fun result u hu => ?_)
    refine Ensures.bind (Q := fun force t => Known force t ∧ EndsWith result t) ?_
      (fun force t ht => ?_)
    · exact ensures_perform ⟨⟨hu.1.forced, hu.1.pending, rfl⟩, hu.2⟩
    · exact afterRound_leaves around waits now result.1 result.2 s.retry ht.1 ht.2

theorem turns_leaves (waits bound : Nat) (s : Loop) (hknown : Known s.force w) :
    Prog.Ensures (world around) (turns readers waits bound s) w (Leaves Loop.force) := by
  induction bound generalizing s w with
  | zero => exact .of_next hknown
  | succ bound ih =>
    refine Ensures.bind (turn_leaves around readers waits s hknown) (fun flow v hv => ?_)
    cases flow with
    | next s' => exact ih s' (hv.next s' rfl)
    | returned => exact .of_stopped hv.forced (hv.returned rfl)
    | waiting => exact .of_waiting hv.forced

theorem runLoop_leaves (waits bound : Nat) (hnoted : Noted w) :
    Prog.Ensures (world around) (runLoop readers waits bound) w (Leaves Loop.force) := by
  refine Ensures.bind (Q := fun force v => Known force v) ?_ (fun force v hv => ?_)
  · exact ensures_perform ⟨hnoted.forced, hnoted.pending, rfl⟩
  · exact turns_leaves around readers waits bound _ hv

/-- The channel stays sound for the whole loop, unless an answer is late. -/
theorem runLoop_sound (waits bound : Nat) (hsound : Late w.link.log ∨ Sound w.link) :
    Prog.Ensures (world around) (runLoop readers waits bound) w
      (fun _ v => Late v.link.log ∨ Sound v.link) :=
  Prog.Uses.run_invariant (I := fun v : World => Late v.link.log ∨ Sound v.link)
    (Prog.uses_any (runLoop readers waits bound)) (fun _ e _ _ hv => apply_sound around e hv) hsound

end Loops

theorem new_sound : Sound World.new.link :=
  ⟨⟨by simp [World.new], by simp [World.new], by simp [World.new], nofun⟩,
    by simp [Told, World.new], by simp [Plain, World.new]⟩

/-- An accepted greeting leaves the channel sound and its requests pending. -/
theorem greeted_sound (around : Surroundings)
    (hok : helloResult (World.new.call around (.hello acmeProtoVersion)).1 = .ok ()) :
    (Late (World.new.call around (.hello acmeProtoVersion)).2.link.log ∨
      Sound (World.new.call around (.hello acmeProtoVersion)).2.link) ∧
    Noted (World.new.call around (.hello acmeProtoVersion)).2 := by
  have hgrown := (world_call_grown World.new around (.hello acmeProtoVersion)).1
  have hended := world_call_ended World.new around (.hello acmeProtoVersion) (.inr new_sound.idle)
  generalize World.new.call around (.hello acmeProtoVersion) = called at hok hgrown hended ⊢
  obtain ⟨answer, after⟩ := called
  have hforced : Forced World.new.link.log := by
    intro before between after force hlog
    simp [World.new] at hlog
  obtain ⟨hnow, howed⟩ := hforced.grown hgrown
  refine ⟨hended.imp_right (fun hended => ?_), hnow, fun hstill => ?_⟩
  · have hidle : Busy none after.link := by
      match answer with
      | .ok answer => exact hended.2
      | .error err => simp [helloResult] at hok
    exact ⟨hidle, new_sound.told.grown hgrown, new_sound.plain.grown hgrown⟩
  · rcases howed hstill with hold | hrenew
    · simp [World.new, owed] at hold
    · exact hrenew

/-- **Answers kept apart.** In every run in which no `Install` is answered after the wait
for it ended: an install that returned `Ok` was answered with `Installed`; the loop
returns only when the channel is closed or fails; and the first round after a request
that was read is forced, also where it is still to start. -/
theorem answers_kept_apart (readers : Readers) (around : Nat → Surroundings) (waits bound : Nat)
    {flow : Flow Loop} {w : World} (hrun : acmeMain readers around waits bound = some (flow, w))
    (hlate : ¬ Late w.link.log) :
    (∀ number, .installEnded number (.ok ()) ∈ w.link.log →
      .answered number .installed ∈ w.link.log) ∧
    (flow = .returned →
      (∃ cause, w.link.log.getLast? = some (.requestEnded (.error (.channel cause)))) ∨
        ∃ number, w.link.log.getLast? = some (.installEnded number (.error (.channel .closed)))) ∧
    Forced w.link.log ∧
    ∀ s, flow = .next s → owed w.link.log = true → s.force = true := by
  unfold acmeMain at hrun
  dsimp only at hrun
  split at hrun
  · cases hrun
  · rename_i hok
    obtain ⟨hsound, hnoted⟩ := greeted_sound (around 0) hok
    have hends := runLoop_leaves around readers waits bound hnoted
    have hstays := runLoop_sound around readers waits bound hsound
    unfold Prog.Ensures at hends hstays
    rw [Option.some.inj hrun] at hends hstays
    have hsound : Sound w.link := by
      rcases hstays with hlate' | hsound
      · exact absurd hlate' hlate
      · exact hsound
    refine ⟨hsound.told, ?_, hends.forced, fun s hs howed => (hends.next s hs).known howed⟩
    intro hreturned
    rcases hends.returned hreturned with ⟨err, hlast⟩ | hclosed
    · obtain ⟨cause, rfl⟩ := hsound.plain err (List.mem_of_getLast? hlast)
      exact .inl ⟨cause, hlast⟩
    · exact .inr hclosed

/-- A worker that accepts the greeting and then does what `moves` say; nothing is served
and the CA issues. -/
def surroundings (receives : List Receive) (woken : Bool) : Surroundings :=
  ⟨100, .ok none, none, .ok newPair, none, receives, woken⟩

def accepts : Surroundings := surroundings [⟨[.serve (.ok ())], none⟩] false

/-- The worker answers in time: it refuses the pair, and installs it when it is offered
again. -/
def inTime : Nat → Surroundings
  | 0 | 9 => accepts
  | _ => surroundings [⟨[.serve (.error "expired")], none⟩] false

theorem inTime_kept_apart : ∃ flow w, acmeMain oneLeaf inTime 1 2 = some (flow, w) ∧
    .installEnded 1 (.error (.refused "expired")) ∈ w.link.log ∧
    .installEnded 2 (.ok ()) ∈ w.link.log ∧ .answered 2 .installed ∈ w.link.log := by
  have hlog : ∃ flow w, acmeMain oneLeaf inTime 1 2 = some (flow, w) ∧ w.link.log =
      [.answered 0 (.hello 2), .roundStarted false, .answered 1 (.refused "expired"),
        .installEnded 1 (.error (.refused "expired")), .roundStarted false,
        .answered 2 .installed, .installEnded 2 (.ok ())] := ⟨_, _, rfl, rfl⟩
  obtain ⟨flow, w, hrun, hlog⟩ := hlog
  have hlate : ¬ Late w.link.log := by
    rintro ⟨number, answer, ⟨err, hended⟩, -⟩
    simp [hlog] at hended
  have hended : .installEnded 2 (.ok ()) ∈ w.link.log := by simp [hlog]
  exact ⟨flow, w, hrun, by simp [hlog], hended,
    (answers_kept_apart oneLeaf inTime 1 2 hrun hlate).1 2 hended⟩

/-- The wait for the first install times out. The worker answers while the loop waits for
its next round, or only when the pair is offered again. -/
def readInTheWait : Nat → Surroundings
  | 0 => accepts
  | 7 => surroundings [⟨[.serve (.ok ())], none⟩] true
  | 8 => surroundings [⟨[], none⟩] false
  | _ => surroundings [⟨[], some .timeout⟩] false

def readByTheNext : Nat → Surroundings
  | 0 => accepts
  | 9 => surroundings [⟨[.serve (.ok ()), .serve (.error "expired")], none⟩] false
  | _ => surroundings [⟨[], some .timeout⟩] false

/-- **Late answers.** A late answer ends the loop on an open channel, and another is taken
for the answer to an install that the worker refuses. -/
theorem late_answers_misread :
    (∃ w, acmeMain oneLeaf readInTheWait 1 1 = some (.returned, w) ∧ w.link.closed = false ∧
      w.link.log.getLast? = some (.requestEnded (.error (.protocol "expected RenewNow")))) ∧
    ∃ flow w, acmeMain oneLeaf readByTheNext 1 2 = some (flow, w) ∧
      .installEnded 2 (.ok ()) ∈ w.link.log ∧ .answered 2 (.refused "expired") ∈ w.link.log ∧
      .answered 2 .installed ∉ w.link.log := by
  refine ⟨⟨_, rfl, rfl, rfl⟩, ?_⟩
  have hlog : ∃ flow w, acmeMain oneLeaf readByTheNext 1 2 = some (flow, w) ∧ w.link.log =
      [.answered 0 (.hello 2), .roundStarted false, .installEnded 1 (.error (.channel .timeout)),
        .roundStarted false, .answered 1 .installed, .answered 2 (.refused "expired"),
        .installEnded 2 (.ok ())] := ⟨_, _, rfl, rfl⟩
  obtain ⟨flow, w, hrun, hlog⟩ := hlog
  exact ⟨flow, w, hrun, by simp [hlog], by simp [hlog], by simp [hlog]⟩

end Detent.Guarantees.LateAnswers
