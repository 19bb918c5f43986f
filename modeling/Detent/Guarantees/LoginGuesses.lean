import Detent.Lib.Machine
import Detent.Source.RateLimit

/-!
# Guesses before a lockout

`crates/detent-web/src/auth/routes.rs:560-591,665-722` with
`crates/detent-web/src/auth/ratelimit.rs:122-172`. A verification that was started is
counted by the limiter, or its request is still open. A permit is held during the
verification only, so the requests that wait to be counted are bounded by nothing. All
this holds in whatever order a table is gone through.
-/
namespace Detent.Guarantees.LoginGuesses
open Lib Lib.Keyed Source.RateLimit

section Buckets

variable {κ : Type} [DecidableEq κ] (buckets : Buckets κ) {key other : κ} {bucket : Bucket}
  {iteration : Iteration κ Bucket}

@[simp] theorem get_put_self : (buckets.put key bucket).get key = some bucket := value_set_self

theorem get_put_of_ne (h : other ≠ key) : (buckets.put key bucket).get other = buckets.get other :=
  value_set_of_ne h

/-- The failures counted for `key`. -/
def failures (key : κ) : Nat := ((buckets.get key).map Bucket.failures).getD 0

/-- `key` is, or was last, locked out. -/
def LockedOut (key : κ) : Prop := ((buckets.get key).bind Bucket.blockedUntil).isSome = true

instance (key : κ) : Decidable (LockedOut buckets key) :=
  inferInstanceAs (Decidable (_ = true))

variable {buckets}

theorem makeRoom_of_room {now : Nat} (h : buckets.map.length < buckets.cap) :
    buckets.makeRoom iteration now = buckets :=
  if_pos h

/-- A failure of another key, in a table with room, changes nothing for `key`. -/
theorem fail_of_ne (iteration : Iteration κ Bucket) (maxFailures now : Nat)
    (hroom : buckets.map.length < buckets.cap) (h : key ≠ other) :
    (buckets.fail iteration other maxFailures now).2.get key = buckets.get key := by
  simp only [Buckets.fail, makeRoom_of_room hroom]
  split
  all_goals exact get_put_of_ne buckets h

/-- What a failure of `key`, in a table with room, does to its bucket. -/
theorem fail_self (iteration : Iteration κ Bucket) (key : κ) (maxFailures now : Nat)
    (hroom : buckets.map.length < buckets.cap) :
    failures (buckets.fail iteration key maxFailures now).2 key =
        saturatingSucc (failures buckets key) ∧
      (LockedOut (buckets.fail iteration key maxFailures now).2 key ↔
        (saturatingSucc (saturatingSucc (failures buckets key)) > maxFailures ∨
          LockedOut buckets key)) ∧
      ((buckets.fail iteration key maxFailures now).1 = true ↔
        saturatingSucc (saturatingSucc (failures buckets key)) > maxFailures) := by
  have hbucket : ((buckets.get key).getD
      { failures := 0, blockedUntil := none, lastSeen := now }).failures = failures buckets key := by
    unfold failures
    cases buckets.get key <;> rfl
  have hblocked : ((buckets.get key).getD
      { failures := 0, blockedUntil := none, lastSeen := now }).blockedUntil =
        (buckets.get key).bind Bucket.blockedUntil := by
    cases buckets.get key <;> rfl
  simp only [Buckets.fail, makeRoom_of_room hroom, hbucket]
  split
  · rename_i hunder
    have hle := Nat.sub_eq_zero_iff_le.mp hunder
    refine ⟨by simp [failures], ?_, ?_⟩
    · simp only [LockedOut, get_put_self, Option.bind_some, hblocked]
      constructor
      · exact .inr
      · rintro (hover | hlocked)
        · omega
        · exact hlocked
    · constructor
      · nofun
      · intro hover
        omega
  · rename_i hover
    have hlt : saturatingSucc (saturatingSucc (failures buckets key)) > maxFailures := by omega
    refine ⟨by simp [failures], ?_, ?_⟩
    · simp [LockedOut, hlt]
    · simp [hlt]

end Buckets

/-- The request at a place, and the requests around it. -/
theorem split_at_place {attempts : List Attempt} {place : Nat} {a : Attempt}
    (h : attempts[place]? = some a) :
    ∃ before after, attempts = before ++ a :: after ∧
      (∀ b, attempts.set place b = before ++ b :: after) ∧
      attempts.eraseIdx place = before ++ after := by
  obtain ⟨hlt, ha⟩ := List.getElem?_eq_some_iff.mp h
  have hsplit := List.take_append_drop place attempts
  rw [List.drop_eq_getElem_cons hlt, ha] at hsplit
  refine ⟨attempts.take place, attempts.drop (place + 1), hsplit.symm, fun b => ?_, ?_⟩
  · rw [List.set_eq_take_append_cons_drop, if_pos hlt]
  · exact List.eraseIdx_eq_take_drop_succ ..

/-- The open requests for a name. -/
def openRequests (s : LoginState) (name : String) : Nat :=
  s.attempts.countP (fun a => a.subject = name)

/-- The requests for a name that were verified and whose failure is not counted yet. -/
def waiting (s : LoginState) (name : String) : Nat :=
  s.attempts.countP (fun a => decide (a.subject = name) && decide (a.phase = .failed))

/-- The requests whose password is being verified. -/
def verifying (s : LoginState) : Nat := s.attempts.countP (fun a => a.phase = .verifying)

/-- The table of the user names has room for one more. -/
def HasRoom (s : LoginState) (_ : LoginEvent) : Prop :=
  s.limiter.users.map.length < s.limiter.users.cap

instance (s : LoginState) (e : LoginEvent) : Decidable (HasRoom s e) :=
  inferInstanceAs (Decidable (_ < _))

variable {s s' : LoginState} {e : LoginEvent}

theorem step_cases (h : s.step e = some s') :
    (∃ ip subject now, s.permits = s'.permits + 1 ∧ s'.limiter = s.limiter ∧
      s'.attempts = s.attempts ++ [{ ip, subject, now, phase := .verifying }] ∧
      s'.started = s.started ++ [subject]) ∨
    (∃ ip subject now, s'.permits = s.permits ∧ s'.limiter = s.limiter ∧
      s'.attempts = s.attempts ++ [{ ip, subject, now, phase := .failed }] ∧
      s'.started = s.started) ∨
    s' = s ∨
    (∃ a before after, a.phase = .verifying ∧ s.attempts = before ++ a :: after ∧
      s'.attempts = before ++ { a with phase := .failed } :: after ∧
      s'.permits = s.permits + 1 ∧ s'.limiter = s.limiter ∧ s'.started = s.started) ∨
    (∃ a before after, a.phase = .failed ∧ s.attempts = before ++ a :: after ∧
      s'.attempts = before ++ after ∧ s'.permits = s.permits ∧ s'.started = s.started ∧
      ∃ ips users, s'.limiter = (s.limiter.recordFailure ips users a.ip a.subject a.now).2) := by
  cases e with
  | arrive ip subject withinLimits now =>
    simp only [LoginState.step, LoginState.admit] at h
    cases hcheck : s.limiter.check ip subject now with
    | error err =>
      simp only [hcheck] at h
      cases err with
      | invalidCredentials =>
        cases h
        exact .inr (.inl ⟨ip, subject, now, rfl, rfl, rfl, rfl⟩)
      | rateLimited | busy =>
        cases h
        exact .inr (.inr (.inl rfl))
    | ok value =>
      cases withinLimits with
      | false =>
        simp only [hcheck] at h
        cases h
        exact .inr (.inl ⟨ip, subject, now, rfl, rfl, rfl, rfl⟩)
      | true =>
        cases hpermits : s.permits with
        | zero =>
          simp only [hcheck, hpermits] at h
          cases h
          exact .inr (.inr (.inl rfl))
        | succ permits =>
          simp only [hcheck, hpermits] at h
          cases h
          exact .inl ⟨ip, subject, now, rfl, rfl, rfl, rfl⟩
  | verified place =>
    simp only [LoginState.step] at h
    cases hplace : s.attempts[place]? with
    | none =>
      rw [hplace] at h
      cases h
    | some a =>
      obtain ⟨before, after, hsplit, hset, -⟩ := split_at_place hplace
      simp only [hplace] at h
      split at h
      · rename_i hphase
        cases h
        exact .inr (.inr (.inr (.inl ⟨a, before, after, hphase, hsplit, hset _, rfl, rfl, rfl⟩)))
      · cases h
  | recorded place ips users =>
    simp only [LoginState.step] at h
    cases hplace : s.attempts[place]? with
    | none =>
      rw [hplace] at h
      cases h
    | some a =>
      obtain ⟨before, after, hsplit, -, herase⟩ := split_at_place hplace
      simp only [hplace] at h
      split at h
      · rename_i hphase
        cases h
        exact .inr (.inr (.inr (.inr ⟨a, before, after, hphase, hsplit, herase, rfl, rfl,
          ips, users, rfl⟩)))
      · cases h

theorem step_permits (h : s.step e = some s') :
    s'.permits + verifying s' = s.permits + verifying s := by
  rcases step_cases h with ⟨ip, subject, now, hpermits, -, hattempts, -⟩ |
    ⟨ip, subject, now, hpermits, -, hattempts, -⟩ | rfl |
    ⟨a, before, after, hphase, hbefore, hafter, hpermits, -⟩ |
    ⟨a, before, after, hphase, hbefore, hafter, hpermits, -⟩
  · simp [verifying, hattempts, hpermits]
    omega
  · simp [verifying, hattempts, hpermits]
  · rfl
  · simp [verifying, hbefore, hafter, hpermits, hphase]
    omega
  · simp [verifying, hbefore, hafter, hpermits, hphase]

/-- The verifications started for a name are counted or open, until it is locked out.
Once it is, the count stays at the limit or over it. -/
structure Guesses (maxFailures : Nat) (name : String) (s : LoginState) : Prop where
  limit : s.limiter.maxFailures = maxFailures
  counted : ¬LockedOut s.limiter.users name →
    s.started.count name ≤ failures s.limiter.users name + openRequests s name
  under : ¬LockedOut s.limiter.users name → failures s.limiter.users name < maxFailures
  beyond : LockedOut s.limiter.users name → maxFailures ≤ failures s.limiter.users name

theorem Guesses.step {maxFailures : Nat} {name : String} (hmax : maxFailures < 4294967295)
    (hs : Guesses maxFailures name s) (hroom : HasRoom s e) (h : s.step e = some s') :
    Guesses maxFailures name s' := by
  have hcounted := hs.counted
  rcases step_cases h with ⟨ip, subject, now, -, hlimiter, hattempts, hstarted⟩ |
    ⟨ip, subject, now, -, hlimiter, hattempts, hstarted⟩ | rfl |
    ⟨a, before, after, hphase, hbefore, hafter, -, hlimiter, hstarted⟩ |
    ⟨a, before, after, hphase, hbefore, hafter, -, hstarted, ips, users, hlimiter⟩
  · refine ⟨hlimiter ▸ hs.limit, ?_, hlimiter ▸ hs.under, hlimiter ▸ hs.beyond⟩
    intro hopen
    have hbound := hcounted (hlimiter ▸ hopen)
    rw [hlimiter, hstarted, List.count_append]
    simp only [openRequests, hattempts, List.countP_append] at hbound ⊢
    by_cases hname : subject = name
    all_goals
      simp [hname]
      omega
  · refine ⟨hlimiter ▸ hs.limit, ?_, hlimiter ▸ hs.under, hlimiter ▸ hs.beyond⟩
    intro hopen
    have hbound := hcounted (hlimiter ▸ hopen)
    rw [hlimiter, hstarted]
    simp only [openRequests, hattempts, List.countP_append] at hbound ⊢
    omega
  · exact hs
  · refine ⟨hlimiter ▸ hs.limit, ?_, hlimiter ▸ hs.under, hlimiter ▸ hs.beyond⟩
    intro hopen
    have hbound := hcounted (hlimiter ▸ hopen)
    rw [hlimiter, hstarted]
    simp only [openRequests, hbefore, hafter, List.countP_append, List.countP_cons] at hbound ⊢
    exact hbound
  · have husers : s'.limiter.users =
        (s.limiter.users.fail users a.subject s.limiter.maxFailures a.now).2 := by
      rw [hlimiter]
      rfl
    have hlimit : s'.limiter.maxFailures = maxFailures := by
      rw [hlimiter]
      exact hs.limit
    have hopenCount : openRequests s name =
        openRequests s' name + if a.subject = name then 1 else 0 := by
      simp only [openRequests, hbefore, hafter, List.countP_append, List.countP_cons,
        decide_eq_true_eq]
      omega
    by_cases hname : a.subject = name
    · -- the failure is counted: the request moves from the open ones to the bucket
      subst hname
      obtain ⟨hfailures, hlocked, -⟩ := fail_self users a.subject s.limiter.maxFailures a.now hroom
      rw [hs.limit] at hfailures hlocked
      rw [if_pos rfl] at hopenCount
      refine ⟨hlimit, fun hopen => ?_, fun hopen => ?_, fun hover => ?_⟩
      · rw [husers, hs.limit, hlocked, not_or] at hopen
        have hbound := hcounted hopen.2
        have hunder := hs.under hopen.2
        rw [husers, hs.limit, hfailures, hstarted]
        simp only [saturatingSucc]
        omega
      · rw [husers, hs.limit, hlocked, not_or] at hopen
        rw [husers, hs.limit, hfailures]
        have hnot := hopen.1
        simp only [saturatingSucc] at hnot ⊢
        omega
      · rw [husers, hs.limit, hlocked] at hover
        rw [husers, hs.limit, hfailures]
        rcases hover with hover | hbefore
        · simp only [saturatingSucc] at hover ⊢
          omega
        · have hold := hs.beyond hbefore
          simp only [saturatingSucc]
          omega
    · have hget := fail_of_ne users s.limiter.maxFailures a.now hroom (Ne.symm hname)
      have hfailures : failures s'.limiter.users name = failures s.limiter.users name := by
        rw [failures, failures, husers, hget]
      have hlocked : LockedOut s'.limiter.users name ↔ LockedOut s.limiter.users name := by
        rw [LockedOut, LockedOut, husers, hget]
      rw [if_neg hname] at hopenCount
      refine ⟨hlimit, ?_, ?_, ?_⟩
      · rw [hlocked, hfailures, hstarted]
        intro hopen
        have hbound := hcounted hopen
        omega
      · rw [hlocked, hfailures]
        exact hs.under
      · rw [hlocked, hfailures]
        exact hs.beyond

theorem guesses_initial (maxFailures permits : Nat) (name : String) :
    Guesses (max maxFailures 1) name (.initial maxFailures permits) where
  limit := rfl
  counted _ := by simp [LoginState.initial]
  under _ := by
    have hzero : failures (LoginState.initial maxFailures permits).limiter.users name = 0 := rfl
    omega
  beyond hlocked := by
    have hfree : ¬LockedOut (LoginState.initial maxFailures permits).limiter.users name := nofun
    exact absurd hlocked hfree

/-- An open request is verified now, or waits to be counted. -/
theorem openRequests_le (s : LoginState) (name : String) :
    openRequests s name ≤ verifying s + waiting s name := by
  simp only [openRequests, verifying, waiting]
  induction s.attempts with
  | nil => exact Nat.le_refl _
  | cons a rest ih =>
    simp only [List.countP_cons]
    cases hphase : a.phase <;> by_cases hname : a.subject = name <;> simp [hname] <;> omega

/-- Before the name is first locked out, the verifications started for it are at most
`max_failures - 1`, the permits, and the requests that were verified and whose failure
waits to be counted. -/
theorem guesses_before_lockout {maxFailures permits : Nat} {s : LoginState} {es : List LoginEvent}
    (hmax : maxFailures < 4294967295)
    (hrun : Run (Guarded HasRoom (Steps LoginState.step)) (.initial maxFailures permits) es s)
    (name : String) (hopen : ¬LockedOut s.limiter.users name) :
    s.started.count name ≤ (max maxFailures 1 - 1) + permits + waiting s name := by
  have hguesses : Guesses (max maxFailures 1) name s :=
    hrun.invariant (fun _ _ _ hs hstep => hs.step (by omega) hstep.1 hstep.2)
      (guesses_initial maxFailures permits name)
  have hpermits : s.permits + verifying s = permits :=
    hrun.invariant (I := fun t => t.permits + verifying t = permits)
      (fun _ _ _ ht hstep => (step_permits hstep.2).trans ht) rfl
  have hsplit := openRequests_le s name
  have hcounted := hguesses.counted hopen
  have hunder := hguesses.under hopen
  omega

def address : IpAddr := .v4 ⟨198, 51, 100, 1⟩

/-- Seven logins of which each one waits to be counted when the next one comes. -/
def uncounted : List LoginEvent :=
  (List.range 7).flatMap (fun place => [.arrive address "alice" true 0, .verified place])

theorem run_uncounted : ∃ s, Run (Guarded HasRoom (Steps LoginState.step)) (.initial 5 2)
    uncounted s ∧ ¬LockedOut s.limiter.users "alice" ∧ s.started.count "alice" = 7 := by
  have hrun : ((exec (fun s e => if HasRoom s e then s.step e else none) (.initial 5 2)
      uncounted).map fun s => (decide (LockedOut s.limiter.users "alice"),
        s.started.count "alice")) = some (false, 7) := by
    decide +kernel
  obtain ⟨s, hexec, hs⟩ := Option.map_eq_some_iff.mp hrun
  rw [Prod.mk.injEq, decide_eq_false_iff_not] at hs
  exact ⟨s, run_guarded_of_exec hexec, hs⟩

theorem guesses_before_lockout_default :
    ∃ s, Run (Guarded HasRoom (Steps LoginState.step)) (.initial 5 2) uncounted s ∧
      s.started.count "alice" ≤ (max 5 1 - 1) + 2 + waiting s "alice" := by
  obtain ⟨s, hrun, hopen, -⟩ := run_uncounted
  exact ⟨s, hrun, guesses_before_lockout (by decide) hrun "alice" hopen⟩

/-- With five failures and two permits, the defaults, seven passwords are verified before
the first failure is counted. With the largest limit no failure locks a name out. -/
theorem uncounted_guesses :
    (∃ s, Run (Guarded HasRoom (Steps LoginState.step)) (.initial 5 2) uncounted s ∧
      ¬LockedOut s.limiter.users "alice" ∧ (5 - 1) + 2 < s.started.count "alice") ∧
    ∀ (users : Buckets String) iteration name now, users.map.length < users.cap →
      (users.fail iteration name 4294967295 now).1 = false := by
  constructor
  · obtain ⟨s, hrun, hopen, hstarted⟩ := run_uncounted
    exact ⟨s, hrun, hopen, by rw [hstarted]; decide⟩
  · intro users iteration name now hroom
    have hlockout := (fail_self iteration name 4294967295 now hroom).2.2
    rw [Bool.eq_false_iff, ne_eq, hlockout]
    simp only [saturatingSucc]
    omega

end Detent.Guarantees.LoginGuesses
