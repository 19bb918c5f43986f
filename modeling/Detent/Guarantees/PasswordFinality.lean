import Detent.Guarantees.AccountStores

/-!
# A password change among other calls

`crates/detent-web/src/auth/users.rs:451-539,561-610`: a verification looks at a snapshot
of the records, verifies without the lock and may then write a rehash of the password it
verified into the record as it is by then.
-/
namespace Detent.Guarantees.PasswordFinality
open Lib Source Source.Sessions Source.Credentials Source.Accounts UserRecords AccountStores

section Calls

variable [Sha256] {hasher : Hasher} {name : String}

/-- The calls on the account. -/
inductive Call where
  | verifyPassword (password salt now : String)
  | setPassword (password salt now : String)
  | setTotp (secret : Option TotpSecret) (now : String)
  | noteTotpCounter (secret : TotpSecret) (counter : Nat) (now : String)
  deriving DecidableEq

/-- The stores, the password of the last `set_password` that succeeded, and which it was
when a verification took its snapshot. -/
structure Vault where
  stores : Stores
  final : Option String
  seen : Nat → Option String

def program (hasher : Hasher) (name : String) :
    Call → Prog StoreOp (Except AuthError (Option VerifiedUser))
  | .verifyPassword password salt now =>
    (do let user ← verifyPassword hasher name password salt now; pure (some user) : AccountM _).run
  | .setPassword password salt now =>
    (do setPassword hasher name password salt now; pure none : AccountM _).run
  | .setTotp secret now => (do setTotp name secret now; pure none : AccountM _).run
  | .noteTotpCounter secret counter now =>
    (do noteTotpCounter name secret counter now; pure none : AccountM _).run

/-- What is remembered of an acquisition of thread `i`. -/
def Vault.remember (s : Vault) (i : Nat) : {β : Type} → StoreOp β → β → Vault
  | _, .record _, _ => { s with seen := Function.update s.seen i s.final }
  | _, .mutate (.setPassword _ password _ _), .ok _ => { s with final := some password }
  | _, _, _ => s

def Vault.perform (i : Nat) {β : Type} (op : StoreOp β) (s : Vault) : β × Vault :=
  let done := s.stores.perform op
  (done.1, Vault.remember { s with stores := done.2 } i op done.1)

/-- The calls of one process on the account `name`. -/
def service (hasher : Hasher) (name : String) :
    Service StoreOp Vault Call (Except AuthError (Option VerifiedUser)) Empty where
  program := program hasher name
  perform := Vault.perform
  outside w := nomatch w

/-- The record of the account is the work of the last `set_password`. -/
structure Sound (hasher : Hasher) (name : String) (s : Vault) : Prop where
  settled : s.stores.file = s.stores.users
  readable : ∀ r text, recordOf name s.stores.users = some r → r.totpSecret ≠ some (.unreadable text)
  final : ∀ password, s.final = some password → ∃ r salt,
    recordOf name s.stores.users = some r ∧ r.phc = hasher.hash password salt

/-- A rehash finds the hash it verified still stored. -/
def Unchanged (name : String) (s : Vault) : {β : Type} → StoreOp β → Prop
  | _, .mutate (.rehash _ checked _ _) =>
    ∀ r, recordOf name s.stores.users = some r → r.phc = checked
  | _, _ => True

def discipline (hasher : Hasher) (name : String) : Discipline StoreOp Vault Call Empty where
  inv := Sound hasher name
  idle _ _ := True
  rely i s t := t.seen i = s.seen i ∧
    ((recordOf name s.stores.users).isSome → (recordOf name t.stores.users).isSome)
  may _ _ op s := Unchanged name s op
  mayBegin _ _ := True
  mayOutside _ _ := True

/-- What a call that returned says: a verification whose snapshot is from after a
`set_password` accepts exactly its password. -/
def Judges (i : Nat) : Call → Except AuthError (Option VerifiedUser) → Vault → Prop
  | .verifyPassword password _ _, answer, s =>
    ∀ new, s.seen i = some new → (answer.isOk ↔ password = new)
  | _, _, _ => True

/-- The changes these calls make. -/
inductive Formed (hasher : Hasher) (name : String) : UserChange → Prop
  | rehash {password checked salt now : String} (h : hasher.verify password checked = true) :
      Formed hasher name (.rehash name checked (hasher.hash password salt) now)
  | setPassword {password salt now : String} :
      Formed hasher name (.setPassword name password (hasher.hash password salt) now)
  | setTotp {secret : Option TotpSecret} {now : String} : Formed hasher name (.setTotp name secret now)
  | noteTotpCounter {secret : TotpSecret} {counter : Nat} {now : String} :
      Formed hasher name (.noteTotpCounter name secret counter now)

omit [Sha256] in
/-- What such a change makes of the record of the account. -/
theorem Formed.record {change : UserChange} (h : Formed hasher name change) {users users' : List UserRecord}
    (happly : change.apply users = .ok users') : ∃ r r', recordOf name users = some r ∧
      recordOf name users' = some r' ∧ onRecord change (some r) = .ok (some r') := by
  have haccount : account change = name := by cases h <;> rfl
  obtain ⟨r, hr, hrecord⟩ := apply_own happly (by cases h <;> rfl)
  rw [haccount] at hr hrecord
  cases hr' : recordOf name users' with
  | none =>
    rw [hr'] at hrecord
    cases h <;> simp only [onRecord] at hrecord <;> (try split at hrecord) <;> cases hrecord
  | some r' => exact ⟨r, r', hr, rfl, by rw [hrecord, hr']⟩

variable {i : Nat} {s t : Vault}

theorem perform_refresh (h : t.stores.file = t.stores.users) :
    Vault.perform i .refresh t = (.ok (), t) := by
  simp only [Vault.perform, Stores.perform, refresh_settled h, Vault.remember]

theorem perform_record (n : String) :
    Vault.perform i (.record n) t
      = (recordOf n t.stores.users, { t with seen := Function.update t.seen i t.final }) := rfl

theorem record_keeps (n : String) (hinv : Sound hasher name t) :
    Lib.Keeps (discipline hasher name) i t (Vault.perform i (.record n) t).2 := by
  refine ⟨⟨hinv.settled, hinv.readable, hinv.final⟩, ?_⟩
  intro j hj
  exact ⟨Function.update_of_ne hj _ _, id⟩

omit [Sha256] in
theorem keeps_self (hinv : Sound hasher name t) : Lib.Keeps (discipline hasher name) i t t :=
  ⟨hinv, fun _ _ => ⟨rfl, id⟩⟩

/-- The password that the record stands for after a change. -/
def finalAfter (s : Vault) : UserChange → Option String
  | .setPassword _ password _ _ => some password
  | _ => s.final

variable {change : UserChange} {r : UserRecord}

omit [Sha256] in
/-- A change that is made leaves the record of the account sound. -/
theorem Formed.sound {users' : List UserRecord} (h : Formed hasher name change)
    (hinv : Sound hasher name t) (hmay : Unchanged name t (.mutate change))
    (happly : change.apply t.stores.users = .ok users') :
    Sound hasher name { t with
      stores := { t.stores with file := users', users := users' }, final := finalAfter t change } := by
  obtain ⟨r, r', hr, hr', hon⟩ := h.record happly
  refine ⟨rfl, ?_, ?_⟩
  · intro r₂ text hr₂
    obtain rfl := Option.some.inj (hr'.symm.trans hr₂)
    have hreadable := hinv.readable r text hr
    cases h with
    | rehash | setPassword => cases hon; exact hreadable
    | @setTotp secret now => cases hon; cases secret <;> simp
    | noteTotpCounter =>
      simp only [onRecord] at hon
      split at hon
      · cases hon
      · cases hon
        exact hreadable
  · intro password hfinal
    refine ⟨r', ?_⟩
    cases h with
    | @rehash checked phc salt now hverify =>
      obtain ⟨r₂, salt₂, hr₂, hphc⟩ := hinv.final password hfinal
      obtain rfl := Option.some.inj (hr.symm.trans hr₂)
      have hchecked : r.phc = phc := hmay r hr
      rw [← hchecked, hphc, hasher.verify_hash, decide_eq_true_iff] at hverify
      cases hon
      exact ⟨salt, hr', by rw [hverify]⟩
    | @setPassword new salt now =>
      obtain rfl := Option.some.inj hfinal
      cases hon
      exact ⟨salt, hr', rfl⟩
    | setTotp =>
      obtain ⟨r₂, salt₂, hr₂, hphc⟩ := hinv.final password hfinal
      obtain rfl := Option.some.inj (hr.symm.trans hr₂)
      cases hon
      exact ⟨salt₂, hr', hphc⟩
    | noteTotpCounter =>
      obtain ⟨r₂, salt₂, hr₂, hphc⟩ := hinv.final password hfinal
      obtain rfl := Option.some.inj (hr.symm.trans hr₂)
      simp only [onRecord] at hon
      split at hon
      · cases hon
      · cases hon
        exact ⟨salt₂, hr', hphc⟩

theorem mutate_keeps (h : Formed hasher name change) (hinv : Sound hasher name t)
    (hmay : Unchanged name t (.mutate change)) :
    Lib.Keeps (discipline hasher name) i t (Vault.perform i (.mutate change) t).2 := by
  simp only [Vault.perform, Stores.perform, mutate_settled hinv.settled]
  cases happly : change.apply t.stores.users with
  | error err =>
    have hsame : (Vault.remember t i (.mutate change) (.error err)) = t := by
      cases h <;> rfl
    rw [hsame]
    exact keeps_self hinv
  | ok users' =>
    have hafter : Vault.remember { t with stores := { t.stores with file := users', users := users' } } i
        (.mutate change) (.ok ()) = { t with
          stores := { t.stores with file := users', users := users' }, final := finalAfter t change } := by
      cases h <;> rfl
    rw [hafter]
    refine ⟨h.sound hinv hmay happly, fun j _ => ⟨rfl, ?_⟩⟩
    obtain ⟨r, r', -, hr', -⟩ := h.record happly
    intro _
    simp only [hr', Option.isSome_some]

theorem change_holds (h : Formed hasher name change)
    {K : Except AuthError (Option VerifiedUser) → Vault → Prop} (hK : ∀ a t, K a t) :
    Lib.Holds (service hasher name) (discipline hasher name) i K
      (do attempt (.mutate change); pure none : AccountM (Option VerifiedUser)).run s := by
  refine Lib.Holds.attempt ?_
  intro t hinv _ hmay
  exact ⟨mutate_keeps h hinv hmay, fun _ _ => hK _ _, fun _ _ => hK _ _⟩

theorem seen_mutate (change : UserChange) :
    (Vault.perform i (.mutate change) t).2.seen = t.seen := by
  simp only [Vault.perform]
  generalize (t.stores.perform (.mutate change)).1 = answer
  cases change <;> cases answer <;> rfl

/-- The rehash of an account that exists is made. -/
theorem rehash_ok (hr : recordOf name t.stores.users = some r)
    (hsettled : t.stores.file = t.stores.users) (checked phc now : String) :
    (Vault.perform i (.mutate (.rehash name checked phc now)) t).1 = .ok () := by
  obtain ⟨users', happly⟩ : ∃ users', (UserChange.rehash name checked phc now).apply t.stores.users
      = .ok users' := modifyNamed_ok hr rfl
  simp only [Vault.perform, Stores.perform, mutate_settled hsettled, happly]

/-- What a verification of `password` answers. -/
def Verdict {α : Type} (i : Nat) (password : String) (answer : Except AuthError α) (s : Vault) :
    Prop :=
  ∀ new, s.seen i = some new → (answer.isOk ↔ password = new)

omit [Sha256] in
/-- After a look at `r`, which `password` matches, a verification accepts. -/
theorem accepted {α : Type} {password : String} {user : α}
    (hphc : ∀ new, t.seen i = some new → ∃ salt, r.phc = hasher.hash new salt)
    (hverify : hasher.verify password r.phc = true) : Verdict i password (.ok user) t := by
  intro new hseen
  obtain ⟨salt, hr⟩ := hphc new hseen
  rw [hr, hasher.verify_hash, decide_eq_true_iff] at hverify
  exact ⟨fun _ => hverify, fun _ => rfl⟩

/-- The rest of a verification whose password matched the record `r` it looked at. -/
theorem verified_holds {password salt now : String} (hname : r.name = name)
    (hsome : (recordOf name s.stores.users).isSome)
    (hphc : ∀ new, s.seen i = some new → ∃ salt, r.phc = hasher.hash new salt)
    (hreadable : ∀ text, r.totpSecret ≠ some (.unreadable text))
    (hverify : hasher.verify password r.phc = true) :
    Lib.Holds (service hasher name) (discipline hasher name) i (Verdict i password)
      (do
        if hasher.needsRehash r.phc then
          attempt (.mutate (.rehash r.name r.phc (hasher.hash password salt) now))
        verified r).run s := by
  subst hname
  have hrest : ∀ t : Vault, t.seen i = s.seen i → Lib.Holds (service hasher r.name)
      (discipline hasher r.name) i (Verdict i password) (verified r).run t := by
    intro t hseen
    have hphc' : ∀ new, t.seen i = some new → ∃ salt, r.phc = hasher.hash new salt := by
      rw [hseen]
      exact hphc
    exact holds_verified (fun _ _ => accepted hphc' hverify)
      (fun text htotp => absurd htotp (hreadable text))
  by_cases hrehash : hasher.needsRehash r.phc = true
  · rw [if_pos hrehash]
    refine Lib.Holds.attempt ?_
    intro t hinv hrely hmay
    obtain ⟨r₂, hr₂⟩ := Option.isSome_iff_exists.mp (hrely.2 hsome)
    have hok := rehash_ok (i := i) hr₂ hinv.settled r.phc (hasher.hash password salt) now
    refine ⟨mutate_keeps (.rehash hverify) hinv hmay, ?_, ?_⟩
    · intro _ _
      exact hrest _ ((congrFun (seen_mutate _) i).trans hrely.1)
    · intro err herror
      rw [show (service hasher r.name).perform = Vault.perform from rfl, hok] at herror
      cases herror
  · rw [if_neg hrehash]
    exact hrest s rfl

theorem verifyPassword_holds (password salt now : String) :
    Lib.Holds (service hasher name) (discipline hasher name) i (Verdict i password)
      (verifyPassword hasher name password salt now).run s := by
  unfold verifyPassword
  refine Lib.Holds.attempt ?_
  intro t hinv _ _
  have hrefresh : (service hasher name).perform i .refresh t = (.ok (), t) :=
    perform_refresh hinv.settled
  rw [hrefresh]
  refine ⟨keeps_self hinv, fun _ _ => ?_, nofun⟩
  refine Lib.Holds.perform ?_
  intro u hinv _ _
  have hlook : (service hasher name).perform i (.record name) u
      = (recordOf name u.stores.users, { u with seen := Function.update u.seen i u.final }) :=
    perform_record name
  refine ⟨record_keeps name hinv, ?_⟩
  rw [hlook]
  simp only []
  cases hr : recordOf name u.stores.users with
  | none =>
    intro new hseen
    simp only [Function.update_self] at hseen
    obtain ⟨r, -, hr', -⟩ := hinv.final new hseen
    rw [hr] at hr'
    cases hr'
  | some r =>
    have hphc : ∀ new, (Function.update u.seen i u.final) i = some new →
        ∃ salt, r.phc = hasher.hash new salt := by
      intro new hseen
      rw [Function.update_self] at hseen
      obtain ⟨r', salt', hr', hphc⟩ := hinv.final new hseen
      obtain rfl := Option.some.inj (hr.symm.trans hr')
      exact ⟨salt', hphc⟩
    by_cases hverify : hasher.verify password r.phc = true
    · simp only [hverify, Bool.not_true, Bool.false_eq_true, if_false]
      refine verified_holds ?_ ?_ hphc (fun text => hinv.readable r text hr) hverify
      · exact recordOf_name hr
      · simp only [hr, Option.isSome_some]
    · simp only [Bool.not_eq_true] at hverify
      simp only [hverify, Bool.not_false, if_true]
      intro new hseen
      obtain ⟨salt', hr'⟩ := hphc new hseen
      rw [hr', hasher.verify_hash, decide_eq_false_iff_not] at hverify
      exact ⟨fun hok => (nomatch hok), fun heq => absurd heq hverify⟩

theorem program_holds (call : Call) (s : Vault) :
    Lib.Holds (service hasher name) (discipline hasher name) i (Judges i call)
      (program hasher name call) s := by
  cases call with
  | verifyPassword password salt now =>
    refine Lib.Holds.seq ((verifyPassword_holds password salt now).weaken ?_)
    intro answer t hverdict
    cases answer with
    | ok | error => exact hverdict
  | setPassword password salt now => exact change_holds .setPassword (fun _ _ => trivial)
  | setTotp secret now => exact change_holds .setTotp (fun _ _ => trivial)
  | noteTotpCounter secret counter now => exact change_holds .noteTotpCounter (fun _ _ => trivial)

theorem kept : Kept (service hasher name) (discipline hasher name) Judges where
  refl _ _ := ⟨rfl, id⟩
  trans _ _ _ _ h h' := ⟨h'.1.trans h.1, fun hsome => h'.2 (h.2 hsome)⟩
  idle _ _ _ _ _ := trivial
  program _ call s _ _ _ := program_holds call s
  outside w := nomatch w

/-- The vault before the calls. -/
def opened (users : List UserRecord) (sessions : SessionStore) : Vault :=
  { stores := { file := users, users, sessions }, final := none, seen := fun _ => none }

/-- The moves of any number of calls in which every rehash finds the hash it verified
still stored. -/
abbrev Calls (hasher : Hasher) (name : String) :=
  Run (Guarded (discipline hasher name).Permits (Steps (service hasher name).step))

/-- A verification that looked at the records after `set_password` and before the next one
accepts exactly the password that was set. -/
theorem password_final {users : List UserRecord} {sessions : SessionStore}
    (hreadable : ∀ r text, recordOf name users = some r → r.totpSecret ≠ some (.unreadable text))
    {moves : List (Move Call Empty)} {p : Pool StoreOp Vault Call (Except AuthError (Option VerifiedUser))}
    (hrun : Calls hasher name ⟨opened users sessions, []⟩ moves p)
    {password salt now : String} {answer : Except AuthError (Option VerifiedUser)}
    (hthread : p.threads[i]? = some ⟨.verifyPassword password salt now, .ret answer⟩)
    {new : String} (hseen : p.shared.seen i = some new) : answer.isOk ↔ password = new := by
  have hstart : Sound hasher name (opened users sessions) :=
    ⟨rfl, hreadable, nofun⟩
  have horderly := (Orderly.start hstart (fun _ => trivial)).run kept hrun
  obtain ⟨s, hrely, hjudges⟩ := horderly.returned hthread
  exact hjudges new (hrely.1.symm.trans hseen)

/-- A hasher whose hashes say which parameters they were made with. -/
def versioned : Hasher where
  hash password _ := String.ofList ('2' :: password.toList)
  verify password phc := phc.toList.tail = password.toList
  needsRehash phc := phc.toList.head? != some '2'
  verify_hash password other salt := by
    simp only [String.toList_ofList, List.tail_cons, String.toList_inj, eq_comm]

def alice : UserRecord :=
  { name := "alice", phc := "1alpha", totpSecret := none, totpLastCounter := none
    mustChangePassword := false, created := "t0", updated := "t0" }

def noSessions : SessionStore := SessionStore.withCapacity 1 1 1

/-- A verification of the old password looks, the password is set, the verification writes
its rehash, and the new and the old password are verified. -/
def rehashRace : List (Move Call Empty) :=
  [.begin (.verifyPassword "alpha" "s" "t1"), .turn 0, .turn 0,
    .begin (.setPassword "beta" "s" "t2"), .turn 1, .turn 0,
    .begin (.verifyPassword "beta" "s" "t3"), .turn 2, .turn 2,
    .begin (.verifyPassword "alpha" "s" "t4"), .turn 3, .turn 3]

end Calls

/-- The digest function of a table that is empty. -/
local instance : Sha256 := ⟨fun _ => ⟨""⟩⟩

theorem rehash_puts_old_password_back :
    ∃ p, Run (Steps (service versioned "alice").step) ⟨opened [alice] noSessions, []⟩ rehashRace p ∧
      p.shared.seen 2 = some "beta" ∧
      p.threads[2]? = some ⟨.verifyPassword "beta" "s" "t3", .ret (.error .invalidCredentials)⟩ ∧
      p.shared.seen 3 = some "beta" ∧
      p.threads[3]? = some ⟨.verifyPassword "alpha" "s" "t4", .ret (.ok (some
        { name := "alice", totp := none, totpLastCounter := none, mustChangePassword := false }))⟩ := by
  exact ⟨_, run_of_exec rfl, rfl, rfl, rfl, rfl⟩

/-- A verification rehashes, the password is set, and the new one is verified. -/
theorem password_final_after_rehash :
    ∃ p answer, p.threads[2]? = some ⟨.verifyPassword "beta" "s" "t3", .ret answer⟩ ∧
      Calls versioned "alice" ⟨opened [alice] noSessions, []⟩
        [.begin (.verifyPassword "alpha" "s" "t1"), .turn 0, .turn 0, .turn 0,
          .begin (.setPassword "beta" "s" "t2"), .turn 1,
          .begin (.verifyPassword "beta" "s" "t3"), .turn 2, .turn 2] p ∧
      (answer.isOk ↔ "beta" = "beta") := by
  have hrun : ∃ p, Calls versioned "alice" ⟨opened [alice] noSessions, []⟩
        [.begin (.verifyPassword "alpha" "s" "t1"), .turn 0, .turn 0, .turn 0,
          .begin (.setPassword "beta" "s" "t2"), .turn 1,
          .begin (.verifyPassword "beta" "s" "t3"), .turn 2, .turn 2] p ∧
      p.shared.seen 2 = some "beta" ∧
      ∃ answer, p.threads[2]? = some ⟨.verifyPassword "beta" "s" "t3", .ret answer⟩ := by
    refine ⟨_, .cons ⟨trivial, rfl⟩ (.cons ⟨trivial, rfl⟩ (.cons ⟨trivial, rfl⟩ (.cons ⟨?_, rfl⟩
      (.cons ⟨trivial, rfl⟩ (.cons ⟨trivial, rfl⟩ (.cons ⟨trivial, rfl⟩ (.cons ⟨trivial, rfl⟩
        (.cons ⟨trivial, rfl⟩ (.nil _))))))))), rfl, _, rfl⟩
    intro r hr
    cases hr
    rfl
  obtain ⟨p, hcalls, hseen, answer, hthread⟩ := hrun
  exact ⟨p, answer, hthread, hcalls,
    password_final (fun r text hr htext => by cases hr; cases htext) hcalls hthread hseen⟩

end Detent.Guarantees.PasswordFinality
