import Detent.Guarantees.AccountStores

/-!
# Codes of the second factor among other requests

`crates/detent-web/src/auth/totp.rs:141-198`, `crates/detent-web/src/auth/users.rs:505-539`
and the handlers that check a code: the key and the last counter a code is checked against
are those of a snapshot, and `note_totp_counter` compares the counter with the record as
it is by then, but not the key.
-/
namespace Detent.Guarantees.CodeReplay
open Lib Source Source.Sessions Source.Credentials Source.Accounts UserRecords AccountStores
open Fallible (Uses uses_bind uses_perform)
open Function (update update_of_ne update_self)

section Requests

variable [Sha256] {hasher : Hasher} {codeAt : CodeAt} {totpRequired : Bool} {name : String}

/-- The key stored for an account. -/
def storedKey (name : String) (users : List UserRecord) : Option StoredKey :=
  (recordOf name users).bind (·.totpSecret)

/-- The counter stored for an account. -/
def storedCounter (name : String) (users : List UserRecord) : Option Nat :=
  (recordOf name users).bind (·.totpLastCounter)

/-- A counter that was recorded, the key of its code and the key stored at that time. -/
structure Acceptance where
  secret : TotpSecret
  counter : Nat
  stored : Option StoredKey
  deriving DecidableEq

/-- The stores; how often the account's key was set, every key stored so far and every
counter recorded; and of each thread the key it last saw stored or stored itself, with
how often the key had been set by then. -/
structure Ledger where
  stores : Stores
  changes : Nat
  looked : Nat → Option (Nat × Option StoredKey)
  used : List TotpSecret
  accepted : List Acceptance

/-- What is remembered of an acquisition of thread `i`. -/
def Ledger.remember (name : String) (s : Ledger) (i : Nat) : {β : Type} → StoreOp β → β → Ledger
  | _, .record n, _ =>
    if n = name then
      { s with looked := update s.looked i (some (s.changes, storedKey name s.stores.users)) }
    else s
  | _, .mutate (.setTotp n secret _), .ok _ =>
    if n = name then
      { s with
        changes := s.changes + 1
        looked := update s.looked i (some (s.changes + 1, secret.map .key))
        used := s.used ++ secret.toList }
    else s
  | _, .mutate (.noteTotpCounter n secret counter _), .ok _ =>
    if n = name then
      { s with accepted := s.accepted ++ [⟨secret, counter, storedKey name s.stores.users⟩] }
    else s
  | _, _, _ => s

def Ledger.perform (name : String) (i : Nat) {β : Type} (op : StoreOp β) (s : Ledger) : β × Ledger :=
  let done := s.stores.perform op
  (done.1, Ledger.remember name { s with stores := done.2 } i op done.1)

/-- The requests of one process; the ledger is about the account `name`. -/
def service (hasher : Hasher) (codeAt : CodeAt) (totpRequired : Bool) (name : String) :
    Service StoreOp Ledger Accounts.Request (Except AuthError (Option Secret)) Empty where
  program := Accounts.Request.program hasher codeAt totpRequired
  perform := Ledger.perform name
  outside w := nomatch w

/-- The counters recorded with codes of one key, in order. -/
def countersOf (secret : TotpSecret) (accepted : List Acceptance) : List Nat :=
  (accepted.filter (fun e => e.secret = secret)).map (·.counter)

/-- Every counter recorded is one of a key that was stored, each key's counters increase,
and none of the stored key is later than the stored one. -/
structure Sound (name : String) (s : Ledger) : Prop where
  settled : s.stores.file = s.stores.users
  past : ∀ i n k, s.looked i = some (n, k) → n ≤ s.changes
  current : ∀ i k, s.looked i = some (s.changes, k) → storedKey name s.stores.users = k
  used : ∀ secret, storedKey name s.stores.users = some (.key secret) → secret ∈ s.used
  recorded : ∀ e ∈ s.accepted, e.secret ∈ s.used
  stored : ∀ e ∈ s.accepted, e.stored = some (.key e.secret)
  last : ∀ e ∈ s.accepted, storedKey name s.stores.users = some (.key e.secret) →
    ∃ last, storedCounter name s.stores.users = some last ∧ e.counter ≤ last
  increasing : ∀ secret, (countersOf secret s.accepted).Pairwise (· < ·)

/-- The account's key is not set between a request's look at it and the record of its
counter, and no key is stored that was stored before. -/
def Undisturbed (name : String) (i : Nat) (s : Ledger) : {β : Type} → StoreOp β → Prop
  | _, .mutate (.setTotp n (some secret) _) => n = name → secret ∉ s.used
  | _, .mutate (.noteTotpCounter n _ _ _) => n = name → ∃ k, s.looked i = some (s.changes, k)
  | _, _ => True

def discipline (name : String) : Discipline StoreOp Ledger Accounts.Request Empty where
  inv := Sound name
  idle _ _ := True
  rely i s t := t.looked i = s.looked i
  may i _ op s := Undisturbed name i s op
  mayBegin _ _ := True
  mayOutside _ _ := True

/-! ## The changes -/

/-- The changes of the requests. A counter is of the key the thread saw. -/
inductive Formed (name : String) (i : Nat) (s : Ledger) : UserChange → Prop
  | rehash {n checked phc now : String} : Formed name i s (.rehash n checked phc now)
  | setPassword {n password phc now : String} : Formed name i s (.setPassword n password phc now)
  | setTotp {n : String} {secret : Option TotpSecret} {now : String} :
      Formed name i s (.setTotp n secret now)
  | noteTotpCounter {n : String} {secret : TotpSecret} {counter : Nat} {now : String}
      (h : n = name → ∃ m, s.looked i = some (m, some (.key secret))) :
      Formed name i s (.noteTotpCounter n secret counter now)

variable {i : Nat} {s t : Ledger}

omit [Sha256] in
theorem keeps_self (hinv : Sound name t) : Lib.Keeps (discipline name) i t t := ⟨hinv, fun _ _ => rfl⟩

theorem perform_refresh (h : t.stores.file = t.stores.users) :
    Ledger.perform name i .refresh t = (.ok (), t) := by
  simp only [Ledger.perform, Stores.perform, refresh_settled h, Ledger.remember]

omit [Sha256] in
/-- What the ledger says is about the records of the account and its own history. -/
theorem Sound.congr {s t : Ledger} (h : Sound name s) (hsettled : t.stores.file = t.stores.users)
    (hkey : storedKey name t.stores.users = storedKey name s.stores.users)
    (hcounter : storedCounter name t.stores.users = storedCounter name s.stores.users)
    (hchanges : t.changes = s.changes) (hlooked : t.looked = s.looked) (hused : t.used = s.used)
    (haccepted : t.accepted = s.accepted) : Sound name t := by
  constructor
  · exact hsettled
  · rw [hchanges, hlooked]; exact h.past
  · rw [hchanges, hlooked, hkey]; exact h.current
  · rw [hkey, hused]; exact h.used
  · rw [haccepted, hused]; exact h.recorded
  · rw [haccepted]; exact h.stored
  · rw [haccepted, hkey, hcounter]; exact h.last
  · rw [haccepted]; exact h.increasing

theorem record_keeps (n : String) (hinv : Sound name t) :
    Lib.Keeps (discipline name) i t (Ledger.perform name i (.record n) t).2 := by
  simp only [Ledger.perform, Stores.perform, Ledger.remember]
  by_cases hn : n = name
  · rw [if_pos hn]
    refine ⟨⟨hinv.settled, ?_, ?_, hinv.used, hinv.recorded, hinv.stored, hinv.last, hinv.increasing⟩, ?_⟩
    · intro j m k hlooked
      simp only at hlooked ⊢
      by_cases hj : j = i
      · subst hj
        rw [update_self, Option.some.injEq, Prod.mk.injEq] at hlooked
        omega
      · rw [update_of_ne hj] at hlooked
        exact hinv.past j m k hlooked
    · intro j k hlooked
      simp only at hlooked ⊢
      by_cases hj : j = i
      · subst hj
        rw [update_self, Option.some.injEq, Prod.mk.injEq] at hlooked
        exact hlooked.2
      · rw [update_of_ne hj] at hlooked
        exact hinv.current j k hlooked
    · intro j hj
      exact update_of_ne hj _ _
  · rw [if_neg hn]
    exact keeps_self hinv

section Records

omit [Sha256]

variable {users users' : List UserRecord} {n now phc checked password : String}
  {secret : TotpSecret} {key : Option TotpSecret} {counter : Nat}

/-- A change of another account changes neither key nor counter. -/
theorem other_stored {change : UserChange} (h : change.apply users = .ok users')
    (hother : name ≠ account change) :
    storedKey name users' = storedKey name users ∧ storedCounter name users' = storedCounter name users := by
  unfold storedKey storedCounter
  rw [apply_other h hother]
  exact ⟨rfl, rfl⟩

theorem kept_stored {change : UserChange} (h : change.apply users = .ok users')
    (hnone : onRecord change none = .error .unknownUser)
    (hkept : ∀ r, ∃ r', onRecord change (some r) = .ok (some r') ∧ r'.totpSecret = r.totpSecret ∧
      r'.totpLastCounter = r.totpLastCounter) :
    storedKey name users' = storedKey name users ∧ storedCounter name users' = storedCounter name users := by
  by_cases hname : name = account change
  · subst hname
    obtain ⟨r, hr, hon⟩ := apply_own h hnone
    obtain ⟨r', hr', hkey, hcounter⟩ := hkept r
    unfold storedKey storedCounter
    rw [hr, Except.ok.inj (hon.symm.trans hr')]
    exact ⟨hkey, hcounter⟩
  · exact other_stored h hname

theorem setTotp_stored (h : (UserChange.setTotp name key now).apply users = .ok users') :
    storedKey name users' = key.map .key ∧ storedCounter name users' = none := by
  obtain ⟨r, -, hon⟩ := apply_own h rfl
  simp only [account] at hon
  unfold storedKey storedCounter
  rw [← Except.ok.inj hon]
  exact ⟨rfl, rfl⟩

theorem noteTotpCounter_stored
    (h : (UserChange.noteTotpCounter name secret counter now).apply users = .ok users') :
    storedKey name users' = storedKey name users ∧ storedCounter name users' = some counter ∧
      ∀ last, storedCounter name users = some last → last < counter := by
  obtain ⟨r, hr, hon⟩ := apply_own h rfl
  simp only [account, onRecord] at hr hon
  unfold storedKey storedCounter
  split at hon
  · cases hon
  · rename_i hlater
    rw [hr, ← Except.ok.inj hon]
    refine ⟨rfl, rfl, ?_⟩
    intro last hlast
    simp only [Option.bind_some] at hlast
    simpa [hlast] using hlater

end Records

/-! ## What a change leaves behind -/

/-- The stores after a change. -/
def Ledger.stored (s : Ledger) (users : List UserRecord) : Ledger :=
  { s with stores := { s.stores with file := users, users } }

variable {users' : List UserRecord}

omit [Sha256] in
/-- A change that leaves key and counter alone. -/
theorem plain_keeps (hinv : Sound name t)
    (hstored : storedKey name users' = storedKey name t.stores.users ∧
      storedCounter name users' = storedCounter name t.stores.users) :
    Lib.Keeps (discipline name) i t (t.stored users') :=
  ⟨hinv.congr rfl hstored.1 hstored.2 rfl rfl rfl rfl, fun _ _ => rfl⟩

omit [Sha256] in
/-- A key that was not stored before is stored, or the key is cleared. -/
theorem setTotp_keeps {secret : Option TotpSecret} {now : String} (hinv : Sound name t)
    (hmay : Undisturbed name i t (.mutate (.setTotp name secret now)))
    (happly : (UserChange.setTotp name secret now).apply t.stores.users = .ok users') :
    Lib.Keeps (discipline name) i t (Ledger.remember name (t.stored users') i
      (.mutate (.setTotp name secret now)) (.ok ())) := by
  obtain ⟨hkey, hcounter⟩ := setTotp_stored happly
  simp only [Ledger.remember, if_true]
  refine ⟨⟨rfl, ?_, ?_, ?_, ?_, hinv.stored, ?_, hinv.increasing⟩, ?_⟩
  · intro j n k hlooked
    simp only at hlooked ⊢
    by_cases hj : j = i
    · subst hj
      rw [update_self, Option.some.injEq, Prod.mk.injEq] at hlooked
      exact Nat.le_of_eq hlooked.1.symm
    · rw [update_of_ne hj] at hlooked
      exact Nat.le_succ_of_le (hinv.past j n k hlooked)
  · intro j k hlooked
    simp only at hlooked ⊢
    by_cases hj : j = i
    · subst hj
      rw [update_self, Option.some.injEq, Prod.mk.injEq] at hlooked
      exact hkey.trans hlooked.2
    · rw [update_of_ne hj] at hlooked
      exact absurd (hinv.past j _ k hlooked) (Nat.not_succ_le_self _)
  · intro new hnew
    have hsecret := hkey.symm.trans hnew
    cases secret with
    | none => cases hsecret
    | some old =>
      cases hsecret
      exact List.mem_append_right _ (List.mem_singleton.mpr rfl)
  · intro e he
    exact List.mem_append_left _ (hinv.recorded e he)
  · -- no counter was recorded with a key that is stored for the first time
    intro e he hstored
    have hsecret := hkey.symm.trans hstored
    cases secret with
    | none => cases hsecret
    | some old =>
      cases hsecret
      exact absurd (hinv.recorded e he) (hmay rfl)
  · intro j hj
    exact update_of_ne hj _ _

omit [Sha256] in
theorem countersOf_append (secret : TotpSecret) (accepted : List Acceptance) (e : Acceptance) :
    countersOf secret (accepted ++ [e])
      = countersOf secret accepted ++ if e.secret = secret then [e.counter] else [] := by
  unfold countersOf
  rw [List.filter_append, List.map_append]
  by_cases h : e.secret = secret <;> simp [h]

omit [Sha256] in
theorem noteTotpCounter_keeps {secret : TotpSecret} {counter : Nat} {now : String}
    (hinv : Sound name t) (hkey : storedKey name t.stores.users = some (.key secret))
    (happly : (UserChange.noteTotpCounter name secret counter now).apply t.stores.users = .ok users') :
    Lib.Keeps (discipline name) i t (Ledger.remember name (t.stored users') i
      (.mutate (.noteTotpCounter name secret counter now)) (.ok ())) := by
  obtain ⟨hsame, hcounter, hlater⟩ := noteTotpCounter_stored happly
  have hkey' : storedKey name users' = some (.key secret) := hsame.trans hkey
  have hearlier : ∀ e ∈ t.accepted, e.secret = secret → e.counter < counter := by
    intro e he hsecret
    obtain ⟨last, hlast, hle⟩ := hinv.last e he (by rw [hkey, hsecret])
    exact Nat.lt_of_le_of_lt hle (hlater last hlast)
  simp only [Ledger.remember, if_true]
  refine ⟨⟨rfl, hinv.past, ?_, ?_, ?_, ?_, ?_, ?_⟩, fun _ _ => rfl⟩
  · intro j k hlooked
    exact hsame.trans (hinv.current j k hlooked)
  · intro new hnew
    exact hinv.used new (hsame.symm.trans hnew)
  · intro e he
    rcases List.mem_append.mp he with he | he
    · exact hinv.recorded e he
    · obtain rfl := List.mem_singleton.mp he
      exact hinv.used secret hkey
  · intro e he
    rcases List.mem_append.mp he with he | he
    · exact hinv.stored e he
    · obtain rfl := List.mem_singleton.mp he
      exact hkey'
  · intro e he hstored
    refine ⟨counter, hcounter, ?_⟩
    have hsecret : e.secret = secret := by
      have hsome := hkey'.symm.trans hstored
      simpa using hsome.symm
    rcases List.mem_append.mp he with he | he
    · exact Nat.le_of_lt (hearlier e he hsecret)
    · obtain rfl := List.mem_singleton.mp he
      exact Nat.le_refl _
  · intro other
    rw [countersOf_append]
    by_cases hother : secret = other
    · subst hother
      rw [if_pos rfl, List.pairwise_append]
      refine ⟨hinv.increasing secret, List.pairwise_singleton _ _, ?_⟩
      intro a ha b hb
      obtain rfl := List.mem_singleton.mp hb
      unfold countersOf at ha
      obtain ⟨e, he, rfl⟩ := List.mem_map.mp ha
      obtain ⟨hmem, hsecret⟩ := List.mem_filter.mp he
      exact hearlier e hmem (of_decide_eq_true hsecret)
    · rw [if_neg hother, List.append_nil]
      exact hinv.increasing other

theorem mutate_keeps {change : UserChange} (h : Formed name i t change) (hinv : Sound name t)
    (hmay : Undisturbed name i t (.mutate change)) :
    Lib.Keeps (discipline name) i t (Ledger.perform name i (.mutate change) t).2 := by
  simp only [Ledger.perform, Stores.perform, mutate_settled hinv.settled]
  cases happly : change.apply t.stores.users with
  | error err =>
    have hsame : Ledger.remember name t i (.mutate change) (.error err) = t := by
      cases h <;> rfl
    rw [hsame]
    exact keeps_self hinv
  | ok users' =>
    change Lib.Keeps (discipline name) i t (Ledger.remember name (t.stored users') i (.mutate change) (.ok ()))
    cases h with
    | rehash | setPassword =>
      exact plain_keeps hinv (kept_stored happly rfl (fun _ => ⟨_, rfl, rfl, rfl⟩))
    | @setTotp n secret now =>
      by_cases hn : n = name
      · subst hn
        exact setTotp_keeps hinv hmay happly
      · have hsame : Ledger.remember name (t.stored users') i (.mutate (.setTotp n secret now)) (.ok ())
            = t.stored users' := if_neg hn
        rw [hsame]
        exact plain_keeps hinv (other_stored happly (fun h => hn h.symm))
    | @noteTotpCounter n secret counter now hlooked =>
      by_cases hn : n = name
      · subst hn
        obtain ⟨k, hk⟩ := hmay rfl
        obtain ⟨m, hm⟩ := hlooked rfl
        have hkey := hinv.current i k hk
        rw [hk, Option.some.injEq, Prod.mk.injEq] at hm
        exact noteTotpCounter_keeps hinv (hkey.trans hm.2) happly
      · have hsame : Ledger.remember name (t.stored users') i
            (.mutate (.noteTotpCounter n secret counter now)) (.ok ()) = t.stored users' := if_neg hn
        rw [hsame]
        exact plain_keeps hinv (other_stored happly (fun h => hn h.symm))

/-! ## The requests -/

/-- The acquisitions that record no counter. -/
def Plain : (β : Type) → StoreOp β → Prop
  | _, .mutate (.create ..) | _, .mutate (.remove _) | _, .mutate (.noteTotpCounter ..) => False
  | _, _ => True

omit [Sha256] in
theorem sessions_keeps (hinv : Sound name t) (sessions : SessionStore) :
    Lib.Keeps (discipline name) i t { t with stores := { t.stores with sessions } } :=
  ⟨hinv.congr hinv.settled rfl rfl rfl rfl rfl rfl, fun _ _ => rfl⟩

theorem plain_op_keeps {β : Type} (op : StoreOp β) (h : Plain β op) (hinv : Sound name t)
    (hmay : Undisturbed name i t op) :
    Lib.Keeps (discipline name) i t (Ledger.perform name i op t).2 := by
  cases op with
  | refresh =>
    rw [perform_refresh hinv.settled]
    exact keeps_self hinv
  | record n => exact record_keeps n hinv
  | mutate change =>
    refine mutate_keeps ?_ hinv hmay
    cases change with
    | create => cases h
    | rehash => exact .rehash
    | setPassword => exact .setPassword
    | setTotp => exact .setTotp
    | noteTotpCounter | remove => cases h
  | lookup | create | rotate | restrict | revokeSubject | stepUp | setPendingTotp | pendingTotp
  | takePendingTotp => exact sessions_keeps hinv _
  | respond => exact keeps_self hinv

/-- A part of a request that keeps the discipline. -/
abbrev Fine (hasher : Hasher) (codeAt : CodeAt) (totpRequired : Bool) (name : String) (i : Nat)
    {α : Type} (x : AccountM α) (s : Ledger) : Prop :=
  Lib.Holds (service hasher codeAt totpRequired name) (discipline name) i (fun _ _ => True) x.run s

theorem fine_of_uses {α : Type} {x : AccountM α} (h : Uses Plain x) :
    Fine hasher codeAt totpRequired name i x s :=
  Lib.Holds.of_uses h (fun _ op _ hplain hinv hmay => plain_op_keeps op hplain hinv hmay)

theorem Fine.bind {α β : Type} {x : AccountM α} {f : α → AccountM β}
    (hx : Fine hasher codeAt totpRequired name i x s)
    (hf : ∀ a t, Fine hasher codeAt totpRequired name i (f a) t) :
    Fine hasher codeAt totpRequired name i (x >>= f) s := by
  refine Lib.Holds.seq (hx.weaken ?_)
  intro r t _
  cases r with
  | ok a => exact hf a t
  | error err => trivial

theorem Fine.perform {α β : Type} {op : StoreOp β} {f : β → AccountM α} (hop : Plain β op)
    (hf : ∀ b t, Fine hasher codeAt totpRequired name i (f b) t) :
    Fine hasher codeAt totpRequired name i (Fallible.perform op >>= f) s :=
  (fine_of_uses (uses_perform hop)).bind hf

/-- What is known of the key of a user whose password was verified by thread `i`. -/
def Knows (name : String) (i : Nat) (n : String) (user : VerifiedUser) (t : Ledger) : Prop :=
  user.name = n ∧ ∀ secret, n = name → user.totp = some secret →
    ∃ m, t.looked i = some (m, some (.key secret))

theorem looked_rehash (n checked phc now : String) :
    (Ledger.perform name i (.mutate (.rehash n checked phc now)) t).2.looked = t.looked := by
  simp only [Ledger.perform]
  generalize (t.stores.perform (.mutate (.rehash n checked phc now))).1 = answer
  cases answer <;> rfl

theorem looked_record (n : String) (h : n = name) :
    (Ledger.perform name i (.record n) t).2.looked i
      = some (t.changes, storedKey name t.stores.users) := by
  subst h
  simp only [Ledger.perform, Stores.perform, Ledger.remember, if_true, update_self]

theorem verified_known {n : String} {r : UserRecord} (hname : r.name = n)
    (hlooked : n = name → ∃ m, t.looked i = some (m, r.totpSecret)) :
    Lib.Holds (service hasher codeAt totpRequired name) (discipline name) i
      (fun answer t => ∀ user, answer = .ok user → Knows name i n user t)
      (verified r).run t := by
  refine holds_verified (fun totp htotp => ?_) nofun
  rintro user ⟨⟩
  refine ⟨hname, fun secret hn hsecret => ?_⟩
  obtain rfl : totp = some secret := hsecret
  rw [← show r.totpSecret = some (.key secret) from htotp]
  exact hlooked hn

theorem verifyPassword_holds (n password salt now : String) :
    Lib.Holds (service hasher codeAt totpRequired name) (discipline name) i
      (fun answer t => ∀ user, answer = .ok user → Knows name i n user t)
      (verifyPassword hasher n password salt now).run s := by
  unfold verifyPassword
  refine Lib.Holds.attempt ?_
  intro t hinv _ hmay
  refine ⟨plain_op_keeps .refresh trivial hinv hmay, fun _ _ => ?_, nofun⟩
  refine Lib.Holds.perform ?_
  intro u hinv _ hmay
  refine ⟨record_keeps n hinv, ?_⟩
  have hlook : ((service hasher codeAt totpRequired name).perform i (.record n) u).1
      = recordOf n u.stores.users := rfl
  rw [hlook]
  cases hr : recordOf n u.stores.users with
  | none => exact nofun
  | some r =>
    have hlooked : n = name → ∃ m, (Ledger.perform name i (.record n) u).2.looked i
        = some (m, r.totpSecret) := by
      intro hn
      refine ⟨u.changes, (looked_record n hn).trans ?_⟩
      rw [storedKey, ← hn, hr]
      rfl
    simp only []
    by_cases hverify : hasher.verify password r.phc = true
    · simp only [hverify, Bool.not_true, Bool.false_eq_true, if_false]
      by_cases hrehash : hasher.needsRehash r.phc = true
      · rw [if_pos hrehash]
        refine Lib.Holds.attempt ?_
        intro w hinv hrely hmay
        refine ⟨mutate_keeps .rehash hinv hmay, fun _ _ => ?_, nofun⟩
        refine verified_known (recordOf_name hr) ?_
        intro hn
        obtain ⟨m, hm⟩ := hlooked hn
        exact ⟨m, (congrFun (looked_rehash ..) i).trans (hrely.trans hm)⟩
      · rw [if_neg hrehash]
        exact verified_known (recordOf_name hr) hlooked
    · simp only [Bool.not_eq_true] at hverify
      simp only [hverify, Bool.not_false, if_true]
      exact nofun

section Handlers

variable {ambient : Ambient}

theorem note_fine {α : Type} {n now : String} {secret : TotpSecret} {counter : Nat}
    {f : Unit → AccountM α} (hlooked : n = name → ∃ m, s.looked i = some (m, some (.key secret)))
    (hf : ∀ t, Fine hasher codeAt totpRequired name i (f ()) t) :
    Fine hasher codeAt totpRequired name i (noteTotpCounter n secret counter now >>= f) s := by
  refine Lib.Holds.attempt ?_
  intro t hinv hrely hmay
  refine ⟨mutate_keeps (.noteTotpCounter fun hn => ?_) hinv hmay, fun _ _ => hf _, fun _ _ => trivial⟩
  obtain ⟨m, hm⟩ := hlooked hn
  exact ⟨m, hrely.trans hm⟩

theorem checkTotp_fine {n : String} {verified : VerifiedUser} {code : Option String}
    (hknows : Knows name i n verified s) :
    Fine hasher codeAt totpRequired name i (checkTotp codeAt totpRequired ambient verified code) s := by
  obtain ⟨hname, hkey⟩ := hknows
  unfold checkTotp
  cases htotp : verified.totp with
  | none => cases totpRequired <;> exact trivial
  | some secret =>
    cases code with
    | none => exact trivial
    | some code =>
      refine Lib.Holds.result (fun counter _ => ?_) (fun _ _ => trivial)
      refine note_fine (fun hn => ?_) (fun _ => trivial)
      exact hkey secret (hname.symm.trans hn) htotp

omit [Sha256] in
theorem callerOf_plain (presented : String) : Uses Plain (callerOf ambient presented) := by
  refine uses_bind (x := attempt .refresh) ⟨trivial, fun _ => trivial⟩ (fun _ => ?_)
  refine uses_bind (uses_perform trivial) (fun found => ?_)
  cases found <;> exact trivial

omit [Sha256] in
theorem writeCallerOf_plain (presented : String) :
    Uses Plain (writeCallerOf ambient presented) := by
  refine uses_bind (callerOf_plain presented) (fun session => ?_)
  split
  · exact trivial
  · split <;> exact trivial

omit [Sha256] in
theorem establish_plain (verified : VerifiedUser) (totpSatisfied : Bool) (presented : Option String) :
    Uses Plain (establish ambient verified totpSatisfied presented) := by
  cases presented with
  | none =>
    exact uses_bind (x := attempt (.create ..)) ⟨trivial, fun _ => trivial⟩ (fun _ => trivial)
  | some presented =>
    refine uses_bind (x := attempt (.rotate ..)) ⟨trivial, fun _ => trivial⟩ (fun rotated => ?_)
    cases rotated with
    | none =>
      exact uses_bind (x := attempt (.create ..)) ⟨trivial, fun _ => trivial⟩
        (fun _ => trivial)
    | some pair => exact trivial

omit [Sha256] in
theorem renewSession_plain (subject : String) (totpSatisfied : Bool) :
    Uses Plain (renewSession ambient subject totpSatisfied) := by
  refine uses_bind (uses_perform trivial) (fun _ => ?_)
  exact uses_bind ⟨trivial, fun _ => trivial⟩ (fun _ => trivial)

theorem login_fine (n password : String) (code presented : Option String) :
    Fine hasher codeAt totpRequired name i
      (login hasher codeAt totpRequired ambient n password code presented) s := by
  refine Lib.Holds.result (fun _ _ => ?_) (fun _ _ => trivial)
  refine Lib.Holds.seq ((verifyPassword_holds n password _ _).weaken ?_)
  rintro (err | verified) t hknows
  · trivial
  · refine (checkTotp_fine (hknows verified rfl)).bind (fun totpSatisfied u => ?_)
    refine (fine_of_uses (establish_plain verified totpSatisfied presented)).bind (fun id w => ?_)
    refine fine_of_uses ?_
    split
    · exact uses_bind (uses_perform trivial) (fun _ => trivial)
    · exact trivial

theorem changePassword_fine (presented current new salt : String) :
    Fine hasher codeAt totpRequired name i
      (changePassword hasher ambient presented current new salt) s := by
  refine (fine_of_uses (callerOf_plain presented)).bind (fun session t => ?_)
  refine Lib.Holds.result (fun _ _ => ?_) (fun _ _ => trivial)
  refine Lib.Holds.seq ((verifyPassword_holds session.subject current _ _).weaken ?_)
  rintro (err | verified) u _
  · trivial
  · refine fine_of_uses ?_
    split
    · exact trivial
    · exact uses_bind (x := setPassword ..) ⟨trivial, fun _ => trivial⟩
        (fun _ => renewSession_plain _ _)

theorem startEnrolment_fine (presented password : String) (secret : TotpSecret) :
    Fine hasher codeAt totpRequired name i
      (startEnrolment hasher ambient presented password secret) s := by
  refine (fine_of_uses (writeCallerOf_plain presented)).bind (fun session t => ?_)
  refine Lib.Holds.result (fun _ _ => ?_) (fun _ _ => trivial)
  refine Lib.Holds.seq ((verifyPassword_holds session.subject password _ _).weaken ?_)
  rintro (err | verified) u _
  · trivial
  · refine fine_of_uses ?_
    split
    · exact trivial
    · refine uses_bind (uses_perform trivial) (fun kept => ?_)
      cases kept <;> exact trivial

theorem looked_setTotp {n now : String} {secret : Option TotpSecret} {u : Unit} (hn : n = name)
    (h : (Ledger.perform name i (.mutate (.setTotp n secret now)) t).1 = .ok u) :
    ∃ m, (Ledger.perform name i (.mutate (.setTotp n secret now)) t).2.looked i
      = some (m, secret.map .key) := by
  unfold Ledger.perform at h ⊢
  simp only at h ⊢
  rw [h]
  simp only [Ledger.remember, if_pos hn, update_self]
  exact ⟨_, rfl⟩

theorem confirmEnrolment_fine (presented code : String) :
    Fine hasher codeAt totpRequired name i (confirmEnrolment codeAt ambient presented code) s := by
  refine (fine_of_uses (writeCallerOf_plain presented)).bind (fun session t => ?_)
  refine Lib.Holds.result (fun _ _ => ?_) (fun _ _ => trivial)
  have hrefresh : Uses Plain (attempt .refresh) := ⟨trivial, fun _ => trivial⟩
  refine (fine_of_uses hrefresh).bind (fun _ t => ?_)
  refine Fine.perform ?_ (fun record t => ?_)
  · trivial
  split
  · exact trivial
  · refine Fine.perform ?_ (fun pending t => ?_)
    · trivial
    cases pending with
    | none => exact trivial
    | some secret =>
      refine Lib.Holds.result (fun counter _ => ?_) (fun _ _ => trivial)
      refine Fine.perform ?_ (fun taken t => ?_)
      · trivial
      cases taken with
      | false => exact trivial
      | true =>
        refine Lib.Holds.attempt ?_
        intro u hinv _ hmay
        refine ⟨mutate_keeps .setTotp hinv hmay, fun _ hok => ?_, fun _ _ => trivial⟩
        refine note_fine (fun hn => looked_setTotp hn hok) (fun w => ?_)
        exact fine_of_uses (renewSession_plain _ _)

theorem turnOff_fine (presented password code : String) :
    Fine hasher codeAt totpRequired name i
      (turnOff hasher codeAt totpRequired ambient presented password code) s := by
  refine (fine_of_uses (writeCallerOf_plain presented)).bind (fun session t => ?_)
  refine Lib.Holds.result (fun _ _ => ?_) (fun _ _ => trivial)
  split
  · exact trivial
  · refine Lib.Holds.seq ((verifyPassword_holds session.subject password _ _).weaken ?_)
    rintro (err | verified) u hknows
    · trivial
    · obtain ⟨-, hkey⟩ := hknows verified rfl
      simp only []
      cases htotp : verified.totp with
      | none => exact trivial
      | some secret =>
        refine Lib.Holds.result (fun counter _ => ?_) (fun _ _ => trivial)
        refine note_fine (fun hn => hkey secret hn htotp) (fun w => ?_)
        refine fine_of_uses ?_
        exact uses_bind (x := setTotp ..) ⟨trivial, fun _ => trivial⟩
          (fun _ => renewSession_plain _ _)

theorem reauth_fine (presented password : String) (code : Option String) :
    Fine hasher codeAt totpRequired name i
      (reauth hasher codeAt totpRequired ambient presented password code) s := by
  refine (fine_of_uses (writeCallerOf_plain presented)).bind (fun session t => ?_)
  refine Lib.Holds.result (fun _ _ => ?_) (fun _ _ => trivial)
  refine Lib.Holds.seq ((verifyPassword_holds session.subject password _ _).weaken ?_)
  rintro (err | verified) u hknows
  · trivial
  · refine (checkTotp_fine (hknows verified rfl)).bind (fun _ w => fine_of_uses ?_)
    refine uses_bind (uses_perform trivial) (fun stepped => ?_)
    cases stepped <;> exact trivial

end Handlers

theorem body_fine (request : Accounts.Request) :
    Fine hasher codeAt totpRequired name i (request.body hasher codeAt totpRequired) s := by
  cases request with
  | login n password code presented ambient =>
    exact (login_fine n password code presented).bind (fun _ _ => trivial)
  | changePassword presented current new salt ambient =>
    exact (changePassword_fine presented current new salt).bind (fun _ _ => trivial)
  | startEnrolment presented password secret ambient =>
    exact (startEnrolment_fine presented password secret).bind (fun _ _ => trivial)
  | confirmEnrolment presented code ambient =>
    exact (confirmEnrolment_fine presented code).bind (fun _ _ => trivial)
  | turnOff presented password code ambient =>
    exact (turnOff_fine presented password code).bind (fun _ _ => trivial)
  | reauth presented password code ambient =>
    exact (reauth_fine presented password code).bind (fun _ _ => trivial)

theorem kept : Kept (service hasher codeAt totpRequired name) (discipline name)
    (fun _ _ _ _ => True) where
  refl _ _ := rfl
  trans _ _ _ _ h h' := h'.trans h
  idle _ _ _ _ _ := trivial
  program i request s hinv _ _ := by
    refine Lib.Holds.bind ((body_fine request).weaken (fun answer t _ => ?_))
    intro u hinv _ _
    exact ⟨keeps_self hinv, trivial⟩
  outside w := nomatch w

/-- The ledger before the requests. -/
def opened (name : String) (users : List UserRecord) (sessions : SessionStore) : Ledger :=
  { stores := { file := users, users, sessions }, changes := 0, looked := fun _ => none
    used := match storedKey name users with
      | some (.key secret) => [secret]
      | _ => []
    accepted := [] }

omit [Sha256] in
theorem opened_sound (users : List UserRecord) (sessions : SessionStore) :
    Sound name (opened name users sessions) := by
  refine ⟨rfl, ?_, ?_, ?_, ?_, ?_, ?_, fun _ => List.Pairwise.nil⟩
  · nofun
  · intro i k hlooked
    cases hlooked
  · intro secret hstored
    change storedKey name users = _ at hstored
    simp only [opened, hstored, List.mem_singleton]
  all_goals
    nofun

/-- The moves of any number of requests in which the account's key is not set between a
look at it and the record of a counter, and no key is stored a second time. -/
abbrev Requests (hasher : Hasher) (codeAt : CodeAt) (totpRequired : Bool) (name : String) :=
  Run (Guarded (discipline name).Permits (Steps (service hasher codeAt totpRequired name).step))

/-- The counters recorded with codes of one key increase, and each was recorded while its
key was stored. -/
theorem codes_accepted_once {users : List UserRecord} {sessions : SessionStore}
    {moves : List (Move Accounts.Request Empty)}
    {p : Pool StoreOp Ledger Accounts.Request (Except AuthError (Option Secret))}
    (hrun : Requests hasher codeAt totpRequired name ⟨opened name users sessions, []⟩ moves p) :
    (∀ secret, (countersOf secret p.shared.accepted).Pairwise (· < ·)) ∧
      ∀ e ∈ p.shared.accepted, e.stored = some (.key e.secret) := by
  have horderly := (Orderly.start (opened_sound users sessions) (fun _ => trivial)).run kept hrun
  exact ⟨horderly.inv.increasing, horderly.inv.stored⟩

/-! ## A code of a cleared key -/

/-- A hasher that keeps the password. -/
def plainHasher : Hasher where
  hash password _ := password
  verify password phc := phc = password
  needsRehash _ := false
  verify_hash _ _ _ := by simp only [eq_comm]

/-- Codes that tell their counter. -/
def tally : CodeAt := fun _ counter => String.ofList (List.replicate counter 'i')

def sharedKey : TotpSecret := ⟨List.replicate 16 7, by decide⟩

def alice : UserRecord :=
  { name := "alice", phc := "alpha", totpSecret := some (.key sharedKey), totpLastCounter := none
    mustChangePassword := false, created := "t0", updated := "t0" }

def ambientAt60 (id : String) : Ambient :=
  { admitted := .ok (), salt := "s", nowText := "t1", unixSecs := 60, now := 0
    fresh := some ⟨id, "csrf", id⟩, freshAgain := some ⟨id, "csrf", id⟩ }

end Requests

/-- A hash that keeps its input apart. -/
local instance : Sha256 :=
  ⟨fun bytes => ⟨String.ofList (bytes.map (fun byte => Char.ofNat byte.toNat))⟩⟩

/-- A login looks at the key; another session's request uses the same code to clear the
key; then the login records the code. -/
def replayRace : List (Move Accounts.Request Empty) :=
  .begin (.login "alice" "alpha" (some "i") none (ambientAt60 "first")) :: List.replicate 5 (.turn 0) ++
    .begin (.login "alice" "alpha" (some "iii") none (ambientAt60 "second")) :: List.replicate 2 (.turn 1) ++
    .begin (.turnOff "first" "alpha" "iii" (ambientAt60 "third")) :: List.replicate 9 (.turn 2) ++
    List.replicate 3 (.turn 1)

/-- What a request answered, when it has answered. -/
def answerOf {α : Type} : Prog StoreOp α → Option α
  | .ret a => some a
  | .eff _ _ => none

def started : Pool StoreOp Ledger Accounts.Request (Except AuthError (Option Secret)) :=
  ⟨opened "alice" [alice] (SessionStore.withCapacity 10 10 10), []⟩

theorem code_accepted_twice :
    ∃ p, Run (Steps (service plainHasher tally false "alice").step) started replayRace p ∧
      p.shared.accepted = [⟨sharedKey, 1, some (.key sharedKey)⟩, ⟨sharedKey, 3, some (.key sharedKey)⟩,
        ⟨sharedKey, 3, none⟩] ∧
      p.threads.map (fun thread => answerOf thread.rest)
        = [some (.ok (some "first")), some (.ok (some "second")), some (.ok (some "third"))] := by
  have hends : (exec (service plainHasher tally false "alice").step started replayRace).map
      (fun p => (p.shared.accepted, p.threads.map (fun thread => answerOf thread.rest)))
        = some ([⟨sharedKey, 1, some (.key sharedKey)⟩, ⟨sharedKey, 3, some (.key sharedKey)⟩,
            ⟨sharedKey, 3, none⟩],
          [some (.ok (some "first")), some (.ok (some "second")), some (.ok (some "third"))]) := by
    decide +kernel
  obtain ⟨p, hexec, hp⟩ := Option.map_eq_some_iff.mp hends
  rw [Prod.mk.injEq] at hp
  exact ⟨p, run_of_exec hexec, hp.1, hp.2⟩

/-- Two logins that record the counters of their codes. -/
theorem codes_accepted_once_logins :
    ∃ p moves, Requests plainHasher tally false "alice" started moves p ∧
      countersOf sharedKey p.shared.accepted = [1, 3] ∧
      (∀ secret, (countersOf secret p.shared.accepted).Pairwise (· < ·)) ∧
      ∀ e ∈ p.shared.accepted, e.stored = some (.key e.secret) := by
  have hrun : ∃ p, Requests plainHasher tally false "alice" started
      [.begin (.login "alice" "alpha" (some "i") none (ambientAt60 "first")), .turn 0, .turn 0,
        .turn 0, .begin (.login "alice" "alpha" (some "iii") none (ambientAt60 "second")), .turn 1,
        .turn 1, .turn 1] p ∧
      countersOf sharedKey p.shared.accepted = [1, 3] :=
    ⟨_, .cons ⟨trivial, rfl⟩ (.cons ⟨trivial, rfl⟩ (.cons ⟨trivial, rfl⟩
      (.cons ⟨fun _ => ⟨_, rfl⟩, rfl⟩ (.cons ⟨trivial, rfl⟩ (.cons ⟨trivial, rfl⟩
        (.cons ⟨trivial, rfl⟩ (.cons ⟨fun _ => ⟨_, rfl⟩, rfl⟩ (.nil _)))))))), rfl⟩
  obtain ⟨p, hrequests, haccepted⟩ := hrun
  exact ⟨p, _, hrequests, haccepted, codes_accepted_once hrequests⟩

end Detent.Guarantees.CodeReplay
