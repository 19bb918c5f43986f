import Detent.Guarantees.AccountStores
import Detent.Guarantees.SessionEntries

/-!
# Sessions and the credentials they were established with

The handlers of `crates/detent-web/src/auth/routes.rs:486-663` and
`crates/detent-web/src/auth/enrolment.rs:383-502` verify credentials and create a session
in two steps, and `revoke_subject` and the refresh of
`crates/detent-web/src/auth/users.rs:365-409` end the sessions that are in the table at
that moment.
-/
namespace Detent.Guarantees.SessionOrigins
open Lib Source Source.Sessions Source.Credentials Source.Accounts UserRecords AccountStores
  SessionTable SessionEntries
open Function (update update_of_ne update_self)

section Requests

variable [Sha256] {hasher : Hasher} {codeAt : CodeAt} {totpRequired : Bool}

/-- The credentials a request stands on: those it verified last, with its own changes of
them; the credentials of the account by how often they had been replaced. -/
structure Standing where
  subject : String
  version : Nat
  credentials : String × Option StoredKey
  owes : Bool
  deriving DecidableEq

/-- The request that established a session, whether its credentials were the stored ones
when the session entered the table, and whether its record owed a password change. -/
structure Origin where
  thread : Nat
  current : Bool
  owes : Bool
  deriving DecidableEq

/-- The stores; how often the credentials of each account were replaced; what each request
stands on; the origin of the session under a key; and the session of a request that is to
be restricted and is not yet. -/
structure Hall where
  stores : Stores
  versions : String → Nat
  standing : Nat → Option Standing
  origin : Sha256Digest → Option Origin
  entering : Nat → Option Secret

def Hall.standingOf (s : Hall) (name : String) (r : UserRecord) : Standing :=
  { subject := name, version := s.versions name, credentials := credentials r
    owes := r.mustChangePassword }

/-- The state with other stores. -/
def Hall.settle (s : Hall) (stores : Stores) : Hall :=
  { s with
    stores
    versions := fun name =>
      s.versions name + if replaced s.stores.users stores.users name then 1 else 0 }

/-- What a request stands on after a change of its own: the record as it left it, unless
its credentials had been replaced before. -/
def Hall.carry (before after : Hall) (st : Standing) : Standing :=
  if st.version = before.versions st.subject ∧
      replaced before.stores.users before.stores.file st.subject = false then
    match find st.subject after.stores.users with
    | some r => after.standingOf st.subject r
    | none => st
  else st

/-- Thread `i` established the session `id` of `subject`. -/
def Hall.enter (s : Hall) (i : Nat) (subject : String) (id : Secret) : Hall :=
  let owes := (s.standing i).any (·.owes)
  { s with
    origin := update s.origin (keyOf id) (some
      { thread := i
        current := (s.standing i).any (fun st => st.subject = subject && st.version = s.versions subject)
        owes })
    entering := update s.entering i (if owes then some id else none) }

/-- What is remembered of an acquisition of thread `i` that led from `before` to `s`. -/
def Hall.remember (before s : Hall) (i : Nat) : {β : Type} → StoreOp β → β → Hall
  | _, .record name, found =>
    { s with standing := update s.standing i (found.map (s.standingOf name)) }
  | _, .mutate _, _ =>
    { s with standing := update s.standing i ((s.standing i).map (before.carry s)) }
  | _, .lookup _ _, some session =>
    { s with standing := update s.standing i
              ((find session.subject s.stores.users).map (s.standingOf session.subject)) }
  | _, .create subject _ _ _ _, .ok (id, _) => s.enter i subject id
  | _, .rotate _ subject _ _ _ _, .ok (some (id, _)) => s.enter i subject id
  | _, .restrict id, _ =>
    { s with entering := if s.entering i = some id then update s.entering i none
                         else s.entering }
  | _, .respond, _ => { s with standing := update s.standing i none }
  | _, _, _ => s

def Hall.perform (i : Nat) {β : Type} (op : StoreOp β) (s : Hall) : β × Hall :=
  let done := s.stores.perform op
  (done.1, s.remember (s.settle done.2) i op done.1)

/-- The requests of one process, and writes of `users.json` by another. -/
def service (hasher : Hasher) (codeAt : CodeAt) (totpRequired : Bool) :
    Service StoreOp Hall Accounts.Request (Except AuthError (Option Secret)) (List UserRecord) where
  program := Accounts.Request.program hasher codeAt totpRequired
  perform := Hall.perform
  outside file s := { s with stores := { s.stores with file } }

/-- Whether a password change is owed changes only together with the credentials. -/
def OwesAnew (users file : List UserRecord) : Prop :=
  ∀ name r r', recordOf name users = some r → recordOf name file = some r' →
    credentials r' = credentials r → r'.mustChangePassword = r.mustChangePassword

/-- Every request stands on the stored credentials, every session in the table was
established on them, and it is restricted if its record owes or owed a password change. -/
structure Sound (s : Hall) : Prop where
  file : OwesAnew s.stores.users s.stores.file
  keyed : WellKeyed s.stores.sessions.entries
  standing : ∀ i st, s.standing i = some st →
    ∃ r, recordOf st.subject s.stores.users = some r ∧ st = s.standingOf st.subject r
  table : ∀ x ∈ s.stores.sessions.entries, ∃ o r, s.origin x.1 = some o ∧
    recordOf x.2.session.subject s.stores.users = some r ∧ o.current = true ∧
      (o.owes = true ∨ r.mustChangePassword = true →
        x.2.session.mustChangePassword = true ∨ s.entering o.thread = some x.2.id)

/-- A refresh now would replace no credentials that a request stands on. -/
def Quiet (s : Hall) : Prop :=
  ∀ i st, s.standing i = some st → replaced s.stores.users s.stores.file st.subject = false

/-- No request's credentials are replaced by another request or by a refresh, and the id
of a session that is to be restricted is not presented before its request has answered. -/
def Undisturbed (i : Nat) (s : Hall) : {β : Type} → StoreOp β → Prop
  | _, .refresh => Quiet s
  | _, .mutate (.noteTotpCounter ..) => Quiet s
  | _, .mutate change =>
    Quiet s ∧ ∀ j st, j ≠ i → s.standing j = some st → st.subject ≠ account change
  | _, .lookup presented _ => ∀ j, s.entering j ≠ some presented
  | _, _ => True

def discipline : Discipline StoreOp Hall Accounts.Request (List UserRecord) where
  inv := Sound
  idle i s := s.standing i = none ∧ s.entering i = none
  rely i s t := t.standing i = s.standing i ∧ t.entering i = s.entering i
  may i _ op s := Undisturbed i s op
  mayBegin _ _ := True
  mayOutside file s := OwesAnew s.stores.users file

variable {i : Nat} {s t : Hall} {r : UserRecord} {subject : String} {β : Type}
  {p : Pool StoreOp Hall Accounts.Request (Except AuthError (Option Secret))}
  {before after : List UserRecord}

omit [Sha256] in
theorem not_replaced {name : String} (h : replaced before after name = false)
    (hr : recordOf name before = some r) :
    ∃ r', recordOf name after = some r' ∧ credentials r' = credentials r := by
  unfold replaced at h
  rw [find_eq, find_eq, hr] at h
  cases hr' : recordOf name after with
  | none =>
    rw [hr'] at h
    cases h
  | some r' =>
    rw [hr'] at h
    exact ⟨r', rfl, by simpa using h⟩

omit [Sha256] in
theorem replaced_false {name : String} {r' : UserRecord} (hr : recordOf name before = some r)
    (hr' : recordOf name after = some r') (h : credentials r' = credentials r) :
    replaced before after name = false := by
  unfold replaced
  rw [find_eq, find_eq, hr, hr']
  simp [h]

omit [Sha256] in
/-- A refresh ends the sessions of the accounts whose credentials it replaces. -/
theorem mem_revoked {p : String → Bool} {x : Sha256Digest × Entry} :
    ∀ (names : List String) (store : SessionStore),
      x ∈ (names.foldl (fun store name => if p name then store.revokeSubject name else store)
        store).entries →
      x ∈ store.entries ∧ ∀ name ∈ names, p name = true → x.2.session.subject ≠ name := by
  intro names
  induction names with
  | nil => exact fun store hx => ⟨hx, nofun⟩
  | cons name rest ih =>
    intro store hx
    obtain ⟨hmem, hrest⟩ := ih _ hx
    dsimp only at hmem
    by_cases hp : p name = true
    · rw [if_pos hp] at hmem
      have hkept := List.mem_filter.mp hmem
      exact ⟨hkept.1, List.forall_mem_cons.mpr ⟨fun _ => by simpa using hkept.2, hrest⟩⟩
    · rw [if_neg hp] at hmem
      exact ⟨hmem, List.forall_mem_cons.mpr ⟨fun hpo => absurd hpo hp, hrest⟩⟩

theorem wellKeyed_revoked {p : String → Bool} (names : List String) (store : SessionStore)
    (h : WellKeyed store.entries) :
    WellKeyed (names.foldl (fun store name => if p name then store.revokeSubject name else store)
      store).entries := by
  induction names generalizing store with
  | nil => exact h
  | cons name rest ih =>
    refine ih _ ?_
    dsimp only
    split
    · exact h.filter _
    · exact h

omit [Sha256] in
theorem name_mem {name : String} {users : List UserRecord} (h : recordOf name users = some r) :
    name ∈ users.map (·.name) := by
  refine List.mem_map.mpr ⟨r, List.mem_of_find?_eq_some h, recordOf_name h⟩

/-- What a refresh that replaces no credentials of a request leaves. -/
theorem Sound.refreshed (hinv : Sound t) (hquiet : Quiet t) : Sound (t.settle t.stores.refresh) := by
  refine ⟨?_, wellKeyed_revoked _ _ hinv.keyed, ?_, ?_⟩
  · intro name r r' hr hr' _
    obtain rfl := Option.some.inj (hr.symm.trans hr')
    rfl
  · intro j st hst
    obtain ⟨r, hr, hstanding⟩ := hinv.standing j st hst
    have hsame := hquiet j st hst
    obtain ⟨r', hr', hcredentials⟩ := not_replaced hsame hr
    refine ⟨r', hr', ?_⟩
    have howes := hinv.file _ r r' hr hr' hcredentials
    have hversion : (t.settle t.stores.refresh).versions st.subject = t.versions st.subject := by
      change t.versions st.subject + (if replaced t.stores.users t.stores.file st.subject then 1 else 0) = _
      rw [hsame]
      rfl
    rw [hstanding]
    simp only [Hall.standingOf] at hversion ⊢
    rw [hversion, hcredentials, howes]
  · intro x hx
    obtain ⟨hmem, hkept⟩ := mem_revoked _ _ hx
    obtain ⟨o, r, ho, hr, hcurrent, howes⟩ := hinv.table x hmem
    have hsame : replaced t.stores.users t.stores.file x.2.session.subject = false := by
      by_contra hreplaced
      exact hkept _ (name_mem hr) (Bool.not_eq_false _ ▸ hreplaced) rfl
    obtain ⟨r', hr', hcredentials⟩ := not_replaced hsame hr
    refine ⟨o, r', ho, hr', hcurrent, ?_⟩
    rw [hinv.file _ r r' hr hr' hcredentials]
    exact howes

theorem refresh_keeps (hinv : Sound t) (hquiet : Quiet t) :
    Lib.Keeps discipline i t (Hall.perform i .refresh t).2 :=
  ⟨hinv.refreshed hquiet, fun _ _ => ⟨rfl, rfl⟩⟩

/-! ## Changes -/

/-- The changes of the requests. -/
inductive Formed : UserChange → Prop
  | rehash {n checked phc now : String} : Formed (.rehash n checked phc now)
  | setPassword {n password phc now : String} : Formed (.setPassword n password phc now)
  | setTotp {n : String} {secret : Option TotpSecret} {now : String} : Formed (.setTotp n secret now)
  | noteTotpCounter {n : String} {secret : TotpSecret} {counter : Nat} {now : String} :
      Formed (.noteTotpCounter n secret counter now)

section Records

omit [Sha256]

variable {users users' : List UserRecord} {change : UserChange}

/-- The account whose password a change sets. -/
def resets : UserChange → Option String
  | .setPassword n .. => some n
  | _ => none

/-- A change of a request keeps every account, and an account owes a password change after
it as before, unless its password was set. -/
theorem Formed.record (h : Formed change) (happly : change.apply users = .ok users') {name : String}
    {r : UserRecord} (hr : recordOf name users = some r) :
    ∃ r', recordOf name users' = some r' ∧
      r'.mustChangePassword = if resets change = some name then false else r.mustChangePassword := by
  by_cases hname : name = account change
  · subst hname
    have hon := apply_onRecord happly
    rw [hr] at hon
    cases h with
    | rehash => exact ⟨_, (Except.ok.inj hon).symm, rfl⟩
    | setPassword => exact ⟨_, (Except.ok.inj hon).symm, (if_pos rfl).symm⟩
    | setTotp => exact ⟨_, (Except.ok.inj hon).symm, rfl⟩
    | noteTotpCounter =>
      simp only [onRecord] at hon
      split at hon
      · cases hon
      · exact ⟨_, (Except.ok.inj hon).symm, rfl⟩
  · have hresets : resets change ≠ some name := by
      intro heq
      cases h <;> simp only [resets, Option.some.injEq, reduceCtorEq] at heq
      exact hname heq.symm
    exact ⟨r, (apply_other happly hname).trans hr, (if_neg hresets).symm⟩

theorem note_record {n now name : String} {secret : TotpSecret} {counter : Nat}
    (happly : (UserChange.noteTotpCounter n secret counter now).apply users = .ok users')
    (hr : recordOf name users = some r) :
    ∃ r', recordOf name users' = some r' ∧ credentials r' = credentials r ∧
      r'.mustChangePassword = r.mustChangePassword := by
  by_cases hname : name = n
  · subst hname
    have hon := apply_onRecord happly
    simp only [account] at hon
    rw [hr] at hon
    simp only [onRecord] at hon
    split at hon
    · cases hon
    · exact ⟨_, (Except.ok.inj hon).symm, rfl, rfl⟩
  · exact ⟨r, (apply_other happly hname).trans hr, rfl, rfl⟩

end Records

omit [Sha256] in
theorem mutate_cases (s : Stores) (change : UserChange) :
    (∃ err, change.apply s.file = .error err ∧ s.mutate change = (.error err, s.refresh)) ∨
      ∃ users', change.apply s.file = .ok users' ∧
        s.mutate change = (.ok (), { s.refresh with file := users', users := users' }) := by
  unfold Stores.mutate
  cases h : change.apply s.refresh.users with
  | error err => exact .inl ⟨err, h, by simp only [h]⟩
  | ok users' => exact .inr ⟨users', h, by simp only [h]⟩

/-- What another request stands on survives a change that spares it. -/
theorem standing_mutate {change : UserChange} {users' : List UserRecord} (hinv : Sound t)
    (hmay : Undisturbed i t (.mutate change)) (hquiet : Quiet t)
    (happly : change.apply t.stores.file = .ok users') {j : Nat} (hj : j ≠ i) {st : Standing}
    (hst : t.standing j = some st) :
    ∃ r r', recordOf st.subject t.stores.users = some r ∧ st = t.standingOf st.subject r ∧
      recordOf st.subject users' = some r' ∧ credentials r' = credentials r ∧
      r'.mustChangePassword = r.mustChangePassword := by
  obtain ⟨r, hr, hstanding⟩ := hinv.standing j st hst
  obtain ⟨r', hr', hcredentials⟩ := not_replaced (hquiet j st hst) hr
  have howes := hinv.file _ r r' hr hr' hcredentials
  cases change with
  | noteTotpCounter n secret counter now =>
    obtain ⟨r₂, hr₂, hsame, howes₂⟩ := note_record happly hr'
    exact ⟨r, r₂, hr, hstanding, hr₂, hsame.trans hcredentials, howes₂.trans howes⟩
  | create | rehash | setPassword | setTotp | remove =>
    have hother := (apply_other happly (hmay.2 j st hj hst)).trans hr'
    exact ⟨r, r', hr, hstanding, hother, hcredentials, howes⟩

omit [Sha256] in
theorem Undisturbed.quiet {change : UserChange} (h : Undisturbed i t (.mutate change)) : Quiet t := by
  cases change with
  | noteTotpCounter => exact h
  | create | rehash | setPassword | setTotp | remove => exact h.1

/-- What the request itself stands on after its change is the record as it left it. -/
theorem carry_standing {after : Hall} (hinv : Sound t) (hquiet : Quiet t) {st : Standing}
    (hst : t.standing i = some st) (hr : recordOf st.subject after.stores.users = some r) :
    t.carry after st = after.standingOf st.subject r := by
  obtain ⟨r₀, -, hstanding⟩ := hinv.standing i st hst
  have hversion : st.version = t.versions st.subject := by
    rw [hstanding]
    rfl
  unfold Hall.carry
  rw [if_pos ⟨hversion, hquiet i st hst⟩, find_eq, hr]

theorem mutate_keeps {change : UserChange} (h : Formed change) (hinv : Sound t)
    (hmay : Undisturbed i t (.mutate change)) :
    Lib.Keeps discipline i t (Hall.perform i (.mutate change) t).2 := by
  have hquiet := hmay.quiet
  have hrefreshed := hinv.refreshed hquiet
  refine ⟨?_, fun j hj => ⟨update_of_ne hj _ _, rfl⟩⟩
  rcases mutate_cases t.stores change with ⟨err, happly, hmutate⟩ | ⟨users', happly, hmutate⟩
  · -- the change was refused; the refresh was made
    have hperform : (Hall.perform i (.mutate change) t).2 = { t.settle t.stores.refresh with
        standing := update t.standing i
          ((t.standing i).map (t.carry (t.settle t.stores.refresh))) } := by
      simp only [Hall.perform, Stores.perform, hmutate, Hall.remember]
      rfl
    rw [hperform]
    refine ⟨hrefreshed.file, hrefreshed.keyed, ?_, hrefreshed.table⟩
    intro j st hst
    by_cases hj : j = i
    · subst hj
      simp only [update_self, Option.map_eq_some_iff] at hst
      obtain ⟨st₀, hst₀, rfl⟩ := hst
      obtain ⟨r, hr, -⟩ := hrefreshed.standing j st₀ hst₀
      rw [carry_standing hinv hquiet hst₀ hr]
      exact ⟨r, hr, rfl⟩
    · simp only [update_of_ne hj] at hst
      exact hrefreshed.standing j st hst
  · have hperform : (Hall.perform i (.mutate change) t).2 =
        { t.settle { t.stores.refresh with file := users', users := users' } with
          standing := update t.standing i ((t.standing i).map
            (t.carry (t.settle { t.stores.refresh with file := users', users := users' }))) } := by
      simp only [Hall.perform, Stores.perform, hmutate, Hall.remember]
      rfl
    rw [hperform]
    refine ⟨?_, hrefreshed.keyed, ?_, ?_⟩
    · intro name r r' hr hr' _
      obtain rfl := Option.some.inj (hr.symm.trans hr')
      rfl
    · intro j st hst
      by_cases hj : j = i
      · subst hj
        simp only [update_self, Option.map_eq_some_iff] at hst
        obtain ⟨st₀, hst₀, rfl⟩ := hst
        obtain ⟨r, hr, -⟩ := hrefreshed.standing j st₀ hst₀
        obtain ⟨r', hr', -⟩ := h.record happly hr
        rw [carry_standing hinv hquiet hst₀ hr']
        exact ⟨r', hr', rfl⟩
      · simp only [update_of_ne hj] at hst
        obtain ⟨r, r', hr, hstanding, hr', hcredentials, howes⟩ :=
          standing_mutate hinv hmay hquiet happly hj hst
        refine ⟨r', hr', hstanding.trans ?_⟩
        simp only [Hall.standingOf, Hall.settle, hcredentials, howes,
          replaced_false hr hr' hcredentials]
        rfl
    · intro x hx
      obtain ⟨o, r, ho, hr, hcurrent, howes⟩ := hrefreshed.table x hx
      obtain ⟨r', hr', hless⟩ := h.record happly hr
      refine ⟨o, r', ho, hr', hcurrent, fun howed => howes (howed.imp_right fun howed' => ?_)⟩
      rw [hless] at howed'
      split at howed'
      · cases howed'
      · exact howed'

/-! ## The session table -/

/-- The state with another session table. -/
def Hall.withSessions (s : Hall) (sessions : SessionStore) : Hall :=
  { s with stores := { s.stores with sessions } }

omit [Sha256] in
theorem settle_sessions (sessions : SessionStore) :
    t.settle { t.stores with sessions } = t.withSessions sessions := by
  have hversions : (fun name => t.versions name +
      if replaced t.stores.users t.stores.users name then 1 else 0) = t.versions := by
    funext name
    rw [replaced_self]
    rfl
  unfold Hall.settle Hall.withSessions
  rw [hversions]

variable {sessions : SessionStore}

theorem Sound.withSessions (hinv : Sound t) (hkeyed : WellKeyed sessions.entries)
    (hremain : Remain t.stores.sessions.entries sessions.entries) : Sound (t.withSessions sessions) := by
  refine ⟨hinv.file, hkeyed, hinv.standing, ?_⟩
  intro x hx
  obtain ⟨old, hold, hcontinues⟩ := hremain x hx
  obtain ⟨o, r, ho, hr, hcurrent, howes⟩ := hinv.table old hold
  refine ⟨o, r, ?_, ?_, hcurrent, ?_⟩
  · rw [hcontinues.key]
    exact ho
  · rw [hcontinues.subject]
    exact hr
  · intro howed
    rcases howes howed with hrestricted | hentering
    · exact .inl (hcontinues.restricted hrestricted)
    · right
      rw [hcontinues.id]
      exact hentering

theorem sessions_keeps (hinv : Sound t) (hkeyed : WellKeyed sessions.entries)
    (hremain : Remain t.stores.sessions.entries sessions.entries) :
    Lib.Keeps discipline i t (t.settle { t.stores with sessions }) := by
  rw [settle_sessions]
  exact ⟨hinv.withSessions hkeyed hremain, fun _ _ => ⟨rfl, rfl⟩⟩

/-- What a thread stands on is what it just saw stored. -/
theorem Sound.stand (hinv : Sound t) {name : String} {found : Option UserRecord}
    (hfound : found = recordOf name t.stores.users) :
    Sound { t with standing := update t.standing i (found.map (t.standingOf name)) } := by
  refine ⟨hinv.file, hinv.keyed, ?_, hinv.table⟩
  intro j st hst
  by_cases hj : j = i
  · subst hj
    simp only [update_self, Option.map_eq_some_iff] at hst
    obtain ⟨r, hr, rfl⟩ := hst
    exact ⟨r, hfound ▸ hr, rfl⟩
  · simp only [update_of_ne hj] at hst
    exact hinv.standing j st hst

omit [Sha256] in
theorem settle_self : t.settle t.stores = t := settle_sessions t.stores.sessions

theorem record_keeps (name : String) (hinv : Sound t) :
    Lib.Keeps discipline i t (Hall.perform i (.record name) t).2 := by
  simp only [Hall.perform, Stores.perform, settle_self, Hall.remember]
  exact ⟨hinv.stand rfl, fun j hj => ⟨update_of_ne hj _ _, rfl⟩⟩

variable (presented : String)

theorem lookup_keeps (now : Instant) (hinv : Sound t) :
    Lib.Keeps discipline i t (Hall.perform i (.lookup presented now) t).2 := by
  have hkeyed : WellKeyed (t.stores.sessions.lookup presented now).2.entries :=
    (lookup_left hinv.keyed).keys
  have hremain : Remain t.stores.sessions.entries (t.stores.sessions.lookup presented now).2.entries :=
    lookup_remain presented now
  have hsound := hinv.withSessions hkeyed hremain
  simp only [Hall.perform, Stores.perform, Stores.onSessions, settle_sessions]
  cases (t.stores.sessions.lookup presented now).1 with
  | none => exact ⟨hsound, fun _ _ => ⟨rfl, rfl⟩⟩
  | some session => exact ⟨hsound.stand rfl, fun j hj => ⟨update_of_ne hj _ _, rfl⟩⟩

theorem lookup_entering (now : Instant) :
    (Hall.perform i (.lookup presented now) t).2.entering = t.entering := by
  simp only [Hall.perform, Stores.perform, Stores.onSessions, settle_sessions]
  cases (t.stores.sessions.lookup presented now).1 <;> rfl

theorem lookup_standing {presented : String} {now : Instant} {session : Session}
    (hfound : (t.stores.sessions.lookup presented now).1 = some session)
    (hr : recordOf session.subject t.stores.users = some r) :
    (Hall.perform i (.lookup presented now) t).2.standing i
      = some (t.standingOf session.subject r) := by
  simp only [Hall.perform, Stores.perform, Stores.onSessions, settle_sessions, hfound]
  refine (update_self _ _ _).trans ?_
  rw [find_eq]
  exact congrArg (Option.map _) hr

theorem restrict_keeps (hinv : Sound t) :
    Lib.Keeps discipline i t (Hall.perform i (.restrict presented) t).2 := by
  have hkeyed : WellKeyed (t.stores.sessions.restrict presented).2.entries :=
    (restrict_left hinv.keyed).keys
  have hsound := hinv.withSessions hkeyed (restrict_remain presented)
  simp only [Hall.perform, Stores.perform, Stores.onSessions, settle_sessions, Hall.remember]
  by_cases hentering : t.entering i = some presented
  · have hentering' : (t.withSessions (t.stores.sessions.restrict presented).2).entering i
        = some presented := hentering
    rw [if_pos hentering']
    refine ⟨⟨hsound.file, hsound.keyed, hsound.standing, ?_⟩,
      fun j hj => ⟨rfl, update_of_ne hj _ _⟩⟩
    intro x hx
    obtain ⟨o, r, ho, hr, hcurrent, howes⟩ := hsound.table x hx
    refine ⟨o, r, ho, hr, hcurrent, fun howed => ?_⟩
    rcases howes howed with hrestricted | hentered
    · exact .inl hrestricted
    · by_cases hthread : o.thread = i
      · rw [hthread, hentering', Option.some.injEq] at hentered
        exact .inl (restrict_restricted hinv.keyed x hx hentered.symm)
      · right
        exact (update_of_ne hthread _ _).trans hentered
  · have hentering' : (t.withSessions (t.stores.sessions.restrict presented).2).entering i
        ≠ some presented := hentering
    rw [if_neg hentering']
    exact ⟨hsound, fun _ _ => ⟨rfl, rfl⟩⟩

/-- Thread `i` stands on credentials of `name`, whose record owes a password change or
not. -/
def Own (i : Nat) (name : String) (owes : Bool) (s : Hall) : Prop :=
  ∃ st, s.standing i = some st ∧ st.subject = name ∧ st.owes = owes

/-- What a request stands on after its own change. -/
theorem mutate_own {change : UserChange} {name : String} {owes : Bool} (h : Formed change)
    (hinv : Sound t) (hmay : Undisturbed i t (.mutate change)) (hown : Own i name owes t) :
    (resets change ≠ some name → Own i name owes (Hall.perform i (.mutate change) t).2) ∧
      ∀ u, (Hall.perform i (.mutate change) t).1 = .ok u → resets change = some name →
        Own i name false (Hall.perform i (.mutate change) t).2 := by
  obtain ⟨st, hst, rfl, rfl⟩ := hown
  have hquiet := hmay.quiet
  obtain ⟨r, hr, hstanding⟩ := (hinv.refreshed hquiet).standing i st hst
  have howes : st.owes = r.mustChangePassword := by
    rw [hstanding]
    rfl
  rcases mutate_cases t.stores change with ⟨err, happly, hmutate⟩ | ⟨users', happly, hmutate⟩
  · have hafter : (Hall.perform i (.mutate change) t).2.standing i
        = some (t.carry (t.settle t.stores.refresh) st) := by
      simp only [Hall.perform, Stores.perform, hmutate, Hall.remember]
      exact (update_self _ _ _).trans (congrArg _ hst)
    rw [carry_standing hinv hquiet hst hr] at hafter
    refine ⟨fun _ => ⟨_, hafter, rfl, howes.symm⟩, fun u hok => ?_⟩
    simp only [Hall.perform, Stores.perform, hmutate] at hok
    cases hok
  · obtain ⟨r', hr', howes'⟩ := h.record happly hr
    have hafter : (Hall.perform i (.mutate change) t).2.standing i = some
        (t.carry (t.settle { t.stores.refresh with file := users', users := users' }) st) := by
      simp only [Hall.perform, Stores.perform, hmutate, Hall.remember]
      exact (update_self _ _ _).trans (congrArg _ hst)
    rw [carry_standing hinv hquiet hst hr'] at hafter
    refine ⟨fun hresets => ⟨_, hafter, rfl, ?_⟩, fun _ _ hresets => ⟨_, hafter, rfl, ?_⟩⟩
    · rw [if_neg hresets, ← howes] at howes'
      exact howes'
    · rw [if_pos hresets] at howes'
      exact howes'

/-- A look at the account a request stands on. -/
theorem record_own {name : String} {owes : Bool} (hinv : Sound t) (hown : Own i name owes t) :
    ∃ r, recordOf name t.stores.users = some r ∧ r.mustChangePassword = owes ∧
      Own i name owes (Hall.perform i (.record name) t).2 := by
  obtain ⟨st, hst, rfl, rfl⟩ := hown
  obtain ⟨r, hr, hstanding⟩ := hinv.standing i st hst
  have howes : r.mustChangePassword = st.owes := by
    rw [hstanding]
    rfl
  refine ⟨r, hr, howes, t.standingOf st.subject r, ?_, rfl, howes⟩
  simp only [Hall.perform, Stores.perform, settle_self, Hall.remember, find_eq, hr, Option.map_some,
    update_self]

/-- A session that enters on what its request stands on. -/
theorem enter_keeps {id : Secret} {owes : Bool} (hinv : Sound t)
    (hkeyed : WellKeyed sessions.entries)
    (henters : Enters t.stores.sessions.entries sessions.entries id subject)
    (hown : Own i subject owes t) (hnone : t.entering i = none) :
    Lib.Keeps discipline i t ((t.withSessions sessions).enter i subject id) ∧
      ((t.withSessions sessions).enter i subject id).entering i = if owes then some id else none := by
  obtain ⟨st, hst, rfl, rfl⟩ := hown
  obtain ⟨r, hr, hstanding⟩ := hinv.standing i st hst
  have howes : ((t.withSessions sessions).standing i).any (·.owes) = st.owes := by
    simp only [Hall.withSessions, hst, Option.any_some]
  have hcurrent : ((t.withSessions sessions).standing i).any (fun st' => st'.subject = st.subject &&
      st'.version = (t.withSessions sessions).versions st.subject) = true := by
    have hversion : st.version = t.versions st.subject := by
      rw [hstanding]
      rfl
    simp only [Hall.withSessions, hst, Option.any_some, hversion, decide_true, Bool.and_self]
  unfold Hall.enter
  rw [howes, hcurrent]
  refine ⟨⟨⟨hinv.file, hkeyed, hinv.standing, ?_⟩, fun j hj => ⟨rfl, update_of_ne hj _ _⟩⟩, ?_⟩
  · intro x hx
    rcases henters x hx with ⟨hkey, hid, hsubject⟩ | ⟨hmem, hkey⟩
    · refine ⟨⟨i, true, st.owes⟩, r, ?_, ?_, rfl, ?_⟩
      · rw [hkey]
        exact update_self _ _ _
      · rw [hsubject]
        exact hr
      · intro howed
        right
        have hst_owes : st.owes = true := by
          rcases howed with howed | howed
          · exact howed
          · rw [hstanding]
            exact howed
        simp only [hst_owes, if_true, update_self, hid]
    · obtain ⟨o, r', ho, hr', hcurrent', howes'⟩ := hinv.table x hmem
      refine ⟨o, r', ?_, hr', hcurrent', fun howed => ?_⟩
      · exact (update_of_ne hkey _ _).trans ho
      · rcases howes' howed with hrestricted | hentering
        · exact .inl hrestricted
        · right
          have hthread : o.thread ≠ i := by
            rintro heq
            rw [heq, hnone] at hentering
            cases hentering
          exact (update_of_ne hthread _ _).trans hentering
  · exact update_self _ _ _

/-- The session of a thread that is to be restricted and is not yet. -/
def toRestrict (owes : Bool) (id : Secret) : Option Secret := if owes then some id else none

theorem create_keeps {owes : Bool} (scopes : Scopes) (totp : Bool) (now : Instant)
    (fresh : Option Fresh) (hinv : Sound t) (hown : Own i subject owes t)
    (hnone : t.entering i = none) :
    let after := Hall.perform i (.create subject scopes totp now fresh) t
    Lib.Keeps discipline i t after.2 ∧
      (∀ id session, after.1 = .ok (id, session) → after.2.entering i = toRestrict owes id) ∧
      ∀ err, after.1 = .error err → after.2.entering i = none := by
  have hkeyed : WellKeyed (t.stores.sessions.create subject scopes totp now fresh).2.entries :=
    (create_left hinv.keyed rfl).keys
  simp only [Hall.perform, Stores.perform, Stores.onSessions, settle_sessions]
  cases hresult : (t.stores.sessions.create subject scopes totp now fresh).1 with
  | error err =>
    exact ⟨⟨hinv.withSessions hkeyed (create_remain hresult), fun _ _ => ⟨rfl, rfl⟩⟩, nofun,
      fun _ _ => hnone⟩
  | ok pair =>
    obtain ⟨id, session⟩ := pair
    obtain ⟨hkeeps, hentering⟩ := enter_keeps hinv hkeyed (create_enters hresult) hown hnone
    refine ⟨hkeeps, ?_, nofun⟩
    rintro id' session' ⟨⟩
    exact hentering

theorem rotate_keeps {presented : String} {scopes : Option Scopes} {totp : Option Bool}
    {now : Instant} {fresh : Option Fresh} {owes : Bool} (hinv : Sound t)
    (hown : Own i subject owes t) (hnone : t.entering i = none) :
    let after := Hall.perform i (.rotate presented subject scopes totp now fresh) t
    Lib.Keeps discipline i t after.2 ∧
      (∀ id session, after.1 = .ok (some (id, session)) → after.2.entering i = toRestrict owes id) ∧
      ((∀ pair, after.1 ≠ .ok (some pair)) → Own i subject owes after.2 ∧ after.2.entering i = none) := by
  have hkeyed : WellKeyed (t.stores.sessions.rotate presented subject scopes totp now fresh).2.entries :=
    (rotate_left hinv.keyed rfl).keys
  simp only [Hall.perform, Stores.perform, Stores.onSessions, settle_sessions]
  match hresult : (t.stores.sessions.rotate presented subject scopes totp now fresh).1 with
  | .error _ | .ok none =>
    have hremain : Remain t.stores.sessions.entries
        (t.stores.sessions.rotate presented subject scopes totp now fresh).2.entries :=
      rotate_remain (fun pair h => nomatch hresult.symm.trans h)
    exact ⟨⟨hinv.withSessions hkeyed hremain, fun _ _ => ⟨rfl, rfl⟩⟩, nofun, fun _ => ⟨hown, hnone⟩⟩
  | .ok (some (id, session)) =>
    obtain ⟨hkeeps, hentering⟩ := enter_keeps hinv hkeyed (rotate_enters hresult) hown hnone
    refine ⟨hkeeps, ?_, fun hne => absurd rfl (hne _)⟩
    rintro id' session' ⟨⟩
    exact hentering

/-! ## The requests -/

/-- The acquisitions that neither look at credentials nor change them and establish no
session. -/
def Plain : (β : Type) → StoreOp β → Prop
  | _, .revokeSubject _ | _, .stepUp .. | _, .setPendingTotp .. | _, .pendingTotp ..
  | _, .takePendingTotp _ => True
  | _, _ => False

/-- A plain acquisition keeps the discipline and what its thread stands on. -/
theorem plain_keeps {op : StoreOp β} (h : Plain β op) (hinv : Sound t) :
    Lib.Keeps discipline i t (Hall.perform i op t).2 ∧
      (Hall.perform i op t).2.standing = t.standing ∧ (Hall.perform i op t).2.entering = t.entering := by
  cases op with
  | revokeSubject subject =>
    exact ⟨sessions_keeps hinv (hinv.keyed.filter _)
      (remain_sublist (fun _ hx => (List.mem_filter.mp hx).1)), rfl, rfl⟩
  | stepUp presented now =>
    exact ⟨sessions_keeps hinv (stepUp_left hinv.keyed).keys (stepUp_remain presented now), rfl, rfl⟩
  | setPendingTotp presented secret now =>
    exact ⟨sessions_keeps hinv (setPendingTotp_left hinv.keyed).keys
      (setPendingTotp_remain presented secret now), rfl, rfl⟩
  | pendingTotp presented now =>
    exact ⟨sessions_keeps hinv (pendingTotp_left hinv.keyed).keys
      (pendingTotp_remain presented now), rfl, rfl⟩
  | takePendingTotp presented =>
    exact ⟨sessions_keeps hinv (takePendingTotp_left hinv.keyed).keys
      (takePendingTotp_remain presented), rfl, rfl⟩
  | refresh | record | mutate | lookup | create | rotate | restrict | respond => cases h

/-- A request that stands on credentials of `name` and has established no session. -/
structure Ready (i : Nat) (name : String) (owes : Bool) (s : Hall) : Prop where
  own : Own i name owes s
  none : s.entering i = none

theorem Ready.rely {name : String} {owes : Bool} (h : Ready i name owes s)
    (hrely : discipline.rely i s t) : Ready i name owes t := by
  obtain ⟨st, hst, hsubject, howes⟩ := h.own
  exact ⟨⟨st, hrely.1.trans hst, hsubject, howes⟩, hrely.2.trans h.none⟩

/-- A part of a request from `s` on, and what it says about its result. -/
abbrev Runs (hasher : Hasher) (codeAt : CodeAt) (totpRequired : Bool) (i : Nat) {α : Type}
    (x : AccountM α) (s : Hall) (K : Except AuthError α → Hall → Prop) : Prop :=
  Lib.Holds (service hasher codeAt totpRequired) discipline i K x.run s

/-- A part of a request that leaves no session to be restricted. -/
abbrev Ends (hasher : Hasher) (codeAt : CodeAt) (totpRequired : Bool) (i : Nat) {α : Type}
    (x : AccountM α) (s : Hall) : Prop :=
  Runs hasher codeAt totpRequired i x s (fun _ t => t.entering i = none)

/-- Going on after a part of a request. -/
theorem Runs.bind {α : Type} {x : AccountM α} {f : α → AccountM β} {P : α → Hall → Prop}
    (hx : Runs hasher codeAt totpRequired i x s
      (fun answer t => t.entering i = none ∧ ∀ a, answer = .ok a → P a t))
    (hf : ∀ a t, t.entering i = none → P a t → Ends hasher codeAt totpRequired i (f a) t) :
    Ends hasher codeAt totpRequired i (x >>= f) s := by
  refine Lib.Holds.seq (hx.weaken ?_)
  rintro (err | a) t ⟨hnone, hP⟩
  · exact hnone
  · exact hf a t hnone (hP a rfl)

/-- A change of a request that sets no password. -/
theorem Runs.mutate {α : Type} {change : UserChange} {f : Unit → AccountM α}
    {K : Except AuthError α → Hall → Prop} {name : String} {owes : Bool} (h : Formed change)
    (hresets : resets change = none) (hready : Ready i name owes s)
    (herror : ∀ err t, t.entering i = none → K (.error err) t)
    (hf : ∀ t, Ready i name owes t → Runs hasher codeAt totpRequired i (f ()) t K) :
    Runs hasher codeAt totpRequired i (attempt (.mutate change) >>= f) s K := by
  refine Lib.Holds.attempt ?_
  intro t hinv hrely hmay
  have ht := hready.rely hrely
  have hmay : Undisturbed i t (.mutate change) := hmay
  refine ⟨mutate_keeps h hinv hmay, fun _ _ => hf _ ⟨?_, ht.none⟩, fun err _ => herror err _ ht.none⟩
  exact (mutate_own h hinv hmay ht.own).1 (by simp [hresets])

theorem verified_runs {n : String} (hname : r.name = n) (hready : Ready i n r.mustChangePassword t)
    (hbefore : ∀ owes, Own i n owes s → r.mustChangePassword = owes) :
    Runs hasher codeAt totpRequired i (verified r) t
      (fun answer t => t.entering i = none ∧ ∀ user, answer = .ok user →
        user.name = n ∧ Own i n user.mustChangePassword t ∧
          ∀ owes, Own i n owes s → user.mustChangePassword = owes) := by
  refine holds_verified (fun _ _ => ⟨hready.none, ?_⟩) (fun _ _ => ⟨hready.none, nofun⟩)
  rintro user ⟨⟩
  exact ⟨hname, hready.own, hbefore⟩

/-- After a verification a request stands on the credentials it verified; a request that
stood on credentials of the account verified those. -/
theorem verifyPassword_runs (n password salt now : String) (hnone : s.entering i = none) :
    Runs hasher codeAt totpRequired i (verifyPassword hasher n password salt now) s
      (fun answer t => t.entering i = none ∧ ∀ user, answer = .ok user →
        user.name = n ∧ Own i n user.mustChangePassword t ∧
          ∀ owes, Own i n owes s → user.mustChangePassword = owes) := by
  unfold verifyPassword
  refine Lib.Holds.attempt ?_
  intro t hinv hrely hmay
  refine ⟨refresh_keeps hinv hmay, fun _ _ => ?_,
    fun err _ => ⟨hrely.2.trans hnone, nofun⟩⟩
  refine Lib.Holds.perform ?_
  intro u hinv hrely' _
  have hnone' : u.entering i = none := hrely'.2.trans (hrely.2.trans hnone)
  have hstanding : u.standing i = s.standing i := hrely'.1.trans hrely.1
  refine ⟨record_keeps n hinv, ?_⟩
  have hlook : ((service hasher codeAt totpRequired).perform i (.record n) u).1
      = recordOf n u.stores.users := rfl
  rw [hlook]
  cases hr : recordOf n u.stores.users with
  | none => exact ⟨hnone', nofun⟩
  | some r =>
    have hready : Ready i n r.mustChangePassword (Hall.perform i (.record n) u).2 := by
      refine ⟨⟨u.standingOf n r, ?_, rfl, rfl⟩, hnone'⟩
      simp only [Hall.perform, Stores.perform, settle_self, Hall.remember, find_eq, hr,
        Option.map_some, update_self]
    have hbefore : ∀ owes, Own i n owes s → r.mustChangePassword = owes := by
      rintro owes ⟨st, hst, hsubject, howes⟩
      obtain ⟨r', hr', howes', -⟩ := record_own hinv ⟨st, hstanding.trans hst, hsubject, howes⟩
      obtain rfl := Option.some.inj (hr.symm.trans hr')
      exact howes'
    simp only []
    by_cases hverify : hasher.verify password r.phc = true
    · simp only [hverify, Bool.not_true, Bool.false_eq_true, if_false]
      by_cases hrehash : hasher.needsRehash r.phc = true
      · rw [if_pos hrehash]
        exact Runs.mutate .rehash rfl hready (fun _ _ hnone => ⟨hnone, nofun⟩)
          (fun w hw => verified_runs (recordOf_name hr) hw hbefore)
      · rw [if_neg hrehash]
        exact verified_runs (recordOf_name hr) hready hbefore
    · simp only [Bool.not_eq_true] at hverify
      simp only [hverify, Bool.not_false, if_true]
      exact ⟨hnone', nofun⟩

section Handlers

variable {ambient : Ambient} {name : String} {owes : Bool} {verified : VerifiedUser} {totp : Bool}

theorem checkTotp_runs {code : Option String} (hready : Ready i verified.name owes s) :
    Runs hasher codeAt totpRequired i (checkTotp codeAt totpRequired ambient verified code) s
      (fun answer t => t.entering i = none ∧ ∀ u, answer = .ok u → Own i verified.name owes t) := by
  unfold checkTotp
  cases verified.totp with
  | none =>
    cases totpRequired with
    | true => exact ⟨hready.none, nofun⟩
    | false => exact ⟨hready.none, fun u _ => hready.own⟩
  | some secret =>
    cases code with
    | none => exact ⟨hready.none, nofun⟩
    | some code =>
      refine Lib.Holds.result (fun counter _ => ?_) (fun _ _ => ⟨hready.none, nofun⟩)
      exact Runs.mutate .noteTotpCounter rfl hready (fun _ _ hnone => ⟨hnone, nofun⟩)
        (fun t ht => ⟨ht.none, fun u _ => ht.own⟩)

/-- A session that a request creates on what it stands on. -/
theorem create_runs {fresh : Option Fresh} (hready : Ready i subject owes s) :
    Runs hasher codeAt totpRequired i
      (do
        let (id, _) ← attempt (.create subject readWrite totp ambient.now fresh)
        pure id : AccountM Secret) s
      (fun answer t => match answer with
        | .ok id => t.entering i = toRestrict owes id
        | .error _ => t.entering i = none) := by
  refine Lib.Holds.attempt ?_
  intro t hinv hrely _
  have ht := hready.rely hrely
  obtain ⟨hkeeps, hok, herror⟩ :=
    create_keeps readWrite totp ambient.now fresh hinv ht.own ht.none
  exact ⟨hkeeps, fun pair hpair => hok pair.1 pair.2 hpair, herror⟩

theorem establish_runs {presented : Option String} (hready : Ready i verified.name owes s) :
    Runs hasher codeAt totpRequired i (establish ambient verified totp presented) s
      (fun answer t => match answer with
        | .ok id => t.entering i = toRestrict owes id
        | .error _ => t.entering i = none) := by
  unfold establish
  cases presented with
  | none => exact create_runs hready
  | some presented =>
    refine Lib.Holds.attempt ?_
    intro t hinv hrely _
    have ht := hready.rely hrely
    obtain ⟨hkeeps, hok, hnot⟩ := rotate_keeps hinv ht.own ht.none
    refine ⟨hkeeps, fun rotated hrotated => ?_, fun err herror => ?_⟩
    · cases rotated with
      | none =>
        obtain ⟨hown, hnone⟩ := hnot (fun pair hpair => nomatch hrotated.symm.trans hpair)
        exact create_runs ⟨hown, hnone⟩
      | some pair => exact hok pair.1 pair.2 hrotated
    · exact (hnot (fun pair hpair => nomatch herror.symm.trans hpair)).2

theorem login_ends (n password : String) (code presented : Option String)
    (hnone : s.entering i = none) :
    Ends hasher codeAt totpRequired i
      (login hasher codeAt totpRequired ambient n password code presented) s := by
  refine Lib.Holds.result (fun _ _ => ?_) (fun _ _ => hnone)
  refine (verifyPassword_runs n password _ _ hnone).bind (fun verified t hnone hverified => ?_)
  obtain ⟨rfl, hown, -⟩ := hverified
  refine (checkTotp_runs ⟨hown, hnone⟩).bind (fun totp u hnone hown => ?_)
  refine Lib.Holds.seq ((establish_runs ⟨hown, hnone⟩).weaken ?_)
  rintro (err | id) w hentering
  · exact hentering
  · simp only [] at hentering ⊢
    cases howes : verified.mustChangePassword with
    | false =>
      rw [howes] at hentering
      exact hentering
    | true =>
      rw [howes] at hentering
      refine Lib.Holds.perform ?_
      intro x hinv hrely _
      refine ⟨restrict_keeps id hinv, ?_⟩
      have hid : x.entering i = some id := hrely.2.trans hentering
      change (Hall.perform i (.restrict id) x).2.entering i = none
      simp only [Hall.perform, Stores.perform, Stores.onSessions, settle_sessions, Hall.remember,
        Hall.withSessions, hid, if_true, update_self]

/-- The caller of a cookie: an unrestricted session is of an account that owes no password
change. -/
theorem callerOf_runs (hnone : s.entering i = none) :
    Runs hasher codeAt totpRequired i (callerOf ambient presented) s
      (fun answer t => t.entering i = none ∧ ∀ session, answer = .ok session →
        ∃ owes, Own i session.subject owes t ∧ (session.mustChangePassword = false → owes = false)) := by
  unfold callerOf
  refine Lib.Holds.attempt ?_
  intro t hinv hrely hmay
  refine ⟨refresh_keeps hinv hmay, fun _ _ => ?_,
    fun err _ => ⟨hrely.2.trans hnone, nofun⟩⟩
  refine Lib.Holds.perform ?_
  intro u hinv hrely' hmay
  have hnone' : u.entering i = none := hrely'.2.trans (hrely.2.trans hnone)
  have hmay : ∀ j, u.entering j ≠ some presented := hmay
  refine ⟨lookup_keeps presented ambient.now hinv, ?_⟩
  cases hfound : (u.stores.sessions.lookup presented ambient.now).1 with
  | none =>
    have hlooked : ((service hasher codeAt totpRequired).perform i
        (StoreOp.lookup presented ambient.now) u).1 = none := hfound
    rw [hlooked]
    exact ⟨(congrFun (lookup_entering ..) i).trans hnone', nofun⟩
  | some session =>
    have hlooked : ((service hasher codeAt totpRequired).perform i
        (StoreOp.lookup presented ambient.now) u).1 = some session := hfound
    rw [hlooked]
    obtain ⟨entry, hget, hid, -, hsession⟩ := lookup_found hfound
    obtain ⟨o, r, -, hr, -, howes⟩ := hinv.table _ (mem_of_get hget)
    refine ⟨(congrFun (lookup_entering ..) i).trans hnone', ?_⟩
    rintro session' ⟨⟩
    have hr' : recordOf session.subject u.stores.users = some r := by
      rw [hsession]
      exact hr
    refine ⟨r.mustChangePassword, ⟨_, lookup_standing hfound hr', rfl, rfl⟩, ?_⟩
    intro hunrestricted
    by_contra howed
    rcases howes (.inr (Bool.not_eq_false _ ▸ howed)) with hrestricted | hentering
    · rw [hsession] at hunrestricted
      exact absurd (hrestricted.symm.trans hunrestricted) (by decide)
    · exact hmay o.thread (hid ▸ hentering)

theorem writeCallerOf_runs (hnone : s.entering i = none) :
    Runs hasher codeAt totpRequired i (writeCallerOf ambient presented) s
      (fun answer t => t.entering i = none ∧ ∀ session, answer = .ok session →
        Own i session.subject false t) := by
  refine Lib.Holds.seq ((callerOf_runs presented hnone).weaken ?_)
  rintro (err | session) t ⟨hnone, hcaller⟩
  · exact ⟨hnone, nofun⟩
  · obtain ⟨owes, hown, hunrestricted⟩ := hcaller session rfl
    simp only []
    split
    · exact ⟨hnone, nofun⟩
    · rename_i hrestricted
      split
      · exact ⟨hnone, nofun⟩
      · refine ⟨hnone, ?_⟩
        rintro session' ⟨⟩
        rw [hunrestricted (Bool.eq_false_iff.mpr hrestricted)] at hown
        exact hown

theorem Runs.plain {α : Type} {op : StoreOp β} {f : β → AccountM α}
    {K : Except AuthError α → Hall → Prop} (hop : Plain β op) (hready : Ready i name owes s)
    (hf : ∀ b t, Ready i name owes t → Runs hasher codeAt totpRequired i (f b) t K) :
    Runs hasher codeAt totpRequired i (Fallible.perform op >>= f) s K := by
  refine Lib.Holds.perform ?_
  intro t hinv hrely _
  have ht := hready.rely hrely
  obtain ⟨hkeeps, hstanding, hentering⟩ := plain_keeps (i := i) hop hinv
  obtain ⟨st, hst, hsubject, howes⟩ := ht.own
  exact ⟨hkeeps, hf _ _ ⟨⟨st, (congrFun hstanding i).trans hst, hsubject, howes⟩,
    (congrFun hentering i).trans ht.none⟩⟩

theorem renewSession_ends (hready : Ready i subject false s) :
    Ends hasher codeAt totpRequired i (renewSession ambient subject totp) s := by
  refine Runs.plain ?_ hready (fun _ t ht => ?_)
  · trivial
  refine (create_runs ht).weaken ?_
  rintro (err | id) u hentering
  all_goals exact hentering

theorem changePassword_ends (current new salt : String) (hnone : s.entering i = none) :
    Ends hasher codeAt totpRequired i
      (changePassword hasher ambient presented current new salt) s := by
  refine (callerOf_runs presented hnone).bind (fun session t hnone _ => ?_)
  refine Lib.Holds.result (fun _ _ => ?_) (fun _ _ => hnone)
  refine (verifyPassword_runs session.subject current _ _ hnone).bind (fun verified u hnone hverified => ?_)
  obtain ⟨-, hown, -⟩ := hverified
  split
  · exact hnone
  · refine Lib.Holds.attempt ?_
    intro w hinv hrely hmay
    have hw := (Ready.mk hown hnone).rely hrely
    have hmay : Undisturbed i w (.mutate (.setPassword session.subject new (hasher.hash new salt)
        ambient.nowText)) := hmay
    refine ⟨mutate_keeps .setPassword hinv hmay, fun u hok => ?_, fun _ _ => hw.none⟩
    exact renewSession_ends ⟨(mutate_own .setPassword hinv hmay hw.own).2 u hok rfl, hw.none⟩

theorem startEnrolment_ends (password : String) (secret : TotpSecret)
    (hnone : s.entering i = none) :
    Ends hasher codeAt totpRequired i
      (startEnrolment hasher ambient presented password secret) s := by
  refine (writeCallerOf_runs presented hnone).bind (fun session t hnone _ => ?_)
  refine Lib.Holds.result (fun _ _ => ?_) (fun _ _ => hnone)
  refine (verifyPassword_runs session.subject password _ _ hnone).bind
    (fun verified u hnone hverified => ?_)
  obtain ⟨-, hown, -⟩ := hverified
  split
  · exact hnone
  · refine Runs.plain ?_ ⟨hown, hnone⟩ (fun kept w hw => ?_)
    · trivial
    cases kept with
    | true | false => exact hw.none

theorem confirmEnrolment_ends (code : String) (hnone : s.entering i = none) :
    Ends hasher codeAt totpRequired i (confirmEnrolment codeAt ambient presented code) s := by
  refine (writeCallerOf_runs presented hnone).bind (fun session t hnone hown => ?_)
  refine Lib.Holds.result (fun _ _ => ?_) (fun _ _ => hnone)
  refine Lib.Holds.attempt ?_
  intro u hinv hrely hmay
  have hu := (Ready.mk hown hnone).rely hrely
  refine ⟨refresh_keeps hinv hmay, fun _ _ => ?_, fun _ _ => hu.none⟩
  refine Lib.Holds.perform ?_
  intro w hinv hrely' _
  have hrefreshed : Ready i session.subject false (Hall.perform i .refresh u).2 := ⟨hu.own, hu.none⟩
  have hw := hrefreshed.rely hrely'
  obtain ⟨r, -, -, hstands⟩ := record_own hinv hw.own
  have hready : Ready i session.subject false (Hall.perform i (.record session.subject) w).2 :=
    ⟨hstands, hw.none⟩
  refine ⟨record_keeps session.subject hinv, ?_⟩
  split
  · exact hready.none
  · refine Runs.plain ?_ hready (fun pending x hx => ?_)
    · trivial
    cases pending with
    | none => exact hx.none
    | some secret =>
      refine Lib.Holds.result (fun counter _ => ?_) (fun _ _ => hx.none)
      refine Runs.plain ?_ hx (fun taken y hy => ?_)
      · trivial
      cases taken with
      | false => exact hy.none
      | true =>
        refine Runs.mutate .setTotp rfl hy (fun _ _ hnone => hnone) (fun z hz => ?_)
        exact Runs.mutate .noteTotpCounter rfl hz (fun _ _ hnone => hnone)
          (fun q hq => renewSession_ends hq)

theorem turnOff_ends (password code : String) (hnone : s.entering i = none) :
    Ends hasher codeAt totpRequired i
      (turnOff hasher codeAt totpRequired ambient presented password code) s := by
  refine (writeCallerOf_runs presented hnone).bind (fun session t hnone hcaller => ?_)
  refine Lib.Holds.result (fun _ _ => ?_) (fun _ _ => hnone)
  split
  · exact hnone
  · refine (verifyPassword_runs session.subject password _ _ hnone).bind
      (fun verified u hnone hverified => ?_)
    obtain ⟨-, hown, hbefore⟩ := hverified
    rw [hbefore false hcaller] at hown
    cases verified.totp with
    | none => exact hnone
    | some secret =>
      refine Lib.Holds.result (fun counter _ => ?_) (fun _ _ => hnone)
      refine Runs.mutate .noteTotpCounter rfl ⟨hown, hnone⟩ (fun _ _ hnone => hnone) (fun w hw => ?_)
      exact Runs.mutate .setTotp rfl hw (fun _ _ hnone => hnone) (fun x hx => renewSession_ends hx)

theorem reauth_ends (password : String) (code : Option String) (hnone : s.entering i = none) :
    Ends hasher codeAt totpRequired i
      (reauth hasher codeAt totpRequired ambient presented password code) s := by
  refine (writeCallerOf_runs presented hnone).bind (fun session t hnone _ => ?_)
  refine Lib.Holds.result (fun _ _ => ?_) (fun _ _ => hnone)
  refine (verifyPassword_runs session.subject password _ _ hnone).bind
    (fun verified u hnone hverified => ?_)
  obtain ⟨hname, hown, -⟩ := hverified
  rw [← hname] at hown
  refine (checkTotp_runs ⟨hown, hnone⟩).bind (fun _ w hnone hown => ?_)
  refine Runs.plain ?_ ⟨hown, hnone⟩ (fun stepped x hx => ?_)
  · trivial
  cases stepped with
  | true | false => exact hx.none

end Handlers

theorem body_ends (request : Accounts.Request) (hnone : s.entering i = none) :
    Ends hasher codeAt totpRequired i (request.body hasher codeAt totpRequired) s := by
  have hafter : ∀ {α : Type} {x : AccountM α} {y : α → Option Secret},
      Ends hasher codeAt totpRequired i x s →
        Ends hasher codeAt totpRequired i (do let a ← x; pure (y a)) s := by
    intro α x y hx
    refine Lib.Holds.seq (hx.weaken ?_)
    rintro (err | a) t hnone
    all_goals exact hnone
  cases request with
  | login n password code presented ambient => exact hafter (login_ends n password code presented hnone)
  | changePassword presented current new salt ambient =>
    exact hafter (changePassword_ends presented current new salt hnone)
  | startEnrolment presented password secret ambient =>
    exact hafter (startEnrolment_ends presented password secret hnone)
  | confirmEnrolment presented code ambient => exact hafter (confirmEnrolment_ends presented code hnone)
  | turnOff presented password code ambient =>
    exact hafter (turnOff_ends presented password code hnone)
  | reauth presented password code ambient => exact hafter (reauth_ends presented password code hnone)

theorem respond_keeps (hinv : Sound t) : Lib.Keeps discipline i t (Hall.perform i .respond t).2 := by
  simp only [Hall.perform, Stores.perform, settle_self, Hall.remember]
  refine ⟨⟨hinv.file, hinv.keyed, ?_, hinv.table⟩, fun j hj => ⟨update_of_ne hj _ _, rfl⟩⟩
  intro j st hst
  by_cases hj : j = i
  · subst hj
    simp only [update_self] at hst
    cases hst
  · simp only [update_of_ne hj] at hst
    exact hinv.standing j st hst

theorem kept : Kept (service hasher codeAt totpRequired) discipline
    (fun i _ _ s => s.entering i = none) where
  refl _ _ := ⟨rfl, rfl⟩
  trans _ _ _ _ h h' := ⟨h'.1.trans h.1, h'.2.trans h.2⟩
  idle _ _ _ hidle hrely := ⟨hrely.1.trans hidle.1, hrely.2.trans hidle.2⟩
  program i request s _ hidle _ := by
    refine Lib.Holds.bind ((body_ends request hidle.2).weaken (fun answer t hnone => ?_))
    intro u hinv hrely _
    exact ⟨respond_keeps hinv, hrely.2.trans hnone⟩
  outside file s hinv hfile :=
    ⟨⟨hfile, hinv.keyed, hinv.standing, hinv.table⟩, fun _ => ⟨rfl, rfl⟩⟩

/-- The stores before the requests: no one is signed in. -/
def opened (users : List UserRecord) (idle absolute capacity : Nat) : Hall :=
  { stores := { file := users, users, sessions := SessionStore.withCapacity idle absolute capacity }
    versions := fun _ => 0, standing := fun _ => none, origin := fun _ => none
    entering := fun _ => none }

theorem opened_sound (users : List UserRecord) (idle absolute capacity : Nat) :
    Sound (opened users idle absolute capacity) := by
  refine ⟨?_, ⟨nofun, List.nodup_nil⟩, nofun, nofun⟩
  intro name r r' hr hr' _
  obtain rfl := Option.some.inj (hr.symm.trans hr')
  rfl

/-- The moves of any number of requests and of another process that writes the file, in
which no credentials are replaced that a request stands on. -/
abbrev Requests (hasher : Hasher) (codeAt : CodeAt) (totpRequired : Bool) :=
  Run (Guarded (discipline).Permits (Steps (service hasher codeAt totpRequired).step))

/-- A session that can be looked up was established on the credentials stored when it
entered the table, and once its request has answered it is restricted if the record it was
established from owed a password change. -/
theorem sessions_current {users : List UserRecord} {idle absolute capacity : Nat}
    {moves : List (Move Accounts.Request (List UserRecord))}
    {p : Pool StoreOp Hall Accounts.Request (Except AuthError (Option Secret))}
    (hrun : Requests hasher codeAt totpRequired ⟨opened users idle absolute capacity, []⟩ moves p)
    {presented : String} {now : Instant} {session : Session}
    (hfound : (p.shared.stores.sessions.lookup presented now).1 = some session) :
    ∃ o, p.shared.origin (keyOf presented) = some o ∧ o.current = true ∧
      ∀ request answer, p.threads[o.thread]? = some ⟨request, .ret answer⟩ → o.owes = true →
        session.mustChangePassword = true := by
  have hidle : ∀ i, (discipline).idle i (opened users idle absolute capacity) := fun _ => ⟨rfl, rfl⟩
  have horderly := (Orderly.start (opened_sound users idle absolute capacity) hidle).run kept hrun
  obtain ⟨entry, hget, -, -, hsession⟩ := lookup_found hfound
  obtain ⟨o, r, ho, -, hcurrent, howes⟩ := horderly.inv.table _ (mem_of_get hget)
  refine ⟨o, ho, hcurrent, ?_⟩
  intro request answer hthread howed
  obtain ⟨s, hrely, hnone⟩ := horderly.returned hthread
  rw [hsession]
  rcases howes (.inl howed) with hrestricted | hentering
  · exact hrestricted
  · rw [hrely.2, hnone] at hentering
    cases hentering

/-! ## The condition on a pool

Only requests that have begun stand on credentials, so the condition on a move can be read
off the threads of the pool. -/

/-- No request that has not begun stands on credentials or has a session to restrict. -/
def Unbegun (p : Pool StoreOp Hall Accounts.Request (Except AuthError (Option Secret))) : Prop :=
  ∀ j, p.threads.length ≤ j → p.shared.standing j = none ∧ p.shared.entering j = none

theorem perform_others (op : StoreOp β) (s : Hall) {j : Nat} (hj : j ≠ i) :
    (s.perform i op).2.standing j = s.standing j ∧ (s.perform i op).2.entering j = s.entering j := by
  unfold Hall.perform
  generalize s.stores.perform op = done
  obtain ⟨result, stores⟩ := done
  cases op with
  | record | mutate | respond => exact ⟨update_of_ne hj _ _, rfl⟩
  | lookup =>
    cases result with
    | none => exact ⟨rfl, rfl⟩
    | some session => exact ⟨update_of_ne hj _ _, rfl⟩
  | create =>
    cases result with
    | error => exact ⟨rfl, rfl⟩
    | ok entered => exact ⟨rfl, update_of_ne hj _ _⟩
  | rotate =>
    match result with
    | .error _ | .ok none => exact ⟨rfl, rfl⟩
    | .ok (some entered) => exact ⟨rfl, update_of_ne hj _ _⟩
  | restrict id =>
    refine ⟨rfl, ?_⟩
    dsimp only [Hall.remember]
    split
    · exact update_of_ne hj _ _
    · rfl
  | refresh | revokeSubject | stepUp | setPendingTotp | pendingTotp | takePendingTotp =>
    exact ⟨rfl, rfl⟩

theorem step_unbegun {p' : Pool StoreOp Hall Accounts.Request (Except AuthError (Option Secret))}
    {move : Move Accounts.Request (List UserRecord)} (h : Unbegun p)
    (hstep : Steps (service hasher codeAt totpRequired).step p move p') : Unbegun p' := by
  unfold Steps Service.step at hstep
  split at hstep
  · cases hstep
    intro j hj
    refine h j ?_
    rw [List.length_append] at hj
    omega
  · next i =>
    split at hstep
    · next request β op next hthread =>
      cases hstep
      intro j hj
      rw [List.length_set] at hj
      have hi := (List.getElem?_eq_some_iff.mp hthread).1
      obtain ⟨hstanding, hentering⟩ := perform_others op p.shared (show j ≠ i by omega)
      exact ⟨hstanding.trans (h j hj).1, hentering.trans (h j hj).2⟩
    · cases hstep
  · cases hstep
    exact h

/-- `Quiet`, of the first `n` requests. -/
def QuietAmong (n : Nat) (s : Hall) : Prop :=
  ∀ j < n, ∀ st ∈ s.standing j, replaced s.stores.users s.stores.file st.subject = false

/-- `Undisturbed`, of the first `n` requests. -/
def UndisturbedAmong (n i : Nat) (s : Hall) : {β : Type} → StoreOp β → Prop
  | _, .refresh => QuietAmong n s
  | _, .mutate (.noteTotpCounter ..) => QuietAmong n s
  | _, .mutate change =>
    QuietAmong n s ∧ ∀ j < n, j ≠ i → ∀ st ∈ s.standing j, st.subject ≠ account change
  | _, .lookup presented _ => ∀ j < n, s.entering j ≠ some presented
  | _, _ => True

/-- The condition on the turn of a request. -/
def Undisturbing (n i : Nat) (s : Hall) :
    Option (Thread StoreOp Accounts.Request (Except AuthError (Option Secret))) → Prop
  | some ⟨_, .eff op _⟩ => UndisturbedAmong n i s op
  | _ => True

/-- The condition on the next move of a pool. -/
def Admits (p : Pool StoreOp Hall Accounts.Request (Except AuthError (Option Secret))) :
    Move Accounts.Request (List UserRecord) → Prop
  | .begin _ => True
  | .turn i => Undisturbing p.threads.length i p.shared p.threads[i]?
  | .outside file => file = p.shared.stores.users

instance (n : Nat) (s : Hall) : Decidable (QuietAmong n s) :=
  inferInstanceAs (Decidable (∀ j < n, ∀ st ∈ s.standing j, _))

instance (n i : Nat) (s : Hall) : {β : Type} → (op : StoreOp β) → Decidable (UndisturbedAmong n i s op)
  | _, .refresh | _, .mutate (.noteTotpCounter ..) => inferInstanceAs (Decidable (QuietAmong n s))
  | _, .mutate (.create ..) | _, .mutate (.rehash ..) | _, .mutate (.setPassword ..)
  | _, .mutate (.setTotp ..) | _, .mutate (.remove ..) => inferInstanceAs (Decidable (_ ∧ _))
  | _, .lookup .. => inferInstanceAs (Decidable (∀ j < n, _))
  | _, .record .. | _, .create .. | _, .rotate .. | _, .restrict .. | _, .revokeSubject ..
  | _, .stepUp .. | _, .setPendingTotp .. | _, .pendingTotp .. | _, .takePendingTotp ..
  | _, .respond => .isTrue trivial

instance (n i : Nat) (s : Hall) :
    (thread : Option (Thread StoreOp Accounts.Request (Except AuthError (Option Secret)))) →
      Decidable (Undisturbing n i s thread)
  | some ⟨_, .eff op _⟩ => inferInstanceAs (Decidable (UndisturbedAmong n i s op))
  | some ⟨_, .ret _⟩ | none => .isTrue trivial

instance (p : Pool StoreOp Hall Accounts.Request (Except AuthError (Option Secret))) :
    (move : Move Accounts.Request (List UserRecord)) → Decidable (Admits p move)
  | .begin _ => .isTrue trivial
  | .turn i => inferInstanceAs (Decidable (Undisturbing p.threads.length i p.shared p.threads[i]?))
  | .outside file => inferInstanceAs (Decidable (file = p.shared.stores.users))

omit [Sha256] in
theorem undisturbed_of_among {n : Nat} {s : Hall}
    (hbegun : ∀ j, n ≤ j → s.standing j = none ∧ s.entering j = none) {op : StoreOp β}
    (h : UndisturbedAmong n i s op) : Undisturbed i s op := by
  have hstands : ∀ {j st}, s.standing j = some st → j < n := by
    intro j st hst
    by_contra hj
    rw [(hbegun j (Nat.le_of_not_lt hj)).1] at hst
    cases hst
  have hquiet : QuietAmong n s → Quiet s := fun h j st hst => h j (hstands hst) st hst
  have hmutates : ∀ name,
      (QuietAmong n s ∧ ∀ j < n, j ≠ i → ∀ st ∈ s.standing j, st.subject ≠ name) →
        Quiet s ∧ ∀ j st, j ≠ i → s.standing j = some st → st.subject ≠ name :=
    fun _ h => ⟨hquiet h.1, fun j st hj hst => h.2 j (hstands hst) hj st hst⟩
  cases op with
  | refresh => exact hquiet h
  | mutate change =>
    cases change with
    | noteTotpCounter => exact hquiet h
    | create | rehash | setPassword | setTotp | remove => exact hmutates _ h
  | lookup presented now =>
    intro j hj
    refine h j ?_ hj
    by_contra hn
    rw [(hbegun j (Nat.le_of_not_lt hn)).2] at hj
    cases hj
  | _ => trivial

/-- A run whose moves are checked as they are taken. -/
theorem requests_of_exec {users : List UserRecord} {idle absolute capacity : Nat}
    {moves : List (Move Accounts.Request (List UserRecord))}
    (h : exec (fun p move => if Admits p move then
        (service hasher codeAt totpRequired).step p move else none)
      ⟨opened users idle absolute capacity, []⟩ moves = some p) :
    Requests hasher codeAt totpRequired ⟨opened users idle absolute capacity, []⟩ moves p := by
  refine (run_guarded_of_exec h).guarded_of (I := Unbegun) (fun _ _ _ => step_unbegun) ?_
    (fun _ _ => ⟨rfl, rfl⟩)
  intro p move hbegun hmove
  cases move with
  | begin => trivial
  | turn i =>
    dsimp only [Discipline.Permits]
    split
    · next hthread =>
      have hmove : Undisturbing p.threads.length i p.shared p.threads[i]? := hmove
      rw [hthread] at hmove
      exact undisturbed_of_among hbegun hmove
    · trivial
  | outside file =>
    obtain rfl : file = p.shared.stores.users := hmove
    intro name r r' hr hr' _
    obtain rfl := Option.some.inj (hr.symm.trans hr')
    rfl

end Requests

/-! ## A login across a password change -/

theorem plain_verifies (password other _salt : String) :
    decide (other = password) = decide (password = other) := by
  simp only [eq_comm]

def plainHasher : Hasher where
  hash password _ := password
  verify password phc := phc = password
  needsRehash _ := false
  verify_hash := plain_verifies

def noCodes : CodeAt := fun _ _ => ""

def alice : UserRecord :=
  { name := "alice", phc := "alpha", totpSecret := none, totpLastCounter := none
    mustChangePassword := false, created := "t0", updated := "t0" }

def ambient (id : String) : Ambient :=
  { admitted := .ok (), salt := "s", nowText := "t1", unixSecs := 60, now := 0
    fresh := some ⟨id, "csrf", id⟩, freshAgain := some ⟨id, "csrf", id⟩ }

/-- A hash that keeps its input apart. -/
local instance : Sha256 :=
  ⟨fun bytes => ⟨String.ofList (bytes.map (fun byte => Char.ofNat byte.toNat))⟩⟩

/-- A login verifies the old password; from another session the password is changed and
every session ended; then the login enters its session. -/
def loginRace : List (Move Accounts.Request (List UserRecord)) :=
  .begin (.login "alice" "alpha" none none (ambient "first")) :: List.replicate 4 (.turn 0) ++
    .begin (.login "alice" "alpha" none none (ambient "second")) :: List.replicate 2 (.turn 1) ++
    .begin (.changePassword "first" "alpha" "beta" "s" (ambient "third")) ::
      List.replicate 8 (.turn 2) ++ List.replicate 2 (.turn 1)

theorem session_of_replaced_password :
    ∃ p, Run (Steps (service plainHasher noCodes false).step) ⟨opened [alice] 10 10 10, []⟩ loginRace p ∧
      (p.shared.stores.sessions.lookup "second" 0).1.isSome = true ∧
      p.shared.origin (keyOf "second") = some { thread := 1, current := false, owes := false } := by
  have hends : (exec (service plainHasher noCodes false).step ⟨opened [alice] 10 10 10, []⟩
      loginRace).map (fun p => ((p.shared.stores.sessions.lookup "second" 0).1.isSome,
        p.shared.origin (keyOf "second"))) = some (true, some ⟨1, false, false⟩) := by
    decide +kernel
  obtain ⟨p, hexec, hp⟩ := Option.map_eq_some_iff.mp hends
  rw [Prod.mk.injEq] at hp
  exact ⟨p, run_of_exec hexec, hp.1, hp.2⟩

/-- A login; from its session the password is changed, which ends it; and a login with the
new password. -/
def loginAfterChange : List (Move Accounts.Request (List UserRecord)) :=
  .begin (.login "alice" "alpha" none none (ambient "first")) :: List.replicate 4 (.turn 0) ++
    .begin (.changePassword "first" "alpha" "beta" "s" (ambient "second")) ::
      List.replicate 8 (.turn 1) ++
    .begin (.login "alice" "beta" none none (ambient "third")) :: List.replicate 4 (.turn 2)

theorem sessions_current_login :
    ∃ p session o,
      Requests plainHasher noCodes false ⟨opened [alice] 10 10 10, []⟩ loginAfterChange p ∧
      p.shared.versions "alice" = 1 ∧ (p.shared.stores.sessions.lookup "first" 0).1 = none ∧
      (p.shared.stores.sessions.lookup "third" 0).1 = some session ∧
      p.shared.origin (keyOf "third") = some o ∧ o.current = true ∧
      ∀ request answer, p.threads[o.thread]? = some ⟨request, .ret answer⟩ → o.owes = true →
        session.mustChangePassword = true := by
  have hends : (exec (fun p move => if Admits p move then
        (service plainHasher noCodes false).step p move else none)
      ⟨opened [alice] 10 10 10, []⟩ loginAfterChange).map (fun p =>
        (p.shared.versions "alice", (p.shared.stores.sessions.lookup "first" 0).1,
          (p.shared.stores.sessions.lookup "third" 0).1.isSome)) = some (1, none, true) := by
    decide +kernel
  obtain ⟨p, hexec, hp⟩ := Option.map_eq_some_iff.mp hends
  rw [Prod.mk.injEq, Prod.mk.injEq] at hp
  obtain ⟨session, hsession⟩ := Option.isSome_iff_exists.mp hp.2.2
  have hrequests := requests_of_exec hexec
  obtain ⟨o, horigin⟩ := sessions_current hrequests hsession
  exact ⟨p, session, o, hrequests, hp.1, hp.2.1, hsession, horigin⟩

end Detent.Guarantees.SessionOrigins
