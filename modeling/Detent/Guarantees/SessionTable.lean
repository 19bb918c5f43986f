import Mathlib.Data.List.Nodup
import Detent.Lib.Machine
import Detent.Source.Sessions

/-!
# Runs of the session table

`crates/detent-web/src/auth/session.rs:331-613`. `perform_entries` says what one
call can do to an entry; the facts about a whole run of calls follow from it.
-/
namespace Detent.Guarantees.SessionTable
open Lib Source Source.Sessions

variable {key : Sha256Digest} {x : Sha256Digest × Entry} {entry old : Entry}
  {presented subject : String} {scopes : Option Scopes} {totp : Option Bool} {now : Instant}
  {fresh : Option Fresh} {result : Except AuthError (Option (Secret × Session))}
  {s' s₀ : SessionStore} {flag : Bool} {id : Secret} {session : Session}

theorem mem_remove {entries : Entries} : x ∈ entries.remove key ↔ x ∈ entries ∧ x.1 ≠ key := by
  simp [Entries.remove]

theorem mem_put {entries : Entries} :
    x ∈ entries.put key entry ↔ x = (key, entry) ∨ (x ∈ entries ∧ x.1 ≠ key) := by
  simp [Entries.put, mem_remove]

theorem mem_retain {entries : Entries} {keep : Entry → Bool} :
    x ∈ entries.retain keep ↔ x ∈ entries ∧ keep x.2 = true := by
  simp [Entries.retain]

theorem mem_of_get {entries : Entries} (h : entries.get key = some entry) :
    (key, entry) ∈ entries := by
  simp only [Entries.get, Option.map_eq_some_iff] at h
  obtain ⟨x, hfind, rfl⟩ := h
  have hkey := List.find?_some hfind
  have hmem := List.mem_of_find?_eq_some hfind
  simp only [decide_eq_true_eq] at hkey
  rw [← hkey]
  exact hmem

theorem get_eq_none {entries : Entries} (h : entries.get key = none) :
    ∀ x ∈ entries, x.1 ≠ key := by
  intro x hx
  simp only [Entries.get, Option.map_eq_none_iff, List.find?_eq_none] at h
  simpa using h x hx

/-- Removing a key that is there makes the table shorter. -/
theorem length_remove_lt {entries : Entries} (h : entries.get key = some entry) :
    (entries.remove key).length < entries.length := by
  refine List.length_filter_lt_length_iff_exists.mpr ⟨(key, entry), mem_of_get h, ?_⟩
  simp

theorem length_put_le (entries : Entries) (key : Sha256Digest) (entry : Entry) :
    (entries.put key entry).length ≤ entries.length + 1 :=
  Nat.succ_le_succ (List.length_filter_le _ _)

theorem length_put_of_get {entries : Entries} (h : entries.get key = some old) :
    (entries.put key entry).length ≤ entries.length :=
  length_remove_lt h

variable [Sha256]

/-- Every entry is under the digest of its id, and no key is there twice. -/
structure WellKeyed (entries : Entries) : Prop where
  keyed : ∀ x ∈ entries, x.1 = keyOf x.2.id
  unique : (entries.map Prod.fst).Nodup

namespace WellKeyed

variable {entries : Entries}

theorem filter (h : WellKeyed entries) (p : Sha256Digest × Entry → Bool) :
    WellKeyed (entries.filter p) where
  keyed x hx := h.keyed x (List.mem_filter.mp hx).1
  unique := h.unique.sublist (List.filter_sublist.map _)

theorem put (h : WellKeyed entries) {id : Secret} {entry : Entry} (hid : entry.id = id) :
    WellKeyed (entries.put (keyOf id) entry) where
  keyed x hx := by
    rcases mem_put.mp hx with rfl | ⟨hold, _⟩
    · rw [hid]
    · exact h.keyed x hold
  unique := by
    simp only [Entries.put, List.map_cons, List.nodup_cons]
    refine ⟨?_, (h.filter _).unique⟩
    simp [Entries.remove]

theorem get_of_mem (h : WellKeyed entries) (hmem : (key, entry) ∈ entries) :
    entries.get key = some entry := by
  cases hget : entries.get key with
  | none => exact absurd rfl (get_eq_none hget _ hmem)
  | some other =>
    have hsame := List.inj_on_of_nodup_map h.unique hmem (mem_of_get hget) rfl
    rw [Prod.mk.injEq] at hsame
    rw [hsame.2]

end WellKeyed

/-! ## Events -/

/-- A call that returned, with its answer. -/
structure SessionEvent where
  call : Call
  answer : Answer

/-- One call of the table. -/
def SessionStep (s : SessionStore) (e : SessionEvent) (s' : SessionStore) : Prop :=
  s.perform e.call = (e.answer, s')

/-- A session as it was established: its id, subject and handle, and the time. -/
structure Issue where
  id : Secret
  subject : String
  handle : String
  time : Instant
  deriving DecidableEq, Repr

namespace SessionEvent

/-- The session a `create` or a `rotate` established. -/
def issue : SessionEvent → Option Issue
  | ⟨.create subject _ _ now _, .created (.ok (id, session))⟩ =>
    some { id, subject, handle := session.handle, time := now }
  | ⟨.rotate _ subject _ _ now _, .rotated (.ok (some (id, session)))⟩ =>
    some { id, subject, handle := session.handle, time := now }
  | _ => none

/-- The id a `rotate` replaced. -/
def replaced : SessionEvent → Option Secret
  | ⟨.rotate presented _ _ _ _ _, .rotated (.ok (some _))⟩ => some presented
  | _ => none

/-- The time of a lookup that found the session `id`. -/
def use (id : Secret) : SessionEvent → Option Instant
  | ⟨.lookup presented now, .session (some _)⟩ => if presented = id then some now else none
  | _ => none

/-- The session an event answered with, and the id it was asked for or is reached by. -/
def Reports : SessionEvent → Secret → Session → Prop
  | ⟨.lookup presented _, .session (some found)⟩, id, session => presented = id ∧ found = session
  | ⟨.restrict presented, .session (some found)⟩, id, session => presented = id ∧ found = session
  | ⟨.create .., .created (.ok (new, found))⟩, id, session => new = id ∧ found = session
  | ⟨.rotate .., .rotated (.ok (some (new, found)))⟩, id, session => new = id ∧ found = session
  | _, _, _ => False

/-- The event rotated, logged out or revoked the session. -/
def Covers (e : SessionEvent) (issue : Issue) : Prop :=
  match e.call, e.answer with
  | .rotate presented _ _ _ _ _, .rotated (.ok _) => presented = issue.id
  | .logout presented, _ => presented = issue.id
  | .revokeSubject subject, _ => subject = issue.subject
  | .revokeHandle subject handle, _ => subject = issue.subject ∧ handle = issue.handle
  | .revokeOthers subject keep, _ => subject = issue.subject ∧ keep ≠ issue.handle
  | _, _ => False

end SessionEvent

/-- `Alive idle es issue last`: the events `es` established the session, none since
covered it, each use came within `idle` of the one before, and `last` was the last. -/
inductive Alive (idle : Nat) : List SessionEvent → Issue → Instant → Prop
  | issued {es e issue} (established : e.issue = some issue) :
      Alive idle (es ++ [e]) issue issue.time
  | used {es e issue last now} (before : Alive idle es issue last)
      (used : e.use issue.id = some now) (soon : now - last < idle) :
      Alive idle (es ++ [e]) issue now
  | passed {es e issue last} (before : Alive idle es issue last) (uncovered : ¬e.Covers issue)
      (unused : e.use issue.id = none) : Alive idle (es ++ [e]) issue last

/-- `ChainStart es id t`: the rotation chain of `id` began with a `create` at `t`. -/
inductive ChainStart : List SessionEvent → Secret → Instant → Prop
  | create {es subject scopes totp now fresh id session} :
      ChainStart (es ++ [⟨.create subject scopes totp now fresh, .created (.ok (id, session))⟩])
        id now
  | rotate {es presented subject scopes totp now fresh id session t}
      (before : ChainStart es presented t) :
      ChainStart (es ++ [⟨.rotate presented subject scopes totp now fresh,
        .rotated (.ok (some (id, session)))⟩]) id t
  | later {es e id t} (before : ChainStart es id t) : ChainStart (es ++ [e]) id t

/-- The session of an entry, as an issue at `time`. -/
def issueOf (entry : Entry) (time : Instant) : Issue :=
  { id := entry.id, subject := entry.session.subject, handle := entry.session.handle, time }

/-- What one call did to an entry it left in the table. -/
structure Kept (idle : Nat) (e : SessionEvent) (old new : Entry) : Prop where
  id : new.id = old.id
  subject : new.session.subject = old.session.subject
  handle : new.session.handle = old.session.handle
  csrfToken : new.session.csrfToken = old.session.csrfToken
  created : new.session.created = old.session.created
  uncovered : ∀ time, ¬e.Covers (issueOf old time)
  seen : (e.use old.id = none ∧ new.session.lastSeen = old.session.lastSeen) ∨
    ∃ now, e.use old.id = some now ∧ now - old.session.lastSeen < idle ∧
      new.session.lastSeen = now
  stepUp : new.session.stepUp = old.session.stepUp ∨
    ∃ t, new.session.stepUp = some t ∧ e = ⟨.stepUp old.id t, .done true⟩
  pending : new.pendingTotp = old.pendingTotp ∨ new.pendingTotp = none ∨
    ∃ secret t, new.pendingTotp = some (secret, t) ∧
      e = ⟨.setPendingTotp old.id secret t, .done true⟩

/-- An entry a call established. -/
structure Established (s : SessionStore) (e : SessionEvent) (new : Entry) : Prop where
  issue : e.issue = some (issueOf new new.session.lastSeen)
  stepUp : new.session.stepUp = none
  pending : new.pendingTotp = none
  chain : ∀ es, (∀ x ∈ s.entries, ChainStart es x.2.id x.2.session.created) →
    ChainStart (es ++ [e]) new.id new.session.created

/-! ## What one call does to the entries -/

omit [Sha256] in
theorem Kept.same {idle : Nat} {e : SessionEvent} (uncovered : ∀ time, ¬e.Covers (issueOf old time))
    (unused : e.use old.id = none) : Kept idle e old old where
  id := rfl
  subject := rfl
  handle := rfl
  csrfToken := rfl
  created := rfl
  uncovered := uncovered
  seen := .inl ⟨unused, rfl⟩
  stepUp := .inl rfl
  pending := .inl rfl

/-- What a call may leave in the table. -/
structure Left (s : SessionStore) (e : SessionEvent) (s' : SessionStore) : Prop where
  keys : WellKeyed s'.entries
  entries : ∀ x ∈ s'.entries,
    (∃ old ∈ s.entries, Kept s.idle e old.2 x.2) ∨ Established s e x.2
  idle : s'.idle = s.idle
  absolute : s'.absolute = s.absolute
  capacity : s'.capacity = s.capacity
  room : s.entries.length ≤ s.capacity → s'.entries.length ≤ s.capacity

section Left

variable {s : SessionStore} {e : SessionEvent}

/-- Some entries went, and no other changed. -/
theorem Left.retain (hkeys : WellKeyed s.entries) (keep : Entry → Bool)
    (hsame : ∀ x ∈ s.entries, keep x.2 = true → Kept s.idle e x.2 x.2) :
    Left s e (s.retain keep) where
  keys := hkeys.filter _
  entries x hx := by
    obtain ⟨hmem, hkeep⟩ := mem_retain.mp hx
    exact .inl ⟨x, hmem, hsame x hmem hkeep⟩
  idle := rfl
  absolute := rfl
  capacity := rfl
  room := Nat.le_trans (List.length_filter_le _ _)

theorem Left.remove (hkeys : WellKeyed s.entries) (presented : Secret)
    (hsame : ∀ x ∈ s.entries, x.2.id ≠ presented → Kept s.idle e x.2 x.2) :
    Left s e (s.remove presented) where
  keys := hkeys.filter _
  entries x hx := by
    obtain ⟨hmem, hkey⟩ := mem_remove.mp hx
    refine .inl ⟨x, hmem, hsame x hmem ?_⟩
    rintro rfl
    exact hkey (hkeys.keyed x hmem)
  idle := rfl
  absolute := rfl
  capacity := rfl
  room := Nat.le_trans (List.length_filter_le _ _)

theorem Left.put (hkeys : WellKeyed s.entries) {presented : Secret} {entry new : Entry}
    (hget : s.entries.get (keyOf presented) = some entry) (hid : entry.id = presented)
    (hnew : Kept s.idle e entry new)
    (hsame : ∀ x ∈ s.entries, x.2.id ≠ presented → Kept s.idle e x.2 x.2) :
    Left s e (s.put presented new) where
  keys := hkeys.put (hnew.id.trans hid)
  entries x hx := by
    rcases mem_put.mp hx with rfl | ⟨hmem, hkey⟩
    · exact .inl ⟨_, mem_of_get hget, hnew⟩
    · refine .inl ⟨x, hmem, hsame x hmem ?_⟩
      rintro rfl
      exact hkey (hkeys.keyed x hmem)
  idle := rfl
  absolute := rfl
  capacity := rfl
  room := Nat.le_trans (length_put_of_get hget)

theorem Left.unchanged (hkeys : WellKeyed s.entries)
    (hsame : ∀ x ∈ s.entries, Kept s.idle e x.2 x.2) : Left s e s where
  keys := hkeys
  entries x hx := .inl ⟨x, hx, hsame x hx⟩
  idle := rfl
  absolute := rfl
  capacity := rfl
  room := id

end Left

/-- The operations that look an id up leave the table alone where nothing is under its key,
and where another id is. -/
theorem presented_cases {β : Type} {P : β × SessionStore → Prop} {s : SessionStore} {missing : β}
    {found : Entry → β × SessionStore} (hmissing : P (missing, s))
    (hfound : ∀ entry, s.entries.get (keyOf presented) = some entry → entry.id = presented →
      P (found entry)) :
    P (match s.entries.get (keyOf presented) with
      | none => (missing, s)
      | some entry => if entry.id ≠ presented then (missing, s) else found entry) := by
  cases hget : s.entries.get (keyOf presented) with
  | none => exact hmissing
  | some entry =>
    dsimp only
    split
    · exact hmissing
    · next hid => exact hfound entry hget (not_not.mp hid)

omit [Sha256] in
/-- Only the id a rotation replaced is covered by it. -/
theorem kept_rotate {idle : Nat} (hid : old.id ≠ presented) :
    Kept idle ⟨.rotate presented subject scopes totp now fresh, .rotated result⟩ old old := by
  refine Kept.same (fun time hcover => ?_) rfl
  cases result with
  | error _ => exact hcover
  | ok _ => exact hid hcover.symm

theorem rotate_left {s : SessionStore} (hkeys : WellKeyed s.entries)
    (h : s.rotate presented subject scopes totp now fresh = (result, s')) :
    Left s ⟨.rotate presented subject scopes totp now fresh, .rotated result⟩ s' := by
  unfold SessionStore.rotate at h
  cases fresh with
  | none =>
    cases h
    exact .unchanged hkeys (fun x _ => .same (fun _ hcover => hcover) rfl)
  | some fresh =>
    dsimp only at h
    cases hget : s.entries.get (keyOf presented) with
    | none =>
      rw [hget] at h
      cases h
      refine .unchanged hkeys (fun x hx => kept_rotate ?_)
      rintro rfl
      exact get_eq_none hget x hx (hkeys.keyed x hx)
    | some old =>
      rw [hget] at h
      dsimp only at h
      split at h
      · cases h
        exact .remove hkeys presented (fun x _ => kept_rotate)
      · rename_i hlive
        split at h
        · cases h
          exact .remove hkeys presented (fun x _ => kept_rotate)
        · rename_i hsubject
          cases h
          have hid : old.id = presented := by
            by_contra hne
            simp [hne] at hlive
          have hsubject : old.session.subject = subject := not_not.mp hsubject
          refine ⟨(hkeys.filter _).put rfl, fun x hx => ?_, rfl, rfl, rfl, fun hroom => ?_⟩
          · rcases mem_put.mp hx with rfl | ⟨hmem, _⟩
            · refine .inr ⟨?_, rfl, rfl, fun es hes => ?_⟩
              · simp only [SessionEvent.issue, issueOf, hsubject]
              · have hstart := hes _ (mem_of_get hget)
                dsimp only at hstart
                rw [hid] at hstart
                exact .rotate hstart
            · obtain ⟨hold, hkey⟩ := mem_remove.mp hmem
              refine .inl ⟨x, hold, kept_rotate ?_⟩
              rintro rfl
              exact hkey (hkeys.keyed x hold)
          · have hshorter := length_remove_lt hget
            have hlonger := length_put_le (s.entries.remove (keyOf presented)) (keyOf fresh.id)
            exact Nat.le_trans (Nat.le_trans (hlonger _) hshorter) hroom

theorem create_left {s : SessionStore} {scopes : Scopes} {totp : Bool}
    {result : Except AuthError (Secret × Session)} (hkeys : WellKeyed s.entries)
    (h : s.create subject scopes totp now fresh = (result, s')) :
    Left s ⟨.create subject scopes totp now fresh, .created result⟩ s' := by
  have hsame : ∀ old : Entry,
      Kept s.idle ⟨.create subject scopes totp now fresh, .created result⟩ old old :=
    fun old => .same (fun _ hcover => hcover) rfl
  unfold SessionStore.create at h
  cases fresh with
  | none =>
    cases h
    exact .unchanged hkeys (fun x _ => hsame x.2)
  | some fresh =>
    dsimp only at h
    have hevict := Left.retain hkeys
      (fun e => !expired e.session s.idle s.absolute now) (fun x _ _ => hsame x.2)
    split at h
    · cases h
      exact hevict
    · cases h
      rename_i hroom
      refine ⟨hevict.keys.put rfl, fun x hx => ?_, rfl, rfl, rfl, fun _ => ?_⟩
      · rcases mem_put.mp hx with rfl | ⟨hmem, _⟩
        · exact .inr ⟨rfl, rfl, rfl, fun es _ => .create⟩
        · exact hevict.entries x hmem
      · exact Nat.le_trans (length_put_le _ _ _) (Nat.not_le.mp hroom)

variable {found : Option Session}

theorem lookup_left {s : SessionStore} (hkeys : WellKeyed s.entries) :
    Left s ⟨.lookup presented now, .session (s.lookup presented now).1⟩
      (s.lookup presented now).2 := by
  refine presented_cases (P := fun r => Left s ⟨.lookup presented now, .session r.1⟩ r.2)
    (.unchanged hkeys (fun x _ => .same (fun _ hcover => hcover) rfl)) (fun entry hget hid => ?_)
  split
  · exact .remove hkeys presented (fun x _ _ => .same (fun _ hcover => hcover) rfl)
  · rename_i hlive
    refine .put hkeys hget hid ?_
      (fun x _ hother => .same (fun _ hcover => hcover) (if_neg hother.symm))
    simp only [expired, Bool.or_eq_true, decide_eq_true_eq, not_or, ge_iff_le, Nat.not_le] at hlive
    exact
      { id := rfl, subject := rfl, handle := rfl, csrfToken := rfl, created := rfl
        uncovered := fun _ hcover => hcover
        seen := .inr ⟨now, if_pos hid.symm, hlive.1, rfl⟩
        stepUp := .inl rfl
        pending := .inl rfl }

theorem stepUp_left {s : SessionStore} (hkeys : WellKeyed s.entries) :
    Left s ⟨.stepUp presented now, .done (s.stepUp presented now).1⟩
      (s.stepUp presented now).2 := by
  have hsame : ∀ flag (old : Entry), Kept s.idle ⟨.stepUp presented now, .done flag⟩ old old :=
    fun _ _ => .same (fun _ hcover => hcover) rfl
  refine presented_cases (P := fun r => Left s ⟨.stepUp presented now, .done r.1⟩ r.2)
    (.unchanged hkeys (fun x _ => hsame _ x.2)) (fun entry hget hid => ?_)
  split
  · exact .remove hkeys presented (fun x _ _ => hsame _ x.2)
  · refine .put hkeys hget hid ?_ (fun x _ _ => hsame _ x.2)
    subst hid
    exact { hsame _ entry with stepUp := .inr ⟨now, rfl, rfl⟩ }

theorem restrict_left {s : SessionStore} (hkeys : WellKeyed s.entries) :
    Left s ⟨.restrict presented, .session (s.restrict presented).1⟩ (s.restrict presented).2 := by
  have hsame : ∀ found (old : Entry), Kept s.idle ⟨.restrict presented, .session found⟩ old old :=
    fun _ _ => .same (fun _ hcover => hcover) rfl
  exact presented_cases (P := fun r => Left s ⟨.restrict presented, .session r.1⟩ r.2)
    (.unchanged hkeys (fun x _ => hsame _ x.2))
    (fun entry hget hid => .put hkeys hget hid { hsame _ entry with } (fun x _ _ => hsame _ x.2))

theorem setPendingTotp_left {s : SessionStore} {secret : TotpSecret} (hkeys : WellKeyed s.entries) :
    Left s ⟨.setPendingTotp presented secret now, .done (s.setPendingTotp presented secret now).1⟩
      (s.setPendingTotp presented secret now).2 := by
  have hsame : ∀ flag (old : Entry),
      Kept s.idle ⟨.setPendingTotp presented secret now, .done flag⟩ old old :=
    fun _ _ => .same (fun _ hcover => hcover) rfl
  refine presented_cases (P := fun r => Left s ⟨.setPendingTotp presented secret now, .done r.1⟩ r.2)
    (.unchanged hkeys (fun x _ => hsame _ x.2)) (fun entry hget hid => ?_)
  refine .put hkeys hget hid ?_ (fun x _ _ => hsame _ x.2)
  subst hid
  exact { hsame _ entry with pending := .inr (.inr ⟨secret, now, rfl, rfl⟩) }

theorem pendingTotp_left {s : SessionStore} (hkeys : WellKeyed s.entries) :
    Left s ⟨.pendingTotp presented now, .key (s.pendingTotp presented now).1⟩
      (s.pendingTotp presented now).2 := by
  have hsame : ∀ key (old : Entry), Kept s.idle ⟨.pendingTotp presented now, .key key⟩ old old :=
    fun _ _ => .same (fun _ hcover => hcover) rfl
  refine presented_cases (P := fun r => Left s ⟨.pendingTotp presented now, .key r.1⟩ r.2)
    (.unchanged hkeys (fun x _ => hsame _ x.2)) (fun entry hget hid => ?_)
  split
  · exact .unchanged hkeys (fun x _ => hsame _ x.2)
  · split
    · exact .put hkeys hget hid { hsame _ entry with pending := .inr (.inl rfl) }
        (fun x _ _ => hsame _ x.2)
    · exact .unchanged hkeys (fun x _ => hsame _ x.2)

theorem takePendingTotp_left {s : SessionStore} (hkeys : WellKeyed s.entries) :
    Left s ⟨.takePendingTotp presented, .done (s.takePendingTotp presented).1⟩
      (s.takePendingTotp presented).2 := by
  have hsame : ∀ flag (old : Entry), Kept s.idle ⟨.takePendingTotp presented, .done flag⟩ old old :=
    fun _ _ => .same (fun _ hcover => hcover) rfl
  exact presented_cases (P := fun r => Left s ⟨.takePendingTotp presented, .done r.1⟩ r.2)
    (.unchanged hkeys (fun x _ => hsame _ x.2))
    (fun entry hget hid => .put hkeys hget hid { hsame _ entry with pending := .inr (.inl rfl) }
      (fun x _ _ => hsame _ x.2))

theorem logout_left {s : SessionStore} (hkeys : WellKeyed s.entries)
    (h : s.logout presented = (flag, s')) : Left s ⟨.logout presented, .done flag⟩ s' := by
  have hother : ∀ old : Entry, old.id ≠ presented →
      Kept s.idle ⟨.logout presented, .done flag⟩ old old :=
    fun old hid => .same (fun _ hcover => hid hcover.symm) rfl
  unfold SessionStore.logout at h
  cases hget : s.entries.get (keyOf presented) with
  | none =>
    rw [hget] at h
    cases h
    refine .unchanged hkeys (fun x hx => hother x.2 ?_)
    rintro rfl
    exact get_eq_none hget x hx (hkeys.keyed x hx)
  | some entry =>
    rw [hget] at h
    dsimp only at h
    split at h
    · cases h
      exact .remove hkeys presented (fun x _ => hother x.2)
    · rename_i hid
      cases h
      refine .unchanged hkeys (fun x hx => hother x.2 ?_)
      rintro rfl
      -- the entry under the digest of an id is the only one with that id
      have honly := hkeys.get_of_mem hx
      rw [hkeys.keyed x hx, hget, Option.some.injEq] at honly
      exact hid (congrArg Entry.id honly)

/-- Every call leaves entries it found, as it may change them, and the one it
established. -/
theorem perform_left {s : SessionStore} {e : SessionEvent} (hkeys : WellKeyed s.entries)
    (h : SessionStep s e s') : Left s e s' := by
  obtain ⟨call, answer⟩ := e
  cases call with
  | create => cases h; exact create_left hkeys rfl
  | lookup => cases h; exact lookup_left hkeys
  | rotate => cases h; exact rotate_left hkeys rfl
  | stepUp => cases h; exact stepUp_left hkeys
  | restrict => cases h; exact restrict_left hkeys
  | setPendingTotp => cases h; exact setPendingTotp_left hkeys
  | pendingTotp => cases h; exact pendingTotp_left hkeys
  | takePendingTotp => cases h; exact takePendingTotp_left hkeys
  | logout => cases h; exact logout_left hkeys rfl
  | list | sweep =>
    cases h
    exact .retain hkeys _ (fun x _ _ => .same (fun _ hcover => hcover) rfl)
  | revokeSubject subject =>
    cases h
    refine .retain hkeys _ (fun x _ hkeep => .same (fun _ hcover => ?_) rfl)
    exact of_decide_eq_true hkeep hcover.symm
  | revokeHandle subject handle =>
    cases h
    refine .retain hkeys _ (fun x _ hkeep => .same (fun _ hcover => ?_) rfl)
    obtain ⟨hsubject, hhandle⟩ : subject = x.2.session.subject ∧ handle = x.2.session.handle :=
      hcover
    simp [hsubject, hhandle] at hkeep
  | revokeOthers subject keep =>
    cases h
    refine .retain hkeys _ (fun x _ hkeep => .same (fun _ hcover => ?_) rfl)
    obtain ⟨hsubject, hhandle⟩ : subject = x.2.session.subject ∧ keep ≠ x.2.session.handle :=
      hcover
    simp [hsubject, hhandle.symm] at hkeep

/-! ## Runs -/

/-- What the events so far say about an entry of the table. -/
structure Backed (idle : Nat) (es : List SessionEvent) (entry : Entry) : Prop where
  alive : ∃ time, Alive idle es (issueOf entry time) entry.session.lastSeen
  chain : ChainStart es entry.id entry.session.created
  stepUp : ∀ t, entry.session.stepUp = some t → ⟨.stepUp entry.id t, .done true⟩ ∈ es
  pending : ∀ secret t, entry.pendingTotp = some (secret, t) →
    ⟨.setPendingTotp entry.id secret t, .done true⟩ ∈ es

variable {es : List SessionEvent}

omit [Sha256] in
/-- What a call keeps stays backed. -/
theorem Backed.kept {idle : Nat} {e : SessionEvent} {new : Entry} (h : Backed idle es old)
    (hkept : Kept idle e old new) : Backed idle (es ++ [e]) new where
  alive := by
    obtain ⟨time, halive⟩ := h.alive
    have hissue : issueOf new time = issueOf old time := by
      simp only [issueOf, hkept.id, hkept.subject, hkept.handle]
    refine ⟨time, ?_⟩
    rw [hissue]
    rcases hkept.seen with ⟨hunused, hsame⟩ | ⟨now, hused, hsoon, hnow⟩
    · rw [hsame]
      exact .passed halive (hkept.uncovered time) hunused
    · rw [hnow]
      exact .used halive hused hsoon
  chain := by
    rw [hkept.id, hkept.created]
    exact .later h.chain
  stepUp t ht := by
    rw [hkept.id]
    rcases hkept.stepUp with hsame | ⟨t', hnew, he⟩
    · exact List.mem_append_left _ (h.stepUp t (hsame ▸ ht))
    · obtain rfl : t' = t := Option.some.inj (hnew.symm.trans ht)
      exact List.mem_append_right _ (List.mem_singleton.mpr he.symm)
  pending secret t ht := by
    rw [hkept.id]
    rcases hkept.pending with hsame | hnone | ⟨secret', t', hnew, he⟩
    · exact List.mem_append_left _ (h.pending secret t (hsame ▸ ht))
    · rw [hnone] at ht
      cases ht
    · rw [hnew, Option.some.injEq, Prod.mk.injEq] at ht
      obtain ⟨rfl, rfl⟩ := ht
      exact List.mem_append_right _ (List.mem_singleton.mpr he.symm)

omit [Sha256] in
theorem Backed.established {s : SessionStore} {e : SessionEvent} {new : Entry}
    (hall : ∀ x ∈ s.entries, Backed s.idle es x.2) (h : Established s e new) :
    Backed s.idle (es ++ [e]) new where
  alive := ⟨_, .issued h.issue⟩
  chain := h.chain es (fun x hx => (hall x hx).chain)
  stepUp t ht := by
    rw [h.stepUp] at ht
    cases ht
  pending secret t ht := by
    rw [h.pending] at ht
    cases ht

/-- What holds of the table `s` after the calls `es` of an empty table `s₀`. -/
structure TableInvariant (s₀ : SessionStore) (es : List SessionEvent) (s : SessionStore) :
    Prop where
  keys : WellKeyed s.entries
  backed : ∀ x ∈ s.entries, Backed s₀.idle es x.2
  idle : s.idle = s₀.idle
  absolute : s.absolute = s₀.absolute
  capacity : s.capacity = s₀.capacity
  room : s.entries.length ≤ s.capacity

theorem TableInvariant.start (h : s₀.entries = []) : TableInvariant s₀ [] s₀ where
  keys := by
    rw [h]
    exact ⟨fun x hx => absurd hx List.not_mem_nil, List.nodup_nil⟩
  backed x hx := by
    rw [h] at hx
    cases hx
  idle := rfl
  absolute := rfl
  capacity := rfl
  room := by simp [h]

theorem TableInvariant.step {s : SessionStore} {e : SessionEvent} (h : TableInvariant s₀ es s)
    (hstep : SessionStep s e s') : TableInvariant s₀ (es ++ [e]) s' := by
  have hleft := perform_left h.keys hstep
  refine ⟨hleft.keys, fun x hx => ?_, hleft.idle.trans h.idle, hleft.absolute.trans h.absolute,
    hleft.capacity.trans h.capacity, ?_⟩
  · have hidle := h.idle
    rcases hleft.entries x hx with ⟨old, hmem, hkept⟩ | hnew
    · rw [hidle] at hkept
      exact (h.backed old hmem).kept hkept
    · rw [← hidle]
      exact .established (fun y hy => hidle ▸ h.backed y hy) hnew
  · rw [hleft.capacity]
    exact hleft.room h.room

theorem TableInvariant.run {s : SessionStore} (hempty : s₀.entries = [])
    (h : Run SessionStep s₀ es s) : TableInvariant s₀ es s :=
  h.history (I := TableInvariant s₀) (fun _ _ _ _ hinv hstep => hinv.step hstep)
    (TableInvariant.start hempty)

/-! ## Answers -/

theorem lookup_found {s : SessionStore} (h : (s.lookup id now).1 = some session) :
    ∃ entry, s.entries.get (keyOf id) = some entry ∧ entry.id = id ∧
      expired entry.session s.idle s.absolute now = false ∧
      session = { entry.session with lastSeen := now } := by
  unfold SessionStore.lookup at h
  cases hget : s.entries.get (keyOf id) with
  | none =>
    rw [hget] at h
    cases h
  | some entry =>
    rw [hget] at h
    dsimp only at h
    split at h
    · cases h
    · rename_i hid
      split at h
      · cases h
      · rename_i hlive
        cases h
        exact ⟨entry, rfl, not_not.mp hid, Bool.eq_false_iff.mpr hlive, rfl⟩

theorem restrict_found {s : SessionStore} (h : (s.restrict id).1 = some session) :
    ∃ entry, s.entries.get (keyOf id) = some entry ∧ entry.id = id ∧
      session = { entry.session with mustChangePassword := true } := by
  unfold SessionStore.restrict at h
  cases hget : s.entries.get (keyOf id) with
  | none =>
    rw [hget] at h
    cases h
  | some entry =>
    rw [hget] at h
    dsimp only at h
    split at h
    · cases h
    · rename_i hid
      cases h
      exact ⟨entry, rfl, not_not.mp hid, rfl⟩

theorem pendingTotp_found {s : SessionStore} {secret : TotpSecret}
    (h : (s.pendingTotp id now).1 = some secret) :
    ∃ entry t, s.entries.get (keyOf id) = some entry ∧ entry.id = id ∧
      entry.pendingTotp = some (secret, t) := by
  unfold SessionStore.pendingTotp at h
  split at h
  · cases h
  · rename_i entry hget
    split at h
    · cases h
    · rename_i hid
      split at h
      · cases h
      · rename_i found started hpending
        split at h
        · cases h
        · cases h
          exact ⟨entry, started, hget, not_not.mp hid, hpending⟩

theorem create_session {s : SessionStore} {scopes : Scopes} {totp : Bool}
    (h : (s.create subject scopes totp now fresh).1 = .ok (id, session)) :
    session.stepUp = none := by
  unfold SessionStore.create at h
  cases fresh with
  | none => cases h
  | some fresh =>
    dsimp only at h
    split at h
    · cases h
    · cases h
      rfl

/-- A rotation that answers a session found the id, and its session has no step-up. -/
theorem rotate_found {s : SessionStore}
    (h : (s.rotate presented subject scopes totp now fresh).1 = .ok (some (id, session))) :
    session.stepUp = none ∧
      ∃ entry, s.entries.get (keyOf presented) = some entry ∧ entry.id = presented := by
  unfold SessionStore.rotate at h
  cases fresh with
  | none => cases h
  | some fresh =>
    dsimp only at h
    cases hget : s.entries.get (keyOf presented) with
    | none =>
      rw [hget] at h
      cases h
    | some old =>
      rw [hget] at h
      dsimp only at h
      split at h
      · cases h
      · rename_i hlive
        split at h
        · cases h
        · cases h
          refine ⟨rfl, old, rfl, ?_⟩
          by_contra hne
          simp [hne] at hlive

theorem reported_stepUp {s : SessionStore} {e : SessionEvent} {t : Instant}
    (hstep : SessionStep s e s') (hreports : e.Reports id session) (ht : session.stepUp = some t) :
    ∃ entry, s.entries.get (keyOf id) = some entry ∧ entry.id = id ∧
      entry.session.stepUp = some t := by
  have hanswer := congrArg Prod.fst hstep
  obtain ⟨call, answer⟩ := e
  unfold SessionEvent.Reports at hreports
  split at hreports
  · rename_i presented now found heq
    cases heq
    obtain ⟨rfl, rfl⟩ := hreports
    have hfound : (s.lookup presented now).1 = some found := by
      simpa [SessionStore.perform] using hanswer
    obtain ⟨entry, hget, hid, _, rfl⟩ := lookup_found hfound
    exact ⟨entry, hget, hid, ht⟩
  · rename_i presented found heq
    cases heq
    obtain ⟨rfl, rfl⟩ := hreports
    have hfound : (s.restrict presented).1 = some found := by
      simpa [SessionStore.perform] using hanswer
    obtain ⟨entry, hget, hid, rfl⟩ := restrict_found hfound
    exact ⟨entry, hget, hid, ht⟩
  · rename_i subject scopes totp now fresh new found heq
    cases heq
    obtain ⟨rfl, rfl⟩ := hreports
    have hfound : (s.create subject scopes totp now fresh).1 = .ok (new, found) := by
      simpa [SessionStore.perform] using hanswer
    rw [create_session hfound] at ht
    cases ht
  · rename_i presented subject scopes totp now fresh new found heq
    cases heq
    obtain ⟨rfl, rfl⟩ := hreports
    have hfound : (s.rotate presented subject scopes totp now fresh).1 =
        .ok (some (new, found)) := by
      simpa [SessionStore.perform] using hanswer
    rw [(rotate_found hfound).1] at ht
    cases ht
  · exact absurd hreports id

namespace Alive

variable {idle : Nat} {issue : Issue} {last : Instant}

omit [Sha256] in
theorem established (h : Alive idle es issue last) : ∃ e ∈ es, e.issue = some issue := by
  induction h with
  | issued hissue => exact ⟨_, List.mem_append_right _ (List.mem_singleton.mpr rfl), hissue⟩
  | used _ _ _ ih | passed _ _ _ ih =>
    obtain ⟨e, hmem, hissue⟩ := ih
    exact ⟨e, List.mem_append_left _ hmem, hissue⟩

variable {before after : List SessionEvent}

omit [Sha256] in
/-- The last event of a history, seen from an event before it. -/
theorem last_event {x e : SessionEvent} (h : before ++ e :: after = es ++ [x]) :
    (after = [] ∧ x = e) ∨ ∃ rest, after = rest ++ [x] ∧ es = before ++ e :: rest := by
  rcases List.eq_nil_or_concat after with rfl | ⟨rest, y, rfl⟩
  · obtain ⟨_, hlast⟩ := List.append_inj' h rfl
    exact .inl ⟨rfl, (List.singleton_inj.mp hlast).symm⟩
  · have hassoc : (before ++ e :: rest) ++ [y] = es ++ [x] := by simpa using h
    obtain ⟨hinit, hlast⟩ := List.append_inj' hassoc rfl
    obtain rfl : y = x := List.singleton_inj.mp hlast
    exact .inr ⟨rest, List.concat_eq_append, hinit.symm⟩

omit [Sha256] in
theorem used_uncovered {e : SessionEvent} (h : e.use id = some now) (issue : Issue) :
    ¬e.Covers issue := by
  obtain ⟨call, answer⟩ := e
  cases call with
  | lookup presented time => exact fun hcover => hcover
  | _ => simp [SessionEvent.use] at h

omit [Sha256] in
/-- A session that is covered lives on only when it is established again. -/
theorem after_cover {e : SessionEvent} (h : Alive idle (before ++ e :: after) issue last)
    (hcover : e.Covers issue) : ∃ x ∈ e :: after, x.issue = some issue := by
  generalize hes : before ++ e :: after = es at h
  induction h generalizing after with
  | issued hissue =>
    rcases last_event hes with ⟨rfl, rfl⟩ | ⟨rest, rfl, rfl⟩
    · exact ⟨_, List.mem_cons_self, hissue⟩
    · exact ⟨_, by simp, hissue⟩
  | used _ hused _ ih =>
    rcases last_event hes with ⟨rfl, rfl⟩ | ⟨rest, rfl, rfl⟩
    · exact absurd hcover (used_uncovered hused _)
    · obtain ⟨x, hmem, hissue⟩ := ih hcover rfl
      exact ⟨x, by simpa using Or.imp_right .inl (List.mem_cons.mp hmem), hissue⟩
  | passed _ huncovered _ ih =>
    rcases last_event hes with ⟨rfl, rfl⟩ | ⟨rest, rfl, rfl⟩
    · exact absurd hcover huncovered
    · obtain ⟨x, hmem, hissue⟩ := ih hcover rfl
      exact ⟨x, by simpa using Or.imp_right .inl (List.mem_cons.mp hmem), hissue⟩

end Alive

omit [Sha256] in
theorem covers_of_replaced {e : SessionEvent} (h : e.replaced = some id) {issue : Issue}
    (hid : issue.id = id) : e.Covers issue := by
  obtain ⟨call, answer⟩ := e
  unfold SessionEvent.replaced at h
  split at h
  · rename_i heq
    cases heq
    cases h
    exact hid.symm
  · cases h

/-- Once rotated, an id is in no entry any more. -/
theorem replaced_gone {s : SessionStore} {e : SessionEvent} (hempty : s₀.entries = [])
    (hrun : Run SessionStep s₀ es s) (hfresh : (es.filterMap (fun e => e.issue.map Issue.id)).Nodup)
    (he : e ∈ es) (hreplaced : e.replaced = some id) : ∀ x ∈ s.entries, x.2.id ≠ id := by
  intro x hx hid
  obtain ⟨before, after, rfl⟩ := List.append_of_mem he
  obtain ⟨t, hfirst, hsecond⟩ := hrun.split
  -- the id was established before the rotation
  obtain ⟨old, holdMem, holdId⟩ : ∃ old ∈ t.entries, old.2.id = id := by
    cases hsecond with
    | cons hstep _ =>
      obtain ⟨call, answer⟩ := e
      unfold SessionEvent.replaced at hreplaced
      split at hreplaced
      · rename_i presented subject scopes totp now fresh pair heq
        cases heq
        cases hreplaced
        obtain ⟨newId, session⟩ := pair
        have hanswer : (t.rotate id subject scopes totp now fresh).1 =
            .ok (some (newId, session)) := by
          have hfst := congrArg Prod.fst hstep
          simpa [SessionStore.perform] using hfst
        obtain ⟨_, entry, hget, hentry⟩ := rotate_found hanswer
        exact ⟨_, mem_of_get hget, hentry⟩
      · cases hreplaced
  obtain ⟨_, halive⟩ := ((TableInvariant.run hempty hfirst).backed old holdMem).alive
  obtain ⟨first, hfirstMem, hfirstIssue⟩ := halive.established
  -- an entry with it now means it was established again
  obtain ⟨_, hlater⟩ := ((TableInvariant.run hempty hrun).backed x hx).alive
  obtain ⟨second, hsecondMem, hsecondIssue⟩ :=
    hlater.after_cover (covers_of_replaced hreplaced hid)
  rw [List.filterMap_append, List.nodup_append] at hfresh
  refine hfresh.2.2 id ?_ id ?_ rfl
  · refine List.mem_filterMap.mpr ⟨first, hfirstMem, ?_⟩
    rw [hfirstIssue, Option.map_some, ← holdId]
    rfl
  · refine List.mem_filterMap.mpr ⟨second, hsecondMem, ?_⟩
    rw [hsecondIssue, Option.map_some, ← hid]
    rfl

omit [Sha256] in
theorem before_deadline {now start limit : Nat} (h : now - start < limit) :
    now < start + limit := by
  omega

/-- Over every run of an empty table, with any limits, whose new ids are distinct:
the table stays within its capacity; a session it answers was established, was not
rotated, logged out or revoked since, was used at least every `idle` and is younger
than `absolute` counted from the start of its rotation chain; a replaced id is dead;
a step-up and a pending key are reported only for the id they were recorded on. -/
theorem session_table {s₀ s : SessionStore} {es : List SessionEvent} (hempty : s₀.entries = [])
    (hrun : Run SessionStep s₀ es s)
    (hfresh : (es.filterMap (fun e => e.issue.map Issue.id)).Nodup) :
    s.entries.length ≤ s₀.capacity ∧
    (∀ id now session, (s.lookup id now).1 = some session →
      (∃ issue last, issue.id = id ∧ issue.subject = session.subject ∧
        issue.handle = session.handle ∧ Alive s₀.idle es issue last ∧ now - last < s₀.idle) ∧
      ∃ t, ChainStart es id t ∧ now < t + s₀.absolute) ∧
    (∀ e ∈ es, ∀ id, e.replaced = some id → ∀ now, (s.lookup id now).1 = none) ∧
    (∀ e s' id session t, SessionStep s e s' → e.Reports id session →
      session.stepUp = some t → ⟨.stepUp id t, .done true⟩ ∈ es) ∧
    ∀ id now secret, (s.pendingTotp id now).1 = some secret →
      ∃ t, ⟨.setPendingTotp id secret t, .done true⟩ ∈ es := by
  have hinv := TableInvariant.run hempty hrun
  refine ⟨?_, ?_, ?_, ?_, ?_⟩
  · have hroom := hinv.room
    rwa [hinv.capacity] at hroom
  · intro id now session hfound
    obtain ⟨entry, hget, hid, hlive, rfl⟩ := lookup_found hfound
    have hbacked := hinv.backed _ (mem_of_get hget)
    obtain ⟨time, halive⟩ := hbacked.alive
    simp only [expired, Bool.or_eq_false_iff, decide_eq_false_iff_not, ge_iff_le,
      Nat.not_le] at hlive
    rw [hinv.idle, hinv.absolute] at hlive
    refine ⟨⟨_, _, hid, rfl, rfl, halive, hlive.1⟩, entry.session.created,
      hid ▸ hbacked.chain, ?_⟩
    exact before_deadline hlive.2
  · intro e he id hreplaced now
    by_contra hfound
    obtain ⟨session, hsome⟩ := Option.ne_none_iff_exists'.mp hfound
    obtain ⟨entry, hget, hid, _⟩ := lookup_found hsome
    exact replaced_gone hempty hrun hfresh he hreplaced _ (mem_of_get hget) hid
  · intro e s' id session t hstep hreports hstepUp
    obtain ⟨entry, hget, hid, hsame⟩ := reported_stepUp hstep hreports hstepUp
    exact hid ▸ (hinv.backed _ (mem_of_get hget)).stepUp t hsame
  · intro id now secret hfound
    obtain ⟨entry, t, hget, hid, hpending⟩ := pendingTotp_found hfound
    exact ⟨t, hid ▸ (hinv.backed _ (mem_of_get hget)).pending secret t hpending⟩

namespace SessionSample

/-- A hash that keeps its input apart. -/
@[reducible] def sha256 : Sha256 where
  of bytes := { hex := String.ofList (bytes.map (fun byte => Char.ofNat byte.toNat)) }

def store : SessionStore :=
  { entries := [], idle := 10, absolute := 100, capacity := 4 }

/-- A login, a look at the session and its rotation. -/
def calls : List Call :=
  [.create "alice" ⟨true⟩ false 0 (some ⟨"a", "c", "h"⟩), .lookup "a" 5,
    .rotate "a" "alice" none none 6 (some ⟨"b", "d", "i"⟩)]

/-- The events of calls made one after the other, and where they end. -/
def perform : SessionStore → List Call → List SessionEvent × SessionStore
  | s, [] => ([], s)
  | s, call :: rest =>
    let done := s.perform call
    let later := perform done.2 rest
    (⟨call, done.1⟩ :: later.1, later.2)

theorem run_perform (s : SessionStore) (calls : List Call) :
    Run SessionStep s (perform s calls).1 (perform s calls).2 := by
  induction calls generalizing s with
  | nil => exact .nil s
  | cons call rest ih => exact .cons rfl (ih _)

end SessionSample

omit [Sha256] in
/-- The rotated id of a login is dead and the new one is under its limits. -/
theorem session_table_rotated :
    letI := SessionSample.sha256
    let last := (SessionSample.perform SessionSample.store SessionSample.calls).2
    (last.lookup "b" 9).1.isSome = true ∧ ∀ now, (last.lookup "a" now).1 = none := by
  let _ := SessionSample.sha256
  refine ⟨by decide +kernel, ?_⟩
  have hempty : SessionSample.store.entries = [] := rfl
  have htable := session_table hempty
    (SessionSample.run_perform SessionSample.store SessionSample.calls) (by decide +kernel)
  exact htable.2.2.1 _ (List.mem_cons_of_mem _ (List.mem_cons_of_mem _ List.mem_cons_self)) "a" (by decide +kernel)

end Detent.Guarantees.SessionTable
