import Detent.Guarantees.SessionTable

/-!
# Entries that stay in the session table

What an operation of `crates/detent-web/src/auth/session.rs:331-613` may do to the subject
and the restriction of an entry, and what the two that establish a session put there.
-/
namespace Detent.Guarantees.SessionEntries
open Lib Source Source.Sessions SessionTable

variable [Sha256]

/-- An entry is the one that was under its key, which was restricted if that was. -/
structure Continues (old new : Sha256Digest × Entry) : Prop where
  key : new.1 = old.1
  id : new.2.id = old.2.id
  subject : new.2.session.subject = old.2.session.subject
  restricted : old.2.session.mustChangePassword = true → new.2.session.mustChangePassword = true

/-- Every entry was there. -/
def Remain (entries entries' : Entries) : Prop := ∀ x ∈ entries', ∃ old ∈ entries, Continues old x

omit [Sha256] in
theorem Continues.refl (x : Sha256Digest × Entry) : Continues x x :=
  ⟨rfl, rfl, rfl, fun h => h⟩

variable {entries : Entries} {store store' : SessionStore}

omit [Sha256] in
theorem remain_sublist {kept : Entries} (h : ∀ x ∈ kept, x ∈ entries) : Remain entries kept :=
  fun x hx => ⟨x, h x hx, .refl x⟩

omit [Sha256] in
theorem remain_remove (key : Sha256Digest) : Remain entries (entries.remove key) :=
  remain_sublist (fun _ hx => (mem_remove.mp hx).1)

omit [Sha256] in
theorem remain_put {key : Sha256Digest} {old new : Entry} (hget : entries.get key = some old)
    (hnew : Continues (key, old) (key, new)) : Remain entries (entries.put key new) := by
  intro x hx
  rcases mem_put.mp hx with rfl | ⟨hmem, -⟩
  · exact ⟨(key, old), mem_of_get hget, hnew⟩
  · exact ⟨x, hmem, .refl x⟩

omit [Sha256] in
theorem remain_same : Remain entries entries := remain_sublist (fun _ hx => hx)

theorem lookup_remain (presented : String) (now : Instant) :
    Remain store.entries (store.lookup presented now).2.entries := by
  refine presented_cases (P := fun r => Remain store.entries r.2.entries) remain_same
    (fun entry hget _ => ?_)
  split
  · exact remain_remove _
  · exact remain_put hget ⟨rfl, rfl, rfl, fun h => h⟩

theorem stepUp_remain (presented : String) (now : Instant) :
    Remain store.entries (store.stepUp presented now).2.entries := by
  refine presented_cases (P := fun r => Remain store.entries r.2.entries) remain_same
    (fun entry hget _ => ?_)
  split
  · exact remain_remove _
  · exact remain_put hget ⟨rfl, rfl, rfl, fun h => h⟩

theorem setPendingTotp_remain (presented : String) (secret : TotpSecret) (now : Instant) :
    Remain store.entries (store.setPendingTotp presented secret now).2.entries :=
  presented_cases (P := fun r => Remain store.entries r.2.entries) remain_same
    (fun _ hget _ => remain_put hget ⟨rfl, rfl, rfl, fun h => h⟩)

theorem pendingTotp_remain (presented : String) (now : Instant) :
    Remain store.entries (store.pendingTotp presented now).2.entries := by
  refine presented_cases (P := fun r => Remain store.entries r.2.entries) remain_same
    (fun entry hget _ => ?_)
  split
  · exact remain_same
  · split
    · exact remain_put hget ⟨rfl, rfl, rfl, fun h => h⟩
    · exact remain_same

theorem takePendingTotp_remain (presented : String) :
    Remain store.entries (store.takePendingTotp presented).2.entries :=
  presented_cases (P := fun r => Remain store.entries r.2.entries) remain_same
    (fun _ hget _ => remain_put hget ⟨rfl, rfl, rfl, fun h => h⟩)

theorem restrict_remain (presented : String) :
    Remain store.entries (store.restrict presented).2.entries :=
  presented_cases (P := fun r => Remain store.entries r.2.entries) remain_same
    (fun _ hget _ => remain_put hget ⟨rfl, rfl, rfl, fun _ => rfl⟩)

variable {presented subject : String} {now : Instant} {fresh : Option Fresh}

theorem restrict_restricted (hkeys : WellKeyed store.entries) :
    ∀ x ∈ (store.restrict presented).2.entries, x.2.id = presented →
      x.2.session.mustChangePassword = true := by
  intro x hx hid
  unfold SessionStore.restrict at hx
  cases hget : store.entries.get (keyOf presented) with
  | none =>
    rw [hget] at hx
    refine absurd ?_ (get_eq_none hget x hx)
    rw [hkeys.keyed x hx, hid]
  | some entry =>
    rw [hget] at hx
    simp only at hx
    split at hx
    · rename_i hne
      have hsame := hkeys.get_of_mem hx
      rw [hkeys.keyed x hx, hid, hget, Option.some.injEq] at hsame
      rw [← hsame] at hid
      exact absurd hid hne
    · rcases mem_put.mp hx with rfl | ⟨hmem, hkey⟩
      · rfl
      · refine absurd ?_ hkey
        rw [hkeys.keyed x hmem, hid]

/-- What a session under a fresh id leaves: its own entry and some that were there. -/
def Enters (entries entries' : Entries) (id : Secret) (subject : String) : Prop :=
  ∀ x ∈ entries', (x.1 = keyOf id ∧ x.2.id = id ∧ x.2.session.subject = subject) ∨
    (x ∈ entries ∧ x.1 ≠ keyOf id)

theorem create_enters {scopes : Scopes} {totp : Bool} {id : Secret} {session : Session}
    (h : (store.create subject scopes totp now fresh).1 = .ok (id, session)) :
    Enters store.entries (store.create subject scopes totp now fresh).2.entries id subject := by
  unfold SessionStore.create at h ⊢
  cases fresh with
  | none => cases h
  | some fresh =>
    simp only at h ⊢
    split at h
    · cases h
    · rename_i hroom
      rw [if_neg hroom]
      cases h
      intro x hx
      rcases mem_put.mp hx with rfl | ⟨hmem, hkey⟩
      · exact .inl ⟨rfl, rfl, rfl⟩
      · exact .inr ⟨(List.mem_filter.mp hmem).1, hkey⟩

theorem create_remain {scopes : Scopes} {totp : Bool} {err : AuthError}
    (h : (store.create subject scopes totp now fresh).1 = .error err) :
    Remain store.entries (store.create subject scopes totp now fresh).2.entries := by
  unfold SessionStore.create at h ⊢
  cases fresh with
  | none => exact remain_sublist (fun _ hx => hx)
  | some fresh =>
    simp only at h ⊢
    split at h
    · rename_i hfull
      rw [if_pos hfull]
      exact remain_sublist (fun _ hx => (List.mem_filter.mp hx).1)
    · cases h

theorem rotate_enters {scopes : Option Scopes} {totp : Option Bool} {id : Secret}
    {session : Session}
    (h : (store.rotate presented subject scopes totp now fresh).1 = .ok (some (id, session))) :
    Enters store.entries (store.rotate presented subject scopes totp now fresh).2.entries id
      subject := by
  unfold SessionStore.rotate at h ⊢
  cases fresh with
  | none => cases h
  | some fresh =>
    simp only at h ⊢
    cases hget : store.entries.get (keyOf presented) with
    | none =>
      rw [hget] at h
      cases h
    | some old =>
      rw [hget] at h
      simp only at h ⊢
      split at h
      · cases h
      · rename_i hlive
        rw [if_neg hlive]
        split at h
        · cases h
        · rename_i hsubject
          rw [if_neg hsubject]
          cases h
          intro x hx
          rcases mem_put.mp hx with rfl | ⟨hmem, hkey⟩
          · exact .inl ⟨rfl, rfl, not_not.mp hsubject⟩
          · exact .inr ⟨(mem_remove.mp hmem).1, hkey⟩

theorem rotate_remain {scopes : Option Scopes} {totp : Option Bool}
    (h : ∀ pair, (store.rotate presented subject scopes totp now fresh).1 ≠ .ok (some pair)) :
    Remain store.entries (store.rotate presented subject scopes totp now fresh).2.entries := by
  unfold SessionStore.rotate at h ⊢
  cases fresh with
  | none => exact remain_sublist (fun _ hx => hx)
  | some fresh =>
    simp only at h ⊢
    cases hget : store.entries.get (keyOf presented) with
    | none => exact remain_sublist (fun _ hx => hx)
    | some old =>
      rw [hget] at h
      simp only at h ⊢
      split
      · exact remain_remove _
      · rename_i hlive
        rw [if_neg hlive] at h
        split
        · exact remain_remove _
        · rename_i hsubject
          rw [if_neg hsubject] at h
          exact absurd rfl (h _)

end Detent.Guarantees.SessionEntries
