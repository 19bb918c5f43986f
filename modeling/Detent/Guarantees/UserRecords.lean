import Detent.Source.Credentials

/-!
# One account of the user store

What a change of `crates/detent-web/src/auth/users.rs` does to the record of the account
it names, and that it leaves the records of other accounts alone.
-/
namespace Detent.Guarantees.UserRecords
open Source.Sessions Source.Credentials

/-- The record the store uses for `name`. -/
def recordOf (name : String) (users : List UserRecord) : Option UserRecord :=
  users.find? (fun record => record.name = name)

/-- The account a change is about. -/
def account : UserChange → String
  | .create name .. | .rehash name .. | .setPassword name .. | .setTotp name ..
  | .noteTotpCounter name .. | .remove name => name

/-- What a change does to the record of its account. -/
def onRecord : UserChange → Option UserRecord → Except AuthError (Option UserRecord)
  | .create name phc mustChangePassword now, none =>
    .ok (some { name, phc, totpSecret := none, totpLastCounter := none, mustChangePassword,
                created := now, updated := now })
  | .create .., some _ => .error .userExists
  | .rehash _ _ phc now, some record => .ok (some { record with phc, updated := now })
  | .setPassword _ _ phc now, some record =>
    .ok (some { record with phc, mustChangePassword := false, updated := now })
  | .setTotp _ secret now, some record =>
    .ok (some { record with totpSecret := secret.map .key, totpLastCounter := none,
                            updated := now })
  | .noteTotpCounter _ _ counter now, some record =>
    if record.totpLastCounter.any (fun last => last ≥ counter) then .error .invalidCredentials
    else .ok (some { record with totpLastCounter := some counter, updated := now })
  | .remove _, some _ => .ok none
  | _, none => .error .unknownUser

variable {users users' : List UserRecord} {name other now : String}

@[simp]
theorem recordOf_cons (record : UserRecord) (rest : List UserRecord) :
    recordOf name (record :: rest) = if record.name = name then some record else recordOf name rest := by
  unfold recordOf
  rw [List.find?_cons]
  by_cases h : record.name = name <;> simp [h]

@[simp]
theorem recordOf_append (first second : List UserRecord) :
    recordOf name (first ++ second) = (recordOf name first).or (recordOf name second) := by
  unfold recordOf
  rw [List.find?_append]

theorem recordOf_name {r : UserRecord} (h : recordOf name users = some r) :
    r.name = name := by
  have hname := List.find?_some h
  simpa using hname

theorem recordOf_none_iff : recordOf name users = none ↔ ∀ record ∈ users, record.name ≠ name := by
  simp [recordOf]

variable {change : UserRecord → Except AuthError UserRecord}
  (h : modifyNamed name change users = .ok users')
include h

theorem modifyNamed_records (hname : ∀ r r', change r = .ok r' → r'.name = r.name) :
    ∃ r r', recordOf name users = some r ∧ change r = .ok r' ∧
      ∀ other, recordOf other users' = if other = name then some r' else recordOf other users := by
  induction users generalizing users' with
  | nil => cases h
  | cons record rest ih =>
    unfold modifyNamed at h
    by_cases hrecord : record.name = name
    · rw [if_pos hrecord] at h
      cases hchange : change record with
      | error err => rw [hchange] at h; cases h
      | ok changed =>
        rw [hchange] at h
        cases h
        have hchanged : changed.name = name := (hname _ _ hchange).trans hrecord
        refine ⟨record, changed, by simp [hrecord], hchange, fun other => ?_⟩
        by_cases hother : other = name
        · simp [hchanged, hother]
        · simp [hrecord, hchanged, hother, Ne.symm hother]
    · rw [if_neg hrecord] at h
      cases hrest : modifyNamed name change rest with
      | error err => rw [hrest] at h; cases h
      | ok changed =>
        rw [hrest] at h
        cases h
        obtain ⟨r, r', hr, hchange, hall⟩ := ih hrest
        refine ⟨r, r', by simp [hrecord, hr], hchange, fun other => ?_⟩
        by_cases hother : record.name = other
        · simp [← hother, hrecord]
        · simp [hother, hall]

theorem modifyNamed_record (hname : ∀ r r', change r = .ok r' → r'.name = r.name) :
    ∃ r r', recordOf name users = some r ∧ change r = .ok r' ∧ recordOf name users' = some r' := by
  obtain ⟨r, r', hr, hchange, hall⟩ := modifyNamed_records h hname
  exact ⟨r, r', hr, hchange, (hall name).trans (if_pos rfl)⟩

theorem modifyNamed_other (hname : ∀ r r', change r = .ok r' → r'.name = r.name)
    (hother : other ≠ name) : recordOf other users' = recordOf other users := by
  obtain ⟨_, _, -, -, hall⟩ := modifyNamed_records h hname
  exact (hall other).trans (if_neg hother)

omit h

/-- A change of an account that exists is made. -/
theorem modifyNamed_ok {r r' : UserRecord} (hr : recordOf name users = some r)
    (hchange : change r = .ok r') : ∃ users', modifyNamed name change users = .ok users' := by
  induction users with
  | nil => cases hr
  | cons record rest ih =>
    rw [recordOf_cons] at hr
    unfold modifyNamed
    by_cases hrecord : record.name = name
    · rw [if_pos hrecord, Option.some.injEq] at hr
      subst hr
      exact ⟨r' :: rest, by rw [if_pos hrecord, hchange]; rfl⟩
    · rw [if_neg hrecord] at hr ⊢
      obtain ⟨rest', hrest⟩ := ih hr
      exact ⟨record :: rest', by rw [hrest]; rfl⟩

theorem update_record {change : UserRecord → UserRecord}
    (h : update name now change users = .ok users') (hname : ∀ r, (change r).name = r.name) :
    ∃ r, recordOf name users = some r ∧
      recordOf name users' = some { change r with updated := now } := by
  obtain ⟨r, _, hr, hchange, hr'⟩ := modifyNamed_record h (fun r r' hr => by cases hr; exact hname r)
  cases hchange
  exact ⟨r, hr, hr'⟩

theorem update_other {change : UserRecord → UserRecord}
    (h : update name now change users = .ok users') (hname : ∀ r, (change r).name = r.name) (hother : other ≠ name) :
    recordOf other users' = recordOf other users :=
  modifyNamed_other h (fun r r' hr => by cases hr; exact hname r) hother

theorem recordOf_filter (hother : other ≠ name) :
    recordOf other (users.filter (fun record => record.name ≠ name)) = recordOf other users := by
  induction users with
  | nil => rfl
  | cons record rest ih =>
    by_cases hrecord : record.name = name
    · have hne : record.name ≠ other := fun h => hother (h.symm.trans hrecord)
      rw [List.filter_cons_of_neg (by simpa using hrecord), ih, recordOf_cons, if_neg hne]
    · rw [List.filter_cons_of_pos (by simpa using hrecord), recordOf_cons, recordOf_cons, ih]

theorem filter_shorter (h : (users.filter (fun record => record.name ≠ name)).length ≠ users.length) :
    ∃ r, recordOf name users = some r := by
  by_contra hnone
  have hnone : recordOf name users = none := by
    cases hr : recordOf name users with
    | none => rfl
    | some r => exact absurd ⟨r, hr⟩ hnone
  refine h (congrArg List.length (List.filter_eq_self.mpr ?_))
  intro record hmem
  simpa using recordOf_none_iff.mp hnone record hmem

theorem noted_name {counter : Nat} (r r' : UserRecord)
    (h : (if r.totpLastCounter.any (fun last => last ≥ counter) then .error .invalidCredentials
      else .ok { r with totpLastCounter := some counter, updated := now } :
        Except AuthError UserRecord) = .ok r') : r'.name = r.name := by
  split at h
  · cases h
  · cases h
    rfl

theorem apply_onRecord {change : UserChange} (h : change.apply users = .ok users') :
    onRecord change (recordOf (account change) users) = .ok (recordOf (account change) users') := by
  cases change with
  | create name phc mustChangePassword now =>
    simp only [UserChange.apply] at h
    split at h
    · cases h
    · rename_i hany
      cases h
      have hnone : recordOf name users = none := by
        rw [recordOf_none_iff]
        simpa using hany
      simp [account, onRecord, hnone, recordOf_cons]
  | rehash | setPassword | setTotp =>
    obtain ⟨r, hr, hr'⟩ := update_record h (fun _ => rfl)
    simp only [account, onRecord, hr, hr']
  | noteTotpCounter name secret counter now =>
    obtain ⟨r, r', hr, hchange, hr'⟩ := modifyNamed_record h noted_name
    simp only [account, onRecord, hr, hr']
    split at hchange
    · cases hchange
    · rename_i hlast
      cases hchange
      rw [if_neg hlast]
  | remove name =>
    simp only [UserChange.apply] at h
    split at h
    · cases h
    · rename_i hshorter
      cases h
      obtain ⟨r, hr⟩ := filter_shorter hshorter
      have hgone : recordOf name (users.filter (fun record => record.name ≠ name)) = none := by
        rw [recordOf_none_iff]
        intro record hmem
        simpa using (List.mem_filter.mp hmem).2
      simp only [account, onRecord, hr]
      exact congrArg Except.ok hgone.symm

/-- A change of an account that has to exist. -/
theorem apply_own {change : UserChange} (h : change.apply users = .ok users')
    (hnone : onRecord change none = .error .unknownUser) :
    ∃ r, recordOf (account change) users = some r ∧
      onRecord change (some r) = .ok (recordOf (account change) users') := by
  have hon := apply_onRecord h
  cases hr : recordOf (account change) users with
  | none =>
    rw [hr, hnone] at hon
    cases hon
  | some r =>
    rw [hr] at hon
    exact ⟨r, rfl, hon⟩

/-- A change leaves the records of other accounts alone. -/
theorem apply_other {change : UserChange} (h : change.apply users = .ok users')
    (hother : other ≠ account change) : recordOf other users' = recordOf other users := by
  cases change with
  | create name phc mustChangePassword now =>
    simp only [UserChange.apply] at h
    split at h
    · cases h
    · cases h
      have hne : name ≠ other := hother.symm
      simp [hne, recordOf]
  | rehash | setPassword | setTotp => exact update_other h (fun _ => rfl) hother
  | noteTotpCounter name secret counter now =>
    exact modifyNamed_other h noted_name hother
  | remove name =>
    simp only [UserChange.apply] at h
    split at h
    · cases h
    · cases h
      exact recordOf_filter hother

end Detent.Guarantees.UserRecords
