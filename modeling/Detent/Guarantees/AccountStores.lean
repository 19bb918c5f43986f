import Mathlib.Data.List.Basic
import Detent.Guarantees.UserRecords
import Detent.Lib.Pool
import Detent.Source.Accounts

/-!
# The user store and the session table of one process

The refresh and the changes of `crates/detent-web/src/auth/users.rs:351-409,580-610`.
-/
namespace Detent.Guarantees.AccountStores
open Lib Source Source.Sessions Source.Credentials Source.Accounts UserRecords

theorem find_eq (name : String) (users : List UserRecord) : find name users = recordOf name users := rfl

theorem replaced_self (users : List UserRecord) (name : String) :
    replaced users users name = false := by
  unfold replaced
  cases find name users with
  | none => rfl
  | some old => simp

theorem refresh_settled {s : Stores} (h : s.file = s.users) : s.refresh = s := by
  have hfold : ∀ names : List String, names.foldl (fun sessions name =>
      if replaced s.users s.users name then sessions.revokeSubject name else sessions) s.sessions
        = s.sessions := by
    intro names
    refine List.foldl_fixed' (fun name => ?_) names
    rw [replaced_self]
    rfl
  unfold Stores.refresh
  rw [h, hfold]
  cases s
  cases h
  rfl

theorem mutate_settled {s : Stores} (h : s.file = s.users) (change : UserChange) :
    s.mutate change = match change.apply s.users with
      | .error err => (.error err, s)
      | .ok users => (.ok (), { s with file := users, users }) := by
  unfold Stores.mutate
  rewrite [refresh_settled h]
  rfl

/-- The end of `UserStore::verify_password`, for the record it looked at. -/
def verified (r : UserRecord) : AccountM VerifiedUser :=
  match r.totpSecret with
  | some (.unreadable _) => throw .totpSecretInvalid
  | some (.key secret) =>
    pure { name := r.name, totp := some secret, totpLastCounter := r.totpLastCounter
           mustChangePassword := r.mustChangePassword }
  | none =>
    pure { name := r.name, totp := none, totpLastCounter := r.totpLastCounter
           mustChangePassword := r.mustChangePassword }

theorem holds_verified {σ ρ α ω : Type} {v : Service StoreOp σ ρ α ω} {d : Discipline StoreOp σ ρ ω}
    {i : Nat} {K : Except AuthError VerifiedUser → σ → Prop} {r : UserRecord} {s : σ}
    (hok : ∀ totp, r.totpSecret = totp.map .key →
      K (.ok ⟨r.name, totp, r.totpLastCounter, r.mustChangePassword⟩) s)
    (herror : ∀ text, r.totpSecret = some (.unreadable text) → K (.error .totpSecretInvalid) s) :
    Lib.Holds v d i K (verified r).run s := by
  unfold verified
  cases htotp : r.totpSecret with
  | none => exact hok none htotp
  | some stored =>
    cases stored with
    | key secret => exact hok (some secret) htotp
    | unreadable text => exact herror text htotp

end Detent.Guarantees.AccountStores
