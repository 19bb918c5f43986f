import Mathlib.Logic.Function.Basic
import Detent.Source.AuditJson

/-!
# The auth log

`crates/detent-web/src/auth/audit.rs:52,61-160,262-361`: the records of
`FileAuthAudit`, the line `append` writes for one, the parse of `query`, and the
steps of `append` on the files of the log and of `.jsonl.1`.

A file is a number and keeps its contents when a rename takes its name away, so
that an open file can still be written. The directory, the modes and the
`tracing` event are left out.
-/
namespace Detent.Source.AuthLog
open Lib Lib.Codec Lib.JsonString AuditLog AuditJson

/-- `ROTATE_AT`. -/
def rotateAt : Nat := 16 * 1024 * 1024

/-- What happened. -/
inductive AuthEvent where
  | loginSucceeded | loginFailed | lockedOut | passwordChanged | passwordChangeFailed
  | loggedOut | sessionRevoked | stepUpSucceeded | stepUpFailed | tokenIssued | tokenRevoked
  | userCreated | userRemoved | totpEnabled | totpDisabled | totpReplayed | scopeDenied
  | credentialRejected | certRenewRequested | tokenRateLimited
  deriving DecidableEq, Repr

/-- One line of the auth log. -/
structure AuthRecord where
  ts : String
  event : AuthEvent
  subject : String
  kind : IdentityKind
  clientIp : Option String
  result : AuditResult
  detail : Option String
  suppressed : Option (Fin (2 ^ 32))
  actor : Option String
  deriving DecidableEq, Repr

def eventName : AuthEvent → String
  | .loginSucceeded => "login_succeeded"
  | .loginFailed => "login_failed"
  | .lockedOut => "locked_out"
  | .passwordChanged => "password_changed"
  | .passwordChangeFailed => "password_change_failed"
  | .loggedOut => "logged_out"
  | .sessionRevoked => "session_revoked"
  | .stepUpSucceeded => "step_up_succeeded"
  | .stepUpFailed => "step_up_failed"
  | .tokenIssued => "token_issued"
  | .tokenRevoked => "token_revoked"
  | .userCreated => "user_created"
  | .userRemoved => "user_removed"
  | .totpEnabled => "totp_enabled"
  | .totpDisabled => "totp_disabled"
  | .totpReplayed => "totp_replayed"
  | .scopeDenied => "scope_denied"
  | .credentialRejected => "credential_rejected"
  | .certRenewRequested => "cert_renew_requested"
  | .tokenRateLimited => "token_rate_limited"

def eventOfName : String → Option AuthEvent
  | "login_succeeded" => some .loginSucceeded
  | "login_failed" => some .loginFailed
  | "locked_out" => some .lockedOut
  | "password_changed" => some .passwordChanged
  | "password_change_failed" => some .passwordChangeFailed
  | "logged_out" => some .loggedOut
  | "session_revoked" => some .sessionRevoked
  | "step_up_succeeded" => some .stepUpSucceeded
  | "step_up_failed" => some .stepUpFailed
  | "token_issued" => some .tokenIssued
  | "token_revoked" => some .tokenRevoked
  | "user_created" => some .userCreated
  | "user_removed" => some .userRemoved
  | "totp_enabled" => some .totpEnabled
  | "totp_disabled" => some .totpDisabled
  | "totp_replayed" => some .totpReplayed
  | "scope_denied" => some .scopeDenied
  | "credential_rejected" => some .credentialRejected
  | "cert_renew_requested" => some .certRenewRequested
  | "token_rate_limited" => some .tokenRateLimited
  | _ => none

/-- The fields in declaration order; `suppressed` and `actor` only when set. -/
def recordFields :
    Codec (String × AuthEvent × String × IdentityKind × Option String × AuditResult ×
      Option String × Option (Fin (2 ^ 32)) × Option String) :=
  pair (keyed (key "\x7b\"ts\":") string)
    (pair (keyed (key ",\"event\":") (through string eventName eventOfName))
      (pair (keyed (key ",\"subject\":") string)
        (pair (keyed (key ",\"kind\":") (through string kindName kindOfName))
          (pair (keyed (key ",\"client_ip\":") nullable)
            (pair (keyed (key ",\"result\":") (through string resultName resultOfName))
              (pair (keyed (key ",\"detail\":") nullable)
                (pair (optional (key ",\"suppressed\":") (fin (2 ^ 32)))
                  (optional (key ",\"actor\":") string))))))))

def authRecord : Codec AuthRecord :=
  through (closed recordFields (key "\x7d"))
    (fun r => (r.ts, r.event, r.subject, r.kind, r.clientIp, r.result, r.detail, r.suppressed,
      r.actor))
    (fun (ts, event, subject, kind, clientIp, result, detail, suppressed, actor) => some
      { ts, event, subject, kind, clientIp, result, detail, suppressed, actor })

/-- `serde_json::to_vec` on a record. -/
def toVec (r : AuthRecord) : Bytes := utf8 (authRecord.write r)

/-- The line `append` writes. -/
def line (r : AuthRecord) : Bytes := toVec r ++ [newline]

/-- The part of `serde_json::from_str` that takes a record in the writer's own
spelling. -/
def fromStr (text : Bytes) : Option AuthRecord :=
  match (ofUtf8 text).bind authRecord.read with
  | some (r, []) => some r
  | _ => none

/-- `str::lines` takes one `\r` off the end of a line. -/
def stripReturn (text : Bytes) : Bytes :=
  if text.getLast? = some 13 then text.dropLast else text

/-- The records `query` parses from the contents of a file, oldest first, with the
reader `parse`. That the contents must be UTF-8 as a whole is left out. -/
def records (parse : Bytes → Option AuthRecord) (raw : Bytes) : List AuthRecord :=
  ((visibleLines raw).map stripReturn).filterMap parse

/-- What follows the fields: no digit, and neither optional key. -/
def afterFields (rest : List Char) : Prop :=
  strip (key ",\"actor\":") rest = none ∧ strip (key ",\"suppressed\":") rest = none ∧
    notDigit rest

theorem recordFields_exact : recordFields.ExactOn afterFields := by
  have hevent : (through string eventName eventOfName).ExactOn anything :=
    through_exact string_exact (fun e => by cases e <;> rfl)
  have hkind : (through string kindName kindOfName).ExactOn anything :=
    through_exact string_exact (fun k => by cases k <;> rfl)
  have hresult : (through string resultName resultOfName).ExactOn anything :=
    through_exact string_exact (fun r => by cases r <;> rfl)
  have hactor : (optional (key ",\"actor\":") string).ExactOn afterFields :=
    (optional_exact (key ",\"actor\":") string_exact).weaken (fun rest h => ⟨trivial, h.1⟩)
  have hsuppressed := pair_exact
    (optional_exact (key ",\"suppressed\":") (fin_exact (2 ^ 32))) hactor ?_
  · exact pair_exact (keyed_exact _ string_exact) (pair_exact (keyed_exact _ hevent)
      (pair_exact (keyed_exact _ string_exact) (pair_exact (keyed_exact _ hkind)
        (pair_exact (keyed_exact _ nullable_exact) (pair_exact (keyed_exact _ hresult)
          (pair_exact (keyed_exact _ nullable_exact) hsuppressed (fun _ _ _ => trivial))
          (fun _ _ _ => trivial)) (fun _ _ _ => trivial)) (fun _ _ _ => trivial))
        (fun _ _ _ => trivial)) (fun _ _ _ => trivial)) (fun _ _ _ => trivial)
  · rintro (_ | actor) rest h
    · exact ⟨h.2.2, h.2.1⟩
    · exact ⟨fun c hc => by cases hc; rfl, rfl⟩

theorem authRecord_exact : authRecord.ExactOn anything := by
  have hbrace : ∀ rest, afterFields (key "\x7d" ++ rest) :=
    fun rest => ⟨rfl, rfl, fun c hc => by cases hc; rfl⟩
  exact through_exact (closed_exact recordFields_exact hbrace) (fun _ => rfl)

theorem authRecord_avoids_lineFeed : authRecord.Avoids '\n' := by
  have hs := string_avoids_lineFeed
  have hn := nullable_avoids_lineFeed
  have hnat : (fin (2 ^ 32)).Avoids '\n' := through_avoids (nat_avoids rfl)
  refine through_avoids (closed_avoids ?_ (by decide))
  exact pair_avoids (keyed_avoids (by decide) hs) (pair_avoids (keyed_avoids (by decide)
    (through_avoids hs)) (pair_avoids (keyed_avoids (by decide) hs) (pair_avoids
      (keyed_avoids (by decide) (through_avoids hs)) (pair_avoids (keyed_avoids (by decide) hn)
        (pair_avoids (keyed_avoids (by decide) (through_avoids hs)) (pair_avoids
          (keyed_avoids (by decide) hn) (pair_avoids (optional_avoids (by decide) hnat)
            (optional_avoids (by decide) hs))))))))

variable (r : AuthRecord)

/-- The writer's own text is read back. -/
theorem fromStr_toVec : fromStr (toVec r) = some r := by
  have hread : authRecord.read (authRecord.write r) = some (r, []) := by
    simpa using authRecord_exact r [] trivial
  simp only [fromStr, toVec, ofUtf8_utf8, Option.bind_some, hread]

theorem newline_not_mem_toVec : newline ∉ toVec r :=
  lineFeed_not_mem_utf8 _ (authRecord_avoids_lineFeed r)

/-- A text starts with an opening brace, so its line is not blank. -/
theorem isBlank_toVec : isBlank (toVec r) = false := rfl

/-- A text ends in a closing brace, so its line has no `\r` to strip. -/
theorem stripReturn_toVec : stripReturn (toVec r) = toVec r := by
  have hlast : (toVec r).getLast? = some 125 := by
    have htext : authRecord.write r = (authRecord.write r).dropLast ++ ['\x7d'] := by
      simp [authRecord, through, closed, key]
    rw [toVec, htext, utf8, List.flatMap_append, List.getLast?_append]
    rfl
  rw [stripReturn, hlast]
  rfl

/-- The files and the two names: the file `log` names, the file `.jsonl.1` names,
what each file holds, and the number of the next file. -/
structure AuthFiles where
  log : Option Nat
  rotated : Option Nat
  contents : Nat → Bytes
  fresh : Nat

/-- `metadata(&self.path).is_ok_and(|m| m.len() >= ROTATE_AT)`. -/
def AuthFiles.full (f : AuthFiles) : Bool :=
  match f.log with
  | none => false
  | some file => decide (rotateAt ≤ (f.contents file).length)

/-- `rename(&self.path, &rotated)`: the older file loses its name. -/
def AuthFiles.rename (f : AuthFiles) : Option AuthFiles :=
  match f.log with
  | none => none
  | some file => some { f with log := none, rotated := some file }

/-- `OpenOptions::new().create(true).append(true).open(&self.path)`. -/
def AuthFiles.openLog (f : AuthFiles) : Nat × AuthFiles :=
  match f.log with
  | some file => (file, f)
  | none => (f.fresh,
      { f with
        log := some f.fresh
        contents := Function.update f.contents f.fresh []
        fresh := f.fresh + 1 })

/-- Bytes at the end of an open file. -/
def AuthFiles.append (f : AuthFiles) (file : Nat) (bytes : Bytes) : AuthFiles :=
  { f with contents := Function.update f.contents file (f.contents file ++ bytes) }

@[simp] theorem AuthFiles.append_contents_self (f : AuthFiles) (file : Nat) (bytes : Bytes) :
    (f.append file bytes).contents file = f.contents file ++ bytes :=
  Function.update_self ..

theorem AuthFiles.append_contents_of_ne (f : AuthFiles) {file other : Nat} (h : other ≠ file)
    (bytes : Bytes) : (f.append file bytes).contents other = f.contents other :=
  Function.update_of_ne h ..

/-- Where a call of `append` stands: before the size check, before the rename,
before the open, before the write to the file it opened, and before `sync_data`.
The last carries how many bytes had been appended to the log by then. -/
inductive Stage where
  | checking
  | rotating
  | opening
  | writing (file : Nat)
  | syncing (mark : Nat)
  deriving DecidableEq, Repr

/-- The processes that append to the log. -/
inductive Process where
  | worker | commandLine
  deriving DecidableEq, Repr

end Detent.Source.AuthLog
