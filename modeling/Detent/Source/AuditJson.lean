import Detent.Lib.JsonString
import Detent.Lib.Utf8
import Detent.Source.AuditLog

/-!
# The JSON text of an audit record

The line `serde_json::to_vec` writes for the `Serialize` derives of
`crates/detent-ops/src/audit.rs:53-130`, `identity.rs:12-22` and
`op.rs:225-264`: fields in declaration order, enumerations by their snake-case
names, `skip_serializing_if` fields left out when absent. The reader accepts
exactly the texts the writer produces, so it is a part of `from_slice`, which
also takes other spellings of the same JSON.
-/
namespace Detent.Source.AuditJson

open Lib Lib.Codec Lib.JsonString AuditLog

def kindName : IdentityKind → String
  | .localUser => "local_user"
  | .session => "session"
  | .token => "token"

def kindOfName : String → Option IdentityKind
  | "local_user" => some .localUser
  | "session" => some .session
  | "token" => some .token
  | _ => none

def opName : OpKind → String
  | .listModules => "list_modules"
  | .getModule => "get_module"
  | .validate => "validate"
  | .plan => "plan"
  | .apply => "apply"
  | .confirmCommit => "confirm_commit"
  | .rollbackCommit => "rollback_commit"
  | .listBackups => "list_backups"
  | .restore => "restore"
  | .serviceStatus => "service_status"
  | .serviceAction => "service_action"
  | .hostProfile => "host_profile"
  | .auditQuery => "audit_query"
  | .updateStatus => "update_status"
  | .certStatus => "cert_status"
  | .certRenew => "cert_renew"
  | .updateApply => "update_apply"

def opOfName : String → Option OpKind
  | "list_modules" => some .listModules
  | "get_module" => some .getModule
  | "validate" => some .validate
  | "plan" => some .plan
  | "apply" => some .apply
  | "confirm_commit" => some .confirmCommit
  | "rollback_commit" => some .rollbackCommit
  | "list_backups" => some .listBackups
  | "restore" => some .restore
  | "service_status" => some .serviceStatus
  | "service_action" => some .serviceAction
  | "host_profile" => some .hostProfile
  | "audit_query" => some .auditQuery
  | "update_status" => some .updateStatus
  | "cert_status" => some .certStatus
  | "cert_renew" => some .certRenew
  | "update_apply" => some .updateApply
  | _ => none

def resultName : AuditResult → String
  | .ok => "ok"
  | .denied => "denied"
  | .error => "error"
  | .started => "started"

def resultOfName : String → Option AuditResult
  | "ok" => some .ok
  | "denied" => some .denied
  | "error" => some .error
  | "started" => some .started
  | _ => none

def key (text : String) : List Char := text.toList

/-- `AuditChain`: `torn` is written only when set. -/
def chainFields : Codec (Fin (2 ^ 64) × Option String × String × Option String) :=
  pair (keyed (key "\x7b\"sequence\":") (fin (2 ^ 64)))
    (pair (keyed (key ",\"prev\":") nullable)
      (pair (keyed (key ",\"hash\":") string) (optional (key ",\"torn\":") string)))

def chain : Codec AuditChain :=
  through (closed chainFields (key "\x7d"))
    (fun c => (c.sequence, c.prev, c.hash, c.torn))
    (fun (sequence, prev, hash, torn) => some { sequence, prev, hash, torn })

/-- The fields of a record that are always written, before the optional ones. -/
def headFields :
    Codec (String × String × IdentityKind × OpKind × Option String × Option String ×
      Option String) :=
  pair (keyed (key "\x7b\"ts\":") string)
    (pair (keyed (key ",\"who\":") string)
      (pair (keyed (key ",\"kind\":") (through string kindName kindOfName))
        (pair (keyed (key ",\"op\":") (through string opName opOfName))
          (pair (keyed (key ",\"module\":") nullable)
            (pair (keyed (key ",\"prev_hash\":") nullable)
              (keyed (key ",\"new_hash\":") nullable))))))

def tailFields :
    Codec (Option String × Option String × Option (Fin (2 ^ 32)) × AuditResult ×
      Option String × Option AuditChain) :=
  pair (optional (key ",\"before_hash\":") string)
    (pair (optional (key ",\"after_hash\":") string)
      (pair (optional (key ",\"commit_id\":") (fin (2 ^ 32)))
        (pair (keyed (key ",\"result\":") (through string resultName resultOfName))
          (pair (keyed (key ",\"error_id\":") nullable)
            (optional (key ",\"chain\":") chain)))))

def record : Codec AuditRecord :=
  through (closed (pair headFields tailFields) (key "\x7d"))
    (fun r => ((r.ts, r.who, r.kind, r.op, r.module, r.prevHash, r.newHash),
      (r.beforeHash, r.afterHash, r.commitId, r.result, r.errorId, r.chain)))
    (fun ((ts, who, kind, op, module, prevHash, newHash),
        (beforeHash, afterHash, commitId, result, errorId, chain)) => some
      { ts, who, kind, op, module, prevHash, newHash, beforeHash, afterHash, commitId, result,
        errorId, chain })

/-- `serde_json` on audit records, over a given hash. -/
def backend (sha256Hex : Bytes → String) : Backend where
  toVec r := .ok (utf8 (record.write r))
  fromSlice bytes :=
    match (ofUtf8 bytes).bind record.read with
    | some (r, []) => .ok r
    | _ => .error "expected an audit record"
  sha256Hex := sha256Hex

theorem chainFields_exact :
    chainFields.ExactOn (fun rest => strip (key ",\"torn\":") rest = none) := by
  have htorn := optional_exact (key ",\"torn\":") string_exact
  refine pair_exact (keyed_exact _ (fin_exact _)) (pair_exact (keyed_exact _ nullable_exact)
    (pair_exact (keyed_exact _ string_exact) (htorn.weaken (fun rest h => ⟨trivial, h⟩))
      (fun _ _ _ => trivial)) (fun _ _ _ => trivial)) ?_
  intro b rest _ c hc
  -- the number is followed by the comma of the next key
  have hkey : key ",\"prev\":" = ',' :: (key ",\"prev\":").tail := by decide
  change ((key ",\"prev\":" ++ _) ++ _ ++ rest).head? = some c at hc
  rw [hkey] at hc
  cases hc
  rfl

theorem chain_exact : chain.ExactOn anything :=
  through_exact (closed_exact chainFields_exact (fun _ => rfl)) (fun _ => rfl)

theorem headFields_exact : headFields.ExactOn anything := by
  have hkind : (through string kindName kindOfName).ExactOn anything :=
    through_exact string_exact (fun k => by cases k <;> rfl)
  have hop : (through string opName opOfName).ExactOn anything :=
    through_exact string_exact (fun o => by cases o <;> rfl)
  exact pair_exact (keyed_exact _ string_exact) (pair_exact (keyed_exact _ string_exact)
    (pair_exact (keyed_exact _ hkind) (pair_exact (keyed_exact _ hop)
      (pair_exact (keyed_exact _ nullable_exact) (pair_exact (keyed_exact _ nullable_exact)
        (keyed_exact _ nullable_exact) (fun _ _ h => h)) (fun _ _ h => h))
        (fun _ _ h => h)) (fun _ _ h => h)) (fun _ _ h => h)) (fun _ _ h => h)

/-- No optional key starts the text of the fields that follow it. -/
theorem tailFields_exact :
    tailFields.ExactOn (fun rest => strip (key ",\"chain\":") rest = none) := by
  have hresult : (through string resultName resultOfName).ExactOn anything :=
    through_exact string_exact (fun r => by cases r <;> rfl)
  have hchain : (optional (key ",\"chain\":") chain).ExactOn
      (fun rest => strip (key ",\"chain\":") rest = none) :=
    (optional_exact (key ",\"chain\":") chain_exact).weaken (fun rest h => ⟨trivial, h⟩)
  have herror := pair_exact (keyed_exact (key ",\"error_id\":") nullable_exact) hchain
    (fun _ _ _ => trivial)
  have hres := pair_exact (keyed_exact (key ",\"result\":") hresult) herror
    (fun _ _ _ => trivial)
  have hcommit := pair_exact (optional_exact (key ",\"commit_id\":") (fin_exact (2 ^ 32))) hres
    (fun b rest _ => ⟨fun c hc => by cases hc; rfl, rfl⟩)
  have hafter := pair_exact (optional_exact (key ",\"after_hash\":") string_exact) hcommit
    (fun b rest _ => ⟨trivial, by rcases b with ⟨_ | _, b⟩ <;> rfl⟩)
  exact pair_exact (optional_exact (key ",\"before_hash\":") string_exact) hafter
    (fun b rest _ => ⟨trivial, by rcases b with ⟨_ | _, _ | _, b⟩ <;> rfl⟩)

theorem record_exact : record.ExactOn anything :=
  through_exact (closed_exact (pair_exact headFields_exact tailFields_exact (fun _ _ _ => trivial))
    (fun _ => rfl)) (fun _ => rfl)

theorem chain_avoids_lineFeed : chain.Avoids '\n' := by
  have hs := string_avoids_lineFeed
  have hn := nullable_avoids_lineFeed
  have hnat : (fin (2 ^ 64)).Avoids '\n' := through_avoids (nat_avoids rfl)
  exact through_avoids (closed_avoids (pair_avoids (keyed_avoids (by decide) hnat)
    (pair_avoids (keyed_avoids (by decide) hn) (pair_avoids (keyed_avoids (by decide) hs)
      (optional_avoids (by decide) hs)))) (by decide))

theorem record_avoids_lineFeed : record.Avoids '\n' := by
  have hs := string_avoids_lineFeed
  have hn := nullable_avoids_lineFeed
  have hnat : (fin (2 ^ 32)).Avoids '\n' := through_avoids (nat_avoids rfl)
  refine through_avoids (closed_avoids (pair_avoids ?_ ?_) (by decide))
  · exact pair_avoids (keyed_avoids (by decide) hs) (pair_avoids (keyed_avoids (by decide) hs)
      (pair_avoids (keyed_avoids (by decide) (through_avoids hs))
        (pair_avoids (keyed_avoids (by decide) (through_avoids hs))
          (pair_avoids (keyed_avoids (by decide) hn) (pair_avoids (keyed_avoids (by decide) hn)
            (keyed_avoids (by decide) hn))))))
  · exact pair_avoids (optional_avoids (by decide) hs) (pair_avoids (optional_avoids (by decide) hs)
      (pair_avoids (optional_avoids (by decide) hnat)
        (pair_avoids (keyed_avoids (by decide) (through_avoids hs))
          (pair_avoids (keyed_avoids (by decide) hn)
            (optional_avoids (by decide) chain_avoids_lineFeed)))))

variable (sha256Hex : Bytes → String) (r : AuditRecord)

/-- The text of a record starts with an opening brace. -/
theorem record_write_head : ∃ rest, record.write r = Char.ofNat 123 :: rest := ⟨_, rfl⟩

theorem fromSlice_write : (backend sha256Hex).fromSlice (utf8 (record.write r)) = .ok r := by
  have hread : record.read (record.write r) = some (r, []) := by
    simpa using record_exact r [] trivial
  simp only [backend, ofUtf8_utf8, Option.bind_some, hread]

/-- The writer and the reader satisfy what the chain needs of `serde_json`. -/
theorem backend_lawful : (backend sha256Hex).Lawful where
  roundTrip r := ⟨utf8 (record.write r), rfl, fromSlice_write sha256Hex r⟩
  oneLine r line h := by
    obtain rfl : utf8 (record.write r) = line := Except.ok.inj h
    exact lineFeed_not_mem_utf8 _ (record_avoids_lineFeed r)
  visible r line h := by
    obtain rfl : utf8 (record.write r) = line := Except.ok.inj h
    obtain ⟨rest, hrest⟩ := record_write_head r
    rw [hrest]
    rfl
  rejects := by
    have hx : ([120] : Bytes) = utf8 ['x'] := rfl
    refine ⟨"expected an audit record", ?_⟩
    rw [hx]
    simp only [backend, ofUtf8_utf8, Option.bind_some]
    rfl

/-- The reader that takes a record in the writer's own spelling only. -/
def strict (sha256Hex : Bytes → String) : Backend where
  toVec := (backend sha256Hex).toVec
  fromSlice bytes :=
    match (backend sha256Hex).fromSlice bytes with
    | .error err => .error err
    | .ok r =>
      if utf8 (record.write r) = bytes then .ok r else .error "expected an audit record"
  sha256Hex := sha256Hex

theorem strict_fromSlice_write : (strict sha256Hex).fromSlice (utf8 (record.write r)) = .ok r := by
  simp only [strict, fromSlice_write, if_true]

theorem strict_lawful : (strict sha256Hex).Lawful where
  roundTrip r := ⟨utf8 (record.write r), rfl, strict_fromSlice_write sha256Hex r⟩
  oneLine := (backend_lawful sha256Hex).oneLine
  visible := (backend_lawful sha256Hex).visible
  rejects := by
    obtain ⟨err, herr⟩ := (backend_lawful sha256Hex).rejects
    exact ⟨err, by simp only [strict, herr]⟩

/-- The strict reader accepts exactly what the writer writes. -/
theorem strict_cases (bytes : Bytes) :
    (∃ err, (strict sha256Hex).fromSlice bytes = .error err) ∨
      ∃ r, bytes = utf8 (record.write r) := by
  cases hread : (backend sha256Hex).fromSlice bytes with
  | error err => exact Or.inl ⟨err, by simp only [strict, hread]⟩
  | ok r =>
    by_cases hsame : utf8 (record.write r) = bytes
    · exact Or.inr ⟨r, hsame.symm⟩
    · exact Or.inl ⟨"expected an audit record", by simp only [strict, hread, hsame, if_false]⟩

/-- No text of a record goes on as the text of another one. -/
theorem write_not_extended (s : AuditRecord) (rest : Bytes)
    (h : utf8 (record.write s) = utf8 (record.write r) ++ rest) : rest = [] := by
  have hchars : record.write s = record.write r ++ fromUtf8Lossy rest := by
    rw [← fromUtf8Lossy_utf8 (record.write s), h, fromUtf8Lossy_utf8_append]
  have hs : record.read (record.write s) = some (s, []) := by
    simpa using record_exact s [] trivial
  rw [hchars, record_exact r _ trivial] at hs
  have hnil : fromUtf8Lossy rest = [] := (Prod.mk.inj (Option.some.inj hs)).2
  exact fromUtf8Lossy_eq_nil hnil

theorem strict_truncates : (strict sha256Hex).Truncates where
  opens r line h := by
    obtain rfl : utf8 (record.write r) = line := Except.ok.inj h
    obtain ⟨rest, hrest⟩ := record_write_head r
    rw [hrest]
    rfl
  cut r line n h hn := by
    obtain rfl : utf8 (record.write r) = line := Except.ok.inj h
    rcases strict_cases sha256Hex ((utf8 (record.write r)).take n) with herr | ⟨s, hs⟩
    · exact herr
    · have hsplit := List.take_append_drop n (utf8 (record.write r))
      rw [hs] at hsplit
      have hrest := congrArg List.length (write_not_extended s r _ hsplit.symm)
      rw [List.length_drop, List.length_nil] at hrest
      omega
  blank line h := by
    rcases strict_cases sha256Hex line with herr | ⟨s, hs⟩
    · exact herr
    · rw [hs, (backend_lawful sha256Hex).visible s _ rfl] at h
      cases h

end Detent.Source.AuditJson
