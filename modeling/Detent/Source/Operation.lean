import Mathlib.Tactic.Common

/-!
# Identities and operation kinds

`crates/detent-ops/src/identity.rs` and the `OpKind` half of `op.rs`: what an
audit record stores about the caller and the operation.
-/
namespace Detent.Source

/-- How a caller was authenticated. -/
inductive IdentityKind where
  | localUser | session | token
  deriving DecidableEq, Repr

/-- The caller, as the front end resolved it. -/
structure Identity where
  subject : String
  kind : IdentityKind
  deriving DecidableEq, Repr

/-- The kind of an operation, with none of its payload. -/
inductive OpKind where
  | listModules | getModule | validate | plan | apply | confirmCommit | rollbackCommit
  | listBackups | restore | serviceStatus | serviceAction | hostProfile | auditQuery
  | updateStatus | certStatus | certRenew | updateApply
  deriving DecidableEq, Repr

end Detent.Source
