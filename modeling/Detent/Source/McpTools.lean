import Detent.Source.ReadScope

/-!
# One token at two front ends

`crates/detent-mcp/src/mcp.rs:400-436,496-526,565-627` and
`crates/detent/src/mcp.rs:152-194,258-364,389-414`: the MCP server from its startup
token to the answers of `get_module` and `plan`. `crates/detent-web/src/authz.rs:38-167`,
`auth/extract.rs:216-286` and `api/mod.rs:229-247`: the same token at the handlers of
`ReadScope`. Both run the operation of one engine.

The token store is a function of the token. Request budgets, the bearer gate of the HTTP
transport, audit records and the JSON text of an answer are left out.
-/
namespace Detent.Source.McpTools
open Source Source.ReadScope Source.SerdeJson
open Source.Engine (Denied)
open Source.Sessions (Scopes)

inductive Scope where
  | read | write
  deriving DecidableEq, Repr

def Scope.asStr : Scope → String
  | .read => "read"
  | .write => "write"

/-- `Scopes::allows`. -/
def allows (scopes : Scopes) : Scope → Bool
  | .read => true
  | .write => scopes.write

/-- `ScopedAuthz::required_scope`. -/
def requiredScope : OpKind → Scope
  | .apply | .confirmCommit | .rollbackCommit | .restore | .serviceAction | .certRenew
  | .updateApply => .write
  | .listModules | .getModule | .validate | .plan | .listBackups | .serviceStatus | .hostProfile
  | .certStatus | .updateStatus | .auditQuery => .read

/-- `ScopedAuthz::permit`, with `DENIED_SCOPE_ID`. -/
def permit (scopes : Scopes) (kind : OpKind) : Except Denied Unit :=
  let needed := requiredScope kind
  if allows scopes needed then .ok ()
  else .error { id := "web-denied-scope", requiredScope := some needed.asStr }

/-- `TokenStore::authenticate` at one time: the public id and the scopes of a live token. -/
abbrev TokenStore := String → Option (String × Scopes)

/-- `AuthError` of the MCP crate. -/
inductive AuthError where
  | missing | invalid | denied
  deriving DecidableEq, Repr

/-- `ErrorData`: a credential refused, an operation refused, an operation that failed. -/
inductive ToolError where
  | auth (err : AuthError)
  | policy
  | internal (err : Refusal)

def ToolError.code : ToolError → Int
  | .auth _ => -32003
  | .policy => -32004
  | .internal _ => -32603

/-- `op_err`. -/
def opErr : Refusal → ToolError
  | .ops (.denied _) => .policy
  | err => .internal err

/-- `McpServer` with its `SessionExecutor`: the startup token, and the identity and the
scopes it was resolved to. -/
structure McpServer where
  presented : Option String
  who : Identity
  scopes : Scopes

/-- `resolve_identity`: `DETENT_MCP_TOKEN` looked up once, before anything listens. -/
def resolveIdentity (store : TokenStore) (token : String) : Option McpServer :=
  if token.isEmpty then none
  else (store token).map (fun (id, scopes) =>
    { presented := some token, who := { subject := "token:" ++ id, kind := .token }, scopes })

/-- `McpServer::check_auth` with `StoreVerifier` and `EngineDecides`. -/
def checkAuth (store : TokenStore) (presented : Option String) : Except ToolError Identity :=
  match presented with
  | none => .error (.auth .missing)
  | some token =>
    match store token with
    | some (id, _) => .ok { subject := "token:" ++ id, kind := .token }
    | none => .error (.auth .invalid)

/-- `SessionExecutor::execute` on a read-only operation: the engine checks the scopes and
dispatches. -/
def executeAs {α : Type} (server : McpServer) (kind : OpKind) (run : Except Refusal α) :
    Except Refusal α :=
  match permit server.scopes kind with
  | .error denied => .error (.ops (.denied denied))
  | .ok () => run

variable (b : Backend) (store : TokenStore)

/-- The body of a read-only tool. -/
def invoke {α : Type} (server : McpServer) (kind : OpKind) (run : Except Refusal α) :
    Except ToolError α := do
  let _ ← checkAuth store server.presented
  (executeAs server kind run).mapError opErr

/-- `GetModule::invoke`. -/
def getModuleTool (server : McpServer) (id : String) : Except ToolError ModuleView :=
  invoke store server .getModule (getModule b id)

/-- `Plan::invoke`. -/
def planTool (server : McpServer) (id : String) (model : Value) : Except ToolError PlanReport :=
  invoke store server .plan (planModel b id model)

/-- What `get_module` returns when `detent mcp` runs with the token. -/
def mcpGetModule (token id : String) : Option ModuleView := do
  let server ← resolveIdentity store token
  (getModuleTool b store server id).toOption

def mcpPlan (token id : String) (model : Value) : Option PlanReport := do
  let server ← resolveIdentity store token
  (planTool b store server id model).toOption

/-- `authorize` for the bearer of a token, who is never asked for a step-up. -/
def authorizeBearer (scopes : Scopes) (kind : OpKind) : Except ApiError Unit :=
  (permit scopes kind).mapError (fun denied => apiError b (.ops (.denied denied)))

/-- The backend as a request with the token finds it. -/
def bearerBackend (scopes : Scopes) (kind : OpKind) : Backend :=
  { b with authorize := fun _ => authorizeBearer b scopes kind }

/-- What `get_one` returns for a request with the token; an empty bearer is none. -/
def restGetModule (token id : String) : Option ModuleView := do
  if token.isEmpty then none
  else
    let (_, scopes) ← store token
    (getOne (bearerBackend b scopes .getModule) scopes id).toOption

def restPlan (token id : String) (model : Value) : Option PlanReport := do
  if token.isEmpty then none
  else
    let (_, scopes) ← store token
    (plan (bearerBackend b scopes .plan) scopes id model).toOption

end Detent.Source.McpTools
