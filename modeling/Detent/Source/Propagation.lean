import Detent.Source.Tsig

/-!
# The propagation probe

`crates/detent-acme/src/propagation.rs:57-143` and the `DnsRecord` of `lib.rs:105-143`:
whether the authoritative nameservers of a name state the value of a record.

The resolver behind `Authority` is a parameter, and so is the type of socket addresses
with the way it is displayed.
-/
namespace Detent.Source.Propagation
open Lib

/-- The errors of `AcmeError` that the probe makes or passes on. -/
inductive AcmeError where
  | config (why : String)
  | notPropagated (why : String)
  deriving DecidableEq, Repr

/-- `MAX_CNAME_HOPS`. -/
def maxCnameHops : Nat := 4

/-- `TxtAnswer`. -/
structure TxtAnswer where
  values : List Text
  cname : Option Text
  deriving DecidableEq, Repr

/-- `trait Authority`, over the addresses of servers. -/
structure Authority (Server : Type) where
  servers : Text → Except AcmeError (List Server)
  txt : Server → Text → Except String TxtAnswer
  display : Server → String

/-- `validate_value`. -/
def validateValue (value : Text) : Bool :=
  !value.isEmpty && (utf8 value).all (fun b => 0x21 ≤ b && b ≤ 0x7e)

/-- `DnsRecord`. -/
structure DnsRecord where
  fqdn : Text
  value : Text
  named : Tsig.validateFqdn fqdn = true
  valued : validateValue value = true

variable {Server : Type}

/-- The loop over the servers of one name: the ones that lack the value, as the error
names them, and the target of the first CNAME, at which the loop is left. -/
def askServers (authority : Authority Server) (name value : Text) :
    List Server → List String → List String × Option Text
  | [], lacking => (lacking, none)
  | server :: rest, lacking =>
    match authority.txt server name with
    | .ok answer =>
      if answer.values.any (· == value) then askServers authority name value rest lacking
      else
        match answer.values, answer.cname with
        | [], some target => (lacking, some target)
        | _, _ => askServers authority name value rest
            (lacking ++ [authority.display server ++ " (value absent)"])
    | .error why => askServers authority name value rest
        (lacking ++ [authority.display server ++ " (" ++ why ++ ")"])

/-- The turns of `probe` from a name on. -/
def follow (authority : Authority Server) (record : DnsRecord) : Nat → Text → Except AcmeError Unit
  | 0, _ => .error (.config
      s!"{String.ofList record.fqdn}: more than {maxCnameHops} CNAME hops")
  | turns + 1, name => do
    let servers ← authority.servers name
    if servers.isEmpty then
      .error (.notPropagated s!"{String.ofList name}: no authoritative nameserver found")
    else
      let (lacking, redirect) := askServers authority name record.value servers []
      match redirect with
      | some target => follow authority record turns target
      | none =>
        if lacking.isEmpty then .ok ()
        else .error (.notPropagated
          (s!"{String.ofList name}: {lacking.length} of {servers.length} nameservers lack the value: " ++
            ", ".intercalate lacking))

def probe (authority : Authority Server) (record : DnsRecord) : Except AcmeError Unit :=
  follow authority record (maxCnameHops + 1) record.fqdn

end Detent.Source.Propagation
