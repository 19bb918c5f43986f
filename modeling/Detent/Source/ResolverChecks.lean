import Detent.Source.ReadScope
import Detent.Source.Resolver

/-!
# The findings about `unbound.conf`

`crates/modules/resolver/src/lib.rs:1022-1075,1130-1133,1256-1382`: `validate_unbound`
walks the items once and keeps the section it is in and three flags of the forward zone
that was opened last.
-/
namespace Detent.Source.Resolver
open Lib Lib.Text Source.Doc
open Source.ReadScope (Diagnostic Severity)

/-- The sections an item can belong to. -/
inductive Section where
  | server | forwardZone
  deriving DecidableEq, Repr

/-- `RECOMMENDED_HARDENING`. -/
def recommendedHardening : List Text :=
  ["qname-minimisation", "aggressive-nsec", "harden-dnssec-stripped",
    "harden-below-nxdomain"].map String.toList

/-- `is_valid_forward_zone_name`. -/
def isValidForwardZoneName (name : Text) : Bool := name = ['.'] || isValidDomain name

/-- `unnamed`: `FORWARD_ZONE_UNNAMED`. -/
def unnamed : Diagnostic :=
  { severity := .error, id := "resolver-forward-zone-unnamed", field := none, span := none,
    args := [] }

/-- A finding about one field of the item at `index`. -/
def itemFinding (severity : Severity) (id : String) (index : Nat) (field : String)
    (args : List (String × String)) : Diagnostic :=
  { severity, id, field := some s!"unbound/{index}/{field}", span := none, args }

/-- `misplaced`: `UNBOUND_MISPLACED`, `key` belongs in `section`. -/
def misplaced (index : Nat) (field key sectionName : String) : Diagnostic :=
  itemFinding .error "resolver-unbound-misplaced" index field
    [("key", key), ("section", sectionName)]

/-- `FORWARD_TLS_NO_AUTH`. -/
def forwardTlsNoAuth : Diagnostic :=
  { severity := .recommendation, id := "resolver-forward-tls-no-auth", field := none, span := none,
    args := [] }

/-- What the loop of `validate_unbound` carries. -/
structure UnboundScan where
  current : Option Section
  forwardNamed : Bool
  forwardTls : Bool
  forwardAuth : Bool
  deriving DecidableEq, Repr

/-- `close_zone`. -/
def closeZone (scan : UnboundScan) : List Diagnostic :=
  if scan.current = some .forwardZone && !scan.forwardNamed then [unnamed] else []

/-- One round of the loop: the findings about the item at `index`, and what is carried on. -/
def unboundStep (scan : UnboundScan) (index : Nat) : UnboundEntry → List Diagnostic × UnboundScan
  | .server => (closeZone scan, { scan with current := some .server })
  | .forwardZone =>
    (closeZone scan, { current := some .forwardZone, forwardNamed := false, forwardTls := false,
                       forwardAuth := false })
  | .hardening key enabled =>
    ((if key ∈ knownHardening then []
      else [itemFinding .error "resolver-unknown-hardening" index "key" [("key", String.ofList key)]]) ++
      (if scan.current = some .server then [] else [misplaced index "key" (String.ofList key) "server"]) ++
      (if !enabled && key ∈ recommendedHardening then
        [itemFinding .recommendation "resolver-rec-hardening" index "enabled"
          [("key", String.ofList key)]]
      else []), scan)
  | .forwardName name =>
    let invalid := if isValidForwardZoneName name then []
      else [itemFinding .error "resolver-invalid-forward-name" index "name"
        [("name", String.ofList name)]]
    if scan.current = some .forwardZone then
      (invalid, { scan with forwardNamed := scan.forwardNamed || isValidForwardZoneName name })
    else (invalid ++ [misplaced index "name" "name" "forward-zone"], scan)
  | .forwardAddr addr =>
    let invalid := if isValidForwardAddr addr then []
      else [itemFinding .error "resolver-invalid-forward-addr" index "addr"
        [("addr", String.ofList addr)]]
    if scan.current = some .forwardZone then
      (invalid, { scan with forwardAuth := scan.forwardAuth || addr.any (· == '#') })
    else (invalid ++ [misplaced index "addr" "forward-addr" "forward-zone"], scan)
  | .forwardTls enabled =>
    if scan.current = some .forwardZone then
      ([], { scan with forwardTls := scan.forwardTls || enabled })
    else ([misplaced index "enabled" "forward-tls-upstream" "forward-zone"], scan)

/-- The rounds from the item at `index` on, and what follows the loop. -/
def validateUnboundFrom (scan : UnboundScan) (index : Nat) : List UnboundEntry → List Diagnostic
  | [] => closeZone scan ++ if scan.forwardTls && !scan.forwardAuth then [forwardTlsNoAuth] else []
  | entry :: entries =>
    (unboundStep scan index entry).1 ++
      validateUnboundFrom (unboundStep scan index entry).2 (index + 1) entries

/-- `validate_unbound`. -/
def validateUnbound (entries : List UnboundEntry) : List Diagnostic :=
  validateUnboundFrom { current := none, forwardNamed := false, forwardTls := false,
                        forwardAuth := false } 0 entries

end Detent.Source.Resolver
