import Detent.Source.Propagation

/-!
# Whom the propagation probe asks

The probe leaves a zone at the first CNAME answer, so a server asked before it and found
lacking is forgotten, and one behind it is never asked.
-/
namespace Detent.Guarantees.PropagationProbe
open Lib Source.Propagation
open Except (ok.inj)

variable {Server : Type} (authority : Authority Server) (value : Text)

/-- A server states the value at a name. -/
def States (server : Server) (name : Text) : Prop :=
  ∃ answer, authority.txt server name = .ok answer ∧ value ∈ answer.values

/-- A server has no TXT value at a name, but a CNAME. -/
def Redirects (server : Server) (name target : Text) : Prop :=
  authority.txt server name = .ok ⟨[], some target⟩

/-- Every server of a name states the value, or answers with no TXT value and a CNAME
behind which, as many hops as are left, the same holds. -/
def AllAnswer : Nat → Text → Prop
  | 0, name => ∀ servers, authority.servers name = .ok servers → ∀ server ∈ servers,
      States authority value server name ∨ ∃ target, Redirects authority server name target
  | hops + 1, name => ∀ servers, authority.servers name = .ok servers → ∀ server ∈ servers,
      States authority value server name ∨
        ∃ target, Redirects authority server name target ∧ AllAnswer hops target

/-- The servers of a name in the order they are asked, split at the first CNAME. -/
def LeftAt (name : Text) (before : List Server) (target : Text) (after : List Server) : Prop :=
  ∃ server, authority.servers name = .ok (before ++ server :: after) ∧
    Redirects authority server name target ∧
    ∀ earlier ∈ before, ∀ elsewhere, ¬ Redirects authority earlier name elsewhere

/-- A name has servers, and all of them state the value. -/
def ZoneStates (name : Text) : Prop :=
  ∃ servers, authority.servers name = .ok servers ∧ servers ≠ [] ∧
    ∀ server ∈ servers, States authority value server name

/-- The first CNAMEs lead from a name, in no more hops than are left, to a zone that states
the value. -/
inductive EndsStated : Nat → Text → Prop where
  | stated {hops : Nat} {name : Text} : ZoneStates authority value name → EndsStated hops name
  | left {hops : Nat} {name target : Text} {before after : List Server} :
      LeftAt authority name before target after → EndsStated hops target →
      EndsStated (hops + 1) name

/-- At no name that the first CNAMEs lead to is a server passed over that lacks the value:
the servers asked before the CNAME state it, and those after it state it or have a CNAME
of their own behind which nobody lacks it. -/
def NonePassedOver : Nat → Text → Prop
  | 0, _ => True
  | hops + 1, name => ∀ before target after, LeftAt authority name before target after →
      (∀ server ∈ before, States authority value server name) ∧
      (∀ server ∈ after, States authority value server name ∨
        ∃ elsewhere, Redirects authority server name elsewhere ∧
          AllAnswer authority value hops elsewhere) ∧
      NonePassedOver hops target

variable {authority value} {name target : Text}

theorem States.not_redirects {server : Server} (h : States authority value server name)
    (target : Text) : ¬ Redirects authority server name target := by
  intro hredirects
  obtain ⟨answer, hanswer, hmem⟩ := h
  obtain rfl := ok.inj (hanswer.symm.trans hredirects)
  cases hmem

theorem Redirects.target_unique {server : Server} {other : Text}
    (h : Redirects authority server name target) (h' : Redirects authority server name other) :
    other = target := by
  have hsame := ok.inj (h'.symm.trans h)
  injection hsame with _ htarget
  exact Option.some.inj htarget

theorem LeftAt.unique {before after before' after' : List Server} {other : Text}
    (h : LeftAt authority name before target after)
    (h' : LeftAt authority name before' other after') :
    before' = before ∧ other = target ∧ after' = after := by
  obtain ⟨server, hservers, hredirects, hfirst⟩ := h
  obtain ⟨server', hservers', hredirects', hfirst'⟩ := h'
  have hsplit := ok.inj (hservers'.symm.trans hservers)
  rcases List.append_eq_append_iff.mp hsplit with ⟨gap, hbefore, hafter⟩ | ⟨gap, hbefore, hafter⟩
  · cases gap with
    | nil =>
      obtain ⟨rfl, rfl⟩ := List.cons.inj hafter
      exact ⟨by simpa using hbefore.symm, hredirects.target_unique hredirects', rfl⟩
    | cons first gap =>
      obtain ⟨rfl, -⟩ := List.cons.inj hafter
      exact absurd hredirects' (hfirst _ (by simp [hbefore]) other)
  · cases gap with
    | nil =>
      obtain ⟨rfl, rfl⟩ := List.cons.inj hafter
      exact ⟨by simpa using hbefore, hredirects.target_unique hredirects', rfl⟩
    | cons first gap =>
      obtain ⟨rfl, -⟩ := List.cons.inj hafter
      exact absurd hredirects (hfirst' _ (by simp [hbefore]) target)

/-- No server of a list has a CNAME at the name. -/
def NoneRedirects (authority : Authority Server) (name : Text) (servers : List Server) : Prop :=
  ∀ server ∈ servers, ∀ target, ¬ Redirects authority server name target

theorem first_redirect (servers : List Server) : NoneRedirects authority name servers ∨
    ∃ before server after target, servers = before ++ server :: after ∧
      NoneRedirects authority name before ∧ Redirects authority server name target := by
  induction servers with
  | nil => exact .inl (by simp [NoneRedirects])
  | cons server rest ih =>
    by_cases hredirects : ∃ target, Redirects authority server name target
    · obtain ⟨target, hredirects⟩ := hredirects
      exact .inr ⟨[], server, rest, target, rfl, by simp [NoneRedirects], hredirects⟩
    · have hnot := not_exists.mp hredirects
      rcases ih with hnone | ⟨before, first, after, target, rfl, hbefore, hfirst⟩
      · exact .inl (List.forall_mem_cons.mpr ⟨hnot, hnone⟩)
      · exact .inr ⟨server :: before, first, after, target, rfl,
          List.forall_mem_cons.mpr ⟨hnot, hbefore⟩, hfirst⟩

section Ask
variable {server : Server} {rest : List Server} {lacking : List String}

theorem askServers_states (h : States authority value server name) :
    askServers authority name value (server :: rest) lacking =
      askServers authority name value rest lacking := by
  obtain ⟨answer, hanswer, hmem⟩ := h
  simp only [askServers, hanswer]
  rw [if_pos (List.any_eq_true.mpr ⟨value, hmem, by simp⟩)]

theorem askServers_redirects (h : Redirects authority server name target) :
    askServers authority name value (server :: rest) lacking = (lacking, some target) := by
  unfold Redirects at h
  simp [askServers, h]

theorem askServers_lacks (h : ¬ States authority value server name)
    (h' : ∀ target, ¬ Redirects authority server name target) :
    ∃ note, askServers authority name value (server :: rest) lacking =
      askServers authority name value rest (lacking ++ [note]) := by
  cases hanswer : authority.txt server name with
  | error why => exact ⟨authority.display server ++ " (" ++ why ++ ")",
      by simp only [askServers, hanswer]⟩
  | ok answer =>
    have hnot : ¬ answer.values.any (· == value) = true := by
      intro hany
      obtain ⟨stated, hmem, hsame⟩ := List.any_eq_true.mp hany
      obtain rfl : stated = value := by simpa using hsame
      exact h ⟨answer, hanswer, hmem⟩
    refine ⟨authority.display server ++ " (value absent)", ?_⟩
    obtain ⟨values, cname⟩ := answer
    simp only [askServers, hanswer]
    rw [if_neg hnot]
    match values, cname with
    | [], none => rfl
    | [], some target => exact absurd hanswer (h' target)
    | stated :: more, cname => rfl

theorem askServers_stays {servers : List Server} (h : NoneRedirects authority name servers)
    (lacking : List String) :
    ∃ lacking', askServers authority name value servers lacking = (lacking', none) ∧
      (lacking' = [] ↔ lacking = [] ∧ ∀ server ∈ servers, States authority value server name) := by
  induction servers generalizing lacking with
  | nil => exact ⟨lacking, rfl, by simp⟩
  | cons server rest ih =>
    obtain ⟨hnot, hrest⟩ := List.forall_mem_cons.mp h
    by_cases hstates : States authority value server name
    · obtain ⟨lacking', hask, hiff⟩ := ih hrest lacking
      refine ⟨lacking', (askServers_states hstates).trans hask, ?_⟩
      rw [hiff, List.forall_mem_cons]
      simp [hstates]
    · obtain ⟨note, hnote⟩ := @askServers_lacks _ _ _ _ _ rest lacking hstates hnot
      obtain ⟨lacking', hask, hiff⟩ := ih hrest (lacking ++ [note])
      refine ⟨lacking', hnote.trans hask, ?_⟩
      rw [hiff, List.forall_mem_cons]
      simp [hstates]

theorem askServers_leaves {before after : List Server}
    (hbefore : NoneRedirects authority name before)
    (h : Redirects authority server name target) (lacking : List String) :
    (askServers authority name value (before ++ server :: after) lacking).2 = some target := by
  induction before generalizing lacking with
  | nil => rw [List.nil_append, askServers_redirects h]
  | cons earlier before ih =>
    obtain ⟨hnot, hrest⟩ := List.forall_mem_cons.mp hbefore
    by_cases hstates : States authority value earlier name
    · rw [List.cons_append, askServers_states hstates]
      exact ih hrest lacking
    · obtain ⟨note, hnote⟩ :=
        @askServers_lacks _ _ _ _ _ (before ++ server :: after) lacking hstates hnot
      rw [List.cons_append, hnote]
      exact ih hrest _

end Ask

section Turns
variable {servers : List Server} {record : DnsRecord} {turns hops : Nat}

/-- Where no server has a CNAME the probe ends, and is passed when all state the value. -/
theorem follow_stays (hservers : authority.servers name = .ok servers)
    (hnone : NoneRedirects authority name servers) :
    follow authority record (turns + 1) name = .ok () ↔
      servers ≠ [] ∧ ∀ server ∈ servers, States authority record.value server name := by
  obtain ⟨lacking, hask, hiff⟩ := @askServers_stays _ _ record.value _ _ hnone []
  simp only [follow, hservers, hask, bind, Except.bind]
  cases servers with
  | nil => simp
  | cons server rest =>
    rw [if_neg (by simp)]
    cases lacking with
    | nil | cons => simpa using hiff

/-- At the first CNAME it goes on with the target. -/
theorem follow_leaves {before after : List Server} (h : LeftAt authority name before target after) :
    follow authority record (turns + 1) name = follow authority record turns target := by
  obtain ⟨server, hservers, hredirects, hbefore⟩ := h
  have hask := @askServers_leaves _ authority record.value name target server before after
    hbefore hredirects []
  simp only [follow, hservers, bind, Except.bind]
  rw [if_neg (by simp)]
  revert hask
  generalize askServers authority name record.value (before ++ server :: after) [] = asked
  obtain ⟨lacking, redirect⟩ := asked
  rintro rfl
  rfl

theorem LeftAt.redirects {before after : List Server} (h : LeftAt authority name before target after)
    (hservers : authority.servers name = .ok servers) : ¬ NoneRedirects authority name servers := by
  obtain ⟨server, hservers', hredirects, -⟩ := h
  obtain rfl := ok.inj (hservers.symm.trans hservers')
  exact fun hnone => hnone server (by simp) target hredirects

theorem states_noneRedirects (h : ∀ server ∈ servers, States authority value server name) :
    NoneRedirects authority name servers :=
  fun server hmem => (h server hmem).not_redirects

theorem ZoneStates.not_leftAt {before after : List Server}
    (h : ZoneStates authority value name) : ¬ LeftAt authority name before target after := by
  obtain ⟨servers, hservers, -, hstate⟩ := h
  exact fun hleft => hleft.redirects hservers (states_noneRedirects hstate)

/-- The probe passes exactly where the first CNAMEs end at a zone that states the value. -/
theorem follow_ok_iff (hops : Nat) (name : Text) :
    follow authority record (hops + 1) name = .ok () ↔
      EndsStated authority record.value hops name := by
  cases hservers : authority.servers name with
  | error err =>
    have hfails : follow authority record (hops + 1) name = .error err := by
      simp only [follow, hservers, bind, Except.bind]
    rw [hfails]
    constructor
    · nofun
    · intro h
      cases h with
      | stated hzone =>
        obtain ⟨servers, hsome, -⟩ := hzone
        cases hservers.symm.trans hsome
      | left hleft =>
        obtain ⟨server, hsome, -⟩ := hleft
        cases hservers.symm.trans hsome
  | ok servers =>
    rcases first_redirect servers with hnone | ⟨before, server, after, target, rfl, hbefore, hfirst⟩
    · rw [follow_stays hservers hnone]
      constructor
      · rintro ⟨hsome, hstate⟩
        exact .stated ⟨servers, hservers, hsome, hstate⟩
      · intro h
        cases h with
        | stated hzone =>
          obtain ⟨servers', hservers', hsome, hstate⟩ := hzone
          obtain rfl := ok.inj (hservers'.symm.trans hservers)
          exact ⟨hsome, hstate⟩
        | left hleft => exact absurd hnone (hleft.redirects hservers)
    · have hleft : LeftAt authority name before target after := ⟨server, hservers, hfirst, hbefore⟩
      rw [follow_leaves hleft]
      match hops with
      | 0 =>
        constructor
        · nofun
        · intro h
          cases h with
          | stated hzone => exact absurd hleft hzone.not_leftAt
      | hops + 1 =>
        rw [follow_ok_iff hops target]
        refine ⟨.left hleft, fun h => ?_⟩
        cases h with
        | stated hzone => exact absurd hleft hzone.not_leftAt
        | left hleft' hends =>
          obtain ⟨-, rfl, -⟩ := hleft.unique hleft'
          exact hends

theorem AllAnswer.zone (h : ∀ server ∈ servers, States authority value server name)
    (hservers : authority.servers name = .ok servers) (hops : Nat) :
    AllAnswer authority value hops name := by
  cases hops with
  | zero | succ =>
    intro servers' hservers' server hmem
    obtain rfl := ok.inj (hservers'.symm.trans hservers)
    exact .inl (h server hmem)

/-- Along CNAMEs that end at a zone that states the value, a server that lacks it is one
that was passed over. -/
theorem EndsStated.allAnswer_iff (h : EndsStated authority value hops name) :
    AllAnswer authority value hops name ↔ NonePassedOver authority value hops name := by
  induction h with
  | @stated hops name hzone =>
    obtain ⟨servers, hservers, hsome, hstate⟩ := hzone
    refine ⟨fun _ => ?_, fun _ => .zone hstate hservers hops⟩
    cases hops with
    | zero => trivial
    | succ hops =>
      intro before target after hleft
      exact absurd hleft (ZoneStates.not_leftAt ⟨servers, hservers, hsome, hstate⟩)
  | @left hops name target before after hleft hends ih =>
    have hsplit := hleft
    obtain ⟨server, hservers, hfirst, hbefore⟩ := hsplit
    constructor
    · intro hall before' target' after' hleft'
      obtain ⟨rfl, rfl, rfl⟩ := hleft.unique hleft'
      have hserver := hall _ hservers
      refine ⟨fun earlier hmem => ?_, fun later hmem => hserver later (by simp [hmem]), ih.mp ?_⟩
      · rcases hserver earlier (by simp [hmem]) with hstates | ⟨elsewhere, hredirects, -⟩
        · exact hstates
        · exact absurd hredirects (hbefore earlier hmem elsewhere)
      · rcases hserver server (by simp) with hstates | ⟨elsewhere, hredirects, hbehind⟩
        · exact absurd hfirst (hstates.not_redirects _)
        · rwa [hfirst.target_unique hredirects] at hbehind
    · intro hnone servers' hservers' asked hmem
      obtain rfl := ok.inj (hservers'.symm.trans hservers)
      obtain ⟨hearlier, hlater, hrest⟩ := hnone before target after hleft
      rcases List.mem_append.mp hmem with hmem | hmem
      · exact .inl (hearlier asked hmem)
      · rcases List.mem_cons.mp hmem with rfl | hmem
        · exact .inr ⟨target, hfirst, ih.mpr hrest⟩
        · exact hlater asked hmem

end Turns

/-- **Who is asked.** A probe that passes has found that everybody answers exactly where
the first CNAMEs do not end at a zone that states the value, so that it does not pass, or
pass over no server that lacks it. -/
theorem everybody_asked_iff (authority : Authority Server) (record : DnsRecord) :
    (probe authority record = .ok () →
        AllAnswer authority record.value maxCnameHops record.fqdn) ↔
      (EndsStated authority record.value maxCnameHops record.fqdn →
        NonePassedOver authority record.value maxCnameHops record.fqdn) := by
  rw [probe, follow_ok_iff]
  exact forall_congr' fun hends => hends.allAnswer_iff

/-- The first server of the name has no record; the second has a CNAME at a name whose
one server holds the value. -/
def behindAuthority : Authority Nat where
  servers name := if name = "x".toList then .ok [1, 2] else .ok [3]
  txt server _ :=
    match server with
    | 1 => .ok ⟨[], none⟩
    | 2 => .ok ⟨[], some "t".toList⟩
    | _ => .ok ⟨["v".toList], none⟩
  display := toString

def behindRecord : DnsRecord := ⟨"x".toList, "v".toList, by decide +kernel, by decide +kernel⟩

theorem first_server_not_asked :
    ¬ (probe behindAuthority behindRecord = .ok () →
      AllAnswer behindAuthority behindRecord.value maxCnameHops behindRecord.fqdn) := by
  intro hclaim
  have hall := hclaim (by decide +kernel)
  rcases hall [1, 2] rfl 1 (by simp) with ⟨answer, hanswer, hmem⟩ | ⟨target, hredirects, -⟩
  · obtain rfl := ok.inj hanswer
    cases hmem
  · cases hredirects

end Detent.Guarantees.PropagationProbe
