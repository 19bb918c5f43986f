import Detent.Lib.Orderly
import Detent.Source.Challenges

/-!
# Runs of an order

Whatever the authority, the provider and the clock answer, a run of `issue` asks before it
withdraws. The authority is told that a challenge is ready only after its record was
presented, published and seen, and is asked for a certificate only once the order is ready
and every pending authorization of it is settled. Only records that are out are withdrawn
(`questions_justified`), and a run that ends has withdrawn all of them
(`challenges_withdrawn`).

The poll of `confirm_propagated` has no counter. With a clock that never goes back and
sleeps that last as long as they should, its pauses use up the timeout, so every run with
that many turns for each poll ends (`issue_ends`).
-/
namespace Detent.Guarantees.OrderRuns
open Lib
open Source.Propagation (DnsRecord)
open Source.Challenges
open Prog (orderly_ask orderly_pure run_ask)

abbrev Asked := Prog.Performed OrderOp

/-- The record of a `present` that succeeded. -/
def presentedBy : Asked → Option DnsRecord
  | ⟨_, .present record, .ok ()⟩ => some record
  | _ => none

/-- The record of a `delete`, whatever it answered. -/
def withdrawnBy : Asked → Option DnsRecord
  | ⟨_, .delete record, _⟩ => some record
  | _ => none

def presented (trace : List Asked) : List DnsRecord := trace.filterMap presentedBy

def withdrawn (trace : List Asked) : List DnsRecord := trace.filterMap withdrawnBy

/-- The authorization under `url` is settled: it is not pending, or the authority took
the word that its challenge is ready. -/
def Settled (before : List Asked) (url : Text) : Prop :=
  ∃ authz, ⟨_, .authorization url, .ok authz⟩ ∈ before ∧
    (authz.status = .pending →
      ∃ challenge, authz.dns01 = some challenge ∧ ⟨_, .setReady challenge, .ok ()⟩ ∈ before)

/-- The record of the challenge is out and was seen. -/
def Published (before : List Asked) (challenge : Challenge) : Prop :=
  ∃ url authz record, ⟨_, .authorization url, .ok authz⟩ ∈ before ∧ authz.status = .pending ∧
    authz.dns01 = some challenge ∧ recordOf authz.identifier challenge = .ok record ∧
    ⟨_, .present record, .ok ()⟩ ∈ before ∧ ⟨_, .publish record, .ok ()⟩ ∈ before ∧
    ⟨_, .waitPropagated record, .ok ()⟩ ∈ before

/-- What must have been asked before a question. -/
def Grounded (before : List Asked) : Asked → Prop
  | ⟨_, .setReady challenge, _⟩ => Published before challenge
  | ⟨_, .finalize, _⟩ => ⟨_, .pollReady, .ok .ready⟩ ∈ before ∧
      ∃ placed, ⟨_, .accountAndOrder, .ok placed⟩ ∈ before ∧
        ∀ url ∈ placed.authorizations, Settled before url
  | _ => True

/-- A record is withdrawn only when it was presented more often than withdrawn; every other
question is grounded, and comes before the first withdrawal. -/
def Justified (before : List Asked) (e : Asked) : Prop :=
  match withdrawnBy e with
  | some record => (withdrawn before).count record < (presented before).count record
  | none => withdrawn before = [] ∧ Grounded before e

theorem Settled.weaken {before more : List Asked} {url : Text} (h : Settled before url)
    (hmore : ∀ e ∈ before, e ∈ more) : Settled more url := by
  obtain ⟨authz, hfetched, hpending⟩ := h
  refine ⟨authz, hmore _ hfetched, fun hstatus => ?_⟩
  obtain ⟨challenge, hdns, hready⟩ := hpending hstatus
  exact ⟨challenge, hdns, hmore _ hready⟩

/-- What is left to withdraw. -/
def Out (before : List Asked) (records : List DnsRecord) : Prop :=
  (withdrawn before ++ records).Perm (presented before)

/-- Nothing is withdrawn yet, and these records are presented. -/
structure Asking (before : List Asked) (records : List DnsRecord) : Prop where
  withdrawn : withdrawn before = []
  presented : presented before = records

section Records

variable {before : List Asked} {records : List DnsRecord} {record : DnsRecord}

theorem presented_snoc (e : Asked) :
    presented (before ++ [e]) = presented before ++ (presentedBy e).toList := by
  cases h : presentedBy e <;> simp [presented, h]

theorem withdrawn_snoc (e : Asked) :
    withdrawn (before ++ [e]) = withdrawn before ++ (withdrawnBy e).toList := by
  cases h : withdrawnBy e <;> simp [withdrawn, h]

theorem Asking.out (h : Asking before records) : Out before records := by
  rw [Out, h.withdrawn, h.presented]
  exact .refl _

theorem Asking.snoc {e : Asked} (h : Asking before records) (he : withdrawnBy e = none) :
    Asking (before ++ [e]) (records ++ (presentedBy e).toList) :=
  ⟨by rw [withdrawn_snoc, h.withdrawn, he]; rfl, by rw [presented_snoc, h.presented]⟩

theorem Asking.quiet {e : Asked} (h : Asking before records) (he : withdrawnBy e = none)
    (hquiet : presentedBy e = none) : Asking (before ++ [e]) records := by
  have hsnoc := h.snoc he
  rwa [hquiet, Option.toList_none, List.append_nil] at hsnoc

theorem Out.all_withdrawn (h : Out before []) : (withdrawn before).Perm (presented before) := by
  rwa [Out, List.append_nil] at h

theorem Out.count_lt (h : Out before (record :: records)) :
    (withdrawn before).count record < (presented before).count record := by
  rw [← h.count_eq, List.count_append, List.count_cons_self]
  omega

theorem Out.withdraw (h : Out before (record :: records)) (answer : Except AcmeError Unit) :
    Out (before ++ [⟨_, .delete record, answer⟩]) records := by
  rw [Out, presented_snoc, withdrawn_snoc, List.append_assoc]
  exact h.trans (.of_eq (List.append_nil _).symm)

end Records

/-- How a step ends: with everything withdrawn when it failed, and as `Q` says otherwise. -/
def Ending {α : Type} (Q : List Asked → α → Prop) (later : List Asked) : Ended α → Prop
  | none => True
  | some (.error _) => Out later []
  | some (.ok a) => Q later a

abbrev Asks {α : Type} (p : Prog OrderOp (Ended α)) (before : List Asked)
    (Q : List Asked → α → Prop) : Prop :=
  p.Orderly Justified (Ending Q) before

section Steps

variable {before : List Asked} {out : List DnsRecord} {Q : List Asked → List DnsRecord → Prop}

/-- A question that needs no ground, before the first withdrawal. -/
theorem ask_quiet {α β : Type} {e : OrderOp β} {f : β → Prog OrderOp α}
    {R : List Asked → α → Prop} (hasking : Asking before out)
    (hquiet : ∀ b, withdrawnBy ⟨β, e, b⟩ = none ∧ presentedBy ⟨β, e, b⟩ = none ∧
      Grounded before ⟨β, e, b⟩)
    (h : ∀ b, Asking (before ++ [⟨β, e, b⟩]) out →
      (f b).Orderly Justified R (before ++ [⟨β, e, b⟩])) :
    (Prog.perform e >>= f).Orderly Justified R before := by
  refine orderly_ask (fun b => ⟨?_, h b (hasking.quiet (hquiet b).1 (hquiet b).2.1)⟩)
  rw [Justified, (hquiet b).1]
  exact ⟨hasking.withdrawn, (hquiet b).2.2⟩

theorem cleanupChallenges_orderly (records : List DnsRecord) (hout : Out before records) :
    (cleanupChallenges records).Orderly Justified (fun later _ => Out later []) before := by
  induction records generalizing before with
  | nil => exact orderly_pure hout
  | cons record rest ih =>
    exact orderly_ask (fun answer => ⟨hout.count_lt, ih (hout.withdraw answer)⟩)

theorem giveUp_asks (err : AcmeError) (hout : Out before out) : Asks (giveUp out err) before Q :=
  (cleanupChallenges_orderly out hout).bind (fun _ _ hdone => orderly_pure hdone)

theorem takeBack_asks {record : DnsRecord} (err : AcmeError)
    (hasking : Asking before (out ++ [record])) : Asks (takeBack record out err) before Q := by
  have hout : Out before (record :: out) :=
    (List.Perm.append_left _ (List.perm_append_singleton record out).symm).trans hasking.out
  exact orderly_ask (fun answer => ⟨hout.count_lt, giveUp_asks err (hout.withdraw answer)⟩)

/-- A poll withdraws nothing, and ends well only when it saw the record. -/
theorem pollPropagation_orderly (wait : PropagationWait) (record : DnsRecord) (started : Nat) :
    ∀ polls delay before, Asking before out →
      (pollPropagation wait record started polls delay).Orderly Justified
        (fun later r => Asking later out ∧
          (r = some (.ok ()) → ⟨_, .waitPropagated record, .ok ()⟩ ∈ later)) before
  | 0, _, _, hasking => orderly_pure ⟨hasking, nofun⟩
  | polls + 1, delay, before, hasking => by
    refine ask_quiet hasking (fun _ => ⟨rfl, rfl, trivial⟩) (fun answer hasking => ?_)
    rcases answer with err | _
    · cases err with
      | notPropagated why =>
        refine ask_quiet hasking (fun _ => ⟨rfl, rfl, trivial⟩) (fun now hasking => ?_)
        by_cases hlate : wait.timeout ≤ now - started + delay
        · rw [if_pos hlate]
          exact orderly_pure ⟨hasking, nofun⟩
        · rw [if_neg hlate]
          exact ask_quiet hasking (fun _ => ⟨rfl, rfl, trivial⟩) (fun _ hasking =>
            pollPropagation_orderly wait record started polls _ _ hasking)
      | _ => exact orderly_pure ⟨hasking, nofun⟩
    · exact orderly_pure ⟨hasking, fun _ => by simp⟩

theorem confirmPropagated_orderly (polls : Nat) (wait : PropagationWait) (record : DnsRecord)
    (hasking : Asking before out) :
    (confirmPropagated polls wait record).Orderly Justified
      (fun later r => Asking later out ∧
        (r = some (.ok ()) → ⟨_, .waitPropagated record, .ok ()⟩ ∈ later)) before :=
  ask_quiet hasking (fun _ => ⟨rfl, rfl, trivial⟩) (fun started hasking =>
    pollPropagation_orderly wait record started polls _ _ hasking)

theorem presentRecord_asks (polls : Nat) (wait : PropagationWait) {url : Text}
    {authz : Authorization} {challenge : Challenge} {record : DnsRecord}
    (hfetched : ⟨_, .authorization url, .ok authz⟩ ∈ before) (hpending : authz.status = .pending)
    (hdns : authz.dns01 = some challenge)
    (hrecord : recordOf authz.identifier challenge = .ok record) (hasking : Asking before out) :
    Asks (presentRecord polls wait challenge record out) before
      (fun later records => Asking later records ∧ ⟨_, .setReady challenge, .ok ()⟩ ∈ later) := by
  refine orderly_ask (fun answer => ⟨⟨hasking.withdrawn, trivial⟩, ?_⟩)
  rcases answer with err | _
  · exact giveUp_asks err (hasking.quiet rfl rfl).out
  refine ask_quiet (hasking.snoc rfl) (fun _ => ⟨rfl, rfl, trivial⟩) (fun answer hasking => ?_)
  rcases answer with err | _
  · exact takeBack_asks err hasking
  refine (confirmPropagated_orderly polls wait record hasking).extends.bind ?_
  rintro later confirmed ⟨hmore, hasking, hseen⟩
  rcases confirmed with _ | err | _
  · exact orderly_pure trivial
  · exact takeBack_asks err hasking
  have hpublished : Published later challenge :=
    ⟨url, authz, record, hmore _ (by simp [hfetched]), hpending, hdns, hrecord,
      hmore _ (by simp), hmore _ (by simp), hseen rfl⟩
  refine ask_quiet hasking (fun _ => ⟨rfl, rfl, hpublished⟩) (fun answer hasking => ?_)
  rcases answer with err | _
  · exact takeBack_asks err hasking
  · exact orderly_pure ⟨hasking, by simp⟩

theorem presentAuthorization_asks (polls : Nat) (wait : PropagationWait) (url : Text)
    {authz : Authorization} (hfetched : ⟨_, .authorization url, .ok authz⟩ ∈ before)
    (hasking : Asking before out) :
    Asks (presentAuthorization polls wait authz out) before
      (fun later records => Asking later records ∧ Settled later url) := by
  unfold presentAuthorization
  by_cases hstatus : authz.status ≠ .pending
  · rw [if_pos hstatus]
    exact orderly_pure
      ⟨hasking, authz, hfetched, fun hpending => absurd hpending hstatus⟩
  rw [if_neg hstatus]
  have hpending : authz.status = .pending := not_not.mp hstatus
  cases hdns : authz.dns01 with
  | none => exact giveUp_asks _ hasking.out
  | some challenge =>
    dsimp only
    cases hrecord : recordOf authz.identifier challenge with
    | error err => exact giveUp_asks err hasking.out
    | ok record =>
      have hstep := presentRecord_asks polls wait hfetched hpending hdns hrecord hasking
      refine hstep.extends.weaken (fun later r hr => ?_)
      rcases r with _ | err | records
      · trivial
      · exact hr.2
      · exact ⟨hr.2.1, authz, hr.1 _ hfetched, fun _ => ⟨challenge, hdns, hr.2.2⟩⟩

theorem presentChallenges_asks (polls : Nat) (wait : PropagationWait) (urls : List Text)
    (hasking : Asking before out) :
    Asks (presentChallenges polls wait urls out) before
      (fun later records => Asking later records ∧ ∀ url ∈ urls, Settled later url) := by
  induction urls generalizing before out with
  | nil => exact orderly_pure ⟨hasking, nofun⟩
  | cons url rest ih =>
    refine ask_quiet hasking (fun _ => ⟨rfl, rfl, trivial⟩) (fun answer hasking => ?_)
    rcases answer with err | authz
    · exact giveUp_asks err hasking.out
    refine (presentAuthorization_asks polls wait url (by simp) hasking).bind ?_
    intro later turn hturn
    rcases turn with _ | err | records
    · exact orderly_pure trivial
    · exact orderly_pure hturn
    refine (ih hturn.1).extends.weaken (fun last r hr => ?_)
    rcases r with _ | err | all
    · trivial
    · exact hr.2
    refine ⟨hr.2.1, fun other hmem => ?_⟩
    rcases List.mem_cons.mp hmem with rfl | hmem
    · exact hturn.2.weaken hr.1
    · exact hr.2.2 other hmem

theorem finishOrder_orderly {placed : Placed}
    (hplaced : ⟨_, .accountAndOrder, .ok placed⟩ ∈ before)
    (hsettled : ∀ url ∈ placed.authorizations, Settled before url) (hasking : Asking before out) :
    finishOrder.Orderly Justified (fun later _ => Asking later out) before := by
  refine ask_quiet hasking (fun _ => ⟨rfl, rfl, trivial⟩) (fun answer hasking => ?_)
  rcases answer with err | status
  · exact orderly_pure hasking
  dsimp only
  by_cases hready : status ≠ .ready
  · rw [if_pos hready]
    exact orderly_pure hasking
  rw [if_neg hready]
  obtain rfl : status = .ready := not_not.mp hready
  refine ask_quiet hasking (fun _ => ⟨rfl, rfl, by simp, placed, by simp [hplaced], fun url hmem =>
    (hsettled url hmem).weaken (fun e he => by simp [he])⟩) (fun key hasking => ?_)
  rcases key with err | keyPem
  · exact orderly_pure hasking
  refine ask_quiet hasking (fun _ => ⟨rfl, rfl, trivial⟩) (fun chain hasking => ?_)
  cases chain <;> exact orderly_pure hasking

theorem issue_orderly (polls : Nat) (wait : PropagationWait) :
    (issue polls wait).Orderly Justified (fun later r => r ≠ none → Out later []) [] := by
  have hasking : Asking [] [] := ⟨rfl, rfl⟩
  refine ask_quiet hasking (fun _ => ⟨rfl, rfl, trivial⟩) (fun answer hasking => ?_)
  rcases answer with err | placed
  · exact orderly_pure (fun _ => hasking.out)
  refine (presentChallenges_asks polls wait placed.authorizations hasking).extends.bind ?_
  rintro later presented ⟨hmore, hend⟩
  rcases presented with _ | err | records
  · exact orderly_pure (fun h => absurd rfl h)
  · exact orderly_pure (fun _ => hend)
  refine (finishOrder_orderly (hmore _ (by simp)) hend.2 hend.1).bind (fun last _ hlast => ?_)
  exact (cleanupChallenges_orderly records hlast.out).bind
    (fun _ _ hdone => orderly_pure (fun _ => hdone))

end Steps

section Run

variable {σ : Type} (h : Handler OrderOp σ)

/-- Whatever is answered, every question of a run of `issue` is justified by those before. -/
theorem questions_justified (polls : Nat) (wait : PropagationWait) (s : σ) :
    Disciplined Justified [] ((issue polls wait).trace h s) :=
  ((issue_orderly polls wait).trace s).1

/-- A run of `issue` that ends, well or not, has withdrawn what it presented, each record as
often as it presented it. -/
theorem challenges_withdrawn (polls : Nat) (wait : PropagationWait) (s : σ)
    (hended : ((issue polls wait).run h s).1 ≠ none) :
    (withdrawn ((issue polls wait).trace h s)).Perm (presented ((issue polls wait).trace h s)) :=
  (((issue_orderly polls wait).trace s).2 hended).all_withdrawn

end Run

/-- An authority with one pending authorization, and answers that let everything pass. -/
def obliging : Handler OrderOp Unit where
  apply e _ := (match e with
    | .accountAndOrder => .ok { account := [], authorizations := [['u']], profile := none }
    | .authorization _ =>
      .ok { status := .pending, identifier := .dns ['a'], dns01 := some { url := [], dnsValue := ['v'] } }
    | .present _ | .publish _ | .waitPropagated _ | .delete _ | .setReady _ => .ok ()
    | .now => 0
    | .sleep _ => ()
    | .pollReady => .ok .ready
    | .finalize | .pollCertificate => .ok [], ())
  torn _ _ _ := False

/-- One authorization: its record is presented, and withdrawn at the end. -/
theorem challenges_withdrawn_obliging :
    presented ((issue 1 .once).trace obliging ()) ≠ [] ∧
      (withdrawn ((issue 1 .once).trace obliging ())).Perm
        (presented ((issue 1 .once).trace obliging ())) :=
  ⟨by decide, challenges_withdrawn obliging 1 .once () (by decide)⟩

section Ends

variable {σ : Type} {h : Handler OrderOp σ} {time : σ → Nat}

/-- `time` is the clock of the handler. -/
structure Clock (h : Handler OrderOp σ) (time : σ → Nat) : Prop where
  reads : ∀ s, (h.apply .now s).1 = time s
  sleeps : ∀ d s, time s + d ≤ time (h.apply (.sleep d) s).2
  forward : ∀ {β : Type} (e : OrderOp β) s, time s ≤ time (h.apply e s).2

/-- The shortest pause of a poll. -/
def shortest (wait : PropagationWait) : Nat := min wait.maxDelay millisecond

/-- A turn of the poll ends it, or is short of the timeout and pauses. -/
theorem pollPropagation_turn (hclock : Clock h time) (wait : PropagationWait) (record : DnsRecord)
    (started polls delay : Nat) (s : σ) :
    ((pollPropagation wait record started (polls + 1) delay).run h s).1 ≠ none ∨
      ∃ t, time s - started + delay < wait.timeout ∧ time s + delay ≤ time t ∧
        (pollPropagation wait record started (polls + 1) delay).run h s =
          (pollPropagation wait record started polls (min (delay * 2) wait.maxDelay)).run h t := by
  rw [pollPropagation]
  rcases hask : h.apply (.waitPropagated record) s with ⟨answer, s₁⟩
  rw [run_ask hask]
  have hasked : time s ≤ time s₁ := by
    have hforward := hclock.forward (.waitPropagated record) s
    rwa [hask] at hforward
  rcases answer with err | _
  · cases err with
    | notPropagated why =>
      dsimp only
      rcases hnow : h.apply .now s₁ with ⟨now, s₂⟩
      rw [run_ask hnow]
      have hread : now = time s₁ := by
        rw [← hclock.reads, hnow]
      have hgone : time s₁ ≤ time s₂ := by
        have hforward := hclock.forward .now s₁
        rwa [hnow] at hforward
      by_cases hlate : wait.timeout ≤ now - started + delay
      · rw [if_pos hlate]
        exact .inl (by simp)
      · rw [if_neg hlate]
        rcases hsleep : h.apply (.sleep delay) s₂ with ⟨_, t⟩
        rw [run_ask hsleep]
        have hslept : time s₂ + delay ≤ time t := by
          have hsleeps := hclock.sleeps delay s₂
          rwa [hsleep] at hsleeps
        exact .inr ⟨t, by omega, by omega, rfl⟩
    | _ => exact .inl (by simp)
  · exact .inl (by simp)

/-- A poll ends when the pauses that are left to it reach the timeout. -/
theorem pollPropagation_ends (hclock : Clock h time) (wait : PropagationWait) (record : DnsRecord)
    (started polls delay : Nat) (s : σ) (hstarted : started ≤ time s)
    (hdelay : shortest wait ≤ delay)
    (hleft : wait.timeout ≤ time s - started + polls * shortest wait) :
    ((pollPropagation wait record started (polls + 1) delay).run h s).1 ≠ none := by
  induction polls generalizing delay s with
  | zero =>
    rcases pollPropagation_turn hclock wait record started 0 delay s with hend | ⟨t, hshort, -, -⟩
    · exact hend
    · omega
  | succ polls ih =>
    rcases pollPropagation_turn hclock wait record started (polls + 1) delay s with
      hend | ⟨t, hshort, hslept, hrun⟩
    · exact hend
    · rw [hrun]
      have hnext : shortest wait ≤ min (delay * 2) wait.maxDelay := by
        have hmax : shortest wait ≤ wait.maxDelay := min_le_left _ _
        omega
      refine ih _ t (by omega) hnext ?_
      rw [Nat.succ_mul] at hleft
      omega

/-- The program ends, from every state. -/
def Ends {α : Type} (h : Handler OrderOp σ) (p : Prog OrderOp (Ended α)) : Prop :=
  ∀ s, (p.run h s).1 ≠ none

section Rules

variable {α β : Type} {f : β → Prog OrderOp (Ended α)}

theorem ends_pure {r : Except AcmeError α} : Ends h (pure (some r) : Prog OrderOp (Ended α)) :=
  fun _ => Option.some_ne_none r

theorem Ends.after {p : Prog OrderOp β} (hf : ∀ b, Ends h (f b)) : Ends h (p >>= f) := by
  intro s
  rw [Prog.run_bind]
  exact hf _ _

theorem Ends.bind {p : Prog OrderOp (Ended β)} {g : Ended β → Prog OrderOp (Ended α)}
    (hp : Ends h p) (hg : ∀ r, Ends h (g (some r))) : Ends h (p >>= g) := by
  intro s
  rw [Prog.run_bind]
  rcases hr : p.run h s with ⟨_ | r, t⟩
  · exact absurd (congrArg Prod.fst hr) (hp s)
  · exact hg r t

end Rules

theorem confirmPropagated_ends (hclock : Clock h time) {wait : PropagationWait} {polls : Nat}
    (henough : wait.timeout ≤ polls * shortest wait) (record : DnsRecord) :
    Ends h (confirmPropagated (polls + 1) wait record) := by
  intro s
  unfold confirmPropagated
  rcases hnow : h.apply .now s with ⟨started, s₁⟩
  rw [run_ask hnow]
  have hstarted : started ≤ time s₁ := by
    have hforward := hclock.forward .now s
    rwa [← hclock.reads, hnow] at hforward
  refine pollPropagation_ends hclock wait record started polls _ s₁ hstarted ?_ (by omega)
  exact (min_le_right _ _).trans (le_max_right _ _)

section Steps

variable {polls : Nat} {wait : PropagationWait} (out : List DnsRecord)

theorem giveUp_ends (err : AcmeError) : Ends h (giveUp out err) := .after (fun _ => ends_pure)

theorem takeBack_ends (record : DnsRecord) (err : AcmeError) : Ends h (takeBack record out err) :=
  .after (fun _ => giveUp_ends out err)

theorem presentRecord_ends (hconfirm : ∀ record, Ends h (confirmPropagated polls wait record))
    (challenge : Challenge) (record : DnsRecord) :
    Ends h (presentRecord polls wait challenge record out) := by
  refine .after (fun answer => ?_)
  rcases answer with err | _
  · exact giveUp_ends out err
  refine .after (fun answer => ?_)
  rcases answer with err | _
  · exact takeBack_ends out record err
  refine (hconfirm record).bind (fun confirmed => ?_)
  rcases confirmed with err | _
  · exact takeBack_ends out record err
  refine .after (fun answer => ?_)
  rcases answer with err | _
  · exact takeBack_ends out record err
  · exact ends_pure

theorem presentAuthorization_ends
    (hconfirm : ∀ record, Ends h (confirmPropagated polls wait record)) (authz : Authorization) :
    Ends h (presentAuthorization polls wait authz out) := by
  unfold presentAuthorization
  split
  · exact ends_pure
  cases authz.dns01 with
  | none => exact giveUp_ends out _
  | some challenge =>
    dsimp only
    cases recordOf authz.identifier challenge with
    | error err => exact giveUp_ends out err
    | ok record => exact presentRecord_ends out hconfirm challenge record

theorem presentChallenges_ends (hconfirm : ∀ record, Ends h (confirmPropagated polls wait record))
    (urls : List Text) : Ends h (presentChallenges polls wait urls out) := by
  induction urls generalizing out with
  | nil => exact ends_pure
  | cons url rest ih =>
    refine .after (fun answer => ?_)
    rcases answer with err | authz
    · exact giveUp_ends out err
    refine (presentAuthorization_ends out hconfirm authz).bind (fun turn => ?_)
    rcases turn with err | records
    · exact ends_pure
    · exact ih records

end Steps

/-- With a sound clock, a run of `issue` with enough turns for the timeout ends, and ends
with every record it presented withdrawn. -/
theorem issue_ends (h : Handler OrderOp σ) (time : σ → Nat) (hclock : Clock h time)
    (wait : PropagationWait) (polls : Nat) (henough : wait.timeout ≤ polls * shortest wait) (s : σ) :
    ((issue (polls + 1) wait).run h s).1 ≠ none ∧
      (withdrawn ((issue (polls + 1) wait).trace h s)).Perm
        (presented ((issue (polls + 1) wait).trace h s)) := by
  have hended : Ends h (issue (polls + 1) wait) := by
    refine .after (fun answer => ?_)
    rcases answer with err | placed
    · exact ends_pure
    have hpresent := presentChallenges_ends [] (confirmPropagated_ends hclock henough)
      placed.authorizations
    refine hpresent.bind (fun presented => ?_)
    rcases presented with err | records
    · exact ends_pure
    · exact .after (fun _ => .after (fun _ => ends_pure))
  have hout := ((issue_orderly (polls + 1) wait).trace s).2 (hended s)
  exact ⟨hended s, hout.all_withdrawn⟩

end Ends

/-- A name server that does not have the record yet, and a clock that only sleeps move. -/
def waiting : Handler OrderOp Nat where
  apply
    | .waitPropagated _, s => (.error (.notPropagated ""), s)
    | .now, s => (s, s)
    | .sleep duration, s => ((), s + duration)
    | e, s => ((obliging.apply e ()).1, s)
  torn _ _ _ := False

def threeTurns : PropagationWait where
  initialDelay := 0
  maxDelay := millisecond
  timeout := 3 * millisecond

theorem issue_ends_waiting :
    ((issue 4 threeTurns).run waiting 0).1 ≠ none ∧
      (withdrawn ((issue 4 threeTurns).trace waiting 0)).Perm
        (presented ((issue 4 threeTurns).trace waiting 0)) := by
  refine issue_ends waiting id ⟨fun _ => rfl, fun _ _ => le_rfl, fun e s => ?_⟩ threeTurns 3
    (by decide) 0
  cases e with
  | sleep duration => exact Nat.le_add_right s duration
  | _ => exact le_rfl

end Detent.Guarantees.OrderRuns
