import Detent.Source.Acme

/-!
# The rounds of a renewal loop

What one round may do, path by path, and how the trace of a run of `run_loop` splits
into its rounds: each starts where the loop reads the clock for it, and holds
everything done until the next one starts.
-/
namespace Detent.Guarantees.RenewalRounds
open Lib Source.Acme Source.AcmeChannel
open Prog (Uses.bind returns_pure run_bind run_perform trace_bind trace_perform uses_perform
  uses_pure)

abbrev Event := Prog.Performed AcmeOp

/-- The clock and the request of an event that starts a round. -/
def startOf : Event → Option (Int × Bool)
  | ⟨_, .now (.roundStart force), at_⟩ => some (at_, force)
  | _ => none

/-- A round: when it started, whether it was forced, and what was done in it. -/
structure Round : Type 1 where
  startedAt : Int
  force : Bool
  events : List Event

def rounds : List Event → List Round
  | [] => []
  | e :: es =>
    match startOf e with
    | some (at_, force) => ⟨at_, force, es.takeWhile (fun x => (startOf x).isNone)⟩ :: rounds es
    | none => rounds es

variable {es : List Event}

theorem rounds_quiet (hes : ∀ e ∈ es, startOf e = none) (later : List Event) :
    rounds (es ++ later) = rounds later := by
  induction es with
  | nil => rfl
  | cons e es ih =>
    have he : startOf e = none := hes e (by simp)
    have hrest := ih (fun x hx => hes x (by simp [hx]))
    simp only [List.cons_append, rounds, he]
    exact hrest

/-- A start, what follows it without another, and the rounds after. -/
theorem rounds_start {e : Event} {at_ : Int} {force : Bool} {later : List Event}
    (he : startOf e = some (at_, force)) (hes : ∀ x ∈ es, startOf x = none)
    (hlater : ∀ x ∈ later.head?, startOf x ≠ none) :
    rounds (e :: (es ++ later)) = ⟨at_, force, es⟩ :: rounds later := by
  have htake : (es ++ later).takeWhile (fun x => (startOf x).isNone) = es := by
    rw [List.takeWhile_append_of_pos (by simpa using hes)]
    cases later with
    | nil => simp
    | cons x later =>
      have hx : startOf x ≠ none := hlater x (by simp)
      have hsome : (startOf x).isNone = false := by
        cases hstart : startOf x with
        | none => exact absurd hstart hx
        | some start => rfl
      rw [List.takeWhile_cons_of_neg (by simp [hsome]), List.append_nil]
  simp only [rounds, he, htake, rounds_quiet hes later]

/-- What an order may do, with its result. -/
inductive OrderRuns (readers : Readers) (now : Int) (kept : Kept) :
    List Event → Except RenewError Outcome × Kept → Prop
  | refused (err : String) :
    OrderRuns readers now kept [⟨_, .issue, .error err⟩] (.error (.issue err), kept)
  | unparsed (issued : Issued) (hleaf : readers.leafValidityPem issued.chainPem = none) :
    OrderRuns readers now kept [⟨_, .issue, .ok issued⟩]
      (.error .chain, { kept with lastOrder := some now })
  | installed (issued : Issued) (notBefore notAfter : Int)
    (hleaf : readers.leafValidityPem issued.chainPem = some (notBefore, notAfter)) :
    OrderRuns readers now kept
      [⟨_, .issue, .ok issued⟩, ⟨_, .install issued.chainPem issued.keyPem, .ok ()⟩]
      (.ok (.renewed notBefore notAfter), { kept with lastOrder := some now })
  | failed (issued : Issued) (notBefore notAfter : Int) (err : AcmeChannelError)
    (hleaf : readers.leafValidityPem issued.chainPem = some (notBefore, notAfter)) :
    OrderRuns readers now kept
      [⟨_, .issue, .ok issued⟩, ⟨_, .install issued.chainPem issued.keyPem, .error err⟩]
      (.error (.install err),
        ⟨some ⟨issued.chainPem, issued.keyPem, notBefore, notAfter⟩, some now⟩)

/-- No held pair is still valid at `now`. -/
def Free (now : Int) (kept : Kept) : Prop := ∀ pair, kept.held = some pair → pair.notAfter < now

/-- What a round may do, with its result. -/
inductive RoundRuns (readers : Readers) (now : Int) (force : Bool) (kept : Kept) :
    List Event → Except RenewError Outcome × Kept → Prop
  | retried (pair : Held) (hheld : kept.held = some pair) (hvalid : now ≤ pair.notAfter) :
    RoundRuns readers now force kept [⟨_, .install pair.chainPem pair.key, .ok ()⟩]
      (.ok (.renewed pair.notBefore pair.notAfter), { kept with held := none })
  | refused (pair : Held) (err : AcmeChannelError) (hheld : kept.held = some pair)
    (hvalid : now ≤ pair.notAfter) :
    RoundRuns readers now force kept [⟨_, .install pair.chainPem pair.key, .error err⟩]
      (.error (.install err), kept)
  | unloaded (err : String) (hfree : Free now kept) :
    RoundRuns readers now force kept [⟨_, .loadAcme, .error err⟩]
      (.error (.load err), { kept with held := none })
  | unread (served : Option (List UInt8)) (es : List Event)
    (result : Except RenewError Outcome × Kept) (hfree : Free now kept)
    (hserved : served.bind readers.leafValidityDer = none)
    (horder : OrderRuns readers now { kept with held := none } es result) :
    RoundRuns readers now force kept (⟨_, .loadAcme, .ok served⟩ :: es) result
  | forced (leafDer : List UInt8) (notBefore notAfter : Int) (es : List Event)
    (result : Except RenewError Outcome × Kept) (hfree : Free now kept)
    (hleaf : readers.leafValidityDer leafDer = some (notBefore, notAfter))
    (hforce : force = true) (hallowed : forcedOrderAllowed now kept.lastOrder = true)
    (horder : OrderRuns readers now { kept with held := none } es result) :
    RoundRuns readers now force kept (⟨_, .loadAcme, .ok (some leafDer)⟩ :: es) result
  | due (leafDer : List UInt8) (notBefore notAfter : Int) (window : Option Window)
    (es : List Event) (result : Except RenewError Outcome × Kept) (hfree : Free now kept)
    (hleaf : readers.leafValidityDer leafDer = some (notBefore, notAfter))
    (hdue : shouldRenewInWindow notBefore notAfter now window = true)
    (horder : OrderRuns readers now { kept with held := none } es result) :
    RoundRuns readers now force kept
      (⟨_, .loadAcme, .ok (some leafDer)⟩ :: ⟨_, .renewalWindow leafDer, window⟩ :: es) result
  | notDue (leafDer : List UInt8) (notBefore notAfter : Int) (window : Option Window)
    (hfree : Free now kept)
    (hleaf : readers.leafValidityDer leafDer = some (notBefore, notAfter))
    (hnot : shouldRenewInWindow notBefore notAfter now window = false) :
    RoundRuns readers now force kept
      [⟨_, .loadAcme, .ok (some leafDer)⟩, ⟨_, .renewalWindow leafDer, window⟩]
      (.ok (.notDue notBefore notAfter window), { kept with held := none })

section Runs

variable {σ : Type} (h : Handler AcmeOp σ) (readers : Readers)

theorem order_runs (now : Int) (kept : Kept) (s : σ) :
    OrderRuns readers now kept ((order readers now kept).trace h s)
      ((order readers now kept).run h s).1 := by
  simp only [order, trace_bind, trace_perform, run_bind, run_perform]
  cases h.apply .issue s with
  | mk issue s =>
    cases issue with
    | error err => exact .refused err
    | ok issued =>
      cases hleaf : readers.leafValidityPem issued.chainPem with
      | none =>
        simp only [hleaf]
        exact .unparsed issued hleaf
      | some times =>
        obtain ⟨notBefore, notAfter⟩ := times
        simp only [hleaf, install, trace_bind, trace_perform, run_bind,
          run_perform]
        cases h.apply (.install issued.chainPem issued.keyPem) s with
        | mk answer s =>
          cases answer with
          | ok done => exact .installed issued notBefore notAfter hleaf
          | error err => exact .failed issued notBefore notAfter err hleaf

/-- A round after the answer of the CA to `renewal_window`. -/
theorem windowed_runs {now : Int} {force : Bool} {kept : Kept} {leafDer : List UInt8}
    {notBefore notAfter : Int} (hfree : Free now kept)
    (hleaf : readers.leafValidityDer leafDer = some (notBefore, notAfter))
    (window : Option Window) (s : σ) :
    let renew : Prog AcmeOp (Except RenewError Outcome × Kept) :=
      if shouldRenewInWindow notBefore notAfter now window then
        order readers now { kept with held := none }
      else pure (.ok (.notDue notBefore notAfter window), { kept with held := none })
    RoundRuns readers now force kept
      (⟨_, .loadAcme, .ok (some leafDer)⟩ :: ⟨_, .renewalWindow leafDer, window⟩ ::
        renew.trace h s) (renew.run h s).1 := by
  intro renew
  by_cases hdue : shouldRenewInWindow notBefore notAfter now window = true
  · simp only [renew, if_pos hdue]
    exact .due leafDer notBefore notAfter window _ _ hfree hleaf hdue (order_runs h readers now _ s)
  · simp only [renew, if_neg hdue]
    exact .notDue leafDer notBefore notAfter window hfree hleaf (Bool.eq_false_iff.mpr hdue)

theorem loadAndRenew_runs {now : Int} {force : Bool} {kept : Kept} (hfree : Free now kept) (s : σ) :
    RoundRuns readers now force kept
      ((loadAndRenew readers now force { kept with held := none }).trace h s)
      ((loadAndRenew readers now force { kept with held := none }).run h s).1 := by
  simp only [loadAndRenew, trace_bind, trace_perform, run_bind, run_perform]
  cases h.apply .loadAcme s with
  | mk loaded s =>
    cases loaded with
    | error err => exact .unloaded err hfree
    | ok served =>
      cases served with
      | none => exact .unread none _ _ hfree rfl (order_runs h readers now _ s)
      | some leafDer =>
        cases hleaf : readers.leafValidityDer leafDer with
        | none =>
          simp only [renewOnce, hleaf]
          exact .unread (some leafDer) _ _ hfree hleaf (order_runs h readers now _ s)
        | some times =>
          obtain ⟨notBefore, notAfter⟩ := times
          simp only [renewOnce, hleaf]
          by_cases hforced : (force && forcedOrderAllowed now kept.lastOrder) = true
          · rw [if_pos hforced]
            have hboth := Bool.and_eq_true_iff.mp hforced
            exact .forced leafDer notBefore notAfter _ _ hfree hleaf hboth.1 hboth.2
              (order_runs h readers now _ s)
          · rw [if_neg hforced]
            exact windowed_runs h readers hfree hleaf (h.apply (.renewalWindow leafDer) s).1 _

theorem round_runs (now : Int) (force : Bool) (kept : Kept) (s : σ) :
    RoundRuns readers now force kept ((round readers now force kept).trace h s)
      ((round readers now force kept).run h s).1 := by
  unfold Source.Acme.round
  cases hheld : kept.held with
  | none =>
    have hfree : Free now kept := by
      intro pair hpair
      simp [hheld] at hpair
    have hruns : RoundRuns readers now force kept _ _ := loadAndRenew_runs h readers hfree s
    rwa [show ({ kept with held := none } : Kept) = kept by cases kept; simp_all] at hruns
  | some pair =>
    by_cases hvalid : now ≤ pair.notAfter
    · simp only [if_pos hvalid, install, trace_bind, trace_perform, run_bind,
        run_perform]
      cases h.apply (.install pair.chainPem pair.key) s with
      | mk answer s =>
        cases answer with
        | ok done => exact .retried pair hheld hvalid
        | error err =>
          have hkept : ({ ({ kept with held := none } : Kept) with held := some pair }) = kept := by
            cases kept
            simp_all
          simp only [hkept]
          exact .refused pair err hheld hvalid
    · simp only [if_neg hvalid]
      refine loadAndRenew_runs h readers ?_ s
      intro other hother
      rw [hheld] at hother
      cases hother
      omega

/-- What a loop does between two rounds. -/
def Waits : (β : Type) → AcmeOp β → Prop
  | _, .takePendingRenew | _, .nextRequest | _, .sleep _ | _, .now .backoff => True
  | _, _ => False

theorem backoff_waits (deadline : Int) (waits wait : Nat) (renewSeen : Bool) :
    (backoff deadline waits wait renewSeen).Uses Waits := by
  induction waits generalizing wait renewSeen with
  | zero => exact uses_pure _
  | succ waits ih =>
    refine Uses.bind (uses_perform trivial) (fun ended => ?_)
    cases ended with
    | true => exact uses_pure _
    | false =>
      refine Uses.bind (uses_perform trivial) (fun read => ?_)
      cases read with
      | error err => exact uses_pure _
      | ok done => exact Uses.bind (uses_perform trivial) (fun now => ih _ _)

theorem afterRound_waits (waits : Nat) (startedAt : Int) (result : Except RenewError Outcome)
    (kept : Kept) (retry : Nat) (force : Bool) :
    (afterRound waits startedAt result kept retry force).Uses Waits := by
  unfold afterRound
  split
  · split
    · exact uses_pure _
    · refine Uses.bind (uses_perform trivial) (fun ended => ?_)
      cases ended with
      | true => exact uses_pure _
      | false =>
        refine Uses.bind (uses_perform trivial) (fun read => ?_)
        cases read <;> exact uses_pure _
  · exact uses_pure _
  · refine Uses.bind (backoff_waits _ _ _ _) (fun flow => ?_)
    cases flow <;> exact uses_pure _

/-- A loop keeps for its next turn what the round left. -/
theorem afterRound_kept (waits : Nat) (startedAt : Int) (result : Except RenewError Outcome)
    (kept : Kept) (retry : Nat) (force : Bool) :
    (afterRound waits startedAt result kept retry force).Returns
      (fun flow => ∀ s, flow = .next s → s.kept = kept) := by
  unfold afterRound
  split
  · split
    · refine returns_pure (fun s hs => ?_)
      cases hs
      rfl
    · refine Prog.returns_bind (fun ended => ?_)
      cases ended with
      | true =>
        refine returns_pure (fun s hs => ?_)
        cases hs
        rfl
      | false =>
        refine Prog.returns_bind (fun read => ?_)
        cases read with
        | error err => exact returns_pure nofun
        | ok done =>
          refine returns_pure (fun s hs => ?_)
          cases hs
          rfl
  · exact returns_pure nofun
  · refine Prog.returns_bind (fun flow => ?_)
    cases flow with
    | next renewSeen =>
      refine returns_pure (fun s hs => ?_)
      cases hs
      rfl
    | returned | waiting => exact returns_pure nofun

theorem startOf_of_waits {e : Event} (he : Waits e.type e.effect) : startOf e = none := by
  obtain ⟨type, effect, result⟩ := e
  cases effect with
  | now at_ =>
    cases at_ with
    | roundStart force => cases he
    | backoff => rfl
  | _ => rfl

variable {result : Except RenewError Outcome × Kept}

theorem OrderRuns.quiet {now : Int} {kept : Kept} (hruns : OrderRuns readers now kept es result) :
    ∀ e ∈ es, startOf e = none := by
  cases hruns <;> simp [startOf]

theorem RoundRuns.quiet {now : Int} {force : Bool} {kept : Kept}
    (hruns : RoundRuns readers now force kept es result) : ∀ e ∈ es, startOf e = none := by
  cases hruns with
  | unread served es result hfree hserved horder
  | forced leafDer notBefore notAfter es result hfree hleaf hforce hallowed horder =>
    exact List.forall_mem_cons.mpr ⟨rfl, horder.quiet⟩
  | due leafDer notBefore notAfter window es result hfree hleaf hdue horder =>
    exact List.forall_mem_cons.mpr ⟨rfl, List.forall_mem_cons.mpr ⟨rfl, horder.quiet⟩⟩
  | _ => simp [startOf]

/-- One turn: its start, a round, and waits; what the round keeps is what the next
turn has. -/
theorem turn_runs (waits : Nat) (s : Loop) (u : σ) :
    ∃ now es result waited,
      (turn readers waits s).trace h u =
        ⟨_, .now (.roundStart s.force), now⟩ :: (es ++ waited) ∧
      RoundRuns readers now s.force s.kept es result ∧
      (∀ e ∈ waited, Waits e.type e.effect) ∧
      ∀ s', ((turn readers waits s).run h u).1 = .next s' → s'.kept = result.2 := by
  let now := (h.apply (.now (.roundStart s.force)) u).1
  let v := (h.apply (.now (.roundStart s.force)) u).2
  let ended := (round readers now s.force s.kept).run h v
  let pending := h.apply .takePendingRenew ended.2
  let after := afterRound waits now ended.1.1 ended.1.2 s.retry pending.1
  have htrace : (turn readers waits s).trace h u = ⟨_, .now (.roundStart s.force), now⟩ ::
      ((round readers now s.force s.kept).trace h v ++
        (⟨_, .takePendingRenew, pending.1⟩ :: after.trace h pending.2)) := by
    simp only [turn, trace_bind, trace_perform]
    rfl
  have hrun : (turn readers waits s).run h u = after.run h pending.2 := by
    simp only [turn, run_bind, run_perform]
    rfl
  refine ⟨now, _, ended.1, _, htrace, round_runs h readers now s.force s.kept v, ?_, ?_⟩
  · intro e he
    rcases List.mem_cons.mp he with rfl | hafter
    · exact trivial
    · exact (afterRound_waits waits now ended.1.1 ended.1.2 s.retry pending.1).trace h pending.2 e
        hafter
  · intro s' hs'
    rw [hrun] at hs'
    exact (afterRound_kept waits now ended.1.1 ended.1.2 s.retry pending.1).run
      (Prod.ext hs' rfl) s' rfl

end Runs

/-- Rounds one after the other, from what the first finds kept. -/
inductive RoundsRun (readers : Readers) : Kept → List Round → Prop
  | done (kept : Kept) : RoundsRun readers kept []
  | next (kept : Kept) (now : Int) (force : Bool) (es waited : List Event)
    (result : Except RenewError Outcome × Kept) (rest : List Round)
    (hruns : RoundRuns readers now force kept es result)
    (hwaited : ∀ e ∈ waited, Waits e.type e.effect) (hrest : RoundsRun readers result.2 rest) :
    RoundsRun readers kept (⟨now, force, es ++ waited⟩ :: rest)

section Whole

variable {σ : Type} (h : Handler AcmeOp σ) (readers : Readers)

theorem turns_head (waits bound : Nat) (s : Loop) (u : σ) :
    ∀ e ∈ ((turns readers waits bound s).trace h u).head?, startOf e ≠ none := by
  cases bound with
  | zero => simp [turns]
  | succ bound =>
    obtain ⟨now, es, result, waited, htrace, -⟩ := turn_runs h readers waits s u
    simp only [turns, trace_bind, htrace, List.cons_append, List.head?_cons,
      Option.mem_some_iff]
    rintro e rfl
    simp [startOf]

theorem turns_run (waits bound : Nat) (s : Loop) (u : σ) :
    RoundsRun readers s.kept (rounds ((turns readers waits bound s).trace h u)) := by
  induction bound generalizing s u with
  | zero => exact .done s.kept
  | succ bound ih =>
    obtain ⟨now, es, result, waited, htrace, hruns, hwaited, hnext⟩ :=
      turn_runs h readers waits s u
    have hquiet : ∀ e ∈ es ++ waited, startOf e = none := by
      intro e he
      rcases List.mem_append.mp he with hround | hwait
      · exact hruns.quiet readers e hround
      · exact startOf_of_waits (hwaited e hwait)
    simp only [turns, trace_bind, htrace, List.cons_append]
    cases hflow : (turn readers waits s).run h u with
    | mk flow v =>
      rw [hflow] at hnext
      cases flow with
      | next s' =>
        rw [rounds_start rfl hquiet (turns_head h readers waits bound s' v)]
        refine .next s.kept now s.force es waited result _ hruns hwaited ?_
        rw [← hnext s' rfl]
        exact ih s' v
      | returned | waiting =>
        rw [rounds_start rfl hquiet (by simp)]
        exact .next s.kept now s.force es waited result _ hruns hwaited (.done _)

/-- A run of `run_loop` is rounds one after the other, from nothing kept. -/
theorem runLoop_run (waits bound : Nat) (u : σ) :
    RoundsRun readers ⟨none, none⟩ (rounds ((runLoop readers waits bound).trace h u)) := by
  simp only [runLoop, trace_bind, trace_perform]
  rw [rounds_quiet (by simp [startOf])]
  exact turns_run h readers waits bound ⟨firstRetry, ⟨none, none⟩, _⟩ _

end Whole

end Detent.Guarantees.RenewalRounds
