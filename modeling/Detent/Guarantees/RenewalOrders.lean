import Detent.Guarantees.RenewalRounds

/-!
# Orders of the renewal loop

An issued pair is offered to the worker in every round until it is installed or has
expired, and no other certificate is ordered meanwhile. Two orders made while the
served certificate is not due are an hour apart when such orders succeed; the time of
a failed one is not kept.
-/
namespace Detent.Guarantees.RenewalOrders
open Lib Source.Acme Source.AcmeChannel RenewalRounds
open List (filterMap_cons mem_cons_self pairwise_cons)

/-- A call to the CA for a certificate, or to the worker with a pair. -/
inductive Call where
  | issue (answer : Except String Issued)
  | install (chainPem keyPem : String) (answer : Except AcmeChannelError Unit)

def callOf : Event → Option Call
  | ⟨_, .issue, answer⟩ => some (.issue answer)
  | ⟨_, .install chainPem keyPem, answer⟩ => some (.install chainPem keyPem answer)
  | _ => none

def calls (r : Round) : List Call := r.events.filterMap callOf

variable {e : Event} {waited : List Event} {issued : Issued}

theorem callOf_of_waits (he : Waits e.type e.effect) : callOf e = none := by
  obtain ⟨type, effect, result⟩ := e
  cases effect <;> first | rfl | cases he

/-- What a reader of events that skips waits finds in a round. -/
theorem filterMap_waited {α : Type} {f : Event → Option α}
    (hf : ∀ {e : Event}, Waits e.type e.effect → f e = none) {es : List Event}
    (hwaited : ∀ e ∈ waited, Waits e.type e.effect) :
    (es ++ waited).filterMap f = es.filterMap f := by
  have hnone : waited.filterMap f = [] := by
    rw [List.filterMap_eq_nil_iff]
    intro e he
    exact hf (hwaited e he)
  rw [List.filterMap_append, hnone, List.append_nil]

/-- Waits call neither the CA nor the worker. -/
theorem calls_waited {now : Int} {force : Bool} {es : List Event}
    (hwaited : ∀ e ∈ waited, Waits e.type e.effect) :
    calls ⟨now, force, es ++ waited⟩ = es.filterMap callOf :=
  filterMap_waited callOf_of_waits hwaited

section Held

variable {readers : Readers} {now : Int} {force : Bool} {kept : Kept} {es : List Event}
  {result : Except RenewError Outcome × Kept}

/-- A round that finds a valid pair offers it and nothing else; unless the worker takes
it, it stays. -/
theorem round_held {pair : Held} (hruns : RoundRuns readers now force kept es result)
    (hheld : kept.held = some pair) (hvalid : now ≤ pair.notAfter) :
    ∃ answer, es.filterMap callOf = [.install pair.chainPem pair.key answer] ∧
      (answer = .ok () ∨ result.2.held = some pair) := by
  have hbusy : ¬ Free now kept := by
    intro hfree
    have hexpired := hfree pair hheld
    omega
  cases hruns with
  | retried other hother hnow =>
    obtain rfl : other = pair := by simpa [hother] using hheld
    exact ⟨.ok (), rfl, .inl rfl⟩
  | refused other err hother hnow =>
    obtain rfl : other = pair := by simpa [hother] using hheld
    exact ⟨.error err, rfl, .inr hheld⟩
  | unloaded err hfree | unread served es result hfree hserved horder => exact absurd hfree hbusy
  | forced leafDer notBefore notAfter es result hfree hleaf hforce hallowed horder
  | due leafDer notBefore notAfter window es result hfree hleaf hdue horder =>
    exact absurd hfree hbusy
  | notDue leafDer notBefore notAfter window hfree hleaf hnot => exact absurd hfree hbusy

/-- An order that brought a chain whose leaf parses offers that pair at once; unless the
worker takes it, it is held. -/
theorem order_issued {notBefore notAfter : Int} (hruns : OrderRuns readers now kept es result)
    (hleaf : readers.leafValidityPem issued.chainPem = some (notBefore, notAfter))
    (hissued : .issue (.ok issued) ∈ es.filterMap callOf) :
    ∃ answer, es.filterMap callOf =
        [.issue (.ok issued), .install issued.chainPem issued.keyPem answer] ∧
      (answer = .ok () ∨
        result.2.held = some ⟨issued.chainPem, issued.keyPem, notBefore, notAfter⟩) := by
  cases hruns with
  | refused err => simp [callOf] at hissued
  | unparsed other hother =>
    obtain rfl : issued = other := by simpa [callOf] using hissued
    simp [hother] at hleaf
  | installed other nb na hother =>
    obtain rfl : issued = other := by simpa [callOf] using hissued
    exact ⟨.ok (), rfl, .inl rfl⟩
  | failed other nb na err hother =>
    obtain rfl : issued = other := by simpa [callOf] using hissued
    obtain ⟨rfl, rfl⟩ : nb = notBefore ∧ na = notAfter := by simpa [hother] using hleaf
    exact ⟨.error err, rfl, .inr rfl⟩

theorem round_issued {notBefore notAfter : Int} (hruns : RoundRuns readers now force kept es result)
    (hleaf : readers.leafValidityPem issued.chainPem = some (notBefore, notAfter))
    (hissued : .issue (.ok issued) ∈ es.filterMap callOf) :
    ∃ answer, es.filterMap callOf =
        [.issue (.ok issued), .install issued.chainPem issued.keyPem answer] ∧
      (answer = .ok () ∨
        result.2.held = some ⟨issued.chainPem, issued.keyPem, notBefore, notAfter⟩) := by
  cases hruns with
  | unread served es result hfree hserved horder
  | forced leafDer nb na es result hfree hread hforce hallowed horder
  | due leafDer nb na window es result hfree hread hdue horder =>
    simp only [filterMap_cons, callOf] at hissued ⊢
    exact order_issued horder hleaf hissued
  | _ => simp [callOf] at hissued

end Held

variable {readers : Readers}

/-- A held pair is what every round offers until the worker takes it or it expires. -/
theorem held_retried {kept : Kept} {pair : Held} {all : List Round}
    (hrun : RoundsRun readers kept all) (hheld : kept.held = some pair)
    {between after : List Round} {last : Round} (hall : all = between ++ last :: after)
    (hvalid : ∀ r ∈ between ++ [last], r.startedAt ≤ pair.notAfter)
    (hfails : ∀ r ∈ between, .install pair.chainPem pair.key (.ok ()) ∉ calls r) :
    ∃ answer, calls last = [.install pair.chainPem pair.key answer] := by
  induction hrun generalizing between with
  | done kept => simp at hall
  | next kept now force es waited result rest hruns hwaited hrest ih =>
    cases between with
    | nil =>
      obtain ⟨hlast, -⟩ := List.cons.inj hall
      subst hlast
      have hnow : now ≤ pair.notAfter := hvalid ⟨now, force, es ++ waited⟩ (by simp)
      obtain ⟨answer, hcalls, -⟩ := round_held hruns hheld hnow
      exact ⟨answer, by rw [calls_waited hwaited, hcalls]⟩
    | cons first between =>
      obtain ⟨hfirst, hlater⟩ := List.cons.inj hall
      subst hfirst
      have hnow : now ≤ pair.notAfter := hvalid ⟨now, force, es ++ waited⟩ (by simp)
      obtain ⟨answer, hcalls, hkept⟩ := round_held hruns hheld hnow
      have hstill : result.2.held = some pair := by
        rcases hkept with rfl | hkept
        · have hfirst := hfails _ mem_cons_self
          simp [calls_waited hwaited, hcalls] at hfirst
        · exact hkept
      exact ih hstill hlater (fun r hr => hvalid r (List.mem_cons_of_mem _ hr))
        (fun r hr => hfails r (List.mem_cons_of_mem _ hr))

/-- The rounds after the first ones are a run too. -/
theorem RoundsRun.after {kept : Kept} {before rest : List Round}
    (hrun : RoundsRun readers kept (before ++ rest)) : ∃ kept', RoundsRun readers kept' rest := by
  induction before generalizing kept with
  | nil => exact ⟨kept, hrun⟩
  | cons first before ih =>
    cases hrun with
    | next kept now force es waited result rest hruns hwaited hrest => exact ih hrest

/-- **No second order.** After the CA issued a chain whose leaf parses, its round offers
exactly that pair to the worker, and so does every later round, with one attempt and no
call to the CA, up to the round in which the worker takes it or which starts after the
leaf has expired. -/
theorem issued_pair_offered_until_taken {σ : Type} (h : Handler AcmeOp σ) (readers : Readers)
    (waits bound : Nat) (u : σ) {before later : List Round} {first : Round} {issued : Issued}
    {notBefore notAfter : Int}
    (hrounds : rounds ((runLoop readers waits bound).trace h u) = before ++ first :: later)
    (hissued : .issue (.ok issued) ∈ calls first)
    (hleaf : readers.leafValidityPem issued.chainPem = some (notBefore, notAfter)) :
    (∃ answer, calls first =
      [.issue (.ok issued), .install issued.chainPem issued.keyPem answer]) ∧
    ∀ between last after, later = between ++ last :: after →
      (∀ r ∈ between ++ [last], r.startedAt ≤ notAfter) →
      (∀ r ∈ first :: between, .install issued.chainPem issued.keyPem (.ok ()) ∉ calls r) →
      ∃ answer, calls last = [.install issued.chainPem issued.keyPem answer] := by
  have hrun := runLoop_run h readers waits bound u
  rw [hrounds] at hrun
  obtain ⟨kept, hfrom⟩ := RoundsRun.after hrun
  cases hfrom with
  | next kept now force es waited result rest hruns hwaited hrest =>
    rw [calls_waited hwaited] at hissued
    obtain ⟨answer, hcalls, hkept⟩ := round_issued hruns hleaf hissued
    rw [calls_waited hwaited]
    refine ⟨⟨answer, hcalls⟩, ?_⟩
    intro between last after hlater hvalid hfails
    have hheld : result.2.held = some ⟨issued.chainPem, issued.keyPem, notBefore, notAfter⟩ := by
      rcases hkept with rfl | hkept
      · have hfirst := hfails _ mem_cons_self
        simp [calls_waited hwaited, hcalls] at hfirst
      · exact hkept
    exact held_retried hrest hheld hlater hvalid (fun r hr => hfails r (by simp [hr]))

/-- The answers an environment gives, in order. -/
structure Script where
  clocks : List Int
  served : List (Except String (Option (List UInt8)))
  windows : List (Option Window)
  issues : List (Except String Issued)
  installs : List (Except AcmeChannelError Unit)
  pending : List Bool
  requests : List (Except AcmeChannelError Unit)
  sleeps : List Bool

def Script.apply : {β : Type} → AcmeOp β → Script → β × Script
  | _, .now _, s => (s.clocks.headD 0, { s with clocks := s.clocks.tail })
  | _, .loadAcme, s => (s.served.headD (.ok none), { s with served := s.served.tail })
  | _, .renewalWindow _, s => (s.windows.headD none, { s with windows := s.windows.tail })
  | _, .issue, s => (s.issues.headD (.error ""), { s with issues := s.issues.tail })
  | _, .install _ _, s =>
    (s.installs.headD (.error (.channel .timeout)), { s with installs := s.installs.tail })
  | _, .takePendingRenew, s => (s.pending.headD false, { s with pending := s.pending.tail })
  | _, .nextRequest, s =>
    (s.requests.headD (.error (.channel .closed)), { s with requests := s.requests.tail })
  | _, .sleep _, s => (s.sleeps.headD true, { s with sleeps := s.sleeps.tail })

def Script.handler : Handler AcmeOp Script := ⟨Script.apply, fun _ _ _ => False⟩

/-- A reader that knows one leaf, valid for a million seconds. -/
def oneLeaf : Readers :=
  ⟨fun der => if der = [1] then some (0, 1000000) else none⟩

def newPair : Issued :=
  ⟨"-----BEGIN CERTIFICATE-----\nAQ==\n-----END CERTIFICATE-----\n", "key"⟩

/-- Nothing is served, the CA issues, and the worker refuses the pair and then takes
it. -/
def refusedOnce : Script where
  clocks := [100, 160]
  served := []
  windows := []
  issues := [.ok newPair]
  installs := [.error (.refused "busy"), .ok ()]
  pending := []
  requests := []
  sleeps := []

/-- Its first round and its second. -/
def refusedRound : Round := ⟨100, false,
  [⟨_, .loadAcme, .ok none⟩, ⟨_, .issue, .ok newPair⟩,
    ⟨_, .install newPair.chainPem newPair.keyPem, .error (.refused "busy")⟩,
    ⟨_, .takePendingRenew, false⟩, ⟨_, .sleep 60, true⟩]⟩

def takenRound : Round := ⟨160, false,
  [⟨_, .install newPair.chainPem newPair.keyPem, .ok ()⟩, ⟨_, .takePendingRenew, false⟩,
    ⟨_, .sleep 3600, true⟩]⟩

theorem refused_pair_offered_again :
    ∃ answer, calls takenRound = [.install newPair.chainPem newPair.keyPem answer] := by
  have hrounds : rounds ((runLoop oneLeaf 1 2).trace Script.handler refusedOnce) =
      [] ++ refusedRound :: [takenRound] := rfl
  have hissued : .issue (.ok newPair) ∈ calls refusedRound := mem_cons_self
  have hleaf : oneLeaf.leafValidityPem newPair.chainPem = some (0, 1000000) := by decide +kernel
  exact (issued_pair_offered_until_taken Script.handler oneLeaf 1 2 refusedOnce hrounds hissued
    hleaf).2 [] takenRound [] rfl (by simp [takenRound]) (by simp [refusedRound, calls, callOf])

def orderOf : Event → Option (Except String Issued)
  | ⟨_, .issue, answer⟩ => some answer
  | _ => none

def servedOf : Event → Option (Option (List UInt8))
  | ⟨_, .loadAcme, .ok served⟩ => some served
  | _ => none

def windowOf : Event → Option (Option Window)
  | ⟨_, .renewalWindow _, window⟩ => some window
  | _ => none

/-- The answers of the CA to the orders of a round. -/
def orders (r : Round) : List (Except String Issued) := r.events.filterMap orderOf

/-- The leaf that is served in a round and is not due when the CA suggests `window`; where
the round asked the CA, `window` is its answer. -/
def NotDue (readers : Readers) (window : Option Window) (r : Round) : Prop :=
  (∀ answer ∈ r.events.filterMap windowOf, answer = window) ∧
  ∃ leafDer notBefore notAfter, some leafDer ∈ r.events.filterMap servedOf ∧
    readers.leafValidityDer leafDer = some (notBefore, notAfter) ∧
    shouldRenewInWindow notBefore notAfter r.startedAt window = false

/-- An order made while the served certificate is not due. -/
def EarlyOrder (readers : Readers) (window : Round → Option Window) (r : Round) : Prop :=
  orders r ≠ [] ∧ NotDue readers (window r) r

theorem orderOf_of_waits (he : Waits e.type e.effect) : orderOf e = none := by
  obtain ⟨type, effect, result⟩ := e
  cases effect <;> first | rfl | cases he

theorem servedOf_of_waits (he : Waits e.type e.effect) : servedOf e = none := by
  obtain ⟨type, effect, result⟩ := e
  cases effect <;> first | rfl | cases he

theorem windowOf_of_waits (he : Waits e.type e.effect) : windowOf e = none := by
  obtain ⟨type, effect, result⟩ := e
  cases effect <;> first | rfl | cases he

section Orders

variable {now : Int} {force : Bool} {kept : Kept} {es : List Event}
  {result : Except RenewError Outcome × Kept}

/-- The time kept after the answers of a round that starts at `now`. -/
def stamped (now : Int) (last : Option Int) : List (Except String Issued) → Option Int
  | [.ok _] => some now
  | _ => last

theorem stamped_cases (now : Int) (last : Option Int) (answers : List (Except String Issued)) :
    stamped now last answers = last ∨ stamped now last answers = some now := by
  unfold stamped
  split
  · exact .inr rfl
  · exact .inl rfl

theorem stamped_of_issued {last : Option Int} {answers : List (Except String Issued)}
    (hone : answers.length ≤ 1) (hissued : .ok issued ∈ answers) :
    stamped now last answers = some now := by
  match answers with
  | [.ok other] => rfl
  | [.error err] => simp at hissued
  | _ :: _ :: _ => simp at hone

/-- An order calls the CA once, and keeps the time when the CA issued. -/
theorem order_stamped (hruns : OrderRuns readers now kept es result) :
    (es.filterMap orderOf).length = 1 ∧ es.filterMap servedOf = [] ∧
      es.filterMap windowOf = [] ∧
      result.2.lastOrder = stamped now kept.lastOrder (es.filterMap orderOf) := by
  cases hruns <;> exact ⟨rfl, rfl, rfl, rfl⟩

/-- A round calls the CA at most once, and keeps the time when the CA issued. -/
theorem round_stamped (hruns : RoundRuns readers now force kept es result) :
    (es.filterMap orderOf).length ≤ 1 ∧
      result.2.lastOrder = stamped now kept.lastOrder (es.filterMap orderOf) := by
  cases hruns with
  | unread served es result hfree hserved horder
  | forced leafDer notBefore notAfter es result hfree hleaf hforce hallowed horder
  | due leafDer notBefore notAfter window es result hfree hleaf hdue horder =>
    obtain ⟨hone, -, -, hkept⟩ := order_stamped horder
    simp only [filterMap_cons, orderOf]
    exact ⟨by omega, hkept⟩
  | _ => exact ⟨Nat.zero_le 1, rfl⟩

/-- Only a forced round that the interval allows orders while nothing is due. -/
theorem round_early {window : Option Window} (hruns : RoundRuns readers now force kept es result)
    (hwaited : ∀ e ∈ waited, Waits e.type e.effect) (horders : es.filterMap orderOf ≠ [])
    (hnot : NotDue readers window ⟨now, force, es ++ waited⟩) :
    forcedOrderAllowed now kept.lastOrder = true := by
  obtain ⟨hasked, leafDer, notBefore, notAfter, hserved, hleaf, hearly⟩ := hnot
  simp only [filterMap_waited windowOf_of_waits hwaited] at hasked
  simp only [filterMap_waited servedOf_of_waits hwaited] at hserved
  cases hruns with
  | unread served es result hfree hread horder =>
    have hsame : some leafDer = served := by
      simpa [servedOf, (order_stamped horder).2.1] using hserved
    simp [← hsame, hleaf] at hread
  | forced other nb na es result hfree hother hforce hallowed horder => exact hallowed
  | due other nb na answer es result hfree hother hdue horder =>
    simp only [filterMap_cons, servedOf, (order_stamped horder).2.1] at hserved
    obtain rfl : leafDer = other := by simpa using hserved
    obtain rfl : answer = window := hasked answer (by simp [windowOf])
    obtain ⟨rfl, rfl⟩ : nb = notBefore ∧ na = notAfter := by simpa [hother] using hleaf
    simp [hdue] at hearly
  | _ => simp [orderOf] at horders

end Orders

theorem le_of_forcedOrderAllowed {now last : Int}
    (hallowed : forcedOrderAllowed now (some last) = true) : last + 3600 ≤ now := by
  have hpast : (3600 : Int) ≤ saturatingSub now last := of_decide_eq_true hallowed
  simp only [saturatingSub, clampI64] at hpast
  omega

/-- Once an order succeeded, an early order comes an hour later or more. -/
theorem early_after_stamp {readers : Readers} {kept : Kept} {all : List Round} {last : Int}
    (hrun : RoundsRun readers kept all) (hlast : kept.lastOrder = some last)
    (hclock : all.Pairwise (fun a b => a.startedAt ≤ b.startedAt))
    (hfrom : ∀ r ∈ all, last ≤ r.startedAt) (window : Round → Option Window) :
    ∀ r ∈ all, EarlyOrder readers window r → last + 3600 ≤ r.startedAt := by
  induction hrun generalizing last with
  | done kept => simp
  | next kept now force es waited result rest hruns hwaited hrest ih =>
    rw [pairwise_cons] at hclock
    intro r hr hearly
    rcases List.mem_cons.mp hr with rfl | hlater
    · have horders := hearly.1
      simp only [orders, filterMap_waited orderOf_of_waits hwaited] at horders
      have hallowed := round_early hruns hwaited horders hearly.2
      rw [hlast] at hallowed
      exact le_of_forcedOrderAllowed hallowed
    · have hnow : last ≤ now := hfrom _ mem_cons_self
      have hkept := (round_stamped hruns).2
      -- the time kept is the one found, or this round's own
      rcases stamped_cases now kept.lastOrder (es.filterMap orderOf) with hsame | hstamp
      · rw [hsame, hlast] at hkept
        exact ih hkept hclock.2 (fun x hx => hfrom x (List.mem_cons_of_mem _ hx)) r hlater hearly
      · rw [hstamp] at hkept
        have hrest := ih hkept hclock.2 hclock.1 r hlater hearly
        omega

/-- **Spacing.** In every run whose clock does not go back and whose early orders
succeed, a round orders at most once and two early orders are an hour apart. -/
theorem early_orders_spaced {σ : Type} (h : Handler AcmeOp σ) (readers : Readers)
    (waits bound : Nat) (u : σ) (window : Round → Option Window)
    (hclock : (rounds ((runLoop readers waits bound).trace h u)).Pairwise
      (fun a b => a.startedAt ≤ b.startedAt))
    (hsucceed : ∀ r ∈ rounds ((runLoop readers waits bound).trace h u),
      EarlyOrder readers window r → ∃ issued, .ok issued ∈ orders r) :
    (∀ r ∈ rounds ((runLoop readers waits bound).trace h u), (orders r).length ≤ 1) ∧
    (rounds ((runLoop readers waits bound).trace h u)).Pairwise (fun first second =>
      EarlyOrder readers window first → EarlyOrder readers window second →
        first.startedAt + minForcedInterval ≤ second.startedAt) := by
  have hrun := runLoop_run h readers waits bound u
  generalize rounds ((runLoop readers waits bound).trace h u) = all at hrun hclock hsucceed ⊢
  generalize (⟨none, none⟩ : Kept) = kept at hrun
  induction hrun with
  | done kept => simp
  | next kept now force es waited result rest hruns hwaited hrest ih =>
    rw [pairwise_cons] at hclock
    obtain ⟨hones, hspaced⟩ := ih hclock.2 (fun r hr => hsucceed r (List.mem_cons_of_mem _ hr))
    obtain ⟨hone, hkept⟩ := round_stamped hruns
    have horders : orders ⟨now, force, es ++ waited⟩ = es.filterMap orderOf :=
      filterMap_waited orderOf_of_waits hwaited
    constructor
    · rw [List.forall_mem_cons]
      exact ⟨by rwa [horders], hones⟩
    · rw [pairwise_cons]
      refine ⟨fun second hsecond hfirst hearly => ?_, hspaced⟩
      obtain ⟨issued, hissued⟩ := hsucceed _ mem_cons_self hfirst
      rw [horders] at hissued
      rw [stamped_of_issued hone hissued] at hkept
      exact early_after_stamp hrest hkept hclock.2 hclock.1 window second hsecond hearly

/-- A certificate at the start of its life, one request, an order the CA refuses, a
request while that is waited out, and a second order. -/
def refusedOrder : Script where
  clocks := [100, 200, 210, 260]
  served := [.ok (some [1]), .ok (some [1]), .ok (some [1])]
  windows := []
  issues := [.error "rate limited", .error "rate limited"]
  installs := []
  pending := []
  requests := [.ok (), .ok ()]
  sleeps := [false, false, true]

/-- The forced rounds of that run. -/
def firstRefused : Round := ⟨200, true,
  [⟨_, .loadAcme, .ok (some [1])⟩, ⟨_, .issue, .error "rate limited"⟩,
    ⟨_, .takePendingRenew, false⟩, ⟨_, .sleep 60, false⟩, ⟨_, .nextRequest, .ok ()⟩,
    ⟨_, .now .backoff, 210⟩, ⟨_, .sleep 50, true⟩]⟩

def secondRefused : Round := ⟨260, true,
  [⟨_, .loadAcme, .ok (some [1])⟩, ⟨_, .issue, .error "rate limited"⟩,
    ⟨_, .takePendingRenew, false⟩, ⟨_, .sleep 120, true⟩]⟩

/-- A round that finds nothing due, and is woken by a request. -/
def idleRound : Round := ⟨100, false,
  [⟨_, .loadAcme, .ok (some [1])⟩, ⟨_, .renewalWindow [1], none⟩, ⟨_, .takePendingRenew, false⟩,
    ⟨_, .sleep 3600, false⟩, ⟨_, .nextRequest, .ok ()⟩]⟩

theorem early_of_forced {r : Round} (horders : orders r ≠ [])
    (hserved : some [1] ∈ r.events.filterMap servedOf)
    (hwindow : r.events.filterMap windowOf = [])
    (hnot : shouldRenewInWindow 0 1000000 r.startedAt none = false) :
    EarlyOrder oneLeaf (fun _ => none) r :=
  ⟨horders, by simp [hwindow], [1], 0, 1000000, hserved, rfl, hnot⟩

/-- **No spacing after a failure.** Two early orders sixty seconds apart. -/
theorem refused_orders_not_spaced :
    (rounds ((runLoop oneLeaf 3 3).trace Script.handler refusedOrder)).Pairwise
      (fun a b => a.startedAt ≤ b.startedAt) ∧
    ¬ (rounds ((runLoop oneLeaf 3 3).trace Script.handler refusedOrder)).Pairwise
      (fun first second => EarlyOrder oneLeaf (fun _ => none) first →
        EarlyOrder oneLeaf (fun _ => none) second →
          first.startedAt + minForcedInterval ≤ second.startedAt) := by
  have hrounds : rounds ((runLoop oneLeaf 3 3).trace Script.handler refusedOrder) =
      [idleRound, firstRefused, secondRefused] := rfl
  have hfirst : EarlyOrder oneLeaf (fun _ => none) firstRefused :=
    early_of_forced (by simp [firstRefused, orders, orderOf]) mem_cons_self rfl (by decide)
  have hsecond : EarlyOrder oneLeaf (fun _ => none) secondRefused :=
    early_of_forced (by simp [secondRefused, orders, orderOf]) mem_cons_self rfl (by decide)
  rw [hrounds]
  constructor
  · simp [idleRound, firstRefused, secondRefused]
  · intro hspaced
    simp only [pairwise_cons] at hspaced
    have hapart := hspaced.2.1 secondRefused (by simp) hfirst hsecond
    simp [firstRefused, secondRefused, minForcedInterval] at hapart

/-- Two requests an hour apart, and a CA that issues. -/
def issuedTwice : Script where
  clocks := [100, 200, 3800]
  served := [.ok (some [1]), .ok (some [1]), .ok (some [1])]
  windows := []
  issues := [.ok newPair, .ok newPair]
  installs := [.ok (), .ok ()]
  pending := []
  requests := [.ok (), .ok ()]
  sleeps := [false, false, true]

def firstIssued : Round := ⟨200, true,
  [⟨_, .loadAcme, .ok (some [1])⟩, ⟨_, .issue, .ok newPair⟩,
    ⟨_, .install newPair.chainPem newPair.keyPem, .ok ()⟩, ⟨_, .takePendingRenew, false⟩,
    ⟨_, .sleep 3600, false⟩, ⟨_, .nextRequest, .ok ()⟩]⟩

def secondIssued : Round := ⟨3800, true,
  [⟨_, .loadAcme, .ok (some [1])⟩, ⟨_, .issue, .ok newPair⟩,
    ⟨_, .install newPair.chainPem newPair.keyPem, .ok ()⟩, ⟨_, .takePendingRenew, false⟩,
    ⟨_, .sleep 3600, true⟩]⟩

theorem issued_orders_spaced :
    EarlyOrder oneLeaf (fun _ => none) firstIssued ∧
    EarlyOrder oneLeaf (fun _ => none) secondIssued ∧
    firstIssued.startedAt + minForcedInterval ≤ secondIssued.startedAt := by
  have hrounds : rounds ((runLoop oneLeaf 3 3).trace Script.handler issuedTwice) =
      [idleRound, firstIssued, secondIssued] := rfl
  have hfirst : EarlyOrder oneLeaf (fun _ => none) firstIssued :=
    early_of_forced (by simp [firstIssued, orders, orderOf]) mem_cons_self rfl (by decide)
  have hsecond : EarlyOrder oneLeaf (fun _ => none) secondIssued :=
    early_of_forced (by simp [secondIssued, orders, orderOf]) mem_cons_self rfl (by decide)
  have hspaced := early_orders_spaced Script.handler oneLeaf 3 3 issuedTwice (fun _ => none)
    (by rw [hrounds]; simp [idleRound, firstIssued, secondIssued])
    (by
      rw [hrounds]
      intro r hr hearly
      refine ⟨newPair, ?_⟩
      simp only [List.mem_cons, List.not_mem_nil, or_false] at hr
      rcases hr with rfl | rfl | rfl
      · simp [EarlyOrder, idleRound, orders, orderOf] at hearly
      · simp [firstIssued, orders, orderOf]
      · simp [secondIssued, orders, orderOf])
  rw [hrounds] at hspaced
  simp only [pairwise_cons] at hspaced
  exact ⟨hfirst, hsecond, hspaced.2.2.1 secondIssued (by simp) hfirst hsecond⟩

end Detent.Guarantees.RenewalOrders
