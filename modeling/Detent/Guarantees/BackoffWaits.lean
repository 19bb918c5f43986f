import Detent.Guarantees.LateAnswers
import Detent.Source.AcmeClock

/-!
# Requests during a backoff

The deadline of a backoff counts from the start of the failed round, the first sleep from its
end. A request that breaks the first sleep makes the loop wait for the deadline only, so that
it shortens the wait by as long as the round took.
-/
namespace Detent.Guarantees.BackoffWaits
open Lib Source.Acme Source.AcmeChannel Source.AcmeClock
open LateAnswers (Works round_works)

variable {σ : Type} {moment : Int} {waits : Nat}

theorem takeWhile_upTo {requests : List Int} {clock : Int} (h : clock ≤ moment) :
    (requests.takeWhile (fun r => decide (r ≤ moment))).takeWhile (fun r => decide (r ≤ clock)) =
      requests.takeWhile (fun r => decide (r ≤ clock)) := by
  induction requests with
  | nil => rfl
  | cons r requests ih =>
    by_cases hclock : r ≤ clock
    · rw [List.takeWhile_cons_of_pos (by simpa using Int.le_trans hclock h),
        List.takeWhile_cons_of_pos (by simpa using hclock),
        List.takeWhile_cons_of_pos (by simpa using hclock), ih]
    · by_cases hmoment : r ≤ moment
      · rw [List.takeWhile_cons_of_pos (by simpa using hmoment),
          List.takeWhile_cons_of_neg (by simpa using hclock),
          List.takeWhile_cons_of_neg (by simpa using hclock)]
      · rw [List.takeWhile_cons_of_neg (by simpa using hmoment),
          List.takeWhile_cons_of_neg (by simpa using hclock), List.takeWhile_nil]

/-- A read of requests that arrived by the moment. -/
theorem drop_takeWhile {requests : List Int} {n : Nat}
    (h : n ≤ (requests.takeWhile (fun r => decide (r ≤ moment))).length) :
    (requests.takeWhile (fun r => decide (r ≤ moment))).drop n =
      (requests.drop n).takeWhile (fun r => decide (r ≤ moment)) := by
  induction n generalizing requests with
  | zero => rfl
  | succ n ih =>
    cases requests with
    | nil => rfl
    | cons r requests =>
      by_cases hmoment : r ≤ moment
      · rw [List.takeWhile_cons_of_pos (by simpa using hmoment)] at h ⊢
        rw [List.drop_succ_cons, List.drop_succ_cons]
        exact ih (by simpa using h)
      · rw [List.takeWhile_cons_of_neg (by simpa using hmoment)] at h
        cases h

theorem timeline_ext {w v : Timeline σ} (hclock : w.clock = v.clock)
    (hrequests : w.requests = v.requests) (hrecorded : w.recorded = v.recorded)
    (hrest : w.rest = v.rest) : w = v := by
  cases w
  cases v
  cases hclock
  cases hrequests
  cases hrecorded
  cases hrest
  rfl

theorem record_upTo {w : Timeline σ} (h : w.clock ≤ moment) (n : Nat) :
    (w.upTo moment).record n = (w.record n).upTo moment := by
  have hunread : (w.upTo moment).unread n = w.unread n :=
    congrArg (List.take n) (takeWhile_upTo h)
  have hlength : (w.unread n).length ≤
      (w.requests.takeWhile (fun r => decide (r ≤ moment))).length := by
    rw [← hunread]
    exact ((List.take_sublist _ _).trans (List.takeWhile_sublist _)).length_le
  refine timeline_ext rfl ?_ ?_ rfl
  · change (w.requests.takeWhile _).drop ((w.upTo moment).unread n).length = _
    rw [hunread]
    exact drop_takeWhile hlength
  · change w.recorded ++ (w.upTo moment).unread n = _
    rw [hunread]
    rfl

section Round

variable (around : Surroundings σ)

/-- What the effects of a round keep: the clock does not go back, and no request is lost. -/
structure Follows (w v : Timeline σ) : Prop where
  clock : w.clock ≤ v.clock
  left : v.requests <:+ w.requests
  requests : v.recorded ++ v.requests = w.recorded ++ w.requests

theorem act_follows {β : Type} (op : AcmeOp β) (w : Timeline σ) :
    Follows w (w.act around op).2 :=
  ⟨Int.le_add_of_nonneg_right (Int.natCast_nonneg _), List.suffix_rfl, rfl⟩

theorem record_follows (w : Timeline σ) (n : Nat) : Follows w (w.record n) := by
  refine ⟨Int.le_refl _, List.drop_suffix _ _, ?_⟩
  have hprefix : w.unread n <+: w.requests :=
    (List.take_prefix _ _).trans (List.takeWhile_prefix _)
  obtain ⟨rest, hrest⟩ := hprefix
  change w.recorded ++ w.unread n ++ w.requests.drop (w.unread n).length = _
  rw [List.append_assoc, ← hrest, List.drop_left]

theorem Follows.trans {w v u : Timeline σ} (h : Follows w v) (h' : Follows v u) : Follows w u :=
  ⟨Int.le_trans h.clock h'.clock, h'.left.trans h.left, h'.requests.trans h.requests⟩

theorem apply_follows {β : Type} {op : AcmeOp β} (hop : Works β op) (w : Timeline σ) :
    Follows w ((clocked around).apply op w).2 := by
  cases op with
  | install chainPem keyPem => exact (act_follows around _ w).trans (record_follows _ _)
  | loadAcme | renewalWindow _ | issue => exact act_follows around _ w
  | now _ | takePendingRenew | nextRequest | sleep _ => cases hop

/-- The effects of a round do not see requests that come after its end. -/
theorem apply_upTo {β : Type} {op : AcmeOp β} (hop : Works β op) (w : Timeline σ)
    (h : ((clocked around).apply op w).2.clock ≤ moment) :
    (clocked around).apply op (w.upTo moment) =
      (((clocked around).apply op w).1, ((clocked around).apply op w).2.upTo moment) := by
  cases op with
  | install chainPem keyPem =>
    refine Prod.ext rfl ?_
    exact record_upTo (w := (w.act around (.install chainPem keyPem)).2) h _
  | loadAcme | renewalWindow _ | issue => rfl
  | now _ | takePendingRenew | nextRequest | sleep _ => cases hop

variable {α : Type}

theorem run_follows {p : Prog AcmeOp α} (hp : p.Uses Works) (w : Timeline σ) :
    Follows w (p.run (clocked around) w).2 := by
  refine hp.run_invariant (I := Follows w) ?_ ⟨Int.le_refl _, List.suffix_rfl, rfl⟩
  intro β op v hop hv
  exact hv.trans (apply_follows around hop v)

theorem run_upTo {p : Prog AcmeOp α} (hp : p.Uses Works) (w : Timeline σ) (moment : Int)
    (h : (p.run (clocked around) w).2.clock ≤ moment) :
    p.run (clocked around) (w.upTo moment) =
      ((p.run (clocked around) w).1, (p.run (clocked around) w).2.upTo moment) := by
  induction p generalizing w with
  | ret a => rfl
  | eff op next ih =>
    have hrest := run_follows around (hp.2 ((clocked around).apply op w).1)
      ((clocked around).apply op w).2
    have happly := apply_upTo around hp.1 w (Int.le_trans hrest.clock h)
    change (next ((clocked around).apply op (w.upTo moment)).1).run _ _ = _
    rw [happly]
    exact ih _ (hp.2 _) _ h

end Round

/-- When the wait of a round that started at `startedAt` and ended at `ended` is over. -/
def waitEnd (startedAt ended : Int) (retry : Nat) (requests : List Int) : Int :=
  match requests.head? with
  | none => ended + retry
  | some first =>
    if first ≤ ended + retry then max (startedAt + retry) (max ended first) else ended + retry

/-- Whether a request breaks the first sleep. -/
def broken (ended : Int) (retry : Nat) (requests : List Int) : Bool :=
  requests.head?.any (fun first => decide (first ≤ ended + retry))

section Wait

variable (around : Surroundings σ)

theorem saturatingSub_eq {a b : Int} (h : a - b ≤ 9223372036854775807) :
    (max (saturatingSub a b) 0).toNat = (a - b).toNat := by
  rw [saturatingSub, clampI64]
  omega

theorem backoff_sleeps (deadline : Int) (waits : Nat) {wait : Nat} (seen : Bool) {w : Timeline σ}
    (h : ∀ first ∈ w.requests.head?, w.clock + wait < first) :
    (backoff deadline (waits + 1) wait seen).run (clocked around) w =
      (.next seen, w.pass wait) := by
  have hsleep : (clocked around).apply (.sleep wait) w = (true, w.pass wait) := by
    change w.sleep wait = _
    rw [Timeline.sleep]
    cases hhead : w.requests.head? with
    | none => rfl
    | some first => exact if_neg (Int.not_le.mpr (h first hhead))
  rw [backoff]
  simp only [Prog.run_bind, Prog.run_perform, hsleep, if_true, Prog.run_pure]

theorem backoff_breaks (deadline : Int) (waits : Nat) {wait : Nat} (seen : Bool) {w : Timeline σ}
    {first : Int} (hfirst : w.requests.head? = some first) (h : first ≤ w.clock + wait) :
    (backoff deadline (waits + 1) wait seen).run (clocked around) w =
      (backoff deadline waits (max (saturatingSub deadline (max w.clock first)) 0).toNat true).run
        (clocked around) (w.reach first).read := by
  have hsleep : (clocked around).apply (.sleep wait) w = (false, w.reach first) := by
    change w.sleep wait = _
    rw [Timeline.sleep, hfirst]
    exact if_pos h
  have hread : (clocked around).apply .nextRequest (w.reach first) =
      (.ok (), (w.reach first).read) := by
    refine if_neg (fun hempty => ?_)
    have hnil : w.requests = [] := List.isEmpty_iff.mp hempty
    rw [hnil] at hfirst
    cases hfirst
  rw [backoff]
  simp only [Prog.run_bind, Prog.run_perform, hsleep, hread, Bool.false_eq_true, if_false]
  rfl

/-- Once a request has broken the first sleep, the loop waits for the deadline, however many
more requests come. -/
theorem rewait_run (deadline : Int) {w : Timeline σ} (hwaits : w.requests.length < waits)
    (hrange : deadline - w.clock ≤ 9223372036854775807) :
    ∃ v, (backoff deadline waits (deadline - w.clock).toNat true).run (clocked around) w =
        (.next true, v) ∧ v.clock = max deadline w.clock := by
  induction waits generalizing w with
  | zero => cases hwaits
  | succ waits ih =>
    by_cases hquiet : ∀ first ∈ w.requests.head?, w.clock + ((deadline - w.clock).toNat : Int) < first
    · refine ⟨_, backoff_sleeps around deadline waits true hquiet, ?_⟩
      change w.clock + ((deadline - w.clock).toNat : Int) = _
      omega
    · obtain ⟨first, hbreak⟩ := not_forall.mp hquiet
      obtain ⟨hfirst, hle⟩ := Classical.not_imp.mp hbreak
      have hlength : (w.reach first).read.requests.length < waits := by
        change w.requests.tail.length < waits
        rw [List.length_tail]
        have : 0 < w.requests.length :=
          List.length_pos_of_mem (List.mem_of_mem_head? hfirst)
        omega
      have hclock : (w.reach first).read.clock = max w.clock first := rfl
      obtain ⟨v, hv, hend⟩ := ih hlength (by rw [hclock]; omega)
      rw [hclock] at hv hend
      rw [backoff_breaks around deadline waits true hfirst (Int.not_lt.mp hle),
        saturatingSub_eq (by omega)]
      exact ⟨v, hv, by omega⟩

theorem backoff_run {startedAt : Int} {retry : Nat} (seen : Bool) {w : Timeline σ}
    (hwaits : w.requests.length < waits) (hstart : startedAt ≤ w.clock)
    (hretry : retry ≤ 9223372036854775807) :
    ∃ v, (backoff (startedAt + retry) waits retry seen).run (clocked around) w =
        (.next (seen || broken w.clock retry w.requests), v) ∧
      v.clock = waitEnd startedAt w.clock retry w.requests := by
  cases waits with
  | zero => cases hwaits
  | succ waits =>
    rw [broken, waitEnd]
    cases hhead : w.requests.head? with
    | none =>
      have hquiet : ∀ first ∈ w.requests.head?, w.clock + (retry : Int) < first := by
        intro first hfirst
        rw [hhead] at hfirst
        cases hfirst
      refine ⟨w.pass retry, (backoff_sleeps around _ waits seen hquiet).trans ?_, rfl⟩
      simp
    | some first =>
      by_cases hle : first ≤ w.clock + retry
      · have hlength : (w.reach first).read.requests.length < waits := by
          change w.requests.tail.length < waits
          rw [List.length_tail]
          have : 0 < w.requests.length := List.length_pos_of_mem (List.mem_of_mem_head? hhead)
          omega
        have hclock : (w.reach first).read.clock = max w.clock first := rfl
        obtain ⟨v, hv, hend⟩ := rewait_run around (startedAt + retry) hlength
          (by rw [hclock]; omega)
        rw [hclock] at hv hend
        rw [backoff_breaks around _ waits seen hhead hle, saturatingSub_eq (by omega)]
        refine ⟨v, ?_, hend.trans (if_pos hle).symm⟩
        rw [hv]
        simp [hle]
      · have hquiet : ∀ first ∈ w.requests.head?, w.clock + (retry : Int) < first := by
          rw [hhead]
          simpa using hle
        refine ⟨w.pass retry, (backoff_sleeps around _ waits seen hquiet).trans ?_,
          (if_neg hle).symm⟩
        simp [hle]

end Wait

section WaitEnd

variable {startedAt ended : Int} {retry : Nat} {requests : List Int}

variable (retry) in
/-- A request that comes before the wait is over moves its end, but where one was unread when the
wait began, and where the round took no time. -/
theorem waitEnd_kept_iff (h : startedAt ≤ ended) (hordered : requests.Pairwise (· ≤ ·)) :
    waitEnd startedAt ended retry requests =
        waitEnd startedAt ended retry (requests.takeWhile (fun r => decide (r ≤ ended))) ↔
      startedAt = ended ∨ (∃ r ∈ requests, r ≤ ended) ∨ ∀ r ∈ requests, ended + retry ≤ r := by
  cases requests with
  | nil => simp
  | cons first rest =>
    have hleast : ∀ r ∈ first :: rest, first ≤ r := by
      intro r hr
      rcases List.mem_cons.mp hr with rfl | hrest
      · exact Int.le_refl r
      · exact List.rel_of_pairwise_cons hordered hrest
    by_cases hfirst : first ≤ ended
    · rw [List.takeWhile_cons_of_pos (by simpa using hfirst)]
      exact iff_of_true rfl (.inr (.inl ⟨first, List.mem_cons_self, hfirst⟩))
    · rw [List.takeWhile_cons_of_neg (by simpa using hfirst)]
      have hnone : ¬ ∃ r ∈ first :: rest, r ≤ ended := by
        rintro ⟨r, hr, hle⟩
        have := hleast r hr
        omega
      have hall : (∀ r ∈ first :: rest, ended + retry ≤ r) ↔ ended + retry ≤ first :=
        ⟨fun hr => hr first List.mem_cons_self, fun hle r hr => Int.le_trans hle (hleast r hr)⟩
      rw [or_iff_right hnone, hall]
      change (if first ≤ ended + retry then max (startedAt + retry) (max ended first)
        else ended + retry) = ended + retry ↔ _
      split_ifs <;> omega

/-- The requests that break a wait are those that come before its end. -/
theorem broken_iff (startedAt : Int) (hordered : requests.Pairwise (· ≤ ·)) :
    broken ended retry requests = true ↔
      ∃ r ∈ requests, r ≤ waitEnd startedAt ended retry requests := by
  cases requests with
  | nil => simp [broken]
  | cons first rest =>
    have hbroken : broken ended retry (first :: rest) = true ↔ first ≤ ended + retry := by
      simp [broken]
    rw [hbroken]
    change _ ↔ ∃ r ∈ first :: rest, r ≤ if first ≤ ended + retry then
      max (startedAt + retry) (max ended first) else ended + retry
    split_ifs with hfirst
    · exact iff_of_true hfirst ⟨first, List.mem_cons_self, by omega⟩
    · refine iff_of_false hfirst ?_
      rintro ⟨r, hr, hle⟩
      rcases List.mem_cons.mp hr with rfl | hrest
      · exact hfirst hle
      · have := List.rel_of_pairwise_cons hordered hrest
        omega

variable (retry requests) in
theorem waitEnd_bounds (h : startedAt ≤ ended) :
    ended ≤ waitEnd startedAt ended retry requests ∧
      waitEnd startedAt ended retry requests ≤ ended + retry := by
  cases requests with
  | nil => exact ⟨Int.le_add_of_nonneg_right (Int.natCast_nonneg _), Int.le_refl _⟩
  | cons first rest =>
    have hend : waitEnd startedAt ended retry (first :: rest) = if first ≤ ended + retry then
      max (startedAt + retry) (max ended first) else ended + retry := rfl
    rw [hend]
    split_ifs <;> omega

/-- The end of a wait that begins with an unread request. -/
theorem waitEnd_left (hordered : requests.Pairwise (· ≤ ·)) {r : Int} (hr : r ∈ requests)
    (hle : r ≤ ended) : waitEnd startedAt ended retry requests = max (startedAt + retry) ended := by
  cases requests with
  | nil => cases hr
  | cons first rest =>
    have hfirst : first ≤ r := by
      rcases List.mem_cons.mp hr with rfl | hrest
      · exact Int.le_refl r
      · exact List.rel_of_pairwise_cons hordered hrest
    change (if first ≤ ended + retry then max (startedAt + retry) (max ended first)
      else ended + retry) = _
    rw [if_pos (by omega)]
    omega

end WaitEnd

section Turn

variable (around : Surroundings σ) (readers : Readers)

/-- The round of this turn fails, and leaves the worker's end open. -/
def FailedRound (s : Loop) (w ended : Timeline σ) : Prop :=
  ∃ err kept, (round readers w.clock s.force s.kept).run (clocked around) w =
      ((.error err, kept), ended) ∧ err ≠ .install (.channel .closed)

theorem afterRound_failed {err : RenewError} (h : err ≠ .install (.channel .closed)) (waits : Nat)
    (startedAt : Int) (kept : Kept) (retry : Nat) (force : Bool) :
    afterRound waits startedAt (.error err) kept retry force = (do
      match ← backoff (saturatingAdd startedAt retry) waits retry force with
      | .next renewSeen => pure (.next ⟨min (retry * 2) maxRetry, kept, renewSeen⟩)
      | .returned => pure .returned
      | .waiting => pure .waiting) := by
  rw [afterRound.eq_def]
  split
  · cases ‹_ = _›
  · exact absurd (Except.error.inj ‹_›) h
  · rfl

/-- The clock and the deadline of a turn are within 64 bits, and its delay is one of the loop. -/
structure InRange (startedAt ended : Int) (retry : Nat) : Prop where
  start : -9223372036854775808 ≤ startedAt
  finish : ended + retry ≤ 9223372036854775807
  retry : retry ≤ maxRetry

theorem nextRound_failed {s : Loop} {w ended : Timeline σ}
    (hfailed : FailedRound around readers s w ended) (hwaits : w.requests.length < waits)
    (hrange : InRange w.clock ended.clock s.retry) :
    nextRound around readers waits s w =
      some (waitEnd w.clock ended.clock s.retry ended.requests,
        !ended.recorded.isEmpty || broken ended.clock s.retry ended.requests) := by
  obtain ⟨err, kept, hround, hopen⟩ := hfailed
  have hfollows := run_follows around (round_works readers w.clock s.force s.kept) w
  rw [hround] at hfollows
  have hclock : w.clock ≤ ended.clock := hfollows.clock
  have hmax : maxRetry = 3600 := rfl
  have hretry := hrange.retry
  have hfinish := hrange.finish
  have hstart := hrange.start
  have hdeadline : saturatingAdd w.clock s.retry = w.clock + s.retry := by
    rw [saturatingAdd, clampI64]
    omega
  have hlength : ended.requests.length < waits :=
    Nat.lt_of_le_of_lt hfollows.left.length_le hwaits
  have hsmall : s.retry ≤ 9223372036854775807 := by omega
  have hturn : (turn readers waits s).run (clocked around) w =
      (afterRound waits w.clock (.error err) kept s.retry (!ended.recorded.isEmpty)).run
        (clocked around) { ended with recorded := [], arrived := by simp } := by
    simp only [turn, Prog.run_bind, Prog.run_perform]
    change (fun r : (Except RenewError Outcome × Kept) × Timeline σ =>
      (afterRound waits w.clock r.1.1 r.1.2 s.retry (!r.2.recorded.isEmpty)).run (clocked around)
        { r.2 with recorded := [], arrived := by simp })
      ((round readers w.clock s.force s.kept).run (clocked around) w) = _
    rw [hround]
  obtain ⟨v, hv, hend⟩ := backoff_run around (w := { ended with recorded := [], arrived := by simp })
    (!ended.recorded.isEmpty) hlength hclock hsmall
  rw [nextRound, hturn, afterRound_failed hopen, hdeadline, Prog.run_bind, hv]
  dsimp only [Prog.run_pure]
  rw [hend]

/-- The next round starts as in the run without the requests of the wait, and is forced exactly
where a request came since the failed round started. -/
def Unmoved (waits : Nat) (s : Loop) (w ended : Timeline σ) : Prop :=
  ∃ start force quiet,
    nextRound around readers waits s w = some (start, force) ∧
    nextRound around readers waits s (w.upTo ended.clock) = some (start, quiet) ∧
    (force = true ↔ ∃ r ∈ w.recorded ++ w.requests, w.clock ≤ r ∧ r ≤ start)

/-- The round took no time, a request was left unread by it, or none comes before the wait counted
from its end is over; and no request is older than the round, or one comes after its start. -/
structure Undisturbed (retry : Nat) (w ended : Timeline σ) : Prop where
  start : w.clock = ended.clock ∨ (∃ r ∈ ended.requests, r ≤ ended.clock) ∨
    ∀ r ∈ ended.requests, ended.clock + retry ≤ r
  force : (∀ r ∈ w.recorded ++ w.requests, w.clock ≤ r) ∨
    ∃ r ∈ w.recorded ++ w.requests, w.clock ≤ r ∧
      r ≤ if ∃ left ∈ ended.requests, left ≤ ended.clock then max (w.clock + retry) ended.clock
        else ended.clock + retry

/-- A request is seen until the wait is over. -/
theorem forced_iff (retry : Nat) {w ended : Timeline σ} (h : Follows w ended) :
    (!ended.recorded.isEmpty || broken ended.clock retry ended.requests) = true ↔
      ∃ r ∈ w.recorded ++ w.requests, r ≤ waitEnd w.clock ended.clock retry ended.requests := by
  have hbounds := (waitEnd_bounds retry ended.requests h.clock).1
  rw [← h.requests, Bool.or_eq_true, broken_iff w.clock ended.ordered]
  simp only [List.mem_append, or_and_right, exists_or]
  refine or_congr ?_ Iff.rfl
  constructor
  · intro hne
    cases hrecorded : ended.recorded with
    | nil => simp [hrecorded] at hne
    | cons r rest =>
      have := ended.arrived r (by simp [hrecorded])
      exact ⟨r, List.mem_cons_self, by omega⟩
  · rintro ⟨r, hr, -⟩
    simpa using List.ne_nil_of_mem hr

/-- When every forced round owes it to a request of its own. -/
theorem force_own_iff (retry : Nat) {w ended : Timeline σ} (h : Follows w ended) :
    ((∃ r ∈ w.recorded ++ w.requests, r ≤ waitEnd w.clock ended.clock retry ended.requests) ↔
        ∃ r ∈ w.recorded ++ w.requests, w.clock ≤ r ∧
          r ≤ waitEnd w.clock ended.clock retry ended.requests) ↔
      ((∀ r ∈ w.recorded ++ w.requests, w.clock ≤ r) ∨
        ∃ r ∈ w.recorded ++ w.requests, w.clock ≤ r ∧
          r ≤ if ∃ left ∈ ended.requests, left ≤ ended.clock then max (w.clock + retry) ended.clock
            else ended.clock + retry) := by
  have hclock := h.clock
  obtain ⟨hlow, hhigh⟩ := waitEnd_bounds retry ended.requests h.clock
  constructor
  · intro hiff
    by_cases hnew : ∀ r ∈ w.recorded ++ w.requests, w.clock ≤ r
    · exact .inl hnew
    · push Not at hnew
      obtain ⟨old, hold, hlt⟩ := hnew
      obtain ⟨r, hr, hsince, hbefore⟩ := hiff.mp ⟨old, hold, by omega⟩
      refine .inr ⟨r, hr, hsince, ?_⟩
      split_ifs with hleft
      · obtain ⟨left, hmem, hle⟩ := hleft
        rwa [waitEnd_left ended.ordered hmem hle] at hbefore
      · omega
  · rintro (hnew | ⟨r, hr, hsince, hbefore⟩)
    · exact ⟨fun ⟨r, hr, hle⟩ => ⟨r, hr, hnew r hr, hle⟩, fun ⟨r, hr, _, hle⟩ => ⟨r, hr, hle⟩⟩
    · have hown : ∃ r ∈ w.recorded ++ w.requests, w.clock ≤ r ∧
          r ≤ waitEnd w.clock ended.clock retry ended.requests := by
        split_ifs at hbefore with hleft
        · obtain ⟨left, hmem, hle⟩ := hleft
          rw [waitEnd_left ended.ordered hmem hle]
          exact ⟨r, hr, hsince, hbefore⟩
        · rw [← h.requests] at hr ⊢
          rcases List.mem_append.mp hr with hrecorded | hrequest
          · have := ended.arrived r hrecorded
            exact ⟨r, hr, hsince, by omega⟩
          · have hbroken : broken ended.clock retry ended.requests = true := by
              cases hrequests : ended.requests with
              | nil =>
                rw [hrequests] at hrequest
                cases hrequest
              | cons first rest =>
                have hordered := ended.ordered
                rw [hrequests] at hordered hrequest
                have hfirst : first ≤ r := by
                  rcases List.mem_cons.mp hrequest with rfl | hrest
                  · exact Int.le_refl r
                  · exact List.rel_of_pairwise_cons hordered hrest
                simp only [broken, List.head?_cons, Option.any_some, decide_eq_true_eq]
                omega
            obtain ⟨own, hmem, hle⟩ := (broken_iff w.clock ended.ordered).mp hbroken
            refine ⟨own, List.mem_append_right _ hmem, ?_, hle⟩
            have hlate : ended.clock < own := by
              by_contra hearly
              exact hleft ⟨own, hmem, by omega⟩
            omega
      obtain ⟨own, hmem, hsince, hle⟩ := hown
      exact iff_of_true ⟨own, hmem, hle⟩ ⟨own, hmem, hsince, hle⟩

/-- A request during a backoff leaves the next round where it was exactly where the wait is
undisturbed. -/
theorem backoff_unmoved_iff {s : Loop} {w ended : Timeline σ} {waits : Nat}
    (hfailed : FailedRound around readers s w ended) (hwaits : w.requests.length < waits)
    (hrange : InRange w.clock ended.clock s.retry) :
    Unmoved around readers waits s w ended ↔ Undisturbed s.retry w ended := by
  obtain ⟨err, kept, hround, hopen⟩ := hfailed
  have hworks := round_works readers w.clock s.force s.kept
  have hfollows : Follows w ended := by
    have := run_follows around hworks w
    rwa [hround] at this
  have hquiet : FailedRound around readers s (w.upTo ended.clock) (ended.upTo ended.clock) := by
    have hrun := run_upTo around hworks w ended.clock (by rewrite [hround]; exact Int.le_refl _)
    rw [hround] at hrun
    exact ⟨err, kept, hrun, hopen⟩
  have hfewer : (w.upTo ended.clock).requests.length < waits :=
    Nat.lt_of_le_of_lt (List.takeWhile_sublist _).length_le hwaits
  have hnext := nextRound_failed around readers ⟨err, kept, hround, hopen⟩ hwaits hrange
  have hnextQuiet := nextRound_failed around readers hquiet hfewer hrange
  have hstart := waitEnd_kept_iff s.retry hfollows.clock ended.ordered
  have hforced := forced_iff s.retry hfollows
  have hown := force_own_iff s.retry hfollows
  rw [Unmoved, hnext, hnextQuiet]
  constructor
  · rintro ⟨start, force, quiet, hsome, hsomeQuiet, hforce⟩
    obtain ⟨rfl, rfl⟩ := Prod.mk.inj (Option.some.inj hsome)
    obtain ⟨hsame, -⟩ := Prod.mk.inj (Option.some.inj hsomeQuiet)
    exact ⟨hstart.mp hsame.symm, hown.mp (hforced.symm.trans hforce)⟩
  · rintro ⟨hkept, hforce⟩
    have hsame := (hstart.mpr hkept).symm
    exact ⟨_, _, _, rfl, congrArg some (Prod.ext hsame rfl), hforced.trans (hown.mpr hforce)⟩

end Turn

/-- No certificate is served, and the CA refuses every order after some seconds. -/
def refusing (secs : Nat) : Surroundings Unit where
  answer
    | .now _, _ => (0, ())
    | .loadAcme, _ => (.ok none, ())
    | .renewalWindow _, _ => (none, ())
    | .issue, _ => (.error "no dns-01 challenge", ())
    | .install _ _, _ => (.ok (), ())
    | .takePendingRenew, _ => (false, ())
    | .nextRequest, _ => (.ok (), ())
    | .sleep _, _ => (true, ())
  takes
    | .issue, _ => secs
    | _, _ => 0
  records _ := 0

def noReaders : Readers := ⟨fun _ => none⟩

def firstLoop : Loop := ⟨firstRetry, ⟨none, none⟩, false⟩

/-- A worker that asks at the given moments, from moment 0 on. -/
def asking (requests : List Int) (h : requests.Pairwise (· ≤ ·)) : Timeline Unit :=
  ⟨0, requests, [], (), h, by simp⟩

/-- Three requests during the backoff of a round that took no time. -/
theorem three_requests_unmoved :
    Unmoved (refusing 0) noReaders 4 firstLoop (asking [10, 20, 50] (by decide))
      (asking [10, 20, 50] (by decide)) := by
  refine (backoff_unmoved_iff (refusing 0) noReaders ?_ (by decide) ?_).mpr ?_
  · exact ⟨.issue "no dns-01 challenge", ⟨none, none⟩, rfl, by simp⟩
  · exact ⟨by decide, by decide, by decide⟩
  · exact ⟨.inl rfl, .inl (by decide)⟩

/-- After a round of ten seconds, a request moves the next round ten seconds to the front. -/
theorem request_moves_backoff :
    ¬ ∀ (σ : Type) (around : Surroundings σ) (readers : Readers) (s : Loop) (w ended : Timeline σ)
      (waits : Nat), FailedRound around readers s w ended → w.requests.length < waits →
      InRange w.clock ended.clock s.retry → Unmoved around readers waits s w ended := by
  intro hall
  have hround : FailedRound (refusing 10) noReaders firstLoop (asking [20] (by decide))
      ((asking [20] (by decide)).pass 10) :=
    ⟨.issue "no dns-01 challenge", ⟨none, none⟩, rfl, by simp⟩
  obtain ⟨start, force, quiet, hstart, hquiet, -⟩ :=
    hall _ _ _ _ _ _ 2 hround (by decide) ⟨by decide, by decide, by decide⟩
  have hasked : nextRound (refusing 10) noReaders 2 firstLoop (asking [20] (by decide)) =
      some (60, true) := by decide +kernel
  have hunasked : nextRound (refusing 10) noReaders 2 firstLoop
      ((asking [20] (by decide)).upTo ((asking [20] (by decide)).pass 10).clock) =
      some (70, false) := by decide +kernel
  rw [hasked] at hstart
  rw [hunasked] at hquiet
  obtain ⟨rfl, -⟩ := Prod.mk.inj (Option.some.inj hstart)
  obtain ⟨hmoved, -⟩ := Prod.mk.inj (Option.some.inj hquiet)
  exact absurd hmoved (by decide)

end Detent.Guarantees.BackoffWaits
