import Detent.Lib.Machine
import Detent.Lib.TokenBucket
import Detent.Source.TokenLimit

/-!
# The budget of a token

One token's calls among those of all the others. As long as its bucket is dropped only
when it is full, the instant kept for it is the one at which a bucket that got every
allowed call would be full again, so the answers are those of the counting definition.
-/
namespace Detent.Guarantees.TokenBudgets
open Lib Lib.Keyed Lib.TokenBucket Source.TokenLimit

section Calls

variable {limiter : TokenLimiter} {bucket : Bucket} {iteration : Iteration String Bucket}
  {id caller : String} {now : Nat}

/-- A call finds the bucket full, or over its tolerance, or with room for one more. -/
theorem charge_cases (limiter : TokenLimiter) (bucket : Bucket) (now : Nat) :
    (bucket.fullAt ≤ now ∧ limiter.charge bucket now =
      (.allowed, { fullAt := now + limiter.interval, limited := false })) ∨
    (now + limiter.tolerance < bucket.fullAt ∧ limiter.charge bucket now =
      (.limited (roundUpSecs (bucket.fullAt - now - limiter.tolerance)) (!bucket.limited),
        { bucket with limited := true })) ∨
    (now < bucket.fullAt ∧ bucket.fullAt ≤ now + limiter.tolerance ∧ limiter.charge bucket now =
      (.allowed, { bucket with fullAt := bucket.fullAt + limiter.interval })) := by
  unfold TokenLimiter.charge
  dsimp only
  by_cases hfull : bucket.fullAt ≤ now
  · left
    rw [if_pos hfull, if_neg (by simp)]
    exact ⟨hfull, rfl⟩
  · right
    rw [if_neg hfull]
    by_cases hover : limiter.tolerance < bucket.fullAt - now
    · left
      rw [if_pos hover]
      exact ⟨by omega, rfl⟩
    · right
      rw [if_neg hover]
      exact ⟨by omega, by omega, rfl⟩

/-- The bucket a call of `id` is charged to. -/
def chargedBucket (limiter : TokenLimiter) (id : String) (now : Nat) : Bucket :=
  (value limiter.buckets id).getD { fullAt := now, limited := false }

theorem makeRoom_sublist (buckets : List (String × Bucket)) (now : Nat) :
    (makeRoom buckets iteration now).Sublist buckets := by
  unfold makeRoom
  split
  · exact List.Sublist.refl _
  · dsimp only
    split
    · exact List.filter_sublist
    · split
      · exact List.filter_sublist.trans List.filter_sublist
      · exact List.filter_sublist

theorem check_self (hunique : Unique limiter.buckets) (iteration : Iteration String Bucket)
    (id : String) (now : Nat) :
    (limiter.check iteration id now).1 = (limiter.charge (chargedBucket limiter id now) now).1 ∧
      value (limiter.check iteration id now).2.buckets id =
        some (limiter.charge (chargedBucket limiter id now) now).2 := by
  unfold TokenLimiter.check chargedBucket
  dsimp only
  rw [value_set_self]
  cases hvalue : value limiter.buckets id with
  | some bucket => simp [hvalue]
  | none =>
    have hnone : value (makeRoom limiter.buckets iteration now) id = none := by
      cases hafter : value (makeRoom limiter.buckets iteration now) id with
      | none => rfl
      | some bucket =>
        rw [hunique.value_of_sublist (makeRoom_sublist _ _) hafter] at hvalue
        cases hvalue
    simp [hnone]

theorem check_unique (hunique : Unique limiter.buckets) (iteration : Iteration String Bucket)
    (id : String) (now : Nat) : Unique (limiter.check iteration id now).2.buckets := by
  unfold TokenLimiter.check
  dsimp only
  split
  · exact unique_set hunique _ _
  · exact unique_set (hunique.sublist (makeRoom_sublist _ _)) _ _

/-- A call of another token leaves a bucket as it is, or drops it. -/
theorem check_other (hunique : Unique limiter.buckets) (iteration : Iteration String Bucket)
    (hne : caller ≠ id) (now : Nat) :
    value (limiter.check iteration caller now).2.buckets id = value limiter.buckets id ∨
      value (limiter.check iteration caller now).2.buckets id = none := by
  unfold TokenLimiter.check
  dsimp only
  split
  · exact .inl (value_set_of_ne hne.symm)
  · rw [value_set_of_ne hne.symm]
    cases hafter : value (makeRoom limiter.buckets iteration now) id with
    | none => exact .inr rfl
    | some bucket =>
      left
      exact (hunique.value_of_sublist (makeRoom_sublist _ _) hafter).symm

end Calls

/-- The limiter, the latest time the token called or its bucket was dropped at, and the answers
to its calls, oldest first. -/
structure Watched where
  limiter : TokenLimiter
  seen : Nat
  answers : List (Nat × Admission)
  deriving DecidableEq, Repr

/-- A call of `check`, with the order in which it goes through the buckets. -/
structure Call where
  id : String
  now : Nat
  iteration : Iteration String Bucket

def Call.check (call : Call) (limiter : TokenLimiter) : Admission × TokenLimiter :=
  limiter.check call.iteration call.id call.now

/-- A call, seen from the token `id`. -/
def Watched.step (id : String) (s : Watched) (call : Call) : Option Watched :=
  let checked := call.check s.limiter
  if call.id = id then
    some { limiter := checked.2, seen := call.now, answers := s.answers ++ [(call.now, checked.1)] }
  else if (value s.limiter.buckets id).isSome ∧ value checked.2.buckets id = none then
    some { limiter := checked.2, seen := max s.seen call.now, answers := s.answers }
  else some { limiter := checked.2, seen := s.seen, answers := s.answers }

/-- The token's calls are in order, and another's drops its bucket only when it is full. -/
def Undisturbed (id : String) (s : Watched) (call : Call) : Prop :=
  if call.id = id then s.seen ≤ call.now
  else value (call.check s.limiter).2.buckets id = none →
    ∀ bucket ∈ value s.limiter.buckets id, bucket.fullAt ≤ call.now

instance (id : String) (s : Watched) (call : Call) : Decidable (Undisturbed id s call) :=
  inferInstanceAs (Decidable (if call.id = id then s.seen ≤ call.now
    else value (call.check s.limiter).2.buckets id = none →
      ∀ bucket ∈ value s.limiter.buckets id, bucket.fullAt ≤ call.now))

def Watched.fresh (burst ratePerMinute : UInt32) : Watched :=
  { limiter := .new burst ratePerMinute, seen := 0, answers := [] }

/-- The times of the allowed calls. -/
def allowedTimes (answers : List (Nat × Admission)) : List Nat :=
  (answers.filter (fun answer => answer.2 = .allowed)).map Prod.fst

variable {answers : List (Nat × Admission)}

@[simp] theorem allowedTimes_snoc_allowed (answers : List (Nat × Admission)) (now : Nat) :
    allowedTimes (answers ++ [(now, .allowed)]) = allowedTimes answers ++ [now] := by
  simp [allowedTimes]

@[simp] theorem allowedTimes_snoc_limited (answers : List (Nat × Admission)) (now secs : Nat)
    (first : Bool) : allowedTimes (answers ++ [(now, .limited secs first)]) = allowedTimes answers := by
  simp [allowedTimes]

theorem mem_of_mem_allowedTimes {time : Nat} (h : time ∈ allowedTimes answers) :
    ∃ answer ∈ answers, answer.1 = time := by
  obtain ⟨answer, hanswer, rfl⟩ := List.mem_map.mp h
  exact ⟨answer, List.mem_of_mem_filter hanswer, rfl⟩

/-- After the answers `before` and those of `between` up to an instant from `start` to `stop`,
the bucket is full at that instant. -/
def FullBetween (interval : Nat) (before between : List (Nat × Admission)) (start stop : Nat) :
    Prop :=
  ∃ early late instant, between = early ++ late ∧ start ≤ instant ∧ instant ≤ stop ∧
    (∀ answer ∈ before ++ early, answer.1 ≤ instant) ∧ (∀ answer ∈ late, instant ≤ answer.1) ∧
    refill interval (allowedTimes (before ++ early)) ≤ instant

theorem FullBetween.mono {interval start stop stop' : Nat}
    {before between more : List (Nat × Admission)}
    (h : FullBetween interval before between start stop) (hstop : stop ≤ stop')
    (hmore : ∀ answer ∈ more, stop ≤ answer.1) :
    FullBetween interval before (between ++ more) start stop' := by
  obtain ⟨early, late, instant, rfl, hstart, hinstant, hearly, hlate, hfull⟩ := h
  refine ⟨early, late ++ more, instant, by rw [List.append_assoc], hstart,
    Nat.le_trans hinstant hstop, hearly, fun answer hanswer => ?_, hfull⟩
  rcases List.mem_append.mp hanswer with hold | hnew
  · exact hlate answer hold
  · exact Nat.le_trans hinstant (hmore answer hnew)

/-- Between two first refusals the bucket is full at some instant. -/
def Episodes (interval : Nat) (answers : List (Nat × Admission)) : Prop :=
  ∀ before time secs between time' secs' after,
    answers = before ++ (time, .limited secs true) :: (between ++ (time', .limited secs' true) :: after) →
    FullBetween interval (before ++ [(time, .limited secs true)]) between time time'

/-- Since the last first refusal the bucket was full at some instant up to `seen`. -/
def Settled (interval seen : Nat) (answers : List (Nat × Admission)) : Prop :=
  ∀ before time secs rest, answers = before ++ (time, .limited secs true) :: rest →
    FullBetween interval (before ++ [(time, .limited secs true)]) rest time seen

theorem split_snoc {α : Type} {items before rest : List α} {x y : α}
    (h : items ++ [x] = before ++ y :: rest) :
    (rest = [] ∧ y = x) ∨ ∃ others, rest = others ++ [x] ∧ items = before ++ y :: others := by
  rcases List.eq_nil_or_concat rest with rfl | ⟨others, z, rfl⟩
  · left
    have hlast := (List.append_inj' h rfl).2
    exact ⟨rfl, (List.head_eq_of_cons_eq hlast).symm⟩
  · right
    have hassoc : items ++ [x] = (before ++ y :: others) ++ [z] := by
      rw [h, List.concat_eq_append, List.append_assoc, List.cons_append]
    obtain ⟨hitems, hlast⟩ := List.append_inj' hassoc rfl
    obtain rfl := List.head_eq_of_cons_eq hlast
    exact ⟨others, List.concat_eq_append, hitems⟩

theorem Episodes.snoc {interval : Nat} {x : Nat × Admission} (h : Episodes interval answers)
    (hfirst : ∀ secs, x.2 = .limited secs true → Settled interval x.1 answers) :
    Episodes interval (answers ++ [x]) := by
  intro before time secs between time' secs' after hsplit
  rcases split_snoc hsplit with ⟨hnil, -⟩ | ⟨others, hothers, rfl⟩
  · simp at hnil
  · rcases split_snoc hothers.symm with ⟨rfl, rfl⟩ | ⟨rest, rfl, hrest⟩
    · have hbetween : between = others := (List.append_inj' hothers rfl).1
      rw [hbetween]
      exact hfirst secs' rfl before time secs others rfl
    · exact h before time secs between time' secs' rest (by rw [hrest])

theorem Settled.mono {interval seen now : Nat} (h : Settled interval seen answers)
    (hnow : seen ≤ now) : Settled interval now answers := by
  intro before time secs rest hsplit
  have hmore := (h before time secs rest hsplit).mono hnow (List.forall_mem_nil _)
  rwa [List.append_nil] at hmore

/-- An allowed call starts no episode. -/
theorem Settled.allow {interval seen now : Nat} (h : Settled interval seen answers)
    (hnow : seen ≤ now) : Settled interval now (answers ++ [(now, .allowed)]) := by
  intro before time secs rest hsplit
  rcases split_snoc hsplit with ⟨-, hsame⟩ | ⟨others, rfl, hold⟩
  · simp at hsame
  · refine (h before time secs others hold).mono hnow (fun answer hanswer => ?_)
    rw [List.mem_singleton.mp hanswer]
    exact hnow

/-- An instant at which the bucket is full settles all episodes. -/
theorem settled_of_full {interval now : Nat} (hpast : ∀ answer ∈ answers, answer.1 ≤ now)
    (hfull : refill interval (allowedTimes answers) ≤ now) : Settled interval now answers := by
  intro before time secs rest hsplit
  have hall : before ++ [(time, .limited secs true)] ++ rest = answers := by
    rw [List.append_assoc, List.singleton_append, hsplit]
  refine ⟨rest, [], now, (List.append_nil _).symm, ?_, Nat.le_refl _, hall ▸ hpast, nofun, ?_⟩
  · exact hpast (time, .limited secs true) (by simp [hsplit])
  · rwa [hall]

structure Tracks (interval burst : Nat) (id : String) (s : Watched) : Prop where
  interval_eq : s.limiter.interval = interval
  tolerance_eq : s.limiter.tolerance = interval * (burst - 1)
  unique : Unique s.limiter.buckets
  sorted : (allowedTimes s.answers).Pairwise (· ≤ ·)
  past : ∀ answer ∈ s.answers, answer.1 ≤ s.seen
  mirrors : ∀ bucket, value s.limiter.buckets id = some bucket →
    bucket.fullAt = refill interval (allowedTimes s.answers)
  dropped : value s.limiter.buckets id = none →
    refill interval (allowedTimes s.answers) ≤ s.seen
  budgeted : Budgeted interval burst (allowedTimes s.answers)
  waits : ∀ before time secs first, s.answers = before ++ [(time, .limited secs first)] →
    refill interval (allowedTimes s.answers) ≤
      time + secs * 1000000000 + interval * (burst - 1)
  episodes : Episodes interval s.answers
  settled : (∀ bucket, value s.limiter.buckets id = some bucket → bucket.limited = false) →
    Settled interval s.seen s.answers

variable {interval burst : Nat} {id : String} {s s' : Watched} {now : Nat}
  (h : Tracks interval burst id s)
include h

/-- The bucket of a call stands for the allowed calls so far. -/
theorem Tracks.charged (hnow : s.seen ≤ now) :
    max (chargedBucket s.limiter id now).fullAt now =
      max (refill interval (allowedTimes s.answers)) now ∧
    ((chargedBucket s.limiter id now).limited = false → Settled interval s.seen s.answers) := by
  unfold chargedBucket
  cases hvalue : value s.limiter.buckets id with
  | none =>
    have hdropped := h.dropped hvalue
    refine ⟨?_, fun _ => h.settled (by simp [hvalue])⟩
    simp only [Option.getD_none]
    omega
  | some bucket =>
    refine ⟨by rw [Option.getD_some, h.mirrors bucket hvalue], fun hopen => h.settled ?_⟩
    intro other hother
    rw [hvalue] at hother
    obtain rfl := Option.some.inj hother
    exact hopen

theorem Tracks.past_allowed (hnow : s.seen ≤ now) :
    ∀ time ∈ allowedTimes s.answers, time ≤ now := by
  intro time htime
  obtain ⟨answer, hanswer, rfl⟩ := mem_of_mem_allowedTimes htime
  exact Nat.le_trans (h.past answer hanswer) hnow

theorem Tracks.past_snoc (hnow : s.seen ≤ now) (admission : Admission) :
    ∀ answer ∈ s.answers ++ [(now, admission)], answer.1 ≤ now := by
  intro answer hanswer
  rcases List.mem_append.mp hanswer with hold | hnew
  · exact Nat.le_trans (h.past answer hold) hnow
  · obtain rfl := List.mem_singleton.mp hnew
    exact Nat.le_refl _

omit h in
theorem roundUpSecs_covers (wait : Nat) : wait ≤ roundUpSecs wait * 1000000000 := by
  unfold roundUpSecs
  split <;> omega

/-- An allowed call is one more request of the bucket. -/
theorem Tracks.allow (hinterval : 0 < interval) (hburst : 0 < burst) (hnow : s.seen ≤ now)
    {limiter : TokenLimiter} {bucket : Bucket} (hinterval' : limiter.interval = interval)
    (htolerance : limiter.tolerance = interval * (burst - 1)) (hunique : Unique limiter.buckets)
    (hvalue : value limiter.buckets id = some bucket)
    (hbucket : bucket.fullAt = refill interval (allowedTimes s.answers ++ [now]))
    (hroom : refill interval (allowedTimes s.answers) ≤ now + interval * (burst - 1))
    (hsettled : bucket.limited = false → Settled interval now (s.answers ++ [(now, .allowed)])) :
    Tracks interval burst id
      { limiter, seen := now, answers := s.answers ++ [(now, .allowed)] } where
  interval_eq := hinterval'
  tolerance_eq := htolerance
  unique := hunique
  sorted := by
    rw [allowedTimes_snoc_allowed]
    refine List.pairwise_append.mpr ⟨h.sorted, List.pairwise_singleton _ _, ?_⟩
    intro time htime last hlast
    rw [List.mem_singleton.mp hlast]
    exact h.past_allowed hnow time htime
  past := h.past_snoc hnow _
  mirrors other hother := by
    obtain rfl := Option.some.inj (hvalue.symm.trans hother)
    rw [allowedTimes_snoc_allowed, hbucket]
  dropped hnone := by
    rw [hvalue] at hnone
    cases hnone
  budgeted := by
    rw [allowedTimes_snoc_allowed]
    exact h.budgeted.snoc hinterval hburst h.sorted (h.past_allowed hnow) (Nat.not_lt.mpr hroom)
  waits before time secs first hlast := by
    have hsame := (List.append_inj' hlast rfl).2
    simp at hsame
  episodes := h.episodes.snoc nofun
  settled hopen := hsettled (hopen bucket hvalue)

/-- A refusal leaves the instant alone and marks the bucket. -/
theorem Tracks.refuse (hnow : s.seen ≤ now) {limiter : TokenLimiter} {bucket : Bucket} {secs : Nat}
    {first : Bool} (hinterval' : limiter.interval = interval)
    (htolerance : limiter.tolerance = interval * (burst - 1)) (hunique : Unique limiter.buckets)
    (hvalue : value limiter.buckets id = some bucket)
    (hbucket : bucket.fullAt = refill interval (allowedTimes s.answers))
    (hmarked : bucket.limited = true)
    (hwait : refill interval (allowedTimes s.answers) ≤
      now + secs * 1000000000 + interval * (burst - 1))
    (hfirst : first = true → Settled interval now s.answers) :
    Tracks interval burst id
      { limiter, seen := now, answers := s.answers ++ [(now, .limited secs first)] } where
  interval_eq := hinterval'
  tolerance_eq := htolerance
  unique := hunique
  sorted := by
    rw [allowedTimes_snoc_limited]
    exact h.sorted
  past := h.past_snoc hnow _
  mirrors other hother := by
    obtain rfl := Option.some.inj (hvalue.symm.trans hother)
    rw [allowedTimes_snoc_limited, hbucket]
  dropped hnone := by
    rw [hvalue] at hnone
    cases hnone
  budgeted := by
    rw [allowedTimes_snoc_limited]
    exact h.budgeted
  waits before time secs' first' hlast := by
    have hsame := List.head_eq_of_cons_eq (List.append_inj' hlast rfl).2
    simp only [Prod.mk.injEq, Admission.limited.injEq] at hsame
    obtain ⟨rfl, rfl, -⟩ := hsame
    rw [allowedTimes_snoc_limited]
    exact hwait
  episodes := h.episodes.snoc (fun secs' hlimited => by
    simp only [Admission.limited.injEq] at hlimited
    exact hfirst hlimited.2)
  settled hopen := by
    rw [hopen bucket hvalue] at hmarked
    cases hmarked

theorem Tracks.call (iteration : Iteration String Bucket) (hinterval : 0 < interval)
    (hburst : 0 < burst) (hnow : s.seen ≤ now) :
    Tracks interval burst id
      { limiter := (s.limiter.check iteration id now).2, seen := now,
        answers := s.answers ++ [(now, (s.limiter.check iteration id now).1)] } := by
  obtain ⟨hadmission, hvalue⟩ := check_self h.unique iteration id now
  have hunique := check_unique h.unique iteration id now
  obtain ⟨hmax, hopen⟩ := h.charged hnow
  generalize chargedBucket s.limiter id now = bucket at hadmission hvalue hmax hopen
  have hpast : ∀ answer ∈ s.answers, answer.1 ≤ now :=
    fun answer hanswer => Nat.le_trans (h.past answer hanswer) hnow
  rcases charge_cases s.limiter bucket now with ⟨hfull, hcharge⟩ | ⟨hover, hcharge⟩ |
    ⟨hdraining, hwithin, hcharge⟩
  · rw [hcharge] at hadmission hvalue
    rw [hadmission]
    have hrefill : refill interval (allowedTimes s.answers) ≤ now := by omega
    refine h.allow hinterval hburst hnow h.interval_eq h.tolerance_eq hunique hvalue ?_ ?_ ?_
    · rw [refill_snoc, Nat.max_eq_right hrefill, h.interval_eq]
    · omega
    · exact fun _ => (settled_of_full hpast hrefill).allow (Nat.le_refl _)
  · rw [hcharge] at hadmission hvalue
    rw [hadmission]
    have hsame : bucket.fullAt = refill interval (allowedTimes s.answers) := by omega
    refine h.refuse hnow h.interval_eq h.tolerance_eq hunique hvalue hsame rfl ?_ ?_
    · have hcovers := roundUpSecs_covers (bucket.fullAt - now - s.limiter.tolerance)
      rw [← hsame, ← h.tolerance_eq]
      omega
    · intro hfirst
      exact (hopen (by simpa using hfirst)).mono hnow
  · rw [hcharge] at hadmission hvalue
    rw [hadmission]
    have hsame : bucket.fullAt = refill interval (allowedTimes s.answers) := by omega
    refine h.allow hinterval hburst hnow h.interval_eq h.tolerance_eq hunique hvalue ?_ ?_ ?_
    · rw [refill_snoc, ← hsame, Nat.max_eq_left (Nat.le_of_lt hdraining), h.interval_eq]
    · rw [← hsame, ← h.tolerance_eq]
      exact hwithin
    · exact fun hlimited => (hopen hlimited).allow hnow

/-- A call of another token that leaves the bucket as it is, or drops it at an instant at which
it is full. -/
theorem Tracks.other {limiter : TokenLimiter} {seen : Nat}
    (hinterval : limiter.interval = s.limiter.interval)
    (htolerance : limiter.tolerance = s.limiter.tolerance) (hunique : Unique limiter.buckets)
    (hseen : s.seen ≤ seen)
    (hvalue : value limiter.buckets id = value s.limiter.buckets id ∨
      value limiter.buckets id = none ∧ refill interval (allowedTimes s.answers) ≤ seen) :
    Tracks interval burst id { limiter, seen, answers := s.answers } where
  interval_eq := hinterval.trans h.interval_eq
  tolerance_eq := htolerance.trans h.tolerance_eq
  unique := hunique
  sorted := h.sorted
  past answer hanswer := Nat.le_trans (h.past answer hanswer) hseen
  mirrors bucket hbucket := by
    rcases hvalue with hsame | ⟨hnone, -⟩
    · exact h.mirrors bucket (hsame ▸ hbucket)
    · rw [hnone] at hbucket
      cases hbucket
  dropped hnone := by
    rcases hvalue with hsame | ⟨-, hfull⟩
    · exact Nat.le_trans (h.dropped (hsame ▸ hnone)) hseen
    · exact hfull
  budgeted := h.budgeted
  waits := h.waits
  episodes := h.episodes
  settled hopen := by
    rcases hvalue with hsame | ⟨-, hfull⟩
    · refine (h.settled fun bucket hbucket => hopen bucket ?_).mono hseen
      exact hsame ▸ hbucket
    · exact settled_of_full (fun answer hanswer => Nat.le_trans (h.past answer hanswer) hseen) hfull

omit h

theorem step_tracks {call : Call} (hinterval : 0 < interval) (hburst : 0 < burst)
    (h : Tracks interval burst id s) (hundisturbed : Undisturbed id s call)
    (hstep : s.step id call = some s') : Tracks interval burst id s' := by
  obtain ⟨caller, now, iteration⟩ := call
  unfold Undisturbed at hundisturbed
  unfold Watched.step at hstep
  dsimp only at hundisturbed hstep
  split at hstep
  · rename_i hcaller
    subst hcaller
    rw [if_pos rfl] at hundisturbed
    obtain rfl := Option.some.inj hstep
    exact h.call iteration hinterval hburst hundisturbed
  · rename_i hne
    rw [if_neg hne] at hundisturbed
    have hunique := check_unique h.unique iteration caller now
    split at hstep
    · rename_i hdropped
      obtain ⟨hsome, hnone⟩ := hdropped
      obtain rfl := Option.some.inj hstep
      obtain ⟨bucket, hbucket⟩ := Option.isSome_iff_exists.mp hsome
      have hfull := hundisturbed hnone bucket hbucket
      rw [h.mirrors bucket hbucket] at hfull
      exact h.other rfl rfl hunique (Nat.le_max_left _ _)
        (.inr ⟨hnone, Nat.le_trans hfull (Nat.le_max_right _ _)⟩)
    · rename_i hkept
      obtain rfl := Option.some.inj hstep
      refine h.other rfl rfl hunique (Nat.le_refl _) (.inl ?_)
      rcases check_other h.unique iteration hne now with hsame | hnone
      · exact hsame
      · cases hvalue : value s.limiter.buckets id with
        | none => exact hnone
        | some bucket => exact absurd ⟨by simp [hvalue], hnone⟩ hkept

/-- The answers to a token are those of the counting definition: its bucket is full when one
that got every allowed call is; no window holds more allowed calls than the bound; a call is
refused exactly when one more would break the bound of a window that ends then; the wait of a
refusal is enough; and the bucket is full between two first refusals. -/
structure ExactBudget (interval burst : Nat) (id : String) (s : Watched) : Prop where
  fullAt : ∀ bucket, value s.limiter.buckets id = some bucket →
    bucket.fullAt = refill interval (allowedTimes s.answers)
  bounded : ∀ last w, within last w (allowedTimes s.answers) ≤ burst + w / interval
  limited_iff : ∀ iteration now, s.seen ≤ now →
    ((∃ secs first, (s.limiter.check iteration id now).1 = .limited secs first) ↔
      ∃ w, burst + w / interval < within now w (allowedTimes s.answers) + 1)
  retry : ∀ iteration before time secs first,
    s.answers = before ++ [(time, .limited secs first)] →
      (s.limiter.check iteration id (time + secs * 1000000000)).1 = .allowed
  episodes : Episodes interval s.answers

/-- A call is refused exactly when the bucket is over its tolerance. -/
theorem charge_limited_iff (limiter : TokenLimiter) (bucket : Bucket) (now : Nat) :
    (∃ secs first, (limiter.charge bucket now).1 = .limited secs first) ↔
      now + limiter.tolerance < bucket.fullAt := by
  rcases charge_cases limiter bucket now with ⟨hfull, hcharge⟩ | ⟨hover, hcharge⟩ |
    ⟨hdraining, hwithin, hcharge⟩
  · rw [hcharge]
    constructor
    · rintro ⟨secs, first, hlimited⟩
      cases hlimited
    · intro hover
      omega
  · rw [hcharge]
    exact ⟨fun _ => hover, fun _ => ⟨_, _, rfl⟩⟩
  · rw [hcharge]
    constructor
    · rintro ⟨secs, first, hlimited⟩
      cases hlimited
    · intro hover
      omega

theorem Tracks.exact (h : Tracks interval burst id s) (hinterval : 0 < interval)
    (hburst : 0 < burst) : ExactBudget interval burst id s where
  fullAt := h.mirrors
  bounded := h.budgeted
  limited_iff iteration now hnow := by
    rw [(check_self h.unique iteration id now).1, charge_limited_iff, h.tolerance_eq,
      ← exceeds_iff hinterval hburst h.sorted (h.past_allowed hnow)]
    have hmax := (h.charged hnow).1
    constructor <;> intro hover <;> omega
  retry iteration before time secs first hlast := by
    have hwait := h.waits before time secs first hlast
    generalize hlater : time + secs * 1000000000 = later at hwait
    rw [(check_self h.unique iteration id later).1]
    have hroom : ¬ later + s.limiter.tolerance < (chargedBucket s.limiter id later).fullAt := by
      unfold chargedBucket
      cases hvalue : value s.limiter.buckets id with
      | none =>
        simp only [Option.getD_none]
        omega
      | some bucket =>
        rw [Option.getD_some, h.mirrors bucket hvalue, h.tolerance_eq]
        omega
    rcases charge_cases s.limiter (chargedBucket s.limiter id later) later with
      ⟨-, hcharge⟩ | ⟨hover, -⟩ | ⟨-, -, hcharge⟩
    · rw [hcharge]
    · exact absurd hover hroom
    · rw [hcharge]
  episodes := h.episodes

theorem fresh_tracks (burst ratePerMinute : UInt32) (id : String) :
    Tracks (minute / max ratePerMinute.toNat 1) (max burst.toNat 1) id
      (.fresh burst ratePerMinute) where
  interval_eq := rfl
  tolerance_eq := rfl
  unique := List.nodup_nil
  sorted := List.Pairwise.nil
  past := nofun
  mirrors := nofun
  dropped _ := Nat.zero_le _
  budgeted last w := Nat.zero_le _
  waits before time secs first hlast := by
    have hlength := congrArg List.length hlast
    simp [Watched.fresh] at hlength
  episodes before time secs between time' secs' after hsplit := by
    have hlength := congrArg List.length hsplit
    simp [Watched.fresh] at hlength
  settled _ before time secs rest hsplit := by
    have hlength := congrArg List.length hsplit
    simp [Watched.fresh] at hlength

/-- **Token budgets are exact**, for every token whose bucket is not evicted. -/
theorem budgets_exact (burst ratePerMinute : UInt32) (id : String) {calls : List Call}
    {s : Watched} (hrun : Run (Guarded (Undisturbed id) (Steps (Watched.step id)))
      (.fresh burst ratePerMinute) calls s) :
    ExactBudget (minute / max ratePerMinute.toNat 1) (max burst.toNat 1) id s := by
  have hinterval : 0 < minute / max ratePerMinute.toNat 1 := by
    refine Nat.div_pos ?_ (Nat.le_max_right _ _)
    have hrate := ratePerMinute.toNat_lt
    unfold minute
    omega
  have hburst : 0 < max burst.toNat 1 := by omega
  refine Tracks.exact ?_ hinterval hburst
  exact hrun.invariant (I := Tracks _ _ id)
    (fun _ _ _ h hstep => step_tracks hinterval hburst h hstep.1 hstep.2)
    (fresh_tracks burst ratePerMinute id)

def Call.at (id : String) (now : Nat) : Call := { id, now, iteration := .asListed _ _ }

/-- Two calls at once, one a second: the third is refused for a second. -/
theorem third_call_refused :
    ∃ s, Run (Guarded (Undisturbed "a") (Steps (Watched.step "a"))) (.fresh 2 60)
        [.at "a" 0, .at "a" 0, .at "b" 4, .at "a" 5] s ∧
      s.answers = [(0, .allowed), (0, .allowed), (5, .limited 1 true)] ∧
      ExactBudget (minute / max (60 : UInt32).toNat 1) (max (2 : UInt32).toNat 1) "a" s := by
  have hexec : exec (fun s call => if Undisturbed "a" s call then Watched.step "a" s call else none)
      (.fresh 2 60) [.at "a" 0, .at "a" 0, .at "b" 4, .at "a" 5] =
      some { limiter := { buckets := [("a", { fullAt := 2000000000, limited := true }),
                                      ("b", { fullAt := 1000000004, limited := false })]
                          interval := 1000000000, tolerance := 1000000000 }
             seen := 5
             answers := [(0, .allowed), (0, .allowed), (5, .limited 1 true)] } := by
    decide +kernel
  have hrun := run_guarded_of_exec hexec
  exact ⟨_, hrun, rfl, budgets_exact 2 60 "a" hrun⟩

end Detent.Guarantees.TokenBudgets
