import Detent.Lib.Machine
import Detent.Source.RateLimit

/-!
# What a counted failure does to the buckets

`fail` makes room before it looks the key up. In a table full of buckets that were seen
lately it evicts the one seen least recently even when the key that fails has a bucket:
its own or another's failures are forgotten. Otherwise a failure is counted, up to the
32-bit counter, and a lockout is extended as long as the threshold stays the same. All
this holds in whatever order a table is gone through.
-/
namespace Detent.Guarantees.FailureCounts
open Lib Lib.Keyed Source.RateLimit
open Option (some.inj)

variable {κ : Type} [DecidableEq κ] {buckets : Buckets κ} {iteration : Iteration κ Bucket}
  {key other : κ} {bucket : Bucket} {now maxFailures : Nat}

/-- A bucket that was touched less than `bucketTtl` ago. -/
def Live (now : Nat) (bucket : Bucket) : Prop := now - bucket.lastSeen < bucketTtl

instance (now : Nat) (bucket : Bucket) : Decidable (Live now bucket) :=
  inferInstanceAs (Decidable (_ < _))

/-- Sweeping makes no room. -/
def Crowded (buckets : Buckets κ) (now : Nat) : Prop :=
  buckets.cap ≤ (buckets.sweep now).map.length

omit [DecidableEq κ] in
instance (buckets : Buckets κ) (now : Nat) : Decidable (Crowded buckets now) :=
  inferInstanceAs (Decidable (_ ≤ _))

/-- A table within its bounds: one bucket a key, seen no later than `time`, with a failure. -/
structure Sound (cap time : Nat) (buckets : Buckets κ) : Prop where
  cap_eq : buckets.cap = cap
  bounded : buckets.map.length ≤ cap
  unique : Unique buckets.map
  counted : ∀ x ∈ buckets.map, 1 ≤ x.2.failures ∧ x.2.lastSeen ≤ time

/-- Without a crowd no bucket that was seen lately goes. -/
theorem makeRoom_keeps (hunique : Unique buckets.map) (hroom : ¬ Crowded buckets now)
    (hget : buckets.get other = some bucket) (hlive : Live now bucket) :
    (buckets.makeRoom iteration now).get other = some bucket := by
  unfold Buckets.makeRoom
  split
  · exact hget
  · have hswept : (buckets.sweep now).map.length < (buckets.sweep now).cap := Nat.lt_of_not_le hroom
    dsimp only
    rw [if_pos hswept]
    change value (buckets.map.filter _) other = _
    rw [hunique.value_filter]
    change (buckets.get other).filter _ = _
    rw [hget, Option.filter_some, if_pos (by simpa [Live] using hlive)]

/-- In a crowd a bucket that was seen lately is evicted. -/
theorem makeRoom_evicts (hunique : Unique buckets.map) (hcap : 1 ≤ buckets.cap)
    (hcrowded : Crowded buckets now) :
    ∃ evicted bucket, buckets.get evicted = some bucket ∧ Live now bucket ∧
      (buckets.makeRoom iteration now).get evicted = none := by
  have hswept : (buckets.sweep now).map.length ≤ buckets.map.length := List.length_filter_le _ _
  unfold Crowded at hcrowded
  unfold Buckets.makeRoom
  rw [if_neg (by omega)]
  dsimp only
  rw [if_neg (by exact Nat.not_lt.mpr hcrowded)]
  split
  · rename_i x hx
    obtain ⟨hmem, hlive⟩ := List.mem_filter.mp (Iteration.least_mem hx)
    refine ⟨x.1, x.2, hunique.value_of_mem hmem, by simpa [Live] using hlive, ?_⟩
    exact value_erase _ x.1
  · rename_i hnone
    rw [Iteration.least_eq_none] at hnone
    rw [hnone] at hcrowded
    simp only [List.length_nil] at hcrowded
    omega

theorem makeRoom_subset : (buckets.makeRoom iteration now).map.Sublist buckets.map := by
  unfold Buckets.makeRoom
  split
  · exact List.Sublist.refl _
  · dsimp only
    split
    · exact List.filter_sublist
    · split
      · exact List.filter_sublist.trans List.filter_sublist
      · exact List.filter_sublist

theorem makeRoom_cap : (buckets.makeRoom iteration now).cap = buckets.cap := by
  unfold Buckets.makeRoom
  split
  · rfl
  · dsimp only
    split
    · rfl
    · split <;> rfl

theorem makeRoom_length (hcap : 1 ≤ buckets.cap) (hbounded : buckets.map.length ≤ buckets.cap) :
    (buckets.makeRoom iteration now).map.length < buckets.cap := by
  have hswept : (buckets.sweep now).map.length ≤ buckets.map.length := List.length_filter_le _ _
  unfold Buckets.makeRoom
  split
  · assumption
  · dsimp only
    split
    · assumption
    · split
      · rename_i x hx
        have hlt := length_erase_lt (Iteration.least_mem hx)
        exact Nat.lt_of_lt_of_le hlt (Nat.le_trans hswept hbounded)
      · rename_i hnone
        rw [Iteration.least_eq_none] at hnone
        rw [hnone]
        exact hcap

/-- A bucket after one more failure. -/
def countFailure (bucket : Bucket) (maxFailures now : Nat) : Bucket :=
  let failures := saturatingSucc bucket.failures
  let beyond := saturatingSucc failures - maxFailures
  if beyond = 0 then { bucket with failures, lastSeen := now }
  else { failures, blockedUntil := some (now + backoffFor beyond), lastSeen := now }

def freshBucket (now : Nat) : Bucket := { failures := 0, blockedUntil := none, lastSeen := now }

theorem fail_eq (buckets : Buckets κ) (iteration : Iteration κ Bucket) (key : κ)
    (maxFailures now : Nat) :
    (buckets.fail iteration key maxFailures now).2 = (buckets.makeRoom iteration now).put key
      (countFailure (((buckets.makeRoom iteration now).get key).getD (freshBucket now))
        maxFailures now) := by
  unfold Buckets.fail countFailure freshBucket
  dsimp only
  split <;> rfl

@[simp] theorem countFailure_failures :
    (countFailure bucket maxFailures now).failures = saturatingSucc bucket.failures := by
  unfold countFailure
  dsimp only
  split <;> rfl

@[simp] theorem countFailure_lastSeen : (countFailure bucket maxFailures now).lastSeen = now := by
  unfold countFailure
  dsimp only
  split <;> rfl

theorem fail_get_self (buckets : Buckets κ) (iteration : Iteration κ Bucket) (key : κ)
    (maxFailures now : Nat) :
    (buckets.fail iteration key maxFailures now).2.get key =
      some (countFailure (((buckets.makeRoom iteration now).get key).getD (freshBucket now))
        maxFailures now) := by
  rw [fail_eq]
  exact value_set_self

theorem fail_get_of_ne (hne : other ≠ key) :
    (buckets.fail iteration key maxFailures now).2.get other =
      (buckets.makeRoom iteration now).get other := by
  rw [fail_eq]
  exact value_set_of_ne hne

variable {cap time : Nat}

/-- A failure leaves the table within its bounds. -/
theorem fail_sound (hcap : 1 ≤ cap) (h : Sound cap time buckets) (htime : time ≤ now)
    (iteration : Iteration κ Bucket) (key : κ) (maxFailures : Nat) :
    Sound cap now (buckets.fail iteration key maxFailures now).2 := by
  rw [fail_eq]
  have hunique : Unique (buckets.makeRoom iteration now).map := h.unique.sublist makeRoom_subset
  refine ⟨makeRoom_cap.trans h.cap_eq, ?_, unique_set hunique _ _, ?_⟩
  · have hbounded : buckets.map.length ≤ buckets.cap := by rw [h.cap_eq]; exact h.bounded
    have hlt : (buckets.makeRoom iteration now).map.length < buckets.cap :=
      makeRoom_length (by rw [h.cap_eq]; exact hcap) hbounded
    rw [h.cap_eq] at hlt
    exact Nat.le_trans length_set_le hlt
  · intro x hx
    rcases List.mem_cons.mp hx with rfl | hx
    · dsimp only
      rw [countFailure_failures, countFailure_lastSeen]
      refine ⟨?_, Nat.le_refl _⟩
      unfold saturatingSucc
      omega
    · obtain ⟨hcounted, hseen⟩ := h.counted x (makeRoom_subset.subset (List.mem_of_mem_filter hx))
      exact ⟨hcounted, Nat.le_trans hseen htime⟩

/-- What a failure of `key` may do: the table stays within its cap, the key's own bucket counts
it and its lockout lasts as long, no other bucket that was seen lately goes, and one is evicted
only for a key without a bucket. -/
structure NeverHelps (buckets : Buckets κ) (iteration : Iteration κ Bucket) (key : κ)
    (maxFailures now : Nat) : Prop where
  bounded : (buckets.fail iteration key maxFailures now).2.map.length ≤ buckets.cap
  counted : ∀ bucket, buckets.get key = some bucket → Live now bucket →
    ∃ bucket', (buckets.fail iteration key maxFailures now).2.get key = some bucket' ∧
      bucket'.failures = bucket.failures + 1 ∧
      ∀ deadline, bucket.blockedUntil = some deadline →
        ∃ deadline', bucket'.blockedUntil = some deadline' ∧ deadline ≤ deadline'
  kept : ∀ bucket, buckets.get key = some bucket → Live now bucket →
    ∀ other, other ≠ key → ∀ bucket', buckets.get other = some bucket' → Live now bucket' →
      (buckets.fail iteration key maxFailures now).2.get other = some bucket'
  admits : ∀ evicted bucket, buckets.get evicted = some bucket → Live now bucket →
    (buckets.makeRoom iteration now).get evicted = none → buckets.get key = none

/-- A key with a bucket fails in a table that sweeping can make room in, and its counter is
below the 32-bit maximum. -/
def Countable (buckets : Buckets κ) (key : κ) (now : Nat) : Prop :=
  (Crowded buckets now → buckets.get key = none) ∧
    ∀ bucket, buckets.get key = some bucket → Live now bucket → bucket.failures < 4294967295

/-- The backoff of the next failure reaches the deadline of the lockout. -/
def Reaches (buckets : Buckets κ) (key : κ) (maxFailures now : Nat) : Prop :=
  ∀ bucket, buckets.get key = some bucket → Live now bucket →
    ∀ deadline, bucket.blockedUntil = some deadline →
      saturatingSucc (saturatingSucc bucket.failures) ≤ maxFailures ∨
      deadline ≤ now + backoffFor (saturatingSucc (saturatingSucc bucket.failures) - maxFailures)

theorem countFailure_blockedUntil :
    (countFailure bucket maxFailures now).blockedUntil =
      if saturatingSucc (saturatingSucc bucket.failures) ≤ maxFailures then bucket.blockedUntil
      else some (now + backoffFor (saturatingSucc (saturatingSucc bucket.failures) - maxFailures)) := by
  unfold countFailure
  dsimp only
  by_cases hunder : saturatingSucc (saturatingSucc bucket.failures) ≤ maxFailures
  · rw [if_pos hunder, if_pos (Nat.sub_eq_zero_of_le hunder)]
  · rw [if_neg hunder, if_neg (by omega)]

/-- Without a crowd the bucket of a key that was seen lately counts the failure. -/
theorem fail_counts (hunique : Unique buckets.map) (hroom : ¬ Crowded buckets now)
    (hget : buckets.get key = some bucket) (hlive : Live now bucket) (maxFailures : Nat) :
    (buckets.fail iteration key maxFailures now).2.get key =
      some (countFailure bucket maxFailures now) := by
  rw [fail_get_self, makeRoom_keeps hunique hroom hget hlive, Option.getD_some]

theorem neverHelps_iff (hcap : 1 ≤ cap) (h : Sound cap time buckets) (htime : time ≤ now) (key : κ)
    (maxFailures : Nat) :
    NeverHelps buckets iteration key maxFailures now ↔
      Countable buckets key now ∧ Reaches buckets key maxFailures now := by
  have hroom : ∀ {bucket}, (Crowded buckets now → buckets.get key = none) →
      buckets.get key = some bucket → ¬ Crowded buckets now := by
    intro bucket hnone hget hcrowded
    rw [hnone hcrowded] at hget
    cases hget
  constructor
  · intro hhelps
    have hnone : Crowded buckets now → buckets.get key = none := by
      intro hcrowded
      obtain ⟨evicted, bucket, hget, hlive, hgone⟩ :=
        makeRoom_evicts h.unique (by rw [h.cap_eq]; exact hcap) hcrowded
      exact hhelps.admits evicted bucket hget hlive hgone
    refine ⟨⟨hnone, ?_⟩, ?_⟩
    · intro bucket hget hlive
      obtain ⟨bucket', hget', hcount, -⟩ := hhelps.counted bucket hget hlive
      rw [fail_counts h.unique (hroom hnone hget) hget hlive] at hget'
      obtain rfl := some.inj hget'
      rw [countFailure_failures, saturatingSucc] at hcount
      omega
    · intro bucket hget hlive deadline hdeadline
      obtain ⟨bucket', hget', -, hlocked⟩ := hhelps.counted bucket hget hlive
      obtain ⟨deadline', hdeadline', hle⟩ := hlocked deadline hdeadline
      rw [fail_counts h.unique (hroom hnone hget) hget hlive] at hget'
      obtain rfl := some.inj hget'
      rw [countFailure_blockedUntil] at hdeadline'
      split at hdeadline'
      · left
        assumption
      · right
        obtain rfl := some.inj hdeadline'
        exact hle
  · rintro ⟨⟨hnone, hcounter⟩, hreaches⟩
    have hbounded := (fail_sound hcap h htime iteration key maxFailures).bounded
    refine ⟨by rw [h.cap_eq]; exact hbounded, ?_, ?_, ?_⟩
    · intro bucket hget hlive
      refine ⟨_, fail_counts h.unique (hroom hnone hget) hget hlive maxFailures, ?_, ?_⟩
      · have hlt := hcounter bucket hget hlive
        rw [countFailure_failures, saturatingSucc]
        omega
      · intro deadline hdeadline
        rw [countFailure_blockedUntil]
        split
        · exact ⟨deadline, hdeadline, Nat.le_refl _⟩
        · rename_i hover
          rcases hreaches bucket hget hlive deadline hdeadline with hunder | hle
          · exact absurd hunder hover
          · exact ⟨_, rfl, hle⟩
    · intro bucket hget hlive other hne bucket' hget' hlive'
      rw [fail_get_of_ne hne]
      exact makeRoom_keeps h.unique (hroom hnone hget) hget' hlive'
    · intro evicted bucket hget hlive hgone
      by_cases hcrowded : Crowded buckets now
      · exact hnone hcrowded
      · rw [makeRoom_keeps h.unique hcrowded hget hlive] at hgone
        cases hgone

/-- The calls that change a table. -/
inductive Touch (κ : Type) where
  | fail (iteration : Iteration κ Bucket) (key : κ) (maxFailures now : Nat)
  | clear (key : κ)
  | sweep (now : Nat)

/-- A table, and the latest time it was called at. -/
structure Timed (κ : Type) where
  buckets : Buckets κ
  time : Nat

def Timed.step (s : Timed κ) : Touch κ → Option (Timed κ)
  | .fail iteration key maxFailures now =>
    if s.time ≤ now then
      some { buckets := (s.buckets.fail iteration key maxFailures now).2, time := now }
    else none
  | .clear key => some { s with buckets := s.buckets.clear key }
  | .sweep now => if s.time ≤ now then some { buckets := s.buckets.sweep now, time := now } else none

def Timed.empty (κ : Type) (cap : Nat) : Timed κ := { buckets := { map := [], cap }, time := 0 }

/-- Every failure is counted against the same threshold. -/
def SameThreshold (touches : List (Touch κ)) (maxFailures : Nat) : Prop :=
  ∀ iteration key other now, .fail iteration key other now ∈ touches → other = maxFailures

/-- Every lockout was set by the last failure of its bucket. -/
def Locks (maxFailures : Nat) (buckets : Buckets κ) : Prop :=
  ∀ x ∈ buckets.map, ∀ deadline, x.2.blockedUntil = some deadline →
    maxFailures < saturatingSucc x.2.failures ∧
      deadline = x.2.lastSeen + backoffFor (saturatingSucc x.2.failures - maxFailures)

omit [DecidableEq κ] in
theorem filter_sound (h : Sound cap time buckets) (p : κ × Bucket → Bool) :
    Sound cap time { buckets with map := buckets.map.filter p } where
  cap_eq := h.cap_eq
  bounded := Nat.le_trans (List.length_filter_le _ _) h.bounded
  unique := h.unique.filter p
  counted x hx := h.counted x (List.mem_of_mem_filter hx)

theorem step_sound (hcap : 1 ≤ cap) {s s' : Timed κ} {touch : Touch κ}
    (h : Sound cap s.time s.buckets) (hstep : s.step touch = some s') :
    Sound cap s'.time s'.buckets := by
  cases touch with
  | fail iteration key maxFailures now =>
    simp only [Timed.step] at hstep
    split at hstep
    · rename_i htime
      obtain rfl := some.inj hstep
      exact fail_sound hcap h htime iteration key maxFailures
    · cases hstep
  | clear key =>
    obtain rfl := some.inj hstep
    exact filter_sound h _
  | sweep now =>
    simp only [Timed.step] at hstep
    split at hstep
    · rename_i htime
      obtain rfl := some.inj hstep
      have hswept := filter_sound h (fun x => now - x.2.lastSeen < bucketTtl)
      refine ⟨hswept.cap_eq, hswept.bounded, hswept.unique, fun x hx => ?_⟩
      obtain ⟨hcounted, hseen⟩ := hswept.counted x hx
      exact ⟨hcounted, Nat.le_trans hseen htime⟩
    · cases hstep

theorem fail_locks (hlocks : Locks maxFailures buckets) (key : κ) (now : Nat) :
    Locks maxFailures (buckets.fail iteration key maxFailures now).2 := by
  rw [fail_eq]
  intro x hx deadline hdeadline
  rcases List.mem_cons.mp hx with rfl | hx
  · dsimp only at hdeadline ⊢
    rw [countFailure_blockedUntil] at hdeadline
    rw [countFailure_failures, countFailure_lastSeen]
    split at hdeadline
    · rename_i hunder
      -- the threshold was not passed now, so the earlier failures did not pass it
      exfalso
      cases hget : (buckets.makeRoom iteration now).get key with
      | none =>
        rw [hget, Option.getD_none] at hdeadline
        cases hdeadline
      | some bucket =>
        rw [hget, Option.getD_some] at hdeadline hunder
        have hmem := makeRoom_subset.subset (mem_of_value hget)
        obtain ⟨hover, -⟩ := hlocks _ hmem deadline hdeadline
        dsimp only at hover
        unfold saturatingSucc at hunder hover
        omega
    · rename_i hover
      obtain rfl := some.inj hdeadline
      exact ⟨Nat.lt_of_not_le hover, rfl⟩
  · exact hlocks x (makeRoom_subset.subset (List.mem_of_mem_filter hx)) deadline hdeadline

theorem step_locks {s s' : Timed κ} {touch : Touch κ} (h : Locks maxFailures s.buckets)
    (hsame : ∀ iteration key other now, touch = .fail iteration key other now → other = maxFailures)
    (hstep : s.step touch = some s') : Locks maxFailures s'.buckets := by
  cases touch with
  | fail iteration key other now =>
    obtain rfl := hsame iteration key other now rfl
    simp only [Timed.step] at hstep
    split at hstep
    · obtain rfl := some.inj hstep
      exact fail_locks h key now
    · cases hstep
  | clear key =>
    obtain rfl := some.inj hstep
    exact fun x hx => h x (List.mem_of_mem_filter hx)
  | sweep now =>
    simp only [Timed.step] at hstep
    split at hstep
    · obtain rfl := some.inj hstep
      exact fun x hx => h x (List.mem_of_mem_filter hx)
    · cases hstep

theorem backoffFor_mono {a b : Nat} (h : a ≤ b) : backoffFor a ≤ backoffFor b := by
  have hpow : 2 ^ (a - 1) ≤ 2 ^ (b - 1) := Nat.pow_le_pow_right (by decide) (by omega)
  unfold backoffFor
  split
  · split
    · have hmul := Nat.mul_le_mul_left baseBackoff hpow
      omega
    · exact Nat.min_le_right _ _
  · rw [if_neg (by omega)]

/-- Against the same threshold a lockout only grows. -/
theorem reaches_of_locks (h : Sound cap time buckets) (hlocks : Locks maxFailures buckets)
    (htime : time ≤ now) (key : κ) : Reaches buckets key maxFailures now := by
  intro bucket hget _ deadline hdeadline
  have hmem := mem_of_value hget
  obtain ⟨hover, rfl⟩ := hlocks _ hmem deadline hdeadline
  have hseen : bucket.lastSeen ≤ time := (h.counted _ hmem).2
  have hmore : saturatingSucc bucket.failures ≤ saturatingSucc (saturatingSucc bucket.failures) := by
    unfold saturatingSucc
    omega
  right
  have hgrows : backoffFor (saturatingSucc bucket.failures - maxFailures) ≤
      backoffFor (saturatingSucc (saturatingSucc bucket.failures) - maxFailures) :=
    backoffFor_mono (by omega)
  dsimp only
  omega

/-- **Failing never helps**, in every state that is reached, exactly where the table has room
for a key that has a bucket, its counter is below the maximum and its backoff reaches the
deadline it replaces; against one threshold the last is always so. -/
theorem failing_never_helps_iff {cap : Nat} (hcap : 1 ≤ cap) {s : Timed κ}
    {touches : List (Touch κ)} (hrun : Run (Steps Timed.step) (.empty κ cap) touches s)
    (iteration : Iteration κ Bucket) (key : κ) (maxFailures now : Nat) (hnow : s.time ≤ now) :
    (NeverHelps s.buckets iteration key maxFailures now ↔
      Countable s.buckets key now ∧ Reaches s.buckets key maxFailures now) ∧
    (SameThreshold touches maxFailures → Reaches s.buckets key maxFailures now) := by
  have hempty : Sound cap (Timed.empty κ cap).time (Timed.empty κ cap).buckets :=
    ⟨rfl, Nat.zero_le _, List.nodup_nil, nofun⟩
  have hsound := hrun.invariant (I := fun t => Sound cap t.time t.buckets)
    (fun _ _ _ h hstep => step_sound hcap h hstep) hempty
  refine ⟨neverHelps_iff hcap hsound hnow key maxFailures, fun hsame => ?_⟩
  refine reaches_of_locks hsound ?_ hnow key
  refine hrun.history (I := fun es t => SameThreshold es maxFailures → Locks maxFailures t.buckets)
    ?_ nofun hsame
  intro es t touch t' hlocks hstep hsame
  refine step_locks (hlocks ?_) ?_ hstep
  · exact fun i k m n hmem => hsame i k m n (List.mem_append_left _ hmem)
  · rintro i k m n rfl
    exact hsame i k m n (List.mem_append_right _ (List.mem_singleton.mpr rfl))

/-- Five failures of one name lock it out. -/
def fiveFailures : List (Touch String) := List.replicate 5 (.fail (.asListed _ _) "alice" 5 0)

def aliceBucket : Bucket := { failures := 5, blockedUntil := some 2000000000, lastSeen := 0 }

def lockedOut : Timed String where
  buckets := { map := [("alice", aliceBucket)], cap := 2 }
  time := 0

/-- The failure of another name fills the table. -/
def full : Timed String where
  buckets :=
    { map := [("bob", { failures := 1, blockedUntil := none, lastSeen := 1 }), ("alice", aliceBucket)]
      cap := 2 }
  time := 1

/-- In a table with room the next failure of the name extends its lockout. -/
theorem sixth_failure_counts :
    Run (Steps Timed.step) (.empty String 2) fiveFailures lockedOut ∧
      NeverHelps lockedOut.buckets (.asListed _ _) "alice" 5 2 := by
  have hrun : Run (Steps Timed.step) (.empty String 2) fiveFailures lockedOut := run_of_exec rfl
  obtain ⟨hiff, hreaches⟩ := failing_never_helps_iff (by decide) hrun (.asListed _ _) "alice" 5 2
    (by decide)
  refine ⟨hrun, hiff.mpr ⟨⟨fun hcrowded => absurd hcrowded (by decide), ?_⟩, hreaches ?_⟩⟩
  · intro bucket hget _
    obtain rfl : aliceBucket = bucket := some.inj hget
    decide
  · intro iteration key other now hmem
    have htouch := List.eq_of_mem_replicate hmem
    simp only [Touch.fail.injEq] at htouch
    exact htouch.2.2.1

/-- In a full table it evicts the bucket of that name: one failure is left of five, and no
lockout. -/
theorem sixth_failure_releases :
    Run (Steps Timed.step) (.empty String 2) (fiveFailures ++ [.fail (.asListed _ _) "bob" 5 1])
        full ∧
      full.time ≤ 2 ∧
      full.buckets.get "alice" = some aliceBucket ∧ Live 2 aliceBucket ∧
      (full.buckets.fail (.asListed _ _) "alice" 5 2).2.get "alice" =
        some { failures := 1, blockedUntil := none, lastSeen := 2 } ∧
      ¬ NeverHelps full.buckets (.asListed _ _) "alice" 5 2 := by
  have hafter : (full.buckets.fail (.asListed _ _) "alice" 5 2).2.get "alice" =
      some { failures := 1, blockedUntil := none, lastSeen := 2 } := by decide
  refine ⟨run_of_exec rfl, by decide, rfl, by decide, hafter, fun hhelps => ?_⟩
  obtain ⟨bucket', hget', hcount, -⟩ := hhelps.counted aliceBucket rfl (by decide)
  obtain rfl := some.inj (hafter.symm.trans hget')
  cases hcount

end Detent.Guarantees.FailureCounts
