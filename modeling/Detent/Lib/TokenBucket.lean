import Mathlib.Data.List.Basic
import Mathlib.Data.List.Induction
import Mathlib.Tactic.Common

/-!
# Token buckets

A bucket of requests that refills by one every `interval`, kept as the instant at which it is
full again. That single instant decides the counting definition: it is more than `burst - 1`
intervals ahead exactly when one more request would exceed `burst + w / interval` in some
window of length `w` that ends now.
-/
namespace Detent.Lib.TokenBucket

variable {interval burst now : Nat} {times : List Nat}

/-- When the bucket is full again after requests at `times`, oldest first. -/
def refill (interval : Nat) (times : List Nat) : Nat :=
  times.foldl (fun full time => max full time + interval) 0

@[simp] theorem refill_nil : refill interval [] = 0 := rfl

@[simp] theorem refill_snoc (time : Nat) :
    refill interval (times ++ [time]) = max (refill interval times) time + interval := by
  rw [refill, List.foldl_append]
  rfl

/-- The requests in the window of length `w` that ends at `last`. -/
def within (last w : Nat) (times : List Nat) : Nat :=
  times.countP (fun time => time ≤ last ∧ last ≤ time + w)

@[simp] theorem within_nil (last w : Nat) : within last w [] = 0 := rfl

theorem within_snoc (last w time : Nat) : within last w (times ++ [time]) =
    within last w times + if time ≤ last ∧ last ≤ time + w then 1 else 0 := by
  rw [within, List.countP_append, List.countP_singleton, within]
  simp only [decide_eq_true_eq]

/-- A window with requests ends no later than the bucket is full, but for what the window itself
refills. -/
theorem refill_ge (last w : Nat) :
    within last w times = 0 ∨
      last + within last w times * interval ≤ refill interval times + w := by
  induction times using List.reverseRecOn with
  | nil => exact .inl rfl
  | append_singleton times time ih =>
    have hmax := Nat.le_max_left (refill interval times) time
    have hmax' := Nat.le_max_right (refill interval times) time
    rw [within_snoc, refill_snoc]
    by_cases hin : time ≤ last ∧ last ≤ time + w
    · right
      rw [if_pos hin, Nat.add_mul, Nat.one_mul]
      rcases ih with hnone | hle
      · rw [hnone]
        omega
      · omega
    · rw [if_neg hin, Nat.add_zero]
      rcases ih with hnone | hle
      · exact .inl hnone
      · exact .inr (by omega)

/-- Some request started a window in which the bucket never filled up. -/
theorem refill_attained (hinterval : 0 < interval) (hsorted : times.Pairwise (· ≤ ·))
    (hne : times ≠ []) :
    ∃ first ∈ times, refill interval times =
      first + times.countP (fun time => first ≤ time) * interval := by
  induction times using List.reverseRecOn with
  | nil => exact absurd rfl hne
  | append_singleton times time ih =>
    obtain ⟨hinit, -, hlast⟩ := List.pairwise_append.mp hsorted
    have hle : ∀ other ∈ times, other ≤ time :=
      fun other hother => hlast other hother time (List.mem_singleton.mpr rfl)
    rw [refill_snoc]
    by_cases hfull : refill interval times ≤ time
    · -- the bucket was full: this request starts a window of its own
      refine ⟨time, by simp, ?_⟩
      have hbefore : ∀ other ∈ times, ¬ time ≤ other := by
        intro other hother hge
        have hsame : other = time := Nat.le_antisymm (hle other hother) hge
        have hcount : within time 0 times ≠ 0 := by
          refine Nat.pos_iff_ne_zero.mp (List.countP_pos_iff.mpr ⟨other, hother, ?_⟩)
          simp [hsame]
        rcases @refill_ge interval times time 0 with hnone | hge'
        · exact hcount hnone
        · have hone : 1 * interval ≤ within time 0 times * interval :=
            Nat.mul_le_mul_right _ (Nat.pos_of_ne_zero hcount)
          omega
      have hnone : times.countP (fun other => decide (time ≤ other)) = 0 := by
        refine List.countP_eq_zero.mpr fun other hother => ?_
        simpa using hbefore other hother
      rw [List.countP_append, hnone, Nat.max_eq_right hfull]
      simp
    · have hsome : times ≠ [] := by
        rintro rfl
        exact hfull (Nat.zero_le _)
      obtain ⟨first, hfirst, hrefill⟩ := ih hinit hsome
      refine ⟨first, List.mem_append_left _ hfirst, ?_⟩
      have hone : [time].countP (fun other => decide (first ≤ other)) = 1 := by
        simp [hle first hfirst]
      rw [List.countP_append, hone, Nat.max_eq_left (by omega), hrefill, Nat.add_mul]
      omega

/-- The bucket is more than `burst - 1` intervals from full exactly when one more request breaks
the bound of some window that ends now. -/
theorem exceeds_iff (hinterval : 0 < interval) (hburst : 0 < burst)
    (hsorted : times.Pairwise (· ≤ ·)) (hpast : ∀ time ∈ times, time ≤ now) :
    now + interval * (burst - 1) < refill interval times ↔
      ∃ w, burst + w / interval < within now w times + 1 := by
  constructor
  · intro hlt
    have hne : times ≠ [] := by
      rintro rfl
      rw [refill_nil] at hlt
      omega
    obtain ⟨first, hfirst, hrefill⟩ := refill_attained hinterval hsorted hne
    refine ⟨now - first, ?_⟩
    have hcount : within now (now - first) times =
        times.countP (fun time => decide (first ≤ time)) := by
      refine List.countP_congr fun time htime => ?_
      have htime' := hpast time htime
      have hfirst' := hpast first hfirst
      simp only [decide_eq_true_eq]
      omega
    rw [hcount]
    generalize times.countP (fun time => decide (first ≤ time)) = count at hrefill
    have hfirst' := hpast first hfirst
    -- `now - first` is less than the refill of the requests over the burst
    have hmore : burst - 1 < count := by
      by_contra hle
      have hmul : count * interval ≤ (burst - 1) * interval := Nat.mul_le_mul_right _ (by omega)
      have hcomm := Nat.mul_comm interval (burst - 1)
      omega
    have hsplit : count * interval = (count - (burst - 1)) * interval + interval * (burst - 1) := by
      rw [Nat.mul_comm interval, ← Nat.add_mul]
      congr 1
      omega
    have hshort : now - first < (count - (burst - 1)) * interval := by omega
    have hdiv := Nat.div_lt_of_lt_mul (Nat.mul_comm _ interval ▸ hshort)
    omega
  · rintro ⟨w, hw⟩
    rcases @refill_ge interval times now w with hnone | hge
    · have hle := Nat.le_add_right burst (w / interval)
      rw [hnone] at hw
      omega
    · generalize within now w times = count at hw hge
      have hmul : (burst + w / interval) * interval ≤ count * interval :=
        Nat.mul_le_mul_right _ (by omega)
      have hdiv := Nat.lt_div_mul_add (a := w) hinterval
      have hsplit : (burst + w / interval) * interval =
          interval * (burst - 1) + interval + w / interval * interval := by
        rw [Nat.add_mul, Nat.mul_comm interval (burst - 1), ← Nat.succ_mul]
        congr 2
        omega
      omega

/-- No window holds more requests than the burst and what it refills. -/
def Budgeted (interval burst : Nat) (times : List Nat) : Prop :=
  ∀ last w, within last w times ≤ burst + w / interval

/-- A request that the bucket had room for keeps every window within its bound. -/
theorem Budgeted.snoc (h : Budgeted interval burst times) (hinterval : 0 < interval)
    (hburst : 0 < burst) (hsorted : times.Pairwise (· ≤ ·)) (hpast : ∀ time ∈ times, time ≤ now)
    (hroom : ¬ now + interval * (burst - 1) < refill interval times) :
    Budgeted interval burst (times ++ [now]) := by
  intro last w
  rw [within_snoc]
  by_cases hin : now ≤ last ∧ last ≤ now + w
  · -- the part of the window up to `now` is a window that ends now
    rw [if_pos hin]
    have hpart : within last w times = within now (w - (last - now)) times := by
      refine List.countP_congr fun time htime => ?_
      have htime' := hpast time htime
      simp only [decide_eq_true_eq]
      omega
    have hbound : ¬ burst + (w - (last - now)) / interval <
        within now (w - (last - now)) times + 1 := by
      intro hlt
      exact hroom ((exceeds_iff hinterval hburst hsorted hpast).mpr ⟨_, hlt⟩)
    have hmono : (w - (last - now)) / interval ≤ w / interval :=
      Nat.div_le_div_right (Nat.sub_le _ _)
    rw [hpart]
    omega
  · rw [if_neg hin]
    exact h last w

end Detent.Lib.TokenBucket
