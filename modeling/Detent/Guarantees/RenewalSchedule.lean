import Mathlib.Algebra.Group.Int.Defs
import Detent.Source.Acme

/-!
# The renewal schedule

`should_renew_in_window` floors a percentage of the lifetime, `due_at` rounds an offset
up. The floor reaches 66 exactly where the elapsed time reaches that offset
(`percent_reaches_iff`), so both name one second, for every pair of timestamps up to a
lifetime of `i64::MAX` and for every window.
-/
namespace Detent.Guarantees.RenewalSchedule
open Source.Acme

/-- A value of `i64`. -/
def IsI64 (n : Int) : Prop := -9223372036854775808 ≤ n ∧ n ≤ 9223372036854775807

/-- A value of `i128`. -/
def FitsI128 (n : Int) : Prop := -2 ^ 127 ≤ n ∧ n < 2 ^ 127

/-- The results of the unchecked operators of `percent_used`, and of the saturating
`i128` ones of `due_at`, before any limit is applied. -/
def wideResults (notBefore notAfter now : Int) : List Int :=
  let elapsed := max (saturatingSub now notBefore) 0
  let total := notAfter - notBefore
  [total, elapsed * 100, elapsed * 100 / total, total * 66, total * 66 + 99, (total * 66 + 99) / 100]

section Schedule

variable {notBefore notAfter now : Int} {window : Option Window}

theorem wideResults_fit (hbefore : IsI64 notBefore) (hafter : IsI64 notAfter)
    (hlifetime : notBefore < notAfter) : ∀ n ∈ wideResults notBefore notAfter now, FitsI128 n := by
  unfold IsI64 at hbefore hafter
  have hsub : IsI64 (saturatingSub now notBefore) := by
    unfold IsI64 saturatingSub clampI64
    omega
  unfold IsI64 at hsub
  have htotal : 1 ≤ notAfter - notBefore := by omega
  have helapsed : 0 ≤ max (saturatingSub now notBefore) 0 * 100 := by omega
  have hquotient := Int.ediv_le_self (notAfter - notBefore) helapsed
  have hnonneg := Int.ediv_nonneg helapsed (by omega : 0 ≤ notAfter - notBefore)
  intro n hn
  simp only [wideResults, List.mem_cons, List.not_mem_nil, or_false] at hn
  unfold FitsI128
  rcases hn with rfl | rfl | rfl | rfl | rfl | rfl <;> omega

/-- The floored percentage reaches 66 where the elapsed time reaches 66 percent of the
lifetime, rounded up. -/
theorem percent_reaches_iff {elapsed total : Int} (htotal : 0 < total) :
    66 ≤ elapsed * 100 / total ↔ (total * 66 + 99) / 100 ≤ elapsed := by
  rw [Int.le_ediv_iff_mul_le htotal]
  omega

/-- Two thirds of the lifetime are used from the second on that `due_at` computes. -/
theorem used_iff (hbefore : IsI64 notBefore) (hafter : IsI64 notAfter) (hnow : IsI64 now)
    (hlifetime : notAfter - notBefore ≤ 9223372036854775807) :
    66 ≤ percentUsed notBefore notAfter now ↔ dueAt notBefore notAfter none ≤ now := by
  unfold IsI64 at hbefore hafter hnow
  by_cases hbroken : notAfter ≤ notBefore
  · simp only [percentUsed, dueAt, if_pos hbroken]
    omega
  · have htotal : 0 < notAfter - notBefore := by omega
    have hpercent : 66 ≤ percentUsed notBefore notAfter now ↔
        66 ≤ max (saturatingSub now notBefore) 0 * 100 / (notAfter - notBefore) := by
      simp only [percentUsed, if_neg hbroken]
      omega
    rw [hpercent, percent_reaches_iff htotal]
    -- the offset is positive and no longer than the lifetime, so nothing saturates
    have hdue : dueAt notBefore notAfter none =
        notBefore + ((notAfter - notBefore) * 66 + 99) / 100 := by
      simp only [dueAt, if_neg hbroken, saturatingAdd, clampI64]
      omega
    rw [hdue]
    unfold saturatingSub clampI64
    omega

theorem dueAt_some (window : Window) (h : ¬ notAfter ≤ notBefore) :
    dueAt notBefore notAfter (some window) = min window.1 (dueAt notBefore notAfter none) := by
  simp only [dueAt, if_neg h]

/-- The window only moves the moment forward. -/
theorem shouldRenew_iff (hbefore : IsI64 notBefore) (hafter : IsI64 notAfter) (hnow : IsI64 now)
    (hlifetime : notAfter - notBefore ≤ 9223372036854775807) :
    shouldRenewInWindow notBefore notAfter now window = true ↔
      dueAt notBefore notAfter window ≤ now := by
  have hused := used_iff hbefore hafter hnow hlifetime
  cases window with
  | none => simpa only [shouldRenewInWindow, decide_eq_true_eq] using hused
  | some window =>
    simp only [shouldRenewInWindow, Bool.or_eq_true, decide_eq_true_eq]
    rw [hused]
    by_cases hbroken : notAfter ≤ notBefore
    · have hdue : ∀ w, dueAt notBefore notAfter w = -9223372036854775808 := fun w => by
        simp only [dueAt, if_pos hbroken]
      rw [hdue, hdue]
      unfold IsI64 at hnow
      omega
    · rw [dueAt_some window hbroken]
      omega

/-- For every lifetime up to `i64::MAX`, every window and every instant, the predicate
is true exactly from `due_at` on, no wide result overflows, and the answer stays true. -/
theorem schedule_agrees (hbefore : IsI64 notBefore) (hafter : IsI64 notAfter) (hnow : IsI64 now)
    (hlifetime : notAfter - notBefore ≤ 9223372036854775807) :
    (shouldRenewInWindow notBefore notAfter now window = true ↔
      dueAt notBefore notAfter window ≤ now) ∧
    (notBefore < notAfter → ∀ n ∈ wideResults notBefore notAfter now, FitsI128 n) ∧
    ∀ later, IsI64 later → now ≤ later →
      shouldRenewInWindow notBefore notAfter now window = true →
        shouldRenewInWindow notBefore notAfter later window = true := by
  have hiff : shouldRenewInWindow notBefore notAfter now window = true ↔
      dueAt notBefore notAfter window ≤ now := shouldRenew_iff hbefore hafter hnow hlifetime
  refine ⟨hiff, wideResults_fit hbefore hafter, ?_⟩
  intro later hlater hle htrue
  rw [shouldRenew_iff hbefore hafter hlater hlifetime]
  exact Int.le_trans (hiff.mp htrue) hle

/-- A lifetime of ninety days, at its two thirds. -/
theorem ninety_days_agree :
    (shouldRenewInWindow 0 7776000 5132160 none = true ↔ dueAt 0 7776000 none ≤ 5132160) ∧
    ((0 : Int) < 7776000 → ∀ n ∈ wideResults 0 7776000 5132160, FitsI128 n) ∧
    ∀ later, IsI64 later → 5132160 ≤ later →
      shouldRenewInWindow 0 7776000 5132160 none = true →
        shouldRenewInWindow 0 7776000 later none = true :=
  schedule_agrees (by unfold IsI64; omega) (by unfold IsI64; omega) (by unfold IsI64; omega)
    (by omega)

end Schedule

end Detent.Guarantees.RenewalSchedule
