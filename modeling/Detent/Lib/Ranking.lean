import Mathlib.Data.List.Basic
import Mathlib.Order.Lattice
import Mathlib.Tactic.Common

/-!
# Ranked lists

Lists with the highest key first and no two keys alike: the first item that satisfies a
condition is the best of those that do, and there is one way only to rank a collection.
-/
namespace Detent.Lib

variable {α β : Type} [LinearOrder β] (key : α → β)

/-- Every item has a higher key than those after it. -/
def Ranked (items : List α) : Prop := items.Pairwise (fun a b => key b < key a)

/-- The item that satisfies `p` and has the highest key of those that do. -/
def Best (items : List α) (p : α → Prop) (a : α) : Prop :=
  a ∈ items ∧ p a ∧ ∀ b ∈ items, p b → key b ≤ key a

variable {key} {items others : List α} {p q : α → Prop} {a b : α}

theorem Best.congr (hmem : ∀ a, p a ∨ q a → (a ∈ items ↔ a ∈ others))
    (hiff : ∀ a ∈ items, p a ↔ q a) : Best key items p a ↔ Best key others q a := by
  constructor
  · rintro ⟨ha, hp, hbest⟩
    refine ⟨(hmem a (.inl hp)).mp ha, (hiff a ha).mp hp, fun b hb hq => ?_⟩
    have hb' := (hmem b (.inr hq)).mpr hb
    exact hbest b hb' ((hiff b hb').mpr hq)
  · rintro ⟨ha, hq, hbest⟩
    have ha' := (hmem a (.inr hq)).mpr ha
    refine ⟨ha', (hiff a ha').mpr hq, fun b hb hp => ?_⟩
    exact hbest b ((hmem b (.inl hp)).mp hb) ((hiff b hb).mp hp)

/-- A list with an item that satisfies `p` has a best one. -/
theorem exists_best (h : ∃ a ∈ items, p a) : ∃ a, Best key items p a := by
  induction items with
  | nil => simp at h
  | cons first rest ih =>
    by_cases hrest : ∃ a ∈ rest, p a
    · obtain ⟨a, ha, hp, hbest⟩ := ih hrest
      by_cases hfirst : p first ∧ key a < key first
      · refine ⟨first, by simp, hfirst.1, List.forall_mem_cons.mpr ⟨fun _ => le_refl _, ?_⟩⟩
        intro b hb hpb
        exact le_trans (hbest b hb hpb) (le_of_lt hfirst.2)
      · refine ⟨a, by simp [ha], hp, List.forall_mem_cons.mpr ⟨fun hpfirst => ?_, hbest⟩⟩
        exact le_of_not_gt fun hlt => hfirst ⟨hpfirst, hlt⟩
    · obtain ⟨a, ha, hp⟩ := h
      have hnone : ∀ b ∈ rest, ¬ p b := fun b hb hpb => hrest ⟨b, hb, hpb⟩
      rcases List.mem_cons.mp ha with rfl | ha
      · refine ⟨a, by simp, hp, List.forall_mem_cons.mpr ⟨fun _ => le_refl _, ?_⟩⟩
        intro b hb hpb
        exact absurd hpb (hnone b hb)
      · exact absurd hp (hnone a ha)

/-- An item that satisfies `p` at the head of a ranked list is the only best one. -/
theorem Ranked.best_head (h : Ranked key (a :: items)) (hp : p a) :
    Best key (a :: items) p b ↔ b = a := by
  obtain ⟨hhead, -⟩ := List.pairwise_cons.mp h
  constructor
  · rintro ⟨hb, -, hbest⟩
    rcases List.mem_cons.mp hb with rfl | hb
    · rfl
    · exact absurd (hbest a (by simp) hp) (not_le_of_gt (hhead b hb))
  · rintro rfl
    refine ⟨by simp, hp, List.forall_mem_cons.mpr ⟨fun _ => le_refl _, ?_⟩⟩
    exact fun c hc _ => le_of_lt (hhead c hc)

/-- One that does not is none. -/
theorem best_tail (hp : ¬ p a) : Best key (a :: items) p b ↔ Best key items p b := by
  constructor
  · rintro ⟨hb, hpb, hbest⟩
    rcases List.mem_cons.mp hb with rfl | hb
    · exact absurd hpb hp
    · exact ⟨hb, hpb, fun c hc => hbest c (by simp [hc])⟩
  · rintro ⟨hb, hpb, hbest⟩
    exact ⟨by simp [hb], hpb, List.forall_mem_cons.mpr ⟨fun hpa => absurd hpa hp, hbest⟩⟩

theorem Ranked.eq_of_perm (h : Ranked key items) (h' : Ranked key others)
    (hperm : items.Perm others) : items = others :=
  hperm.eq_of_pairwise (fun _ _ _ _ hlt hlt' => absurd hlt (lt_asymm hlt')) h h'

/-- Sorting by an order that puts no lower key first ranks items with different keys. -/
theorem ranked_mergeSort {le : α → α → Bool} (htrans : ∀ a b c, le a b → le b c → le a c)
    (htotal : ∀ a b, le a b || le b a) (hkey : ∀ a b, le a b = true → key b ≤ key a)
    (hdistinct : (items.map key).Nodup) : Ranked key (items.mergeSort le) := by
  have hsorted := List.pairwise_mergeSort htrans htotal items
  have hnodup : ((items.mergeSort le).map key).Nodup :=
    (((List.mergeSort_perm items le).map key).nodup_iff).mpr hdistinct
  rw [List.nodup_iff_pairwise_ne, List.pairwise_map] at hnodup
  exact (hsorted.and hnodup).imp fun hboth => lt_of_le_of_ne (hkey _ _ hboth.1) (Ne.symm hboth.2)

end Detent.Lib
