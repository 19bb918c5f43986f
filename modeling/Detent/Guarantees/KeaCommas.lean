import Mathlib.Data.List.Count
import Detent.Guarantees.KeaJson

/-!
# Commas of a Kea list

What a pass over a list does to its commas. Entries keep theirs, so that a list ends in a comma
after a pass exactly where it did before, or where its last entry goes and nothing comes after
it: only an appended entry sets the comma before it and has none of its own.
-/
namespace Detent.Guarantees.KeaCommas
open Lib Lib.Text Source.Dhcp Source.Doc
open KeaTrees KeaJson
open List (cons_append eq_nil_or_concat' forall_mem_cons length_cons length_pos_iff)

/-! ## Lists of commas -/

/-- A comma behind the last. -/
def Trailing (cs : List Text) : Prop := cs ≠ [] ∧ ∀ c ∈ cs, c = [',']

variable {cs : List Text} {item : ArrItem}

theorem separated_snoc {c : Text} :
    Separated (cs ++ [c]) ↔ (∀ d ∈ cs, d = [',']) ∧ (c = [] ∨ c = [',']) := by
  induction cs with
  | nil => simp [Separated]
  | cons d cs ih =>
    cases cs with
    | nil => simp [Separated]
    | cons e cs =>
      rw [cons_append, cons_append, Separated, ← cons_append, ih]
      simp only [forall_mem_cons, and_assoc]

theorem exact_snoc {c : Text} : Exact (cs ++ [c]) ↔ (∀ d ∈ cs, d = [',']) ∧ c = [] := by
  induction cs with
  | nil => simp [Exact]
  | cons d cs ih =>
    cases cs with
    | nil => simp [Exact]
    | cons e cs =>
      rw [cons_append, cons_append, Exact, ← cons_append, ih]
      simp only [forall_mem_cons, and_assoc]

/-- Of the lists that the parser and the edits build, those that end in no comma are JSON's. -/
theorem exact_iff_not_trailing (h : Separated cs) : Exact cs ↔ ¬ Trailing cs := by
  rcases eq_nil_or_concat' cs with rfl | ⟨init, c, rfl⟩
  · simp [Exact, Trailing]
  · obtain ⟨hinit, hc⟩ := separated_snoc.mp h
    rw [exact_snoc]
    constructor
    · rintro ⟨-, rfl⟩ ⟨-, hall⟩
      cases hall [] (by simp)
    · intro hnot
      refine ⟨hinit, hc.resolve_right fun hcomma => hnot ⟨by simp, ?_⟩⟩
      intro d hd
      rcases List.mem_append.mp hd with hd | hd
      · exact hinit d hd
      · rw [List.mem_singleton.mp hd, hcomma]

theorem trailing_snoc {c : Text} (h : ∀ d ∈ cs, d = [',']) : Trailing (cs ++ [c]) ↔ c = [','] := by
  constructor
  · exact fun htrailing => htrailing.2 c (by simp)
  · rintro rfl
    refine ⟨by simp, fun d hd => ?_⟩
    rcases List.mem_append.mp hd with hd | hd
    · exact h d hd
    · exact List.mem_singleton.mp hd

theorem separated_of_all (h : ∀ d ∈ cs, d = [',']) : Separated cs := by
  rcases eq_nil_or_concat' cs with rfl | ⟨init, c, rfl⟩
  · trivial
  · exact separated_snoc.mpr ⟨fun d hd => h d (by simp [hd]), .inr (h c (by simp))⟩

/-- What is left when some are dropped. -/
theorem separated_sublist {ds : List Text} (h : Separated cs) (hsub : ds.Sublist cs) :
    Separated ds := by
  induction hsub with
  | slnil => exact h
  | cons c hsub ih => exact ih (separated_tail h)
  | @cons_cons ds cs c hsub ih =>
    have hrest := ih (separated_tail h)
    cases ds with
    | nil => exact separated_mem h c (by simp)
    | cons d ds =>
      cases cs with
      | nil => cases hsub
      | cons e cs => exact ⟨h.1, hrest⟩

/-! ## Appended items -/

def commas (items : List ArrItem) : List Text := items.map ArrItem.comma

theorem commas_append (a b : List ArrItem) : commas (a ++ b) = commas a ++ commas b :=
  List.map_append

theorem setLastItemComma_snoc (items : List ArrItem) (last : ArrItem) :
    setLastItemComma (items ++ [last]) = items ++ [{ last with comma := [','] }] := by
  induction items with
  | nil => rfl
  | cons item items ih =>
    cases items with
    | nil => rfl
    | cons second items =>
      rw [cons_append, cons_append, setLastItemComma, ← cons_append, ih]
      · rfl
      · simp

theorem all_setLastItemComma {items : List ArrItem} (h : Separated (commas items)) :
    ∀ c ∈ commas (setLastItemComma items), c = [','] := by
  rcases eq_nil_or_concat' items with rfl | ⟨init, last, rfl⟩
  · nofun
  · rw [commas_append] at h
    rw [setLastItemComma_snoc, commas_append]
    intro c hc
    rcases List.mem_append.mp hc with hc | hc
    · exact (separated_snoc.mp h).1 c hc
    · exact List.mem_singleton.mp hc

/-- With an item appended, no comma is missing or too many. -/
theorem exact_appended {items : List ArrItem} (h : Separated (commas items))
    (hitem : item.comma = []) : Exact (commas (setLastItemComma items ++ [item])) := by
  rw [commas_append]
  exact exact_snoc.mpr ⟨all_setLastItemComma h, hitem⟩

theorem appendItems_exact (report : EditReport) {fresh : List ArrItem}
    (hfresh : ∀ item ∈ fresh, item.comma = []) {items : List ArrItem}
    (h : Separated (commas items)) (hne : fresh ≠ []) :
    Exact (commas (appendItems items fresh report).1) := by
  induction fresh generalizing items report with
  | nil => exact absurd rfl hne
  | cons item fresh ih =>
    have hstep := exact_appended h (hfresh item (by simp))
    cases fresh with
    | nil => exact hstep
    | cons second fresh =>
      exact ih _ (fun i hi => hfresh i (List.mem_cons_of_mem _ hi)) (separated_of_exact hstep)
        (List.cons_ne_nil _ _)

theorem length_appendItems (items fresh : List ArrItem) (report : EditReport) :
    (appendItems items fresh report).1.length = items.length + fresh.length := by
  have hset : ∀ items : List ArrItem, (setLastItemComma items).length = items.length := by
    intro items
    rcases eq_nil_or_concat' items with rfl | ⟨init, last, rfl⟩
    · rfl
    · rw [setLastItemComma_snoc]
      simp
  induction fresh generalizing items report with
  | nil => rfl
  | cons item fresh ih =>
    rw [appendItems, ih, List.length_append, hset]
    simp only [length_cons, List.length_nil]
    omega

/-- The values in front, and the appended ones behind. -/
theorem values_appendItems (items fresh : List ArrItem) (report : EditReport) :
    (appendItems items fresh report).1.map ArrItem.value =
      items.map ArrItem.value ++ fresh.map ArrItem.value := by
  have hset : ∀ items : List ArrItem,
      (setLastItemComma items).map ArrItem.value = items.map ArrItem.value := by
    intro items
    rcases eq_nil_or_concat' items with rfl | ⟨init, last, rfl⟩
    · rfl
    · rw [setLastItemComma_snoc]
      simp
  induction fresh generalizing items report with
  | nil => simp [appendItems]
  | cons item fresh ih =>
    rw [appendItems, ih, List.map_append, hset]
    simp

/-- An append changes commas only, so what does not ask about them holds of old and new
items alike. -/
theorem forall_appendItems {p : ArrItem → Prop}
    (hp : ∀ item : ArrItem, p { item with comma := [','] } ↔ p item) (items fresh : List ArrItem)
    (report : EditReport) :
    (∀ item ∈ (appendItems items fresh report).1, p item) ↔
      (∀ item ∈ items, p item) ∧ ∀ item ∈ fresh, p item := by
  have hset : ∀ items : List ArrItem,
      (∀ item ∈ setLastItemComma items, p item) ↔ ∀ item ∈ items, p item := by
    intro items
    rcases eq_nil_or_concat' items with rfl | ⟨init, last, rfl⟩
    · rfl
    · rw [setLastItemComma_snoc]
      simp only [List.forall_mem_append, List.forall_mem_singleton]
      exact and_congr_right fun _ => hp last
  induction fresh generalizing items report with
  | nil => simp [appendItems]
  | cons item fresh ih =>
    refine (ih _ _).trans ?_
    have hone : (∀ i ∈ [item], p i) ↔ p item := List.forall_mem_singleton
    rw [List.forall_mem_append, hset, hone, forall_mem_cons, and_assoc]

/-! ## One pass -/

/-- How many items a pass takes for its entries. -/
def entries (modeled : Jsonc → Bool) (items : List ArrItem) : Nat :=
  items.countP (fun item => modeled item.value)

/-- Whether the last item is an entry. -/
def EndsIn (modeled : Jsonc → Bool) (items : List ArrItem) : Prop :=
  ∃ item ∈ items.getLast?, modeled item.value = true

theorem entries_eq_values (modeled : Jsonc → Bool) (items : List ArrItem) :
    entries modeled items = (items.map ArrItem.value).countP modeled :=
  (List.countP_map ..).symm

theorem endsIn_eq_values (modeled : Jsonc → Bool) (items : List ArrItem) :
    EndsIn modeled items ↔ ∃ value ∈ (items.map ArrItem.value).getLast?, modeled value = true := by
  rw [List.getLast?_map]
  cases h : items.getLast? <;> simp [EndsIn, h]

section Pass

variable {P : Type} {modeled : Jsonc → Bool} {rewrite : Jsonc → P → EditReport → Jsonc × EditReport}
  {render : P → Jsonc}

theorem syncLoop_skip (items : List ArrItem) (wanted : List P) (report : EditReport)
    (h : modeled item.value = false) :
    syncLoop modeled rewrite (item :: items) wanted report =
      (item :: (syncLoop modeled rewrite items wanted report).1,
        (syncLoop modeled rewrite items wanted report).2) := by
  rw [syncLoop.eq_def]
  simp [h]

theorem syncLoop_drop (items : List ArrItem) (report : EditReport) (h : modeled item.value = true) :
    syncLoop modeled rewrite (item :: items) [] report =
      syncLoop modeled rewrite items [] (EditReport.shrunk report) := by
  rw [syncLoop.eq_def]
  simp [h]

theorem syncLoop_match (items : List ArrItem) (entry : P) (wanted : List P) (report : EditReport)
    (h : modeled item.value = true) :
    syncLoop modeled rewrite (item :: items) (entry :: wanted) report =
      ({ item with value := (rewrite item.value entry report).1 } ::
        (syncLoop modeled rewrite items wanted (rewrite item.value entry report).2).1,
        (syncLoop modeled rewrite items wanted (rewrite item.value entry report).2).2) := by
  rw [syncLoop.eq_def]
  simp [h]

theorem entries_cons (item : ArrItem) (items : List ArrItem) :
    entries modeled (item :: items) =
      entries modeled items + if modeled item.value then 1 else 0 := List.countP_cons

theorem entries_append (a b : List ArrItem) :
    entries modeled (a ++ b) = entries modeled a + entries modeled b := List.countP_append

theorem syncLoop_append (a b : List ArrItem) (wanted : List P) (report : EditReport) :
    syncLoop modeled rewrite (a ++ b) wanted report =
      let first := syncLoop modeled rewrite a wanted report
      let second := syncLoop modeled rewrite b first.2.1 first.2.2
      (first.1 ++ second.1, second.2) := by
  induction a generalizing wanted report with
  | nil => rfl
  | cons item a ih =>
    rw [cons_append]
    cases hmodeled : modeled item.value with
    | false =>
      rw [syncLoop_skip _ _ _ hmodeled, syncLoop_skip _ _ _ hmodeled, ih]
      rfl
    | true =>
      cases wanted with
      | nil => rw [syncLoop_drop _ _ hmodeled, syncLoop_drop _ _ hmodeled, ih]
      | cons entry wanted =>
        rw [syncLoop_match _ _ _ _ hmodeled, syncLoop_match _ _ _ _ hmodeled, ih]
        rfl

theorem left_syncLoop (items : List ArrItem) (wanted : List P) (report : EditReport) :
    (syncLoop modeled rewrite items wanted report).2.1 = wanted.drop (entries modeled items) := by
  induction items generalizing wanted report with
  | nil => rfl
  | cons item items ih =>
    rw [entries_cons]
    cases hmodeled : modeled item.value with
    | false =>
      rw [syncLoop_skip _ _ _ hmodeled]
      exact ih wanted report
    | true =>
      cases wanted with
      | nil =>
        rw [syncLoop_drop _ _ hmodeled, ih]
        simp
      | cons entry wanted =>
        rw [syncLoop_match _ _ _ _ hmodeled]
        exact ih wanted _

variable (modeled rewrite) in
theorem length_syncLoop (items : List ArrItem) (wanted : List P) (report : EditReport) :
    (syncLoop modeled rewrite items wanted report).1.length +
      (entries modeled items - wanted.length) = items.length := by
  induction items generalizing wanted report with
  | nil => simp [syncLoop, entries]
  | cons item items ih =>
    rw [entries_cons]
    cases hmodeled : modeled item.value with
    | false =>
      have := ih wanted report
      rw [syncLoop_skip _ _ _ hmodeled]
      simp only [length_cons, Bool.false_eq_true, if_false]
      omega
    | true =>
      cases wanted with
      | nil =>
        have := ih [] (EditReport.shrunk report)
        rw [syncLoop_drop _ _ hmodeled]
        simp only [length_cons, List.length_nil, if_true] at this ⊢
        omega
      | cons entry wanted =>
        have := ih wanted (rewrite item.value entry report).2
        rw [syncLoop_match _ _ _ _ hmodeled]
        simp only [length_cons, if_true]
        omega

variable (modeled rewrite) in
theorem commas_syncLoop (items : List ArrItem) (wanted : List P) (report : EditReport) :
    (commas (syncLoop modeled rewrite items wanted report).1).Sublist (commas items) := by
  induction items generalizing wanted report with
  | nil => exact .slnil
  | cons item items ih =>
    cases hmodeled : modeled item.value with
    | false =>
      rw [syncLoop_skip _ _ _ hmodeled]
      exact (ih wanted report).cons_cons _
    | true =>
      cases wanted with
      | nil =>
        rw [syncLoop_drop _ _ hmodeled]
        exact (ih [] _).cons _
      | cons entry wanted =>
        rw [syncLoop_match _ _ _ _ hmodeled]
        exact (ih wanted _).cons_cons _

variable (modeled rewrite render) in
/-- The result of a pass, with the appended entries. -/
theorem syncItems_fst (items : List ArrItem) (wanted : List P) (report : EditReport) :
    ∃ report', (syncItems modeled rewrite render items wanted report).1 =
      (appendItems (syncLoop modeled rewrite items wanted report).1
        ((wanted.drop (entries modeled items)).map (fun entry => freshItem (render entry)))
          report').1 := by
  refine ⟨(syncLoop modeled rewrite items wanted report).2.2, ?_⟩
  rw [← left_syncLoop items wanted report]
  rfl

variable (modeled rewrite render) in
theorem length_syncItems (items : List ArrItem) (wanted : List P) (report : EditReport) :
    (syncItems modeled rewrite render items wanted report).1.length + entries modeled items =
      items.length + wanted.length := by
  obtain ⟨report', hfst⟩ := syncItems_fst modeled rewrite render items wanted report
  have hloop := length_syncLoop modeled rewrite items wanted report
  have hentries : entries modeled items ≤ items.length := List.countP_le_length
  rw [hfst, length_appendItems, List.length_map, List.length_drop]
  omega

theorem comma_fresh {wanted : List P} {n : Nat} :
    ∀ item ∈ (wanted.drop n).map (fun entry => freshItem (render entry)), item.comma = [] := by
  intro item hitem
  obtain ⟨entry, -, rfl⟩ := List.mem_map.mp hitem
  rfl

variable (modeled rewrite render) in
theorem separated_syncItems {items : List ArrItem} (h : Separated (commas items)) (wanted : List P)
    (report : EditReport) :
    Separated (commas (syncItems modeled rewrite render items wanted report).1) := by
  obtain ⟨report', hfst⟩ := syncItems_fst modeled rewrite render items wanted report
  have hloop := separated_sublist h (commas_syncLoop modeled rewrite items
    wanted report)
  rw [hfst]
  by_cases hnil :
    (wanted.drop (entries modeled items)).map (fun entry => freshItem (render entry)) = []
  · rw [hnil]
    exact hloop
  · exact separated_of_exact (appendItems_exact report' comma_fresh hloop hnil)

theorem endsIn_snoc {items : List ArrItem} {last : ArrItem} :
    EndsIn modeled (items ++ [last]) ↔ modeled last.value = true := by simp [EndsIn]

variable (rewrite) in
/-- What is left of the last item: nothing, where it is an entry with no partner. -/
theorem syncLoop_last (items : List ArrItem) (last : ArrItem) (wanted : List P)
    (report : EditReport) :
    ∃ rest, (syncLoop modeled rewrite (items ++ [last]) wanted report).1 =
        (syncLoop modeled rewrite items wanted report).1 ++ rest ∧
      (modeled last.value = true ∧ wanted.length < entries modeled (items ++ [last]) → rest = []) ∧
      (¬ (modeled last.value = true ∧ wanted.length < entries modeled (items ++ [last])) →
        ∃ value, rest = [{ last with value }] ∧
          (modeled last.value = false → value = last.value) ∧
          (modeled last.value = true →
            ∃ entry report, value = (rewrite last.value entry report).1)) := by
  rw [syncLoop_append]
  dsimp only
  rw [left_syncLoop, entries_append]
  have hentries : entries modeled [last] = if modeled last.value then 1 else 0 := by
    simp [entries, List.countP_cons]
  rw [hentries]
  generalize (syncLoop modeled rewrite items wanted report).2.2 = report'
  refine ⟨_, rfl, ?_, ?_⟩
  · rintro ⟨hmodeled, hlt⟩
    rw [if_pos hmodeled] at hlt
    have hnone : wanted.drop (entries modeled items) = [] := List.drop_eq_nil_of_le (by omega)
    rw [hnone, syncLoop_drop _ _ hmodeled]
    simp [syncLoop]
  · intro hstays
    cases hmodeled : modeled last.value with
    | false =>
      rw [syncLoop_skip _ _ _ hmodeled]
      refine ⟨last.value, ?_, fun _ => rfl, by simp⟩
      cases last
      simp [syncLoop]
    | true =>
      rw [hmodeled, if_pos rfl] at hstays
      cases hleft : wanted.drop (entries modeled items) with
      | nil =>
        have := List.drop_eq_nil_iff.mp hleft
        exact absurd ⟨rfl, by omega⟩ hstays
      | cons entry left =>
        rw [syncLoop_match _ _ _ _ hmodeled]
        exact ⟨_, by simp [syncLoop], by simp, fun _ => ⟨entry, report', rfl⟩⟩

/-- With no entry appended, a pass is its loop. -/
theorem syncItems_loop {items : List ArrItem} {wanted : List P}
    (h : wanted.length ≤ entries modeled items) (report : EditReport) :
    (syncItems modeled rewrite render items wanted report).1 =
      (syncLoop modeled rewrite items wanted report).1 := by
  obtain ⟨report', hfst⟩ := syncItems_fst modeled rewrite render items wanted report
  rw [hfst, List.drop_eq_nil_of_le h]
  rfl

variable (modeled rewrite render) in
theorem trailing_syncItems {items : List ArrItem} (h : Separated (commas items)) (wanted : List P)
    (report : EditReport) :
    Trailing (commas (syncItems modeled rewrite render items wanted report).1) ↔
      wanted.length ≤ entries modeled items ∧
      (syncItems modeled rewrite render items wanted report).1 ≠ [] ∧
      (Trailing (commas items) ∨ wanted.length < entries modeled items ∧ EndsIn modeled items) := by
  rcases Nat.lt_or_ge (entries modeled items) wanted.length with hmore | hfew
  · obtain ⟨report', hfst⟩ := syncItems_fst modeled rewrite render items wanted report
    have hloop := separated_sublist h (commas_syncLoop modeled rewrite items wanted report)
    have hne : (wanted.drop (entries modeled items)).map (fun entry => freshItem (render entry)) ≠
        [] := by
      simp only [ne_eq, List.map_eq_nil_iff, List.drop_eq_nil_iff]
      omega
    have hexact := appendItems_exact report' comma_fresh hloop hne
    rw [← hfst] at hexact
    have hnot := (exact_iff_not_trailing (separated_of_exact hexact)).mp hexact
    exact ⟨fun htrailing => absurd htrailing hnot, fun hle => absurd hle.1 (by omega)⟩
  · rw [syncItems_loop hfew]
    rcases eq_nil_or_concat' items with rfl | ⟨init, last, rfl⟩
    · simp [syncLoop, commas, Trailing]
    · rw [commas_append] at h
      obtain ⟨hinit, -⟩ := separated_snoc.mp h
      have hkept : ∀ c ∈ commas (syncLoop modeled rewrite init wanted report).1, c = [','] :=
        fun c hc => hinit c ((commas_syncLoop modeled rewrite init wanted report).subset hc)
      obtain ⟨rest, hloop, hgone, hstays⟩ := syncLoop_last rewrite init last wanted report
      rw [hloop, commas_append init, endsIn_snoc]
      by_cases hdrop : modeled last.value = true ∧ wanted.length < entries modeled (init ++ [last])
      · rw [hgone hdrop, List.append_nil]
        constructor
        · exact fun htrailing => ⟨hfew, fun hnil => htrailing.1 (by rw [hnil]; rfl),
            .inr ⟨hdrop.2, hdrop.1⟩⟩
        · exact fun hne => ⟨fun hnil => hne.2.1 (List.map_eq_nil_iff.mp hnil), hkept⟩
      · obtain ⟨value, rfl, -, -⟩ := hstays hdrop
        rw [commas_append]
        have hlast := trailing_snoc (c := last.comma) hkept
        have hbefore := trailing_snoc (c := last.comma) hinit
        constructor
        · exact fun htrailing => ⟨hfew, by simp, .inl (hbefore.mpr (hlast.mp htrailing))⟩
        · rintro ⟨-, -, htrailing | hdropped⟩
          · exact hlast.mpr (hbefore.mp htrailing)
          · exact absurd hdropped.symm hdrop

/-- The items fit after a pass where the appended values do and each entry's rewriting does. -/
theorem fit_syncLoop_iff {R : Rules} {Q : Jsonc → P → Prop} {items : List ArrItem}
    (hitems : ∀ item ∈ items, ItemFits R item)
    (hrewrite : ∀ item ∈ items, modeled item.value = true → ∀ entry report,
      (ValueFits R (rewrite item.value entry report).1 ↔ Q item.value entry))
    (wanted : List P) (report : EditReport) :
    (∀ item ∈ (syncLoop modeled rewrite items wanted report).1, ItemFits R item) ↔
      ∀ pair ∈ ((items.map ArrItem.value).filter modeled).zip wanted, Q pair.1 pair.2 := by
  induction items generalizing wanted report with
  | nil => simp [syncLoop]
  | cons item items ih =>
    obtain ⟨hitem, hitems⟩ := forall_mem_cons.mp hitems
    obtain ⟨hfirst, hrest⟩ := forall_mem_cons.mp hrewrite
    cases hmodeled : modeled item.value with
    | false =>
      rw [syncLoop_skip _ _ _ hmodeled, forall_mem_cons, ih hitems hrest, List.map_cons,
        List.filter_cons_of_neg (by simp [hmodeled])]
      exact ⟨fun h => h.2, fun h => ⟨hitem, h⟩⟩
    | true =>
      rw [List.map_cons, List.filter_cons_of_pos hmodeled]
      cases wanted with
      | nil =>
        rw [syncLoop_drop _ _ hmodeled, ih hitems hrest]
        simp
      | cons entry wanted =>
        rw [syncLoop_match _ _ _ _ hmodeled, forall_mem_cons, ih hitems hrest,
          List.zip_cons_cons,
          forall_mem_cons]
        have hvalue := hfirst hmodeled entry report
        exact and_congr ⟨fun h => hvalue.mp h.2, fun h => ⟨hitem.1, hvalue.mpr h⟩⟩ Iff.rfl

theorem fit_syncItems_iff {R : Rules} {Q : Jsonc → P → Prop} {items : List ArrItem}
    (hitems : ∀ item ∈ items, ItemFits R item)
    (hrewrite : ∀ item ∈ items, modeled item.value = true → ∀ entry report,
      (ValueFits R (rewrite item.value entry report).1 ↔ Q item.value entry))
    (hrender : ∀ entry, ValueFits R (render entry)) (wanted : List P) (report : EditReport) :
    (∀ item ∈ (syncItems modeled rewrite render items wanted report).1, ItemFits R item) ↔
      ∀ pair ∈ ((items.map ArrItem.value).filter modeled).zip wanted, Q pair.1 pair.2 := by
  obtain ⟨report', hfst⟩ := syncItems_fst modeled rewrite render items wanted report
  rw [hfst, forall_appendItems (fun _ => Iff.rfl), fit_syncLoop_iff hitems hrewrite]
  refine ⟨fun h => h.1, fun h => ⟨h, fun item hitem => ?_⟩⟩
  obtain ⟨entry, -, rfl⟩ := List.mem_map.mp hitem
  exact ⟨⟨JsonText.trivial_nil, JsonText.trivial_nil⟩, hrender entry⟩

section Other

variable {other : Jsonc → Bool}

/-- What another pass takes for its entries is neither an entry of this one nor becomes one. -/
structure Apart (modeled other : Jsonc → Bool)
    (rewrite : Jsonc → P → EditReport → Jsonc × EditReport) (render : P → Jsonc) : Prop where
  before : ∀ value, modeled value = true → other value = false
  after : ∀ value entry report, modeled value = true → other (rewrite value entry report).1 = false
  fresh : ∀ entry, other (render entry) = false

variable (h : Apart modeled other rewrite render)
include h

theorem entries_syncLoop (items : List ArrItem) (wanted : List P) (report : EditReport) :
    entries other (syncLoop modeled rewrite items wanted report).1 = entries other items := by
  induction items generalizing wanted report with
  | nil => rfl
  | cons item items ih =>
    cases hmodeled : modeled item.value with
    | false =>
      rw [syncLoop_skip _ _ _ hmodeled, entries_cons, entries_cons, ih]
    | true =>
      rw [entries_cons item, h.before _ hmodeled]
      cases wanted with
      | nil =>
        rw [syncLoop_drop _ _ hmodeled, ih]
        rfl
      | cons entry wanted =>
        rw [syncLoop_match _ _ _ _ hmodeled, entries_cons, ih]
        dsimp only
        rw [h.after _ _ _ hmodeled]

theorem entries_syncItems (items : List ArrItem) (wanted : List P) (report : EditReport) :
    entries other (syncItems modeled rewrite render items wanted report).1 =
      entries other items := by
  obtain ⟨report', hfst⟩ := syncItems_fst modeled rewrite render items wanted report
  rw [hfst, entries_eq_values, values_appendItems, List.countP_append, ← entries_eq_values,
    entries_syncLoop h, Nat.add_eq_left, List.countP_eq_zero]
  intro value hvalue
  simp only [List.mem_map] at hvalue
  obtain ⟨_, ⟨entry, -, rfl⟩, rfl⟩ := hvalue
  simpa [freshItem] using h.fresh entry

/-- No entry of the other pass stands last once this one appends. -/
theorem not_endsIn_of_appends (items : List ArrItem) (wanted : List P) (report : EditReport)
    (hmore : entries modeled items < wanted.length) :
    ¬ EndsIn other (syncItems modeled rewrite render items wanted report).1 := by
  obtain ⟨report', hfst⟩ := syncItems_fst modeled rewrite render items wanted report
  have hlast : (wanted.drop (entries modeled items)).getLast? = wanted.getLast? := by
    rw [List.getLast?_drop, if_neg (by omega)]
  rw [hfst, endsIn_eq_values, values_appendItems, List.map_map, List.getLast?_append,
    List.getLast?_map, hlast]
  cases hwanted : wanted.getLast? with
  | none =>
    rw [List.getLast?_eq_none_iff] at hwanted
    rw [hwanted] at hmore
    exact absurd hmore (Nat.not_lt_zero _)
  | some entry => simpa [freshItem] using h.fresh entry

/-- The entries of the other pass stay, none is added, and the list ends in one as before while
this pass neither appends nor drops the last item. -/
theorem endsIn_syncItems (items : List ArrItem) (wanted : List P) (report : EditReport)
    (hfew : wanted.length ≤ entries modeled items)
    (hlast : ¬ (wanted.length < entries modeled items ∧ EndsIn modeled items)) :
    EndsIn other (syncItems modeled rewrite render items wanted report).1 ↔ EndsIn other items := by
  rw [syncItems_loop hfew]
  rcases eq_nil_or_concat' items with rfl | ⟨init, last, rfl⟩
  · simp [syncLoop]
  · rw [endsIn_snoc] at hlast ⊢
    obtain ⟨rest, hloop, -, hstays⟩ := syncLoop_last rewrite init last wanted report
    obtain ⟨value, rfl, hkept, hrewritten⟩ := hstays (fun hdrop => hlast hdrop.symm)
    rw [hloop, endsIn_snoc]
    dsimp only
    cases hmodeled : modeled last.value with
    | false => rw [hkept hmodeled]
    | true =>
      obtain ⟨entry, report', rfl⟩ := hrewritten hmodeled
      rw [h.after _ _ _ hmodeled, h.before _ hmodeled]

omit h

end Other

end Pass

/-! ## Edits of a list -/

/-- A pass of an edit: what it takes for its entries, and how many are wanted. -/
structure Pass where
  modeled : Jsonc → Bool
  wanted : Nat

/-- A comma is left behind the last item: no pass appends, one drops the last item, and
another item stays. -/
structure LosesLast (passes : List Pass) (items : List ArrItem) : Prop where
  fits : ∀ pass ∈ passes, pass.wanted ≤ entries pass.modeled items
  drops : ∃ pass ∈ passes, pass.wanted < entries pass.modeled items ∧ EndsIn pass.modeled items
  stays : (∃ pass ∈ passes, 0 < pass.wanted) ∨
    ∃ item ∈ items, ∀ pass ∈ passes, pass.modeled item.value = false

/-- Items that neither of two passes takes. -/
theorem exists_other {modeled other : Jsonc → Bool}
    (h : ∀ value, modeled value = true → other value = false) (items : List ArrItem) :
    entries modeled items + entries other items ≤ items.length ∧
      ((∃ item ∈ items, modeled item.value = false ∧ other item.value = false) ↔
        entries modeled items + entries other items < items.length) := by
  induction items with
  | nil => simp [entries]
  | cons item items ih =>
    obtain ⟨hle, hiff⟩ := ih
    rw [entries_cons, entries_cons, length_cons]
    simp only [List.exists_mem_cons_iff, hiff]
    cases hmodeled : modeled item.value with
    | true =>
      rw [h _ hmodeled]
      simp only [if_true, Bool.false_eq_true, if_false, Bool.true_eq_false, false_and, false_or]
      omega
    | false =>
      cases hother : other item.value with
      | true =>
        simp only [if_true, Bool.false_eq_true, if_false, Bool.true_eq_false, and_false, false_or]
        omega
      | false =>
        simp only [Bool.false_eq_true, if_false, and_self, true_or, true_iff]
        omega

theorem exists_unmodeled (modeled : Jsonc → Bool) (items : List ArrItem) :
    (∃ item ∈ items, modeled item.value = false) ↔ entries modeled items < items.length :=
  List.countP_lt_length_iff.symm

theorem not_trailing_of_exact (h : Exact cs) : ¬ Trailing cs :=
  (exact_iff_not_trailing (separated_of_exact h)).mp h

section Edits

variable {P : Type} {modeled other : Jsonc → Bool}
  {rewrite rewrite' : Jsonc → P → EditReport → Jsonc × EditReport} {render render' : P → Jsonc}
  {items : List ArrItem}

/-- When an edit in one pass keeps JSON's commas. -/
theorem exact_syncItems_iff (h : Exact (commas items)) (wanted : List P) (report : EditReport) :
    Exact (commas (syncItems modeled rewrite render items wanted report).1) ↔
      ¬ LosesLast [⟨modeled, wanted.length⟩] items := by
  have hseparated := separated_of_exact h
  have hlength := length_syncItems modeled rewrite render items wanted report
  rw [exact_iff_not_trailing (separated_syncItems _ _ _ hseparated wanted report), not_iff_not,
    trailing_syncItems _ _ _ hseparated]
  have hunmodeled := exists_unmodeled modeled items
  constructor
  · rintro ⟨hfits, hne, htrailing | hdrops⟩
    · exact absurd htrailing (not_trailing_of_exact h)
    · refine ⟨by simpa using hfits, ⟨_, List.mem_singleton_self _, hdrops⟩, ?_⟩
      have := length_pos_iff.mpr hne
      by_cases hwanted : 0 < wanted.length
      · exact .inl ⟨_, List.mem_singleton_self _, hwanted⟩
      · exact .inr (by simpa using hunmodeled.mpr (by omega))
  · rintro ⟨hfits, hdrops, hstays⟩
    simp only [List.mem_singleton, forall_eq, exists_eq_left] at hfits hdrops hstays
    refine ⟨hfits, ?_, .inr hdrops⟩
    rw [← length_pos_iff]
    rcases hstays with hwanted | hitem
    · have : entries modeled items ≤ items.length := List.countP_le_length
      omega
    · have := hunmodeled.mp hitem
      omega

theorem exact_two_iff (h : Exact (commas items)) (hapart : Apart modeled other rewrite render)
    (wanted wanted' : List P) (report report' : EditReport) :
    Exact (commas (syncItems other rewrite' render'
        (syncItems modeled rewrite render items wanted report).1 wanted' report').1) ↔
      ¬ LosesLast [⟨modeled, wanted.length⟩, ⟨other, wanted'.length⟩] items := by
  have hseparated := separated_of_exact h
  have hlength := length_syncItems modeled rewrite render items wanted report
  have hother := entries_syncItems hapart items wanted report
  have hends := endsIn_syncItems hapart items wanted report
  have happends := not_endsIn_of_appends hapart items wanted report
  have htrailing := trailing_syncItems modeled rewrite render hseparated wanted report
  have hmiddle := separated_syncItems modeled rewrite render hseparated wanted report
  generalize (syncItems modeled rewrite render items wanted report).1 = middle at *
  have hlength' := length_syncItems other rewrite' render' middle wanted' report'
  obtain ⟨hle, hexists⟩ := exists_other hapart.before items
  have hnot := not_trailing_of_exact h
  rw [exact_iff_not_trailing (separated_syncItems _ _ _ hmiddle wanted' report'), not_iff_not,
    trailing_syncItems _ _ _ hmiddle, htrailing, hother]
  rw [hother] at hlength'
  constructor
  · rintro ⟨hfits', hne, hcases⟩
    have hpos := length_pos_iff.mpr hne
    have hfits : wanted.length ≤ entries modeled items := by
      rcases hcases with hfirst | hsecond
      · exact hfirst.1
      · exact Nat.not_lt.mp fun hmore => happends hmore hsecond.2
    refine ⟨by simp [hfits, hfits'], ?_, ?_⟩
    · by_cases hdrops : wanted.length < entries modeled items ∧ EndsIn modeled items
      · exact ⟨⟨modeled, wanted.length⟩, by simp, hdrops⟩
      · rcases hcases with hfirst | hsecond
        · exact absurd (hfirst.2.2.resolve_left hnot) hdrops
        · exact ⟨⟨other, wanted'.length⟩, by simp, hsecond.1, (hends hfits hdrops).mp hsecond.2⟩
    · by_cases hwanted : wanted.length = 0 ∧ wanted'.length = 0
      · right
        simpa using hexists.mpr (by omega)
      · left
        simp only [List.mem_cons, List.not_mem_nil, or_false, exists_eq_or_imp, exists_eq_left]
        omega
  · rintro ⟨hfits, hdrops, hstays⟩
    simp only [List.mem_cons, List.not_mem_nil, or_false, forall_eq_or_imp, forall_eq,
      exists_eq_or_imp, exists_eq_left, hexists] at hfits hdrops hstays
    have hpos : 0 < (syncItems other rewrite' render' middle wanted' report').1.length := by omega
    refine ⟨hfits.2, length_pos_iff.mp hpos, ?_⟩
    by_cases hfirst : wanted.length < entries modeled items ∧ EndsIn modeled items
    · refine .inl ⟨hfits.1, length_pos_iff.mp (by omega), .inr hfirst⟩
    · have hsecond := hdrops.resolve_left hfirst
      exact .inr ⟨hsecond.1, (hends hfits.1 hfirst).mpr hsecond.2⟩

end Edits

end Detent.Guarantees.KeaCommas
