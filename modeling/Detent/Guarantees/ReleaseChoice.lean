import Detent.Lib.Except
import Detent.Lib.Ranking
import Detent.Lib.TextSearch
import Detent.Source.ReleasePolicy

/-!
# Which release is chosen

The loop over the sorted releases picks the highest release above the current version that
passes the age gate; failing that, and where downgrades are allowed, the highest one below
it, unless the current version is listed and nothing above it is.
-/
namespace Detent.Guarantees.ReleaseChoice
open Lib Source.ReleasePolicy

/-- The age gate lets a release pass. -/
def Passes (now : Int) (policy : Policy) (release : Candidate) : Prop :=
  gateAge release now policy = .ok release

theorem gateAge_cases (release : Candidate) (now : Int) (policy : Policy) :
    Passes now policy release ∨
      gateAge release now policy = .error (.tooYoung release.tag policy.minAgeDays) := by
  unfold Passes gateAge
  split
  · split
    · split
      · exact .inr rfl
      · exact .inl rfl
    · exact .inr rfl
  · exact .inl rfl

theorem not_passes {now : Int} {policy : Policy} {release : Candidate}
    (h : ¬ Passes now policy release) :
    gateAge release now policy = .error (.tooYoung release.tag policy.minAgeDays) :=
  (gateAge_cases release now policy).resolve_left h

section Choice
variable {V : Type} [LinearOrder V] (semver : Semver V) (current : V) (now : Int) (policy : Policy)

/-- No two releases have the same version. -/
def Distinct (releases : List Candidate) : Prop :=
  (releases.filterMap (fun release => semver.versionOf release.tag)).Nodup

/-- A release above the current version that passes the age gate. -/
def Newer (item : Candidate × V) : Prop := current < item.2 ∧ Passes now policy item.1

/-- A release below it that does. -/
def Older (item : Candidate × V) : Prop := item.2 < current ∧ Passes now policy item.1

/-- The release that satisfies `p` and has the highest version of those that do. -/
def Picks (items : List (Candidate × V)) (p : Candidate × V → Prop) (release : Candidate) : Prop :=
  ∃ version, Best Prod.snd items p (release, version)

/-- The current version is listed, and none above it. -/
def Blocked (items : List (Candidate × V)) : Prop :=
  (∃ item ∈ items, item.2 = current) ∧ ∀ item ∈ items, ¬ current < item.2

/-- The release that `select` chooses. -/
def Chosen (items : List (Candidate × V)) (release : Candidate) : Prop :=
  Picks items (Newer current now policy) release ∨
    (policy.allowDowngrade = true ∧ (∀ item ∈ items, ¬ Newer current now policy item) ∧
      ¬ Blocked current items ∧ Picks items (Older current now policy) release)

variable {semver current now policy} {items : List (Candidate × V)} {release head : Candidate}
  {version : V} {p q : Candidate × V → Prop}

theorem newestFirst_iff (left right : Candidate × V) :
    newestFirst left right = true ↔ right.2 < left.2 ∨
      (right.2 = left.2 ∧ (compare right.1.published left.1.published).isLE = true) := by
  unfold newestFirst
  cases hcompare : compare right.2 left.2 with
  | lt => simp [compare_lt_iff_lt.mp hcompare]
  | eq => simp [compare_eq_iff_eq.mp hcompare]
  | gt =>
    have hgt := compare_gt_iff_gt.mp hcompare
    simp [not_lt_of_gt hgt, ne_of_gt hgt]

theorem newestFirst_trans (a b c : Candidate × V) (hab : newestFirst a b = true)
    (hbc : newestFirst b c = true) : newestFirst a c = true := by
  rw [newestFirst_iff] at hab hbc ⊢
  rcases hab with hab | ⟨hab, hpublished⟩
  · rcases hbc with hbc | ⟨hbc, -⟩
    · exact .inl (lt_trans hbc hab)
    · exact .inl (hbc ▸ hab)
  · rcases hbc with hbc | ⟨hbc, hpublished'⟩
    · exact .inl (hab ▸ hbc)
    · exact .inr ⟨hbc.trans hab, Std.TransCmp.isLE_trans hpublished' hpublished⟩

theorem newestFirst_total (a b : Candidate × V) : (newestFirst a b || newestFirst b a) = true := by
  rw [Bool.or_eq_true, newestFirst_iff, newestFirst_iff]
  rcases lt_trichotomy a.2 b.2 with hlt | heq | hgt
  · exact .inr (.inl hlt)
  · cases hcompare : compare a.1.published b.1.published with
    | lt | eq => simp [heq]
    | gt =>
      rw [Std.OrientedCmp.gt_iff_lt] at hcompare
      simp [heq, hcompare]
  · exact .inl (.inl hgt)

theorem newestFirst_version (a b : Candidate × V) (h : newestFirst a b = true) : b.2 ≤ a.2 := by
  rcases (newestFirst_iff a b).mp h with hlt | ⟨heq, -⟩
  · exact le_of_lt hlt
  · exact le_of_eq heq

omit [LinearOrder V] in
theorem parsed_versions (releases : List Candidate) :
    (parsed semver releases).map Prod.snd =
      releases.filterMap (fun release => semver.versionOf release.tag) := by
  rw [parsed, List.map_filterMap]
  congr 1
  funext release
  cases semver.versionOf release.tag <;> rfl

variable {releases : List Candidate}

theorem Distinct.ranked (h : Distinct semver releases) :
    Ranked Prod.snd ((parsed semver releases).mergeSort newestFirst) :=
  ranked_mergeSort newestFirst_trans newestFirst_total newestFirst_version
    (by rw [parsed_versions]; exact h)

theorem picks_head (h : Ranked Prod.snd ((head, version) :: items)) (hp : p (head, version)) :
    Picks ((head, version) :: items) p release ↔ release = head := by
  constructor
  · rintro ⟨found, hbest⟩
    exact congrArg Prod.fst ((h.best_head hp).mp hbest)
  · rintro rfl
    exact ⟨version, (h.best_head hp).mpr rfl⟩

theorem picks_tail (hp : ¬ p (head, version)) :
    Picks ((head, version) :: items) p release ↔ Picks items p release :=
  exists_congr fun _ => best_tail hp

theorem picks_none (h : ∀ item ∈ items, ¬ p item) : ¬ Picks items p release := by
  rintro ⟨version, hmem, hp, -⟩
  exact h _ hmem hp

theorem lower_tail (h : Ranked Prod.snd ((head, version) :: items))
    (hle : ¬ current < version) : ∀ item ∈ items, item.2 < current :=
  fun item hmem => lt_of_lt_of_le ((List.pairwise_cons.mp h).1 item hmem) (le_of_not_gt hle)

theorem not_newer_of_lower (h : ∀ item ∈ items, item.2 < current) :
    ∀ item ∈ items, ¬ Newer current now policy item :=
  fun item hmem hnewer => lt_asymm (h item hmem) hnewer.1

/-- What the loop returns from a ranked list on, with a release refused before or not. -/
def ChosenFrom (current : V) (now : Int) (policy : Policy) (items : List (Candidate × V))
    (refused : Bool) (release : Candidate) : Prop :=
  Picks items (Newer current now policy) release ∨
    (policy.allowDowngrade = true ∧ (∀ item ∈ items, ¬ Newer current now policy item) ∧
      (refused = true ∨ ¬ Blocked current items) ∧ Picks items (Older current now policy) release)

/-- The rest of a list behind a release that the loop goes past. -/
theorem chosenFrom_tail {refused : Bool} (hnewer : ¬ Newer current now policy (head, version))
    (holder : ¬ Older current now policy (head, version))
    (hblocked : refused = true ∨ ¬ Blocked current ((head, version) :: items)) :
    ChosenFrom current now policy items true release ↔
      ChosenFrom current now policy ((head, version) :: items) refused release := by
  unfold ChosenFrom
  rw [picks_tail hnewer, picks_tail holder, List.forall_mem_cons]
  simp [hnewer, hblocked]

theorem not_chosenFrom_of_lower {refused : Bool} (h : ∀ item ∈ items, item.2 < current)
    (hallow : policy.allowDowngrade = false) :
    ¬ ChosenFrom current now policy items refused release := by
  rintro (hpicks | ⟨hallowed, -⟩)
  · exact picks_none (not_newer_of_lower h) hpicks
  · rw [hallow] at hallowed
    cases hallowed

/-- **The loop.** -/
theorem selectFrom_ok_iff (tooYoung : Option PolicyError) (h : Ranked Prod.snd items) :
    selectFrom semver current now policy items tooYoung = .ok release ↔
      ChosenFrom current now policy items tooYoung.isSome release := by
  induction items generalizing tooYoung with
  | nil => simp [selectFrom, ChosenFrom, Picks, Best]
  | cons item items ih =>
    obtain ⟨head, version⟩ := item
    have htail : Ranked Prod.snd items := (List.pairwise_cons.mp h).2
    have hnoted : ∀ error : PolicyError, (tooYoung <|> some error).isSome = true := by
      intro error
      cases tooYoung <;> rfl
    rw [selectFrom]
    by_cases hnew : current < version
    · rw [if_pos hnew]
      by_cases hpasses : Passes now policy head
      · rw [hpasses]
        have hnewer : Newer current now policy (head, version) := ⟨hnew, hpasses⟩
        constructor
        · intro hsame
          obtain rfl := Except.ok.inj hsame
          exact .inl ((picks_head h hnewer).mpr rfl)
        · rintro (hpicks | ⟨-, hnone, -⟩)
          · rw [(picks_head h hnewer).mp hpicks]
          · exact absurd hnewer (hnone _ (by simp))
      · rw [not_passes hpasses]
        dsimp only
        rw [ih _ htail, hnoted]
        refine chosenFrom_tail (fun hnewer => hpasses hnewer.2)
          (fun holder => lt_asymm hnew holder.1) (.inr fun hblocked => ?_)
        exact hblocked.2 (head, version) (by simp) hnew
    have hlower := lower_tail h hnew
    have hnewer : ¬ Newer current now policy (head, version) := fun hnewer => hnew hnewer.1
    rw [if_neg hnew]
    by_cases heq : version = current
    · rw [if_pos heq]
      have holder : ¬ Older current now policy (head, version) :=
        fun holder => ne_of_lt holder.1 heq
      cases tooYoung with
      | none =>
        constructor
        · nofun
        · rintro (hpicks | ⟨-, -, hrefused | hblocked, -⟩)
          · exact absurd ((picks_tail hnewer).mp hpicks) (picks_none (not_newer_of_lower hlower))
          · cases hrefused
          · refine absurd ⟨⟨(head, version), by simp, heq⟩, List.forall_mem_cons.mpr ⟨hnew, ?_⟩⟩ hblocked
            exact fun item hmem => lt_asymm (hlower item hmem)
      | some error => exact (ih _ htail).trans (chosenFrom_tail hnewer holder (.inl rfl))
    rw [if_neg heq]
    have hbelow : ∀ item ∈ (head, version) :: items, item.2 < current :=
      List.forall_mem_cons.mpr ⟨lt_of_le_of_ne (le_of_not_gt hnew) heq, hlower⟩
    have hunblocked : ¬ Blocked current ((head, version) :: items) := by
      rintro ⟨⟨item, hmem, hsame⟩, -⟩
      exact ne_of_lt (hbelow item hmem) hsame
    cases hallow : policy.allowDowngrade with
    | false =>
      rw [if_pos (by rfl : (!false) = true), iff_false_right (not_chosenFrom_of_lower hbelow hallow)]
      cases tooYoung with
      | none =>
        nofun
      | some error =>
        exact fun hsame => not_chosenFrom_of_lower hlower hallow ((ih _ htail).mp hsame)
    | true =>
      rw [if_neg (by decide : ¬ (!true) = true)]
      by_cases hpasses : Passes now policy head
      · rw [hpasses]
        have holder : Older current now policy (head, version) := ⟨hbelow _ (by simp), hpasses⟩
        constructor
        · intro hsame
          obtain rfl := Except.ok.inj hsame
          exact .inr ⟨hallow, not_newer_of_lower hbelow, .inr hunblocked,
            (picks_head h holder).mpr rfl⟩
        · rintro (hpicks | ⟨-, -, -, hpicks⟩)
          · exact absurd hpicks (picks_none (not_newer_of_lower hbelow))
          · rw [(picks_head h holder).mp hpicks]
      · rw [not_passes hpasses]
        dsimp only
        rw [ih _ htail, hnoted]
        exact chosenFrom_tail hnewer (fun holder => hpasses holder.2) (.inr hunblocked)

theorem picks_congr {others : List (Candidate × V)}
    (hmem : ∀ item, p item → (item ∈ items ↔ item ∈ others)) :
    Picks items p release ↔ Picks others p release :=
  exists_congr fun _ => Best.congr (fun item hp => hmem item (hp.elim id id)) fun _ _ => Iff.rfl

theorem chosen_congr {others : List (Candidate × V)} (hmem : ∀ item, item ∈ items ↔ item ∈ others) :
    Chosen current now policy items release ↔ Chosen current now policy others release := by
  simp only [Chosen, Blocked, hmem, picks_congr fun item _ => hmem item]

omit [LinearOrder V] in
theorem mem_parsed {item : Candidate × V} :
    item ∈ parsed semver releases ↔
      item.1 ∈ releases ∧ semver.versionOf item.1.tag = some item.2 := by
  obtain ⟨release, version⟩ := item
  simp only [parsed, List.mem_filterMap, Option.map_eq_some_iff, Prod.mk.injEq]
  constructor
  · rintro ⟨found, hmem, other, hversion, rfl, rfl⟩
    exact ⟨hmem, hversion⟩
  · rintro ⟨hmem, hversion⟩
    exact ⟨release, hmem, version, hversion, rfl, rfl⟩

theorem select_ok_iff (h : Distinct semver releases) :
    select semver releases current now policy = .ok release ↔
      Chosen current now policy (parsed semver releases) release := by
  have hsame : Chosen current now policy ((parsed semver releases).mergeSort newestFirst) release ↔
      Chosen current now policy (parsed semver releases) release :=
    chosen_congr fun _ => List.mem_mergeSort
  rw [select, selectFrom_ok_iff none h.ranked, ← hsame]
  simp [ChosenFrom, Chosen]

theorem select_perm {others : List Candidate} (h : Distinct semver releases)
    (hperm : releases.Perm others) :
    select semver releases current now policy = select semver others current now policy := by
  have hother : Distinct semver others := ((hperm.filterMap _).nodup_iff).mp h
  have hsorted : ((parsed semver releases).mergeSort newestFirst).Perm
      ((parsed semver others).mergeSort newestFirst) :=
    (List.mergeSort_perm _ _).trans ((hperm.filterMap _).trans (List.mergeSort_perm _ _).symm)
  rw [select, h.ranked.eq_of_perm hother.ranked hsorted]
  rfl

theorem select_sorted (h : (parsed semver releases).Pairwise (fun a b => newestFirst a b = true)) :
    select semver releases current now policy =
      selectFrom semver current now policy (parsed semver releases) none := by
  rw [select, List.mergeSort_of_pairwise h]

/-- The condition under which releases that the gate refuses leave the choice as it is:
they do not decide whether the current version is listed with none above it, unless that
decides nothing. -/
def KeepsChoice (current : V) (now : Int) (policy : Policy) (items more : List (Candidate × V)) :
    Prop :=
  policy.allowDowngrade = false ∨ (∃ item ∈ items, Newer current now policy item) ∨
    (∀ item ∈ items, ¬ Older current now policy item) ∨
    (Blocked current more ↔ Blocked current items)

theorem chosen_older (hallow : policy.allowDowngrade = true)
    (hnone : ∀ item ∈ items, ¬ Newer current now policy item)
    (hpicks : Picks items (Older current now policy) release) :
    Chosen current now policy items release ↔ ¬ Blocked current items := by
  constructor
  · rintro (hnewer | ⟨-, -, hunblocked, -⟩)
    · exact absurd hnewer (picks_none hnone)
    · exact hunblocked
  · exact fun hunblocked => .inr ⟨hallow, hnone, hunblocked, hpicks⟩

theorem chosen_iff_of_refused {more : List (Candidate × V)}
    (hmem : ∀ item, Passes now policy item.1 → (item ∈ more ↔ item ∈ items)) :
    (∀ release, Chosen current now policy more release ↔ Chosen current now policy items release) ↔
      KeepsChoice current now policy items more := by
  have hnewer : ∀ release, Picks more (Newer current now policy) release ↔
      Picks items (Newer current now policy) release :=
    fun release => picks_congr fun item hnew => hmem item hnew.2
  have holder : ∀ release, Picks more (Older current now policy) release ↔
      Picks items (Older current now policy) release :=
    fun release => picks_congr fun item hold => hmem item hold.2
  have hnone : (∀ item ∈ more, ¬ Newer current now policy item) ↔
      ∀ item ∈ items, ¬ Newer current now policy item := by
    constructor
    · exact fun h item hitem hnew => h item ((hmem item hnew.2).mpr hitem) hnew
    · exact fun h item hitem hnew => h item ((hmem item hnew.2).mp hitem) hnew
  constructor
  · intro hsame
    by_contra hchanges
    simp only [KeepsChoice, not_or, not_exists, not_and, not_forall, Classical.not_not,
      Bool.not_eq_false] at hchanges
    obtain ⟨hallow, hnonewer, ⟨item, hitem, hold⟩, hblocked⟩ := hchanges
    obtain ⟨⟨best, version⟩, hbest⟩ := @exists_best _ _ _ Prod.snd _ _ ⟨item, hitem, hold⟩
    have hpicks : Picks items (Older current now policy) best := ⟨version, hbest⟩
    have hchosen := hsame best
    rw [chosen_older hallow hnonewer hpicks,
      chosen_older hallow (hnone.mpr hnonewer) ((holder best).mpr hpicks)] at hchosen
    exact hblocked (not_iff_not.mp hchosen)
  · intro hkeeps release
    unfold Chosen
    rw [hnewer, holder, hnone]
    refine or_congr_right (and_congr_right fun hallow => and_congr_right fun hnonewer => ?_)
    rcases hkeeps with hforbidden | ⟨item, hitem, hnew⟩ | hnoolder | hblocked
    · rw [hforbidden] at hallow
      cases hallow
    · exact absurd hnew (hnonewer item hitem)
    · simp [picks_none hnoolder]
    · rw [hblocked]

theorem toOption_eq_iff {α ε : Type} (x y : Except ε α) :
    x.toOption = y.toOption ↔ ∀ a, x = .ok a ↔ y = .ok a := by
  constructor
  · intro h a
    constructor
    · rintro rfl
      exact eq_ok_of_toOption h.symm
    · rintro rfl
      exact eq_ok_of_toOption h
  · intro h
    cases x with
    | ok a => rw [(h a).mp rfl]
    | error err =>
      cases y with
      | ok a => exact absurd ((h a).mpr rfl) (by simp)
      | error err' => rfl

theorem contains_of_hasMarkerLine {body : Text} (h : hasMarkerLine body = true) :
    Text.contains securityMarker body = true := by
  obtain ⟨line, hline, hmarker⟩ := List.any_eq_true.mp h
  have hsame : trimBlanks line = securityMarker := by simpa using hmarker
  refine Text.contains_of_infix (by decide) ?_
  rw [← hsame]
  exact ((List.rdropWhile_prefix _ _).isInfix.trans (List.dropWhile_suffix _).isInfix).trans
    (Text.infix_of_mem_lines hline)

/-- The releases that `check` offers. -/
def offered (releases : List Candidate) (bad : List Text) : List Candidate :=
  releases.filter (fun c => !bad.contains c.tag)

/-- A report says `security` where the chosen release holds the marker anywhere. -/
theorem check_security {ε : Type} {format : Int → Text} {bad : List Text} {report : CheckReport}
    (h : check semver format (.ok releases : Except ε _) current policy now bad = .ok report) :
    report.security = true ↔
      ∃ r, select semver (offered releases bad) current now policy = .ok r ∧
        Text.contains securityMarker r.body = true := by
  simp only [check, bind, Except.bind, Except.ok.injEq] at h
  rw [offered]
  cases hselect : select semver (releases.filter (fun c => !bad.contains c.tag)) current now policy with
  | ok chosen =>
    rw [hselect] at h
    subst h
    simp
  | error err =>
    rw [hselect] at h
    subst h
    cases err <;> simp

end Choice

/-- **The laws of the selection.** The choice depends on no order; without downgrades it is
the highest version above the current one that passes the gate; releases that the gate
refuses leave it as it is exactly where they do not decide whether the loop stops at the
current version; and the report says `security` of the releases with a marker line alone
exactly where the chosen one does not hold the marker elsewhere only. -/
theorem selection_laws_iff {V : Type} [LinearOrder V] (semver : Semver V) (current : V) (now : Int)
    (policy : Policy) :
    (∀ releases others, Distinct semver releases → releases.Perm others →
      select semver releases current now policy = select semver others current now policy) ∧
    (policy.allowDowngrade = false → ∀ releases, Distinct semver releases → ∀ release,
      select semver releases current now policy = .ok release ↔
        Picks (parsed semver releases) (Newer current now policy) release) ∧
    (∀ releases refused more : List Candidate, more.Perm (releases ++ refused) →
      Distinct semver more → (∀ release ∈ refused, ¬ Passes now policy release) →
      ((select semver more current now policy).toOption =
          (select semver releases current now policy).toOption ↔
        KeepsChoice current now policy (parsed semver releases) (parsed semver more))) ∧
    ∀ (ε : Type) (format : Int → Text) (releases : List Candidate) (bad : List Text),
      Distinct semver releases →
      ((∀ report, check semver format (.ok releases : Except ε _) current policy now bad =
            .ok report →
          (report.security = true ↔
            ∃ release, select semver (offered releases bad) current now policy = .ok release ∧
              hasMarkerLine release.body = true)) ↔
        ∀ release, Chosen current now policy (parsed semver (offered releases bad)) release →
          Text.contains securityMarker release.body = true →
            hasMarkerLine release.body = true) := by
  refine ⟨fun releases others => select_perm, fun hallow releases hdistinct release => ?_,
    fun releases refused more hperm hdistinct hrefused => ?_,
    fun ε format releases bad hdistinct => ?_⟩
  · rw [select_ok_iff hdistinct, Chosen, hallow]
    simp
  · have hfirst : Distinct semver releases := by
      have hboth : Distinct semver (releases ++ refused) := ((hperm.filterMap _).nodup_iff).mp hdistinct
      exact hboth.sublist ((List.sublist_append_left releases refused).filterMap _)
    rw [toOption_eq_iff, ← chosen_iff_of_refused]
    · exact forall_congr' fun release => by rw [select_ok_iff hdistinct, select_ok_iff hfirst]
    · intro item hpasses
      rw [mem_parsed, mem_parsed, hperm.mem_iff, List.mem_append]
      have hnot : item.1 ∉ refused := fun hmem => hrefused _ hmem hpasses
      simp [hnot]
  · have hoffered : Distinct semver (offered releases bad) :=
      hdistinct.sublist (List.filter_sublist.filterMap _)
    simp only [← select_ok_iff hoffered]
    constructor
    · intro hexact release hchosen hcontains
      obtain ⟨report, hreport⟩ : ∃ report,
          check semver format (.ok releases : Except ε _) current policy now bad = .ok report :=
        ⟨_, rfl⟩
      have hsecurity := (check_security hreport).mpr ⟨release, hchosen, hcontains⟩
      obtain ⟨found, hfound, hmarker⟩ := (hexact report hreport).mp hsecurity
      obtain rfl := Except.ok.inj (hfound.symm.trans hchosen)
      exact hmarker
    · intro hmarked report hreport
      rw [check_security hreport]
      constructor
      · rintro ⟨release, hchosen, hcontains⟩
        exact ⟨release, hchosen, hmarked release hchosen hcontains⟩
      · rintro ⟨release, hchosen, hmarker⟩
        exact ⟨release, hchosen, contains_of_hasMarkerLine hmarker⟩

/-! ### Three versions -/

/-- Three versions in their order. -/
def threeVersions : Semver Nat where
  parse tag :=
    if tag = "0.1.0".toList then some 1
    else if tag = "0.2.0".toList then some 2
    else if tag = "0.3.0".toList then some 3
    else none
  display version := s!"0.{version}.0".toList

/-- A release of three days ago, where now is the fourth day. -/
def oldRelease (tag body : String) : Candidate := ⟨tag.toList, some 0, body.toList⟩

def fourthDay : Int := 3 * 86400000000000

def youngRelease : Candidate := ⟨"v0.3.0".toList, some fourthDay, []⟩

/-- The running version is `0.2.0` and downgrades are allowed: the release of today frees
the choice of the one below. And a release whose text mentions the marker is reported as a
security release. -/
theorem young_release_downgrades :
    (Distinct threeVersions [youngRelease, oldRelease "v0.2.0" "", oldRelease "v0.1.0" ""] ∧
      ¬ Passes fourthDay ⟨2, true⟩ youngRelease ∧
      select threeVersions [oldRelease "v0.2.0" "", oldRelease "v0.1.0" ""] 2 fourthDay ⟨2, true⟩ =
        .error .noUpdate ∧
      select threeVersions [youngRelease, oldRelease "v0.2.0" "", oldRelease "v0.1.0" ""] 2
        fourthDay ⟨2, true⟩ = .ok (oldRelease "v0.1.0" "")) ∧
    ∃ report, check threeVersions (fun _ => [])
        (.ok [oldRelease "v0.3.0" "See detent-security: true for details"] : Except Empty _) 2
        ⟨2, false⟩ fourthDay [] = .ok report ∧ report.security = true ∧
      hasMarkerLine "See detent-security: true for details".toList = false := by
  refine ⟨⟨?_, ?_, ?_, ?_⟩, _, rfl, by decide +kernel, by decide +kernel⟩
  · unfold Distinct
    decide +kernel
  · unfold Passes
    decide +kernel
  all_goals
    rw [select_sorted (by decide +kernel)]
    decide +kernel

end Detent.Guarantees.ReleaseChoice
