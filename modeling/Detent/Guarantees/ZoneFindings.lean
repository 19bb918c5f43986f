import Detent.Source.ResolverChecks

/-!
# The forward zones the validator judges

The items of `unbound.conf`, split into sections at each header. A zone without a valid
name and an item outside its section are found wherever they stand; a zone that forwards
over TLS without an authentication name is found only when it is the last.
-/
namespace Detent.Guarantees.ZoneFindings
open Lib Lib.Text Source.Resolver
open Source.ReadScope (Diagnostic)

/-- A section: its header, none before the first, and its items with their places. -/
structure Part where
  kind : Option Section
  items : List (Nat × UnboundEntry)
  deriving DecidableEq, Repr

/-- The items up to the next header, and the sections from there on. -/
def splitSections (index : Nat) : List UnboundEntry → List (Nat × UnboundEntry) × List Part
  | [] => ([], [])
  | .server :: rest =>
    ([], { kind := some .server, items := (splitSections (index + 1) rest).1 } ::
      (splitSections (index + 1) rest).2)
  | .forwardZone :: rest =>
    ([], { kind := some .forwardZone, items := (splitSections (index + 1) rest).1 } ::
      (splitSections (index + 1) rest).2)
  | entry :: rest =>
    ((index, entry) :: (splitSections (index + 1) rest).1, (splitSections (index + 1) rest).2)

def sections (entries : List UnboundEntry) : List Part :=
  { kind := none, items := (splitSections 0 entries).1 } :: (splitSections 0 entries).2

def validName : UnboundEntry → Bool
  | .forwardName name => isValidForwardZoneName name
  | _ => false

def tlsEnabled : UnboundEntry → Bool
  | .forwardTls enabled => enabled
  | _ => false

/-- An address with an authentication name. -/
def hasAuthName : UnboundEntry → Bool
  | .forwardAddr addr =>
    match splitOnceP (· == '#') addr with
    | some (_, name) => !name.isEmpty
    | none => false
  | _ => false

/-- An address the validator takes to have one. -/
def hasAuthMark : UnboundEntry → Bool
  | .forwardAddr addr => addr.any (· == '#')
  | _ => false

def Part.has (part : Part) (p : UnboundEntry → Bool) : Bool := part.items.any (fun x => p x.2)

/-- A forward zone without a valid name. -/
def isUnnamed (part : Part) : Bool := part.kind = some .forwardZone && !part.has validName

/-- A forward zone that forwards over TLS to addresses without an authentication name. -/
def isUnauthenticated (part : Part) : Bool :=
  part.kind = some .forwardZone && part.has tlsEnabled && !part.has hasAuthName

/-- The finding about an item outside its section. -/
def misplacedIn (kind : Option Section) : Nat × UnboundEntry → List Diagnostic
  | (index, .hardening key _) =>
    if kind = some .server then [] else [misplaced index "key" (String.ofList key) "server"]
  | (index, .forwardName _) =>
    if kind = some .forwardZone then [] else [misplaced index "name" "name" "forward-zone"]
  | (index, .forwardAddr _) =>
    if kind = some .forwardZone then [] else [misplaced index "addr" "forward-addr" "forward-zone"]
  | (index, .forwardTls _) =>
    if kind = some .forwardZone then []
    else [misplaced index "enabled" "forward-tls-upstream" "forward-zone"]
  | (_, .server) | (_, .forwardZone) => []

/-- The sections are judged one by one. -/
structure JudgesEveryZone (entries : List UnboundEntry) : Prop where
  unnamed : (validateUnbound entries).countP (fun d => d.id = "resolver-forward-zone-unnamed") =
    (sections entries).countP isUnnamed
  misplaced : (validateUnbound entries).filter (fun d => d.id = "resolver-unbound-misplaced") =
    (sections entries).flatMap (fun part => part.items.flatMap (misplacedIn part.kind))
  unauthenticated : (sections entries).any isUnauthenticated = true →
    ∃ d ∈ validateUnbound entries, d.id = "resolver-forward-tls-no-auth"

/-- The scan after the items of the section it is in. -/
def resume (scan : UnboundScan) (items : List (Nat × UnboundEntry)) : UnboundScan :=
  if scan.current = some .forwardZone then
    { scan with
      forwardNamed := scan.forwardNamed || items.any (fun x => validName x.2)
      forwardTls := scan.forwardTls || items.any (fun x => tlsEnabled x.2)
      forwardAuth := scan.forwardAuth || items.any (fun x => hasAuthMark x.2) }
  else scan

variable (scan : UnboundScan)

@[simp] theorem resume_nil : resume scan [] = scan := by
  unfold resume
  split <;> simp

@[simp] theorem resume_current (items : List (Nat × UnboundEntry)) :
    (resume scan items).current = scan.current := by
  unfold resume
  split <;> rfl

theorem resume_cons (x : Nat × UnboundEntry) (items : List (Nat × UnboundEntry)) :
    resume (resume scan [x]) items = resume scan (x :: items) := by
  unfold resume
  by_cases hzone : scan.current = some .forwardZone
  · simp [hzone, Bool.or_assoc]
  · simp [hzone]

def isHeader : UnboundEntry → Bool
  | .server | .forwardZone => true
  | _ => false

/-- The findings of the close of a section and of the end of the list. -/
def ofZone (d : Diagnostic) : Bool :=
  d.id = "resolver-forward-zone-unnamed" || d.id = "resolver-forward-tls-no-auth"

variable {entry : UnboundEntry}

/-- What the round of an item finds about zones, about places, and what it carries on. -/
theorem step_item (hitem : isHeader entry = false) (scan : UnboundScan) (index : Nat) :
    (unboundStep scan index entry).2 = resume scan [(index, entry)] ∧
      (unboundStep scan index entry).1.filter (fun d => d.id = "resolver-unbound-misplaced") =
        misplacedIn scan.current (index, entry) ∧
      ∀ d ∈ (unboundStep scan index entry).1, ofZone d = false := by
  cases entry with
  | server | forwardZone => cases hitem
  | hardening key enabled =>
    refine ⟨?_, ?_, ?_⟩
    · simp [unboundStep, resume, validName, tlsEnabled, hasAuthMark]
    · simp only [unboundStep, misplacedIn]
      split <;> split <;> split <;> rfl
    · simp only [unboundStep]
      split <;> split <;> split <;> simp [ofZone, itemFinding, misplaced]
  | forwardName | forwardAddr =>
    refine ⟨?_, ?_, ?_⟩
    · by_cases hzone : scan.current = some .forwardZone <;>
        simp [unboundStep, resume, validName, tlsEnabled, hasAuthMark, hzone]
    · simp only [unboundStep, misplacedIn]
      split <;> split <;> rfl
    · simp only [unboundStep]
      split <;> split <;> simp [ofZone, itemFinding, misplaced]
  | forwardTls enabled =>
    refine ⟨?_, ?_, ?_⟩
    · by_cases hzone : scan.current = some .forwardZone <;>
        simp [unboundStep, resume, validName, tlsEnabled, hasAuthMark, hzone]
    · simp only [unboundStep, misplacedIn]
      split <;> rfl
    · simp only [unboundStep]
      split <;> simp [ofZone, itemFinding, misplaced]

theorem splitSections_item (hitem : isHeader entry = false) (index : Nat)
    (rest : List UnboundEntry) : splitSections index (entry :: rest) =
      ((index, entry) :: (splitSections (index + 1) rest).1,
        (splitSections (index + 1) rest).2) := by
  cases entry with
  | server | forwardZone => cases hitem
  | hardening | forwardName | forwardAddr | forwardTls => rfl

/-- The scan after a header. -/
def opened (kind : Option Section) (scan : UnboundScan) : UnboundScan :=
  if kind = some .forwardZone then
    { current := kind, forwardNamed := false, forwardTls := false, forwardAuth := false }
  else { scan with current := kind }

theorem step_header (hheader : isHeader entry = true) (index : Nat) (rest : List UnboundEntry) :
    ∃ kind, (∀ scan, unboundStep scan index entry = (closeZone scan, opened kind scan)) ∧
      splitSections index (entry :: rest) =
        ([], { kind, items := (splitSections (index + 1) rest).1 } ::
          (splitSections (index + 1) rest).2) := by
  cases entry with
  | server => exact ⟨some .server, fun _ => rfl, rfl⟩
  | forwardZone => exact ⟨some .forwardZone, fun _ => rfl, rfl⟩
  | hardening | forwardName | forwardAddr | forwardTls => cases hheader

/-- The zone the scan is in has no name. -/
def openUnnamed (scan : UnboundScan) : Bool :=
  scan.current = some .forwardZone && !scan.forwardNamed

theorem closeZone_eq : closeZone scan = if openUnnamed scan then [unnamed] else [] := rfl

theorem count_closeZone :
    (closeZone scan).countP (fun d => d.id = "resolver-forward-zone-unnamed") =
      if openUnnamed scan then 1 else 0 := by
  rw [closeZone_eq]
  split <;> rfl

theorem openUnnamed_opened (kind : Option Section) (scan : UnboundScan)
    (items : List (Nat × UnboundEntry)) :
    openUnnamed (resume (opened kind scan) items) = isUnnamed { kind, items } := by
  unfold openUnnamed isUnnamed resume opened Part.has
  by_cases hzone : kind = some .forwardZone
  all_goals simp [hzone]

/-- A zone without a name is found when it is closed. -/
theorem count_unnamed (index : Nat) (entries : List UnboundEntry) :
    (validateUnboundFrom scan index entries).countP
        (fun d => d.id = "resolver-forward-zone-unnamed") =
      (splitSections index entries).2.countP isUnnamed +
        if openUnnamed (resume scan (splitSections index entries).1) then 1 else 0 := by
  induction entries generalizing scan index with
  | nil =>
    unfold validateUnboundFrom
    rw [List.countP_append, count_closeZone]
    have hend : List.countP (fun d => decide (d.id = "resolver-forward-zone-unnamed"))
        (if scan.forwardTls && !scan.forwardAuth then [forwardTlsNoAuth] else []) = 0 := by
      split <;> rfl
    rw [hend]
    simp [splitSections]
  | cons entry rest ih =>
    unfold validateUnboundFrom
    rw [List.countP_append, ih]
    cases hheader : isHeader entry with
    | false =>
      obtain ⟨hscan, -, hother⟩ := step_item hheader scan index
      have hnone : (unboundStep scan index entry).1.countP
          (fun d => decide (d.id = "resolver-forward-zone-unnamed")) = 0 := by
        refine List.countP_eq_zero.mpr fun d hd => ?_
        have hzone := hother d hd
        simp only [ofZone, Bool.or_eq_false_iff] at hzone
        simp [hzone.1]
      rw [hnone, hscan, splitSections_item hheader, resume_cons, Nat.zero_add]
    | true =>
      obtain ⟨kind, hstep, hsplit⟩ := step_header hheader index rest
      rw [hstep, hsplit, List.countP_cons, openUnnamed_opened, resume_nil]
      dsimp only
      rw [count_closeZone, Nat.add_comm]

/-- An item outside its section is found in its round. -/
theorem filter_misplaced (index : Nat) (entries : List UnboundEntry) :
    (validateUnboundFrom scan index entries).filter (fun d => d.id = "resolver-unbound-misplaced") =
      (splitSections index entries).1.flatMap (misplacedIn scan.current) ++
        (splitSections index entries).2.flatMap
          (fun part => part.items.flatMap (misplacedIn part.kind)) := by
  have hclose : ∀ scan, (closeZone scan).filter
      (fun d => decide (d.id = "resolver-unbound-misplaced")) = [] := by
    intro scan
    rw [closeZone_eq]
    split <;> rfl
  induction entries generalizing scan index with
  | nil =>
    unfold validateUnboundFrom
    rw [List.filter_append, hclose]
    split <;> rfl
  | cons entry rest ih =>
    unfold validateUnboundFrom
    rw [List.filter_append, ih]
    cases hheader : isHeader entry with
    | false =>
      obtain ⟨hscan, hplace, -⟩ := step_item hheader scan index
      rw [hplace, hscan, splitSections_item hheader, resume_current, List.flatMap_cons,
        List.append_assoc]
    | true =>
      obtain ⟨kind, hstep, hsplit⟩ := step_header hheader index rest
      have hkind : (opened kind scan).current = kind := by
        unfold opened
        split <;> rfl
      rw [hstep, hsplit, hclose, hkind]
      simp

/-- The scan after the sections `parts`. -/
def finalScan (scan : UnboundScan) : List Part → UnboundScan
  | [] => scan
  | part :: parts => finalScan (resume (opened part.kind scan) part.items) parts

/-- TLS without a mark is found once the list is over. -/
theorem mem_noAuth (index : Nat) (entries : List UnboundEntry) :
    (∃ d ∈ validateUnboundFrom scan index entries, d.id = "resolver-forward-tls-no-auth") ↔
      (finalScan (resume scan (splitSections index entries).1)
        (splitSections index entries).2).forwardTls = true ∧
      (finalScan (resume scan (splitSections index entries).1)
        (splitSections index entries).2).forwardAuth = false := by
  have hclose : ∀ scan, ∀ d ∈ closeZone scan, d.id ≠ "resolver-forward-tls-no-auth" := by
    intro scan d hd
    rw [closeZone_eq] at hd
    split at hd
    · rw [List.mem_singleton.mp hd]
      decide
    · cases hd
  induction entries generalizing scan index with
  | nil =>
    unfold validateUnboundFrom
    simp only [splitSections, resume_nil, finalScan]
    constructor
    · rintro ⟨d, hd, hid⟩
      rcases List.mem_append.mp hd with hd | hd
      · exact absurd hid (hclose scan d hd)
      · split at hd
        · rename_i hflags
          simpa using hflags
        · cases hd
    · intro hflags
      rw [if_pos (by simp [hflags])]
      exact ⟨forwardTlsNoAuth, by simp, rfl⟩
  | cons entry rest ih =>
    unfold validateUnboundFrom
    have hround : (∀ d ∈ (unboundStep scan index entry).1, d.id ≠ "resolver-forward-tls-no-auth") →
        ((∃ d ∈ (unboundStep scan index entry).1 ++
          validateUnboundFrom (unboundStep scan index entry).2 (index + 1) rest,
            d.id = "resolver-forward-tls-no-auth") ↔
          ∃ d ∈ validateUnboundFrom (unboundStep scan index entry).2 (index + 1) rest,
            d.id = "resolver-forward-tls-no-auth") := by
      intro hnone
      constructor
      · rintro ⟨d, hd, hid⟩
        rcases List.mem_append.mp hd with hd | hd
        · exact absurd hid (hnone d hd)
        · exact ⟨d, hd, hid⟩
      · rintro ⟨d, hd, hid⟩
        exact ⟨d, List.mem_append_right _ hd, hid⟩
    cases hheader : isHeader entry with
    | false =>
      obtain ⟨hscan, -, hother⟩ := step_item hheader scan index
      refine (hround ?_).trans ((ih _ _).trans ?_)
      · intro d hd
        have hzone := hother d hd
        simp only [ofZone, Bool.or_eq_false_iff] at hzone
        simpa using hzone.2
      · rw [hscan, splitSections_item hheader, resume_cons]
    | true =>
      obtain ⟨kind, hstep, hsplit⟩ := step_header hheader index rest
      refine (hround ?_).trans ((ih _ _).trans ?_)
      · rw [hstep]
        exact hclose scan
      · rw [hsplit, resume_nil, hstep]
        rfl

/-- The forward zone that was opened last. -/
def lastZone (parts : List Part) : Option Part :=
  (parts.filter (fun part => part.kind = some .forwardZone)).getLast?

theorem finalScan_flags (parts : List Part) :
    (finalScan scan parts).forwardTls =
        ((lastZone parts).map (·.has tlsEnabled)).getD scan.forwardTls ∧
      (finalScan scan parts).forwardAuth =
        ((lastZone parts).map (·.has hasAuthMark)).getD scan.forwardAuth := by
  induction parts generalizing scan with
  | nil => exact ⟨rfl, rfl⟩
  | cons part parts ih =>
    unfold finalScan
    obtain ⟨htls, hauth⟩ := ih (resume (opened part.kind scan) part.items)
    rw [htls, hauth]
    by_cases hzone : part.kind = some .forwardZone
    · have hlast : lastZone (part :: parts) = some ((lastZone parts).getD part) := by
        unfold lastZone
        rw [List.filter_cons_of_pos (by simpa using hzone), List.getLast?_cons]
      rw [hlast]
      cases lastZone parts <;> simp [resume, opened, hzone, Part.has]
    · have hlast : lastZone (part :: parts) = lastZone parts := by
        unfold lastZone
        rw [List.filter_cons_of_neg (by simpa using hzone)]
      rw [hlast]
      cases lastZone parts <;> simp [resume, opened, hzone]

/-- A zone without authentication is there only if the last zone has TLS and no mark. -/
def LastZoneShows (entries : List UnboundEntry) : Prop :=
  (sections entries).any isUnauthenticated = true →
    ∃ part, lastZone (sections entries) = some part ∧ part.has tlsEnabled = true ∧
      part.has hasAuthMark = false

/-- **The unbound validator judges every zone** exactly where the last zone shows what is wrong
with any of them. -/
theorem judges_every_zone_iff (entries : List UnboundEntry) :
    JudgesEveryZone entries ↔ LastZoneShows entries := by
  have hhead : lastZone (sections entries) = lastZone (splitSections 0 entries).2 := rfl
  have hreported : (∃ d ∈ validateUnbound entries, d.id = "resolver-forward-tls-no-auth") ↔
      ∃ part, lastZone (sections entries) = some part ∧ part.has tlsEnabled = true ∧
        part.has hasAuthMark = false := by
    refine (mem_noAuth _ 0 entries).trans ?_
    obtain ⟨htls, hauth⟩ := finalScan_flags
      (resume { current := none, forwardNamed := false, forwardTls := false, forwardAuth := false }
        (splitSections 0 entries).1) (splitSections 0 entries).2
    rw [htls, hauth, hhead]
    cases lastZone (splitSections 0 entries).2 <;> simp [resume]
  constructor
  · intro h hany
    exact hreported.mp (h.unauthenticated hany)
  · intro h
    refine ⟨?_, ?_, fun hany => hreported.mpr (h hany)⟩
    · refine (count_unnamed _ 0 entries).trans ?_
      rw [sections, List.countP_cons]
      rfl
    · exact filter_misplaced _ 0 entries

/-- A zone over TLS without a name, before one with: nothing is found about the first. -/
theorem first_zone_not_judged :
    let entries : List UnboundEntry :=
      [.forwardZone, .forwardName ".".toList, .forwardTls true, .forwardAddr "192.0.2.1".toList,
        .forwardZone, .forwardName "example.com".toList, .forwardAddr "192.0.2.2".toList]
    (sections entries).any isUnauthenticated = true ∧ validateUnbound entries = [] ∧
      ¬ JudgesEveryZone entries := by
  intro entries
  have hany : (sections entries).any isUnauthenticated = true := by decide
  have hsilent : validateUnbound entries = [] := by decide
  refine ⟨hany, hsilent, fun h => ?_⟩
  obtain ⟨d, hd, -⟩ := h.unauthenticated hany
  rw [hsilent] at hd
  cases hd

end Detent.Guarantees.ZoneFindings
