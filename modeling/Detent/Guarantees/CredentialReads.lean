import Detent.Lib.Except
import Detent.Lib.Machine
import Detent.Source.Credentials

/-!
# Fresh reads of the credential files

`crates/detent-web/src/auth/users.rs:268-398,585-610` and
`crates/detent-web/src/auth/token.rs:201-298,360-461`: one process among writes of the
file by others. A store trusts its records as long as the file has the fingerprint it
remembers. `load` and `mutate` take that fingerprint after the data it stands for, so a
foreign write in between makes the store trust records the file no longer holds.
-/
namespace Detent.Guarantees.CredentialReads
open Lib Source Source.Sessions Source.Credentials

variable {ρ χ : Type} [DecidableEq ρ] {kind : Kind ρ χ}

/-- The file, and one process that uses it. -/
structure World (ρ χ : Type) where
  file : Version
  proc : Proc ρ χ
  deriving DecidableEq

/-- A file operation of the process, or a write of the file by another process. -/
inductive WorldEvent (χ : Type) where
  | own (e : FileEvent χ)
  | foreign (file : Version)
  deriving DecidableEq

/-- One event. -/
def worldStep (kind : Kind ρ χ) (w : World ρ χ) : WorldEvent χ → Option (World ρ χ)
  | .own e => (kind.step w.file w.proc e).map (fun done => { file := done.1, proc := done.2.1 })
  | .foreign file => some { w with file }

/-- When the file is the version a store remembers, it holds the store's records. -/
def Trusts (kind : Kind ρ χ) (file : Version) (p : Proc ρ χ) : Prop :=
  file = p.fp → kind.recordsOf file = .ok p.records

/-- The fingerprint that a `load` or a `mutate` takes is that of the data it read or
wrote, and no write gives the file a fingerprint that the store remembers for other
records. -/
def Quiet (kind : Kind ρ χ) (w : World ρ χ) : WorldEvent χ → Prop
  | .own .loadStat =>
    ∀ records, w.proc.phase = .loading records → kind.recordsOf w.file = .ok records
  | .own .stat =>
    ∀ change candidate, w.proc.phase = .written change candidate →
      kind.recordsOf w.file = .ok candidate
  | .own (.fail true) =>
    ∀ change candidate, w.proc.phase = .written change candidate →
      Trusts kind w.file { w.proc with records := candidate }
  | .own (.write fp) => Trusts kind (some fp) w.proc
  | .own _ => True
  | .foreign file => Trusts kind file w.proc

omit [DecidableEq ρ] in
/-- The rest of a call keeps the records and their fingerprint. -/
@[simp]
theorem proceed_records (p : Proc ρ χ) (change : Option χ) :
    (kind.proceed p change).1.records = p.records := by
  cases change with
  | none => rfl
  | some change => cases h : kind.apply change p.records <;> simp only [Kind.proceed, h]

omit [DecidableEq ρ] in
@[simp]
theorem proceed_fp (p : Proc ρ χ) (change : Option χ) :
    (kind.proceed p change).1.fp = p.fp := by
  cases change with
  | none => rfl
  | some change => cases h : kind.apply change p.records <;> simp only [Kind.proceed, h]

variable {file file' : Version}

/-- What one file operation does to the records in memory and to the trust in them. -/
theorem step_trusts {p p' : Proc ρ χ} {e : FileEvent χ} {r : Option (Returned χ)}
    (hp : Trusts kind file p) (hquiet : Quiet kind { file, proc := p } (.own e))
    (h : kind.step file p e = some (file', p', r)) : Trusts kind file' p' := by
  cases e with
  | loadRead =>
    simp only [Kind.step] at h
    split at h
    · cases h
      exact fun _ => rfl
    · split at h
      all_goals
        cases h
        exact hp
    · cases h
  | loadStat =>
    simp only [Kind.step] at h
    split at h
    · rename_i records hphase
      cases h
      exact fun _ => hquiet records hphase
    · cases h
  | call change =>
    simp only [Kind.step] at h
    split at h
    · split at h
      · obtain ⟨rfl, rfl, -⟩ : file = file' ∧ (kind.proceed p change).1 = p' ∧ _ := by
          simpa only [Option.some.injEq, Prod.ext_iff] using h
        simpa only [Trusts, proceed_records, proceed_fp] using hp
      · cases h
        exact hp
    · cases h
  | read =>
    simp only [Kind.step] at h
    split at h
    · split at h
      · cases h
        exact hp
      · rename_i records hread
        obtain ⟨rfl, rfl, -⟩ : file = file' ∧ (kind.proceed _ _).1 = p' ∧ _ := by
          simpa only [Option.some.injEq, Prod.ext_iff] using h
        intro _
        rw [proceed_records]
        exact hread
    · cases h
  | write fp =>
    simp only [Kind.step] at h
    split at h
    · split at h
      · split at h
        · cases h
          exact hquiet
        · cases h
      · cases h
    · cases h
  | stat =>
    simp only [Kind.step] at h
    split at h
    · rename_i change candidate hphase
      cases h
      exact fun _ => hquiet change candidate hphase
    · cases h
  | fail assigned =>
    simp only [Kind.step] at h
    split at h
    · cases h
      exact hp
    · cases h
      exact hp
    · cases h
      exact hp
    · rename_i change candidate hphase
      cases h
      cases assigned with
      | true => exact hquiet change candidate hphase
      | false => exact hp
    · cases h

theorem worldStep_trusts {w w' : World ρ χ} {e : WorldEvent χ}
    (hw : Trusts kind w.file w.proc)
    (hstep : Guarded (Quiet kind) (Steps (worldStep kind)) w e w') :
    Trusts kind w'.file w'.proc := by
  obtain ⟨hquiet, hstep⟩ := hstep
  cases e with
  | own e =>
    obtain ⟨⟨file', p', r⟩, hown, hw'⟩ := Option.map_eq_some_iff.mp hstep
    cases hw'
    exact step_trusts hw hquiet hown
  | foreign file =>
    cases hstep
    exact hquiet

/-- A process that has not loaded the file. -/
def unloaded (file : Version) : World ρ χ :=
  { file, proc := { records := [], fp := none, phase := .unloaded } }

theorem run_trusts {init : Version} {w : World ρ χ} {es : List (WorldEvent χ)}
    (hrun : Run (Guarded (Quiet kind) (Steps (worldStep kind))) (unloaded init) es w) :
    Trusts kind w.file w.proc := by
  refine hrun.invariant (fun s e s' hs hstep => worldStep_trusts hs hstep) ?_
  intro hnone
  obtain rfl : init = none := hnone
  rfl

/-- A `refresh` that returns `Ok` leaves the records of the file in memory. -/
theorem refreshed_records {p p' : Proc ρ χ} {e : FileEvent χ} (hp : Trusts kind file p)
    (h : kind.step file p e = some (file', p', some { call := none, ok := true })) :
    kind.recordsOf file = .ok p'.records := by
  cases e with
  | call change =>
    simp only [Kind.step] at h
    split at h
    · split at h
      · rename_i hsame
        obtain ⟨-, rfl, -⟩ : file = file' ∧ (kind.proceed p change).1 = p' ∧ _ := by
          simpa only [Option.some.injEq, Prod.ext_iff] using h
        rw [proceed_records]
        exact hp hsame
      · cases h
    · cases h
  | read =>
    simp only [Kind.step] at h
    split at h
    · split at h
      · cases h
      · rename_i records hread
        obtain ⟨-, rfl, -⟩ : file = file' ∧ (kind.proceed _ _).1 = p' ∧ _ := by
          simpa only [Option.some.injEq, Prod.ext_iff] using h
        rw [proceed_records]
        exact hread
    · cases h
  | loadRead | loadStat | write | stat | fail =>
    simp only [Kind.step] at h
    repeat' split at h
    all_goals cases h

/-- The events of a store among foreign writes that keep to `Quiet`. -/
abbrev Event (kind : Kind ρ χ) : World ρ χ → WorldEvent χ → World ρ χ → Prop :=
  Guarded (Quiet kind) (Steps (worldStep kind))

/-- At some moment of the run from `w₁` to `w₂` the file held `records`. -/
def Held (kind : Kind ρ χ) (w₁ : World ρ χ) (es : List (WorldEvent χ)) (w₂ : World ρ χ)
    (records : List ρ) : Prop :=
  ∃ before after u, es = before ++ after ∧ Run (Event kind) w₁ before u ∧
    Run (Event kind) u after w₂ ∧ kind.recordsOf u.file = .ok records

theorem Held.snoc {w₁ w₂ w₃ : World ρ χ} {es : List (WorldEvent χ)} {e : WorldEvent χ}
    {records : List ρ} (h : Held kind w₁ es w₂ records) (hstep : Event kind w₂ e w₃) :
    Held kind w₁ (es ++ [e]) w₃ records := by
  obtain ⟨before, after, u, rfl, hbefore, hafter, hheld⟩ := h
  refine ⟨before, after ++ [e], u, ?_, hbefore, hafter.snoc hstep, hheld⟩
  rw [List.append_assoc]

/-- What the file holds now, it held at a moment of the run. -/
theorem Held.now {w₁ w₂ : World ρ χ} {es : List (WorldEvent χ)} {records : List ρ}
    (hrun : Run (Event kind) w₁ es w₂) (h : kind.recordsOf w₂.file = .ok records) :
    Held kind w₁ es w₂ records :=
  ⟨es, [], w₂, (List.append_nil es).symm, hrun, .nil w₂, h⟩

/-- The candidate of a phase that has written it. -/
def Phase.placed : Phase ρ χ → Option (List ρ)
  | .written _ candidate => some candidate
  | _ => none

omit [DecidableEq ρ] in
@[simp]
theorem proceed_placed (p : Proc ρ χ) (change : Option χ) :
    Phase.placed (kind.proceed p change).1.phase = none := by
  cases change with
  | none => rfl
  | some change => cases h : kind.apply change p.records <;> simp only [Kind.proceed, h, Phase.placed]

/-- The records in memory after a file operation are those before it, those of the file
or the candidate that was put in place; a candidate is put in place by writing it. -/
theorem step_records {p p' : Proc ρ χ} {e : FileEvent χ} {r : Option (Returned χ)}
    (hquiet : Quiet kind { file, proc := p } (.own e))
    (h : kind.step file p e = some (file', p', r)) :
    (p'.records = p.records ∨ kind.recordsOf file = .ok p'.records ∨
      Phase.placed p.phase = some p'.records) ∧
    ∀ candidate, Phase.placed p'.phase = some candidate →
      kind.recordsOf file' = .ok candidate := by
  cases e with
  | loadRead =>
    simp only [Kind.step] at h
    split at h
    · cases h
      exact ⟨.inr (.inl rfl), nofun⟩
    · rename_i hphase
      split at h
      · cases h
        exact ⟨.inl rfl, nofun⟩
      · cases h
        refine ⟨.inl rfl, fun _ hplaced => ?_⟩
        rw [hphase] at hplaced
        cases hplaced
    · cases h
  | loadStat =>
    simp only [Kind.step] at h
    split at h
    · rename_i records hphase
      cases h
      exact ⟨.inr (.inl (hquiet records hphase)), nofun⟩
    · cases h
  | call change =>
    simp only [Kind.step] at h
    split at h
    · split at h
      · obtain ⟨rfl, rfl, -⟩ : file = file' ∧ (kind.proceed p change).1 = p' ∧ _ := by
          simpa only [Option.some.injEq, Prod.ext_iff] using h
        simp
      · cases h
        exact ⟨.inl rfl, nofun⟩
    · cases h
  | read =>
    simp only [Kind.step] at h
    split at h
    · split at h
      · cases h
        exact ⟨.inl rfl, nofun⟩
      · rename_i records hread
        obtain ⟨rfl, rfl, -⟩ : file = file' ∧ (kind.proceed _ _).1 = p' ∧ _ := by
          simpa only [Option.some.injEq, Prod.ext_iff] using h
        simp [hread]
    · cases h
  | write fp =>
    simp only [Kind.step] at h
    split at h
    · split at h
      · rename_i records hread
        split at h
        · rename_i hsame
          cases h
          refine ⟨.inl rfl, ?_⟩
          rintro _ ⟨⟩
          exact hsame ▸ hread
        · cases h
      · cases h
    · cases h
  | stat =>
    simp only [Kind.step] at h
    split at h
    · rename_i change candidate hphase
      cases h
      refine ⟨.inr (.inr ?_), nofun⟩
      rw [hphase]
      rfl
    · cases h
  | fail assigned =>
    simp only [Kind.step] at h
    split at h
    · cases h
      exact ⟨.inl rfl, nofun⟩
    · cases h
      exact ⟨.inl rfl, nofun⟩
    · cases h
      exact ⟨.inl rfl, nofun⟩
    · rename_i change candidate hphase
      cases h
      refine ⟨?_, nofun⟩
      cases assigned with
      | true =>
        refine .inr (.inr ?_)
        rw [hphase]
        rfl
      | false => exact .inl rfl
    · cases h

/-- Over a run, the records in memory and the candidate that was put in place are those
of a moment of the run. -/
theorem run_held {w₁ w₂ : World ρ χ} {es : List (WorldEvent χ)}
    (hrun : Run (Event kind) w₁ es w₂) (hidle : w₁.proc.phase = .idle)
    (hfresh : kind.recordsOf w₁.file = .ok w₁.proc.records) :
    Held kind w₁ es w₂ w₂.proc.records := by
  let I (es : List (WorldEvent χ)) (w : World ρ χ) : Prop :=
    Run (Event kind) w₁ es w ∧ Held kind w₁ es w w.proc.records ∧
      ∀ candidate, Phase.placed w.proc.phase = some candidate → Held kind w₁ es w candidate
  have hstep : ∀ es s e s', I es s → Event kind s e s' → I (es ++ [e]) s' := by
    intro es s e s' hI hevent
    obtain ⟨hbefore, hrecords, hplaced⟩ := hI
    have hafter := hbefore.snoc hevent
    obtain ⟨hquiet, hsteps⟩ := id hevent
    cases e with
    | own e =>
      obtain ⟨⟨file', p', r⟩, hown, hs'⟩ := Option.map_eq_some_iff.mp hsteps
      cases hs'
      obtain ⟨hkept, hput⟩ := step_records hquiet hown
      refine ⟨hafter, ?_, fun candidate hcandidate => .now hafter (hput candidate hcandidate)⟩
      rcases hkept with hsame | hread | hwritten
      · exact hsame ▸ hrecords.snoc hevent
      · exact (Held.now hbefore hread).snoc hevent
      · exact (hplaced _ hwritten).snoc hevent
    | foreign file =>
      cases hsteps
      exact ⟨hafter, hrecords.snoc hevent,
        fun candidate hcandidate => (hplaced candidate hcandidate).snoc hevent⟩
  have hstart : I [] w₁ := by
    refine ⟨.nil w₁, .now (.nil w₁) hfresh, fun candidate hcandidate => ?_⟩
    rw [hidle] at hcandidate
    cases hcandidate
  exact (hrun.history hstep hstart).2.1

/-- A `refresh` that returned leaves the store idle. -/
theorem refreshed_idle {p p' : Proc ρ χ} {e : FileEvent χ}
    (h : kind.step file p e = some (file', p', some { call := none, ok := true })) :
    p'.phase = .idle ∧ file' = file := by
  cases e with
  | call change =>
    simp only [Kind.step] at h
    split at h
    · split at h
      · cases change with
        | none =>
          cases h
          exact ⟨rfl, rfl⟩
        | some change =>
          simp only [Kind.proceed] at h
          split at h <;> cases h
      · cases h
    · cases h
  | read =>
    simp only [Kind.step] at h
    split at h
    · rename_i change _
      split at h
      · cases h
      · cases change with
        | none =>
          cases h
          exact ⟨rfl, rfl⟩
        | some change =>
          simp only [Kind.proceed] at h
          split at h <;> cases h
    · cases h
  | loadRead | loadStat | write | stat | fail =>
    simp only [Kind.step] at h
    repeat' split at h
    all_goals cases h

theorem authenticate_record [Sha256] {tokens : List TokenRecord} {presented : String}
    {nowUnix : Int} {identity : TokenIdentity}
    (h : authenticate tokens presented nowUnix = .ok identity) :
    ∃ record ∈ tokens, record.digest = keyOf presented ∧ record.id = identity.id ∧
      record.expiresAt.all (fun deadline => nowUnix < deadline) := by
  unfold authenticate at h
  split at h
  · cases h
  · rename_i record hlast
    have hmem := List.mem_of_getLast? hlast
    obtain ⟨htokens, hdigest⟩ := List.mem_filter.mp hmem
    split at h
    · cases h
    · rename_i hlive
      cases h
      refine ⟨record, htokens, by simpa using hdigest, rfl, ?_⟩
      cases hexpires : record.expiresAt with
      | none => rfl
      | some deadline => simpa [hexpires] using hlive

/-- While fingerprints are taken of the data they are remembered with, a `refresh` that
returns `Ok` leaves in memory the records the file holds at its last file operation,
for users and for tokens; and a token is accepted only when a version that the file had
since the `refresh` began lists it. -/
theorem reads_fresh [Sha256] (users : Nat → Except AuthError (List UserRecord))
    (tokens : Nat → Except AuthError (List TokenRecord)) :
    (∀ init es w e file' p', Run (Event (usersKind users)) (unloaded init) es w →
      (usersKind users).step w.file w.proc e
        = some (file', p', some { call := none, ok := true }) →
      (usersKind users).recordsOf w.file = .ok p'.records) ∧
    (∀ init es w e file' p', Run (Event (tokensKind tokens)) (unloaded init) es w →
      (tokensKind tokens).step w.file w.proc e
        = some (file', p', some { call := none, ok := true }) →
      (tokensKind tokens).recordsOf w.file = .ok p'.records) ∧
    ∀ init es w e file' p' later w₂ presented nowUnix identity,
      Run (Event (tokensKind tokens)) (unloaded init) es w →
      (tokensKind tokens).step w.file w.proc e
        = some (file', p', some { call := none, ok := true }) →
      Run (Event (tokensKind tokens)) { file := file', proc := p' } later w₂ →
      authenticate w₂.proc.records presented nowUnix = .ok identity →
      ∃ before after u, later = before ++ after ∧
        Run (Event (tokensKind tokens)) { file := file', proc := p' } before u ∧
        Run (Event (tokensKind tokens)) u after w₂ ∧
        ∃ listed, (tokensKind tokens).recordsOf u.file = .ok listed ∧
          ∃ record ∈ listed, record.digest = keyOf presented ∧ record.id = identity.id ∧
            record.expiresAt.all (fun deadline => nowUnix < deadline) := by
  refine ⟨?_, ?_, ?_⟩
  · intro init es w e file' p' hrun hstep
    exact refreshed_records (run_trusts hrun) hstep
  · intro init es w e file' p' hrun hstep
    exact refreshed_records (run_trusts hrun) hstep
  · intro init es w e file' p' later w₂ presented nowUnix identity hrun hstep hlater haccepted
    have hfresh := refreshed_records (run_trusts hrun) hstep
    obtain ⟨hidle, rfl⟩ := refreshed_idle hstep
    obtain ⟨before, after, u, hsplit, hbefore, hafter, hheld⟩ := run_held hlater hidle hfresh
    exact ⟨before, after, u, hsplit, hbefore, hafter, _, hheld, authenticate_record haccepted⟩

namespace TokenSample

/-- A hash that keeps its input apart. -/
@[reducible] def sha256 : Sha256 where
  of bytes := { hex := String.ofList (bytes.map (fun byte => Char.ofNat byte.toNat)) }

def record (id secret : String) : TokenRecord :=
  letI := sha256
  { id, label := id, digest := keyOf secret, scope := { write := true }, created := "",
    expiresAt := none }

/-- The file before the other process comes, with the issued token and without the
revoked one. -/
def reading : Nat → Except AuthError (List TokenRecord)
  | 0 => .ok [record "t1" "first"]
  | 1 => .ok [record "t1" "first", record "t2" "second"]
  | 2 => .ok [record "t2" "second"]
  | _ => .error .invalidCredentials

def tokensStore : Kind TokenRecord TokenChange := tokensKind reading

/-- The revocation falls between the write of the issued token and the second
fingerprint. -/
def events : List (WorldEvent TokenChange) :=
  [.own .loadRead, .own .loadStat, .own (.call (some (.issue (record "t2" "second")))),
    .own (.write 1), .foreign (some 2), .own .stat]

/-- The store after them. -/
def stale : World TokenRecord TokenChange :=
  { file := some 2,
    proc := { records := [record "t1" "first", record "t2" "second"], fp := some 2,
              phase := .idle } }

/-- The same with the revocation after the second fingerprint, and a refresh under way. -/
def eventsApart : List (WorldEvent TokenChange) :=
  [.own .loadRead, .own .loadStat, .own (.call (some (.issue (record "t2" "second")))),
    .own (.write 1), .own .stat, .foreign (some 2), .own (.call none)]

/-- The store with the one token or with both, in some phase. -/
def one (file : Nat) (phase : Phase TokenRecord TokenChange) : World TokenRecord TokenChange :=
  { file := some file, proc := { records := [record "t1" "first"], fp := some 0, phase } }

def both (file : Nat) (phase : Phase TokenRecord TokenChange) : World TokenRecord TokenChange :=
  { file := some file,
    proc := { records := [record "t1" "first", record "t2" "second"], fp := some 1, phase } }

/-- The store after the refresh. -/
def refreshed : Proc TokenRecord TokenChange :=
  { records := [record "t2" "second"], fp := some 2, phase := .idle }

/-- The issued token before and after its rename. -/
def issuing : Phase TokenRecord TokenChange :=
  .writing (.issue (record "t2" "second")) [record "t1" "first", record "t2" "second"]

def issued : Phase TokenRecord TokenChange :=
  .written (.issue (record "t2" "second")) [record "t1" "first", record "t2" "second"]

theorem issue_step : worldStep tokensStore (one 0 .idle)
    (.own (.call (some (.issue (record "t2" "second"))))) = some (one 0 issuing) := by
  decide +kernel

theorem write_step :
    worldStep tokensStore (one 0 issuing) (.own (.write 1)) = some (one 1 issued) := by
  decide +kernel

end TokenSample

/-- Then `refresh` keeps the revoked token, which is accepted. -/
theorem revoked_token_accepted :
    letI := TokenSample.sha256
    exec (worldStep TokenSample.tokensStore) (unloaded (some 0)) TokenSample.events
      = some TokenSample.stale ∧
    TokenSample.tokensStore.step TokenSample.stale.file TokenSample.stale.proc (.call none)
      = some (TokenSample.stale.file, TokenSample.stale.proc, some { call := none, ok := true }) ∧
    (TokenSample.tokensStore.recordsOf TokenSample.stale.file).toOption
      = some [TokenSample.record "t2" "second"] ∧
    (authenticate TokenSample.stale.proc.records "first" 0).toOption
      = some { id := "t1", label := "t1", scopes := { write := true } } := by
  decide +kernel

/-- With the revocation after the second fingerprint the refresh reads what the file
holds, and the token it lists is accepted. -/
theorem reads_fresh_apart :
    letI := TokenSample.sha256
    TokenSample.tokensStore.recordsOf (some 2) = .ok TokenSample.refreshed.records ∧
    ∃ identity, authenticate TokenSample.refreshed.records "second" 0 = .ok identity ∧
      ∃ listed, TokenSample.tokensStore.recordsOf (some 2) = .ok listed ∧
        ∃ record ∈ listed, record.digest = keyOf "second" ∧ record.id = identity.id ∧
          record.expiresAt.all (fun deadline => 0 < deadline) := by
  let _ := TokenSample.sha256
  have hloaded : TokenSample.tokensStore.recordsOf (some 0) =
      .ok [TokenSample.record "t1" "first"] := rfl
  have hissued : TokenSample.tokensStore.recordsOf (some 1) =
      .ok [TokenSample.record "t1" "first", TokenSample.record "t2" "second"] := rfl
  have hrun : Run (Event TokenSample.tokensStore) (unloaded (some 0)) TokenSample.eventsApart
      (TokenSample.both 2 (.refreshing (some 2) none)) := by
    refine .cons ⟨trivial, rfl⟩ (.cons ⟨?_, rfl⟩
      (.cons ⟨trivial, TokenSample.issue_step⟩ (.cons ⟨?_, TokenSample.write_step⟩ (.cons ⟨?_, rfl⟩
        (.cons ⟨?_, rfl⟩ (.cons ⟨trivial, rfl⟩ (.nil _)))))))
    · rintro _ ⟨⟩
      exact hloaded
    · rintro ⟨⟩
    · rintro _ _ ⟨⟩
      exact hissued
    · rintro ⟨⟩
  obtain ⟨-, hfresh, haccepted⟩ := reads_fresh (fun _ => .ok []) TokenSample.reading
  have haccepts : (authenticate TokenSample.refreshed.records "second" 0).toOption.isSome = true := by
    decide +kernel
  obtain ⟨identity, hidentity⟩ := Option.isSome_iff_exists.mp haccepts
  have hidentity := eq_ok_of_toOption hidentity
  refine ⟨hfresh _ _ _ .read _ TokenSample.refreshed hrun rfl, identity, hidentity, ?_⟩
  obtain ⟨before, after, u, hsplit, hbefore, -, hlisted⟩ :=
    haccepted _ _ _ .read _ TokenSample.refreshed [] _ "second" 0 _ hrun rfl (.nil _) hidentity
  obtain ⟨rfl, rfl⟩ := List.append_eq_nil_iff.mp hsplit.symm
  cases hbefore
  exact hlisted

end Detent.Guarantees.CredentialReads
