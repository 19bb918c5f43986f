import Detent.Guarantees.MountTurns
import Detent.Source.AddedMounts

/-!
# The names of started mounts

A mount unit is named after its mount point. The name decodes to the path that was checked
against the protected ones, so what is started is what was checked.
-/
namespace Detent.Guarantees.MountNames
open Lib Lib.Text Source Source.ExecDeny Source.Mounts
open Source.AddedMounts MountTurns

/-- The digit of a hexadecimal character in lower case. -/
def digitOf (c : Char) : Nat := if c.toNat < 97 then c.toNat - 48 else c.toNat - 87

/-- The bytes that a unit name escapes. -/
def unescape : Text → Bytes
  | '\\' :: 'x' :: high :: low :: rest => UInt8.ofNat (16 * digitOf high + digitOf low) :: unescape rest
  | '-' :: rest => 47 :: unescape rest
  | c :: rest => UInt8.ofNat c.toNat :: unescape rest
  | [] => []

/-- The path that a mount unit is named after. -/
def pathOf (name : Text) : Option Text :=
  (mountStem name).bind (fun stem =>
    if stem = ['-'] then some ['/'] else ofUtf8 (47 :: unescape stem))

theorem unescape_plain {c : Char} (hback : c ≠ '\\') (hdash : c ≠ '-') (rest : Text) :
    unescape (c :: rest) = UInt8.ofNat c.toNat :: unescape rest := by
  rw [unescape.eq_def]
  split
  · rename_i heq
    exact absurd (List.cons.inj heq).1 hback
  · rename_i heq
    exact absurd (List.cons.inj heq).1 hdash
  · rename_i heq
    obtain ⟨rfl, rfl⟩ := List.cons.inj heq
    rfl
  · rename_i heq
    cases heq

theorem digitOf_digitChar {n : Nat} (h : n < 16) : digitOf (Nat.digitChar n) = n := by
  have hall : ∀ m : Fin 16, digitOf (Nat.digitChar m) = m := by decide
  exact hall ⟨n, h⟩

/-- One escaped byte reads back, whatever follows. -/
theorem unescape_escapeByte (first : Bool) (byte : UInt8) (rest : Text) :
    unescape (escapeByte first byte ++ rest) = byte :: unescape rest := by
  have hchar : (Char.ofNat byte.toNat).toNat = byte.toNat :=
    toNat_ofNat (by have := byte.toNat_lt; omega)
  simp only [escapeByte]
  split
  · rename_i hslash
    rw [hslash] at hchar
    have hbyte : byte = 47 := UInt8.toNat_inj.mp hchar.symm
    rw [hbyte]
    rfl
  · split
    · rename_i hplain
      rw [List.singleton_append, unescape_plain]
      · rw [hchar, UInt8.ofNat_toNat]
      · intro hback
        rw [hback] at hplain
        revert hplain
        cases first <;> decide
      · intro hdash
        rw [hdash] at hplain
        revert hplain
        cases first <;> decide
    · have hlt := byte.toNat_lt
      have hvalue : 16 * (byte.toNat / 16) + byte.toNat % 16 = byte.toNat := by omega
      change UInt8.ofNat (16 * digitOf _ + digitOf _) :: unescape rest = _
      rw [digitOf_digitChar (by omega), digitOf_digitChar (by omega), hvalue, UInt8.ofNat_toNat]

theorem unescape_escaped (bytes : Bytes) :
    unescape (bytes.flatMap (escapeByte false)) = bytes := by
  induction bytes with
  | nil => rfl
  | cons byte bytes ih => rw [List.flatMap_cons, unescape_escapeByte, ih]

theorem normalParts_plain : ∀ {parts rest : List Text}, normalParts parts = some rest →
    ∀ part ∈ rest, part ≠ [] ∧ part ∈ parts
  | [], rest, h => by
    obtain rfl := Option.some.inj h
    simp
  | part :: parts, rest, h => by
    rw [normalParts] at h
    split at h
    · intro other hother
      obtain ⟨hne, hin⟩ := normalParts_plain h other hother
      exact ⟨hne, List.mem_cons_of_mem _ hin⟩
    · rename_i hkeep
      split at h
      · cases h
      · obtain ⟨tail, htail, rfl⟩ := Option.map_eq_some_iff.mp h
        intro other hother
        rcases List.mem_cons.mp hother with rfl | hother
        · refine ⟨?_, List.mem_cons_self⟩
          rintro rfl
          simp at hkeep
        · obtain ⟨hne, hin⟩ := normalParts_plain htail other hother
          exact ⟨hne, List.mem_cons_of_mem _ hin⟩

/-- A normalized mount point is absolute, and one `/` starts it. -/
theorem normalizedMountpoint_absolute {raw path : Text} (h : normalizedMountpoint raw = some path) :
    ∃ rest, path = '/' :: rest ∧ rest.head? ≠ some '/' := by
  rw [normalizedMountpoint] at h
  split at h
  · cases h
  · split at h
    · cases h
    · rename_i rest _
      obtain ⟨parts, hparts, rfl⟩ := Option.map_eq_some_iff.mp h
      refine ⟨join ['/'] parts, rfl, ?_⟩
      cases parts with
      | nil => simp [join]
      | cons part parts =>
        obtain ⟨hne, hin⟩ := normalParts_plain hparts part List.mem_cons_self
        obtain ⟨c, part, rfl⟩ := List.exists_cons_of_ne_nil hne
        have hslash := not_mem_of_mem_splitOn '/' rest _ hin
        have hc : c ≠ '/' := fun hc => hslash (by simp [hc])
        cases parts with
        | nil | cons => simpa [join] using hc

example : (normalizedMountpoint (lit "/srv//my\\040disk/.")).map escapePath =
    some (lit "srv-my\\x20disk") := by decide

/-- The name of a normalized path reads back as the path. -/
theorem stem_reads {rest : Text} (h : rest.head? ≠ some '/') :
    (if escapePath ('/' :: rest) = ['-'] then some ['/']
      else ofUtf8 (47 :: unescape (escapePath ('/' :: rest)))) = some ('/' :: rest) := by
  have hdrop : ('/' :: rest).dropWhile (· == '/') = rest := by
    cases rest with
    | nil => rfl
    | cons c rest =>
      have hc : c ≠ '/' := by simpa using h
      simp [hc]
  rw [escapePath, hdrop]
  cases hbytes : utf8 rest with
  | nil =>
    have hempty : rest = [] := by
      have hread := ofUtf8_utf8 rest
      rw [hbytes] at hread
      exact (Option.some.inj hread).symm.trans (by rfl)
    rw [if_pos rfl, hempty]
  | cons byte bytes =>
    have hunescape : unescape (escapeByte true byte ++ bytes.flatMap (escapeByte false)) =
        utf8 rest := by
      rw [unescape_escapeByte, unescape_escaped, hbytes]
    have hname : escapeByte true byte ++ bytes.flatMap (escapeByte false) ≠ ['-'] := by
      intro hdash
      rw [hdash] at hunescape
      have hread := ofUtf8_utf8 rest
      rw [← hunescape] at hread
      have hslash : ofUtf8 (unescape ['-']) = some ['/'] := by decide
      rw [hslash] at hread
      exact h (by rw [← Option.some.inj hread]; rfl)
    rw [if_neg hname, hunescape]
    exact ofUtf8_utf8 ('/' :: rest)

theorem mountStem_mount (stem : Text) : mountStem (stem ++ lit ".mount") = some stem := by
  have hsuffix : (".mount".toList.isSuffixOf (stem ++ lit ".mount")) = true :=
    List.isSuffixOf_iff_suffix.mpr (List.suffix_append _ _)
  have htake : (stem ++ lit ".mount").take ((stem ++ lit ".mount").length - ".mount".toList.length) =
      stem := by
    rw [List.length_append, lit, Nat.add_sub_cancel, List.take_left]
  rw [mountStem]
  dsimp only
  rw [if_pos hsuffix, htake]
  rfl

theorem mountStem_automount (stem : Text) : mountStem (stem ++ lit ".automount") = some stem := by
  have hsuffix : (".automount".toList.isSuffixOf (stem ++ lit ".automount")) = true :=
    List.isSuffixOf_iff_suffix.mpr (List.suffix_append _ _)
  have hother : ¬ (".mount".toList.isSuffixOf (stem ++ lit ".automount")) = true := by
    intro h
    have hshort := List.suffix_of_suffix_length_le (List.isSuffixOf_iff_suffix.mp h)
      (List.suffix_append stem (lit ".automount")) (by decide)
    revert hshort
    decide
  have htake : (stem ++ lit ".automount").take
      ((stem ++ lit ".automount").length - ".automount".toList.length) = stem := by
    rw [List.length_append, lit, Nat.add_sub_cancel, List.take_left]
  rw [mountStem]
  dsimp only
  rw [if_neg hother, if_pos hsuffix, htake]
  rfl

theorem pathOf_unitOf {raw path : Text} (h : normalizedMountpoint raw = some path) (entry : Entry) :
    pathOf (unitOf entry path).unit.toList = some path := by
  obtain ⟨rest, rfl, hrest⟩ := normalizedMountpoint_absolute h
  have hread := stem_reads hrest
  rw [unitOf, String.toList_ofList, pathOf]
  split
  · rw [mountStem_automount]
    exact hread
  · rw [mountStem_mount]
    exact hread

/-- Units named after their normalized mount points. -/
def Named (unit : MountUnit) : Prop :=
  ∃ raw path entry, normalizedMountpoint raw = some path ∧ unit = unitOf entry path

theorem addEntry_named (before : List Entry) {units : List MountUnit} (entry : Entry)
    (h : ∀ unit ∈ units, Named unit) : ∀ unit ∈ addEntry before units entry, Named unit := by
  rw [addEntry]
  split
  · exact h
  · split
    · exact h
    · rename_i path hpath
      dsimp only
      split
      · exact h
      · intro unit hunit
        rcases List.mem_append.mp hunit with hunit | hunit
        · exact h unit hunit
        · obtain rfl := List.mem_singleton.mp hunit
          exact ⟨entry.mountpoint, path, entry, hpath, rfl⟩

theorem addedMounts_named (previous current : Text) :
    ∀ unit ∈ addedMounts previous current, Named unit := by
  have hfold : ∀ (before entries : List Entry) (units : List MountUnit),
      (∀ unit ∈ units, Named unit) →
        ∀ unit ∈ entries.foldl (addEntry before) units, Named unit := by
    intro before entries
    induction entries with
    | nil =>
      intro units h
      exact h
    | cons entry entries ih =>
      intro units h
      exact ih _ (addEntry_named before entry h)
  exact hfold _ _ [] (by simp)

theorem Named.pathOf_eq {unit : MountUnit} (h : Named unit) :
    pathOf unit.unit.toList = some unit.mountpoint.toList := by
  obtain ⟨raw, path, entry, hpath, rfl⟩ := h
  rw [pathOf_unitOf hpath]
  simp [unitOf]

theorem Named.absolute {unit : MountUnit} (h : Named unit) :
    unit.mountpoint.toList.head? = some '/' := by
  obtain ⟨raw, path, entry, hpath, rfl⟩ := h
  obtain ⟨rest, rfl, -⟩ := normalizedMountpoint_absolute hpath
  simp [unitOf]

/-- Two paths neither of which is at or below the other. -/
def Apart (p q : String) : Prop :=
  ¬ components p <+: components q ∧ ¬ components q <+: components p

/-- A unit of an absolute path that is not the root and is apart from the protected ones. -/
def Safe (shelter : List Path) (name : String) : Prop :=
  ∃ path : String, pathOf name.toList = some path.toList ∧ path.toList.head? = some '/' ∧
    path ≠ "/" ∧ ∀ guarded ∈ shelter, Apart path guarded

theorem safe_of_named {unit : MountUnit} {shelter : List Path} (h : Named unit)
    (hfree : covers unit.mountpoint shelter = false) : Safe shelter unit.unit := by
  simp only [covers, Bool.or_eq_false_iff, beq_eq_false_iff_ne, List.any_eq_false,
    Bool.not_eq_true] at hfree
  refine ⟨unit.mountpoint, h.pathOf_eq, h.absolute, hfree.1, ?_⟩
  intro guarded hguarded
  obtain ⟨hbelow, habove⟩ := hfree.2 guarded hguarded
  constructor
  · intro hprefix
    rw [List.isPrefixOf_iff_prefix.mpr hprefix] at hbelow
    cases hbelow
  · intro hprefix
    rw [List.isPrefixOf_iff_prefix.mpr hprefix] at habove
    cases habove

section Started

variable [Sha256] (rs : RunnerSetup) (allow : Allowlist)

/-- What is to be started comes from the module, and hides no protected path. -/
theorem toStart_uncovered {target : TargetId} {tick : Nat} {f : Files} {active : List String}
    {plan : Plan} (h : planStart rs allow target tick f active = .ok plan) :
    ∃ previous current, ∀ unit ∈ plan.toStart, unit ∈ rs.added previous current ∧
      covers unit.mountpoint rs.shelter = false := by
  obtain ⟨entry, hentry, h⟩ := ok_of_bind h
  obtain ⟨current, hcurrent, h⟩ := ok_of_bind h
  obtain ⟨previous, hprevious, h⟩ := ok_of_bind h
  obtain ⟨previousText, -, h⟩ := ok_of_bind h
  obtain ⟨currentText, -, h⟩ := ok_of_bind h
  obtain ⟨before, -, h⟩ := ok_of_bind h
  cases h
  refine ⟨previousText, currentText, fun unit hunit => ?_⟩
  obtain ⟨hadded, hfree⟩ := List.mem_filter.mp (List.mem_of_mem_filter hunit)
  exact ⟨hadded, by simpa using hfree⟩

/-- **Mount activation names what it checked.** Escaping keeps normalized mount points apart,
so units of distinct mount points are distinct; and every unit a start asks for is named after
an absolute path that is not the root and is apart from every protected path. -/
theorem mount_names_exact (stateRoot : Path) (exeDir : Option Path) :
    (∀ raw raw' path path', normalizedMountpoint raw = some path →
      normalizedMountpoint raw' = some path' → escapePath path = escapePath path' → path = path') ∧
    (∀ previous current, ∀ unit ∈ addedMounts previous current,
      ∀ unit' ∈ addedMounts previous current,
        unit.mountpoint ≠ unit'.mountpoint → unit.unit ≠ unit'.unit) ∧
    (∀ target tick f r, ∃ names,
      (startAdded { rs with added := addedMounts, shelter := protectedPaths stateRoot exeDir } allow
        target tick f r).2.active = r.active ++ names ∧
      ∀ name ∈ names, Safe (protectedPaths stateRoot exeDir) name) := by
  refine ⟨?_, ?_, ?_⟩
  · intro raw raw' path path' h h' hsame
    obtain ⟨rest, rfl, hrest⟩ := normalizedMountpoint_absolute h
    obtain ⟨rest', rfl, hrest'⟩ := normalizedMountpoint_absolute h'
    have hread := stem_reads hrest
    rw [hsame, stem_reads hrest'] at hread
    exact (Option.some.inj hread).symm
  · intro previous current unit hunit unit' hunit' hne hsame
    have hpath := (addedMounts_named previous current unit hunit).pathOf_eq
    rw [hsame, (addedMounts_named previous current unit' hunit').pathOf_eq] at hpath
    exact hne (String.toList_inj.mp (Option.some.inj hpath).symm)
  · intro target tick f r
    rcases startAdded_cases { rs with added := addedMounts, shelter := protectedPaths stateRoot exeDir }
      allow target tick f r with hsame | ⟨plan, hplan, hstarted⟩
    · exact ⟨[], by rw [hsame, List.append_nil], by simp⟩
    · obtain ⟨previous, current, hunits⟩ := toStart_uncovered _ allow hplan
      refine ⟨plan.toStart.map (·.unit), by rw [hstarted], ?_⟩
      intro name hname
      obtain ⟨unit, hunit, rfl⟩ := List.mem_map.mp hname
      obtain ⟨hadded, hfree⟩ := hunits unit hunit
      exact safe_of_named (addedMounts_named previous current unit hadded) hfree

end Started

end Detent.Guarantees.MountNames
