import Detent.Source.Modules

/-!
# Where the targets come from

Every entry of the target table is declared by a module at some ordinal, and its
backup directory is made of the two. So two entries with one backup directory
have one path, and in the modules of a build two entries with one path belong to
one module.
-/
namespace Detent.Guarantees
open Source Source.Modules

/-- `entry` is the target of `modules` at some ordinal of its module. -/
structure DeclaredBy (modules : List ModuleDescriptor) (entry : TargetEntry)
    (descriptor : ModuleDescriptor) (ordinal : Nat) : Prop where
  module : modules[entry.module.get]? = some descriptor
  path : (descriptor.targets.map (·.path))[ordinal]? = some entry.path
  dir : entry.backupDir = backupDirFor descriptor.id ++ "/" ++ toString ordinal

def Declared (modules : List ModuleDescriptor) (entry : TargetEntry) : Prop :=
  ∃ descriptor ordinal, DeclaredBy modules entry descriptor ordinal

variable {entry : TargetEntry} {descriptor : ModuleDescriptor}

theorem Declared.append {modules : List ModuleDescriptor} (h : Declared modules entry)
    (later : List ModuleDescriptor) : Declared (modules ++ later) entry := by
  obtain ⟨descriptor, ordinal, hby⟩ := h
  have hlt := (List.getElem?_eq_some_iff.mp hby.module).1
  have hmodule : (modules ++ later)[entry.module.get]? = some descriptor := by
    rw [List.getElem?_append_left hlt]
    exact hby.module
  exact ⟨descriptor, ordinal, hmodule, hby.path, hby.dir⟩

theorem addTargets_entries {module : ModuleId} {ordinal : Nat} {targets : List Target}
    {table table' : TargetTable}
    (h : addTargets module descriptor ordinal targets table = .ok table') :
    ∀ entry ∈ table'.entries, entry ∈ table.entries ∨
      entry.module = module ∧ ∃ i, (targets.map (·.path))[i]? = some entry.path ∧
        entry.backupDir = backupDirFor descriptor.id ++ "/" ++ toString (ordinal + i) := by
  induction targets generalizing ordinal table with
  | nil =>
    cases h
    exact fun entry hentry => .inl hentry
  | cons target targets ih =>
    intro entry hentry
    simp only [addTargets, narrowU16] at h
    split at h
    · split at h
      · rcases ih h entry hentry with hpushed | ⟨hmodule, i, hpath, hdir⟩
        · rcases List.mem_append.mp hpushed with hold | hnew
          · exact .inl hold
          · obtain rfl := List.mem_singleton.mp hnew
            exact .inr ⟨rfl, 0, rfl, rfl⟩
        · have hcount : ordinal + 1 + i = ordinal + (i + 1) := by omega
          rw [hcount] at hdir
          exact .inr ⟨hmodule, i + 1, hpath, hdir⟩
      · cases h
    · cases h

/-- The tables hold the modules so far, and what these declare. -/
structure TablesOf (modules : List ModuleDescriptor) (tables : Tables) : Prop where
  same : tables.modules = modules
  declared : ∀ entry ∈ tables.targets.entries, Declared modules entry

theorem addModule_tablesOf {modules : List ModuleDescriptor} {tables tables' : Tables}
    (htables : TablesOf modules tables) (h : addModule tables descriptor = .ok tables') :
    TablesOf (modules ++ [descriptor]) tables' := by
  simp only [addModule, narrowU16] at h
  split at h
  · split at h
    · cases h
    · rcases htargets : addTargets ⟨tables.modules.length⟩ descriptor 0 descriptor.targets
          tables.targets with err | table
      · simp only [bind, Except.bind, htargets] at h
        cases h
      · simp only [pure, Except.pure, bind, Except.bind, htargets] at h
        split at h
        · cases h
        · split at h
          · cases h
          · cases h
            constructor
            · simp [htables.same]
            · intro entry hentry
              rcases addTargets_entries htargets entry hentry with hold | ⟨hmodule, i, hpath, hdir⟩
              · exact (htables.declared entry hold).append [descriptor]
              · rw [Nat.zero_add] at hdir
                have hget : (modules ++ [descriptor])[entry.module.get]? = some descriptor := by
                  rw [hmodule, htables.same]
                  exact List.getElem?_concat_length
                exact ⟨descriptor, i, hget, hpath, hdir⟩
  · cases h

theorem foldlM_tablesOf {modules : List ModuleDescriptor} {tables tables' : Tables}
    (later : List ModuleDescriptor) (htables : TablesOf modules tables)
    (h : later.foldlM addModule tables = .ok tables') : TablesOf (modules ++ later) tables' := by
  induction later generalizing modules tables with
  | nil =>
    cases h
    rw [List.append_nil]
    exact htables
  | cons descriptor later ih =>
    rw [List.foldlM_cons] at h
    rcases hadd : addModule tables descriptor with err | next
    · rw [hadd] at h
      cases h
    · rw [hadd] at h
      have hnext := ih (addModule_tablesOf htables hadd) h
      rwa [List.append_assoc] at hnext

theorem fromModules_tablesOf {modules : List ModuleDescriptor} {config : Config} {allow : Allowlist}
    (h : Allowlist.fromModules modules config = .ok allow) : TablesOf modules allow.toTables := by
  unfold Allowlist.fromModules at h
  rcases hfold : modules.foldlM addModule
      { modules := [], targets := TargetTable.empty, checks := [], bindings := [] } with err | tables
  · rw [hfold] at h
    cases h
  · rw [hfold] at h
    cases h
    exact foldlM_tablesOf modules ⟨rfl, fun entry hentry => absurd hentry List.not_mem_nil⟩ hfold

theorem split_at_last {α : Type} {a : α} {front front' back back' : List α} (hback : a ∉ back)
    (hback' : a ∉ back') (h : front ++ a :: back = front' ++ a :: back') :
    front = front' ∧ back = back' := by
  rcases List.append_eq_append_iff.mp h with ⟨between, hfront, hrest⟩ | ⟨between, hfront, hrest⟩
  · cases between with
    | nil => exact ⟨by simpa using hfront.symm, by simpa using hrest⟩
    | cons b between =>
      rw [List.cons_append, List.cons.injEq] at hrest
      exact absurd (hrest.2 ▸ by simp) hback
  · cases between with
    | nil => exact ⟨by simpa using hfront, by simpa using hrest.symm⟩
    | cons b between =>
      rw [List.cons_append, List.cons.injEq] at hrest
      exact absurd (hrest.2 ▸ by simp) hback'

theorem slash_not_mem_ordinal (n : Nat) : '/' ∉ (toString n).toList := by
  intro hmem
  rw [Nat.toString_eq_repr, Nat.toList_repr] at hmem
  have hdigit := Nat.isDigit_of_mem_toDigits (by decide) (by decide) hmem
  exact absurd hdigit (by decide)

theorem ordinal_injective {n n' : Nat} (h : (toString n).toList = (toString n').toList) : n = n' := by
  rw [Nat.toString_eq_repr, Nat.toString_eq_repr, Nat.toList_repr, Nat.toList_repr] at h
  have hvalue := congrArg (fun digits => Nat.ofDigitChars 10 digits 0) h
  simpa only [Nat.ofDigitChars_ten_toDigits] using hvalue

/-- A backup directory names its module and the ordinal of its target. -/
theorem backupDir_injective {id id' : String} {n n' : Nat}
    (h : backupDirFor id ++ "/" ++ toString n = backupDirFor id' ++ "/" ++ toString n') :
    id = id' ∧ n = n' := by
  have hlist := congrArg String.toList h
  simp only [backupDirFor, String.toList_append] at hlist
  have hslash : ("backups/".toList ++ id.toList) ++ '/' :: (toString n).toList =
      ("backups/".toList ++ id'.toList) ++ '/' :: (toString n').toList := by
    simpa using hlist
  have hsplit := split_at_last (slash_not_mem_ordinal n) (slash_not_mem_ordinal n') hslash
  exact ⟨String.toList_inj.mp (List.append_cancel_left hsplit.1), ordinal_injective hsplit.2⟩

section Compiled

variable {modules : List ModuleDescriptor}

theorem registry_ids_distinct : (registry.map (·.1)).Nodup := by decide +kernel

theorem row_mem {index : Nat} (hcompiled : Compiled modules)
    (h : modules[index]? = some descriptor) : row descriptor ∈ registry :=
  hcompiled.subset (List.mem_map_of_mem (List.mem_of_getElem? h))

/-- Two modules of a build with one id declare the same paths. -/
theorem row_unique {left right : String × List Path} (hleft : left ∈ registry)
    (hright : right ∈ registry) (h : left.1 = right.1) : left = right :=
  List.inj_on_of_nodup_map registry_ids_distinct hleft hright h

theorem registry_paths_distinct : ∀ left ∈ registry, ∀ right ∈ registry, ∀ path ∈ left.2,
    path ∈ right.2 → left.1 = right.1 := by decide +kernel

/-- Entries with one backup directory have one path. -/
theorem dirs_apart {other : TargetEntry} (hcompiled : Compiled modules)
    (hentry : Declared modules entry) (hother : Declared modules other)
    (h : entry.backupDir = other.backupDir) : entry.path = other.path := by
  obtain ⟨descriptor, ordinal, hby⟩ := hentry
  obtain ⟨descriptor', ordinal', hby'⟩ := hother
  rw [hby.dir, hby'.dir] at h
  obtain ⟨hid, rfl⟩ := backupDir_injective h
  have hrow := row_unique (row_mem hcompiled hby.module) (row_mem hcompiled hby'.module) hid
  have hpaths : descriptor.targets.map (·.path) = descriptor'.targets.map (·.path) :=
    congrArg Prod.snd hrow
  have hpath := hby.path
  rw [hpaths, hby'.path] at hpath
  exact (Option.some.inj hpath).symm

/-- Entries with one path belong to modules with one id. -/
theorem paths_apart {other : TargetEntry} {descriptor' : ModuleDescriptor}
    (hcompiled : Compiled modules) (hentry : Declared modules entry)
    (hother : Declared modules other) (hmodule : modules[entry.module.get]? = some descriptor)
    (hmodule' : modules[other.module.get]? = some descriptor') (h : entry.path = other.path) :
    descriptor.id = descriptor'.id := by
  obtain ⟨found, ordinal, hby⟩ := hentry
  obtain ⟨found', ordinal', hby'⟩ := hother
  obtain rfl : found = descriptor := Option.some.inj (hby.module.symm.trans hmodule)
  obtain rfl : found' = descriptor' := Option.some.inj (hby'.module.symm.trans hmodule')
  have hmem : entry.path ∈ (row found).2 := List.mem_of_getElem? hby.path
  have hmem' : entry.path ∈ (row found').2 := h ▸ List.mem_of_getElem? hby'.path
  exact registry_paths_distinct _ (row_mem hcompiled hmodule) _ (row_mem hcompiled hmodule') _ hmem
    hmem'

end Compiled

end Detent.Guarantees
