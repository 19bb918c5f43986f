import Mathlib.Data.Set.Finite.Basic
import Detent.Source.Samba
import Detent.Source.Nfs
import Detent.Guarantees.ContinuationLosses

/-!
# Backslash continuations in `smb.conf` and `exports`

The edits of both modules keep the continued lines of a text exactly when no
entry of it continues a line, nothing open ends the file or a section that a new
line can follow, and no empty line before unterminated entries closes a continued
one.
-/
namespace Detent.Guarantees.ContinuedEntries
open Lib Lib.Text Lib.LogicalLines Source Source.Doc
open Continuations ContinuationLosses

variable {raw : Text}

theorem checkRaw_of_any (h : raw.any (fun c => c == '\n' || c == '\r' || c == '\x00') = false) :
    checkRaw raw = .ok () := by
  rw [checkRaw, if_neg (by simp [h])]

/-- A list holds only some of the values of an injective sequence. -/
theorem exists_not_mem {α : Type} {f : Nat → α} (hinj : Function.Injective f) (avoid : List α) :
    ∃ n, f n ∉ avoid := by
  by_contra hall
  have hmem : ∀ n, f n ∈ avoid := by
    intro n
    by_contra hnot
    exact hall ⟨n, hnot⟩
  exact Set.infinite_of_injective_forall_mem hinj hmem avoid.finite_toSet

section Smb

def samba : Format Samba.Entry :=
  ⟨Samba.classify, Samba.parseEntry, Samba.renderLine, Samba.opensSection⟩

theorem parseEntry_ends_backslash (h : raw.getLast? = some '\\') : Samba.parseEntry raw = none := by
  rw [Samba.parseEntry, if_pos (getLast?_trim h (by decide))]

/-- What an entry says about the line it was read from. -/
theorem parseEntry_some {entry : Samba.Entry} (h : Samba.parseEntry raw = some entry) :
    trim raw ≠ [] ∧ (entry.sectionName = none → entry.key ≠ [] ∧ trim entry.key = entry.key) := by
  rw [Samba.parseEntry] at h
  by_cases hslash : (trim raw).getLast? = some '\\'
  · simp [hslash] at h
  · simp only [hslash, if_false] at h
    cases hbracket : Samba.bracketed (trim raw) with
    | some inner =>
      simp only [hbracket] at h
      refine ⟨fun hnil => by simp [hnil, Samba.bracketed] at hbracket, fun hnone => ?_⟩
      by_cases hempty : (trim inner).isEmpty = true
      · simp [hempty] at h
      · simp only [hempty] at h
        rw [← Option.some.inj h] at hnone
        cases hnone
    | none =>
      simp only [hbracket] at h
      cases hsplit : splitOnceP (· == '=') (trim raw) with
      | none => simp [hsplit] at h
      | some pair =>
        obtain ⟨key, value⟩ := pair
        simp only [hsplit] at h
        refine ⟨fun hnil => by simp [hnil, splitOnceP] at hsplit, fun _ => ?_⟩
        by_cases hempty : (trim key).isEmpty = true
        · simp [hempty] at h
        · simp only [hempty] at h
          rw [← Option.some.inj h]
          exact ⟨fun hnil => hempty (by simpa using hnil), trim_idem key⟩

/-- A rendered entry begins its line with no white space and no comment mark. -/
theorem renderLine_ok {entry : Samba.Entry} (h : Samba.renderLine entry = .ok raw) :
    Samba.parseEntry raw = some entry ∧
      ∃ c rest, raw = c :: rest ∧ isWhitespace c = false ∧ Samba.isCommentMark c = false := by
  rw [Samba.renderLine] at h
  cases hrefused : Samba.refusal entry with
  | some err => simp [hrefused] at h
  | none =>
    simp only [hrefused] at h
    by_cases hbreak : (Samba.lineOf entry).any Samba.isBreak = true
    · simp [hbreak] at h
    · by_cases hparse : Samba.parseEntry (Samba.lineOf entry) = some entry
      · simp only [hbreak, hparse, if_true] at h
        obtain rfl : Samba.lineOf entry = raw := Except.ok.inj h
        refine ⟨hparse, ?_⟩
        obtain ⟨_, hkey⟩ := parseEntry_some hparse
        obtain ⟨sectionName, key, value⟩ := entry
        cases sectionName with
        | some name => exact ⟨'[', name ++ [']'], rfl, by decide, by decide⟩
        | none =>
          obtain ⟨hne, htrim⟩ := hkey rfl
          cases key with
          | nil => exact absurd rfl hne
          | cons c key =>
            have hwhite := trim_head (c :: key) c key htrim
            have hmark : Samba.isCommentMark c = false := by
              by_contra hmark
              rw [Bool.not_eq_false] at hmark
              simp [Samba.refusal, hmark] at hrefused
            refine ⟨c, (Samba.lineOf ⟨none, c :: key, value⟩).tail, ?_, hwhite, hmark⟩
            unfold Samba.lineOf
            by_cases hvalue : value.isEmpty = true
            all_goals simp [hvalue]
      · simp [hbreak, hparse] at h

theorem samba_lawful : samba.Lawful where
  joined := fun raw h => parseEntry_ends_backslash h
  rendered := by
    intro entry raw h
    obtain ⟨hparse, c, rest, rfl, hwhite, hmark⟩ := renderLine_ok h
    refine ⟨?_, hparse⟩
    have hstart : trimStart (c :: rest) = c :: rest := by simp [trimStart, hwhite]
    have hne := (parseEntry_some hparse).1
    show Samba.classify (c :: rest) = .directive
    rw [Samba.classify, if_neg (by simpa using hne), hstart, if_neg (by simp [hmark]), if_pos]
    rw [hparse]
    rfl
  carriage := by
    intro raw
    have htrim := trim_append_whitespace raw (show isWhitespace '\r' = true by decide)
    have hhead := head?_trimStart_append_whitespace raw (show isWhitespace '\r' = true by decide)
    have hparse : Samba.parseEntry (raw ++ ['\r']) = Samba.parseEntry raw := by
      rw [Samba.parseEntry, Samba.parseEntry, htrim]
    refine ⟨?_, hparse⟩
    show Samba.classify _ = Samba.classify _
    rw [Samba.classify, Samba.classify, htrim, hhead, hparse]
  empty := by decide

/-- A section that a file does not have. -/
def freshSection (n : Nat) : Samba.Entry := ⟨some (List.replicate (n + 1) 'x'), [], []⟩

theorem renderLine_freshSection (n : Nat) :
    Samba.renderLine (freshSection n) = .ok ('[' :: List.replicate (n + 1) 'x' ++ [']']) := by
  have hname : trim (List.replicate (n + 1) 'x') = List.replicate (n + 1) 'x' := by
    apply trim_eq_self
    · intro c hc
      rw [List.eq_of_mem_replicate (List.mem_of_head? hc)]
      decide
    · intro c hc
      rw [List.eq_of_mem_replicate (List.mem_of_getLast? hc)]
      decide
  have hlast : (List.replicate (n + 1) 'x').getLast? = some 'x' := by
    simp [List.getLast?_replicate]
  have hrefused : Samba.refusal (freshSection n) = none := by
    simp [Samba.refusal, freshSection, hlast]
  have hends : ('[' :: List.replicate (n + 1) 'x' ++ [']']).getLast? = some ']' :=
    List.getLast?_concat
  have htrim : trim ('[' :: List.replicate (n + 1) 'x' ++ [']']) =
      '[' :: List.replicate (n + 1) 'x' ++ [']'] := by
    apply trim_eq_self
    · intro c hc
      obtain rfl : '[' = c := by simpa using hc
      decide
    · intro c hc
      rw [hends] at hc
      obtain rfl : ']' = c := Option.some.inj hc
      decide
  have hparse : Samba.parseEntry ('[' :: List.replicate (n + 1) 'x' ++ [']']) =
      some (freshSection n) := by
    have hinner : Samba.bracketed ('[' :: List.replicate (n + 1) 'x' ++ [']']) =
        some (List.replicate (n + 1) 'x') := stripLast_append ']' _
    have hnot : ¬ ('[' :: List.replicate (n + 1) 'x' ++ [']']).getLast? = some '\\' := by
      rw [hends]
      decide
    rw [Samba.parseEntry, htrim, if_neg hnot, hinner]
    simp only [hname]
    simp [freshSection]
  have hline : Samba.lineOf (freshSection n) = '[' :: List.replicate (n + 1) 'x' ++ [']'] := rfl
  have hbreak : ('[' :: List.replicate (n + 1) 'x' ++ [']']).any Samba.isBreak = false := by
    simp [Samba.isBreak]
  rw [Samba.renderLine, hrefused]
  simp only [hline, hbreak, hparse, if_true]
  rfl

theorem samba_freshHeaders : FreshHeaders samba := by
  intro avoid
  have hinj : Function.Injective freshSection := by
    intro n m h
    have hlen := congrArg (fun entry => (entry.sectionName.getD []).length) h
    simpa [freshSection] using hlen
  obtain ⟨n, hn⟩ := exists_not_mem hinj avoid
  refine ⟨freshSection n, _, hn, renderLine_freshSection n, checkRaw_of_any (by simp), ?_⟩
  show Samba.opensSection _ = true
  simp [Samba.opensSection, trimStart, isWhitespace]

end Smb

section Exports

def nfs : Format Nfs.Export := ⟨Nfs.classify, Nfs.parseExport, Nfs.renderLine, fun _ => false⟩

theorem parseExport_ends_backslash (h : raw.getLast? = some '\\') : Nfs.parseExport raw = none := by
  rw [Nfs.parseExport, if_pos (getLast?_trim h (by decide))]

theorem parseExport_path {entry : Nfs.Export} (h : Nfs.parseExport raw = some entry) :
    entry.path.head? = some '/' := by
  rw [Nfs.parseExport] at h
  by_cases hslash : (trim raw).getLast? = some '\\'
  · simp [hslash] at h
  · simp only [hslash, if_false] at h
    cases hwords : splitWhitespace raw with
    | nil => simp [hwords] at h
    | cons path tokens =>
      simp only [hwords] at h
      by_cases hpath : path.head? = some '/'
      · by_cases hspecial : path.any Nfs.isSpecial = true
        · simp [hpath, hspecial] at h
        · simp only [hpath, hspecial, ne_eq, not_true, if_false] at h
          obtain ⟨clients, _, rfl⟩ := Option.map_eq_some_iff.mp h
          exact hpath
      · simp [hpath] at h

theorem nfs_renderLine_ok {entry : Nfs.Export} (h : Nfs.renderLine entry = .ok raw) :
    Nfs.parseExport raw = some entry ∧ ∃ rest, raw = '/' :: rest := by
  rw [Nfs.renderLine] at h
  cases hrefused : Nfs.refusal entry with
  | some err => simp [hrefused] at h
  | none =>
    simp only [hrefused] at h
    by_cases hbreak : (Nfs.lineOf entry).any Nfs.isBreak = true
    · simp [hbreak] at h
    · by_cases hparse : Nfs.parseExport (Nfs.lineOf entry) = some entry
      · simp only [hbreak, hparse, if_true] at h
        obtain rfl : Nfs.lineOf entry = raw := Except.ok.inj h
        have hpath := parseExport_path hparse
        obtain ⟨path, clients⟩ := entry
        cases path with
        | nil => cases hpath
        | cons c path =>
          obtain rfl : c = '/' := Option.some.inj hpath
          exact ⟨hparse, _, rfl⟩
      · simp [hbreak, hparse] at h

theorem nfs_lawful : nfs.Lawful where
  joined := fun raw h => parseExport_ends_backslash h
  rendered := by
    intro entry raw h
    obtain ⟨hparse, rest, rfl⟩ := nfs_renderLine_ok h
    refine ⟨?_, hparse⟩
    have hstart : trimStart ('/' :: rest) = '/' :: rest := by simp [trimStart, isWhitespace]
    have hne : trim ('/' :: rest) ≠ [] := by
      intro hnil
      rw [trim, hstart, trimEnd, List.rdropWhile_eq_nil_iff] at hnil
      exact absurd (hnil '/' (by simp)) (by decide)
    show Nfs.classify ('/' :: rest) = .directive
    rw [Nfs.classify, if_neg (by simpa using hne), hstart, if_neg (by simp), if_pos]
    rw [hparse]
    rfl
  carriage := by
    intro raw
    have htrim := trim_append_whitespace raw (show isWhitespace '\r' = true by decide)
    have hhead := head?_trimStart_append_whitespace raw (show isWhitespace '\r' = true by decide)
    have hwords := splitWhitespace_append_whitespace raw (show isWhitespace '\r' = true by decide)
    have hparse : Nfs.parseExport (raw ++ ['\r']) = Nfs.parseExport raw := by
      rw [Nfs.parseExport, Nfs.parseExport, htrim, hwords]
    refine ⟨?_, hparse⟩
    show Nfs.classify _ = Nfs.classify _
    rw [Nfs.classify, Nfs.classify, htrim, hhead, hparse]
  empty := by decide

/-- A path that a file does not export. -/
def freshExport (n : Nat) : Nfs.Export := ⟨'/' :: List.replicate n 'x', []⟩

theorem mem_freshPath {n : Nat} {c : Char} (h : c ∈ '/' :: List.replicate n 'x') :
    c = '/' ∨ c = 'x' := by
  rcases List.mem_cons.mp h with rfl | hmem
  · exact .inl rfl
  · exact .inr (List.eq_of_mem_replicate hmem)

theorem renderLine_freshExport (n : Nat) :
    Nfs.renderLine (freshExport n) = .ok ('/' :: List.replicate n 'x') := by
  have hall : ∀ p : Char → Bool, p '/' = false → p 'x' = false →
      ∀ c ∈ '/' :: List.replicate n 'x', p c = false := by
    intro p hslash hx c hmem
    rcases mem_freshPath hmem with rfl | rfl
    · exact hslash
    · exact hx
  have hnone : ∀ p : Char → Bool, p '/' = false → p 'x' = false →
      ('/' :: List.replicate n 'x').any p = false := by
    intro p hslash hx
    rw [List.any_eq_false]
    intro c hmem
    rw [hall p hslash hx c hmem]
    simp
  have hwhite := hall isWhitespace (by decide) (by decide)
  have htrim : trim ('/' :: List.replicate n 'x') = '/' :: List.replicate n 'x' :=
    trim_eq_self (fun c hc => hwhite c (List.mem_of_head? hc))
      (fun c hc => hwhite c (List.mem_of_getLast? hc))
  have hlast : ('/' :: List.replicate n 'x').getLast? ≠ some '\\' := by
    intro hc
    rcases mem_freshPath (List.mem_of_getLast? hc) with h | h
    all_goals exact absurd h (by decide)
  have hparse : Nfs.parseExport ('/' :: List.replicate n 'x') = some (freshExport n) := by
    rw [Nfs.parseExport, htrim, if_neg hlast, splitWhitespace_eq_singleton (by simp) hwhite]
    simp only [List.head?_cons, ne_eq, not_true, if_false, hnone Nfs.isSpecial rfl rfl]
    rfl
  have hrefused : Nfs.refusal (freshExport n) = none := by
    rw [Nfs.refusal, freshExport, hnone Nfs.isSpecial rfl rfl]
    rfl
  have hline : Nfs.lineOf (freshExport n) = '/' :: List.replicate n 'x' := by
    simp [Nfs.lineOf, freshExport]
  rw [Nfs.renderLine, hrefused]
  simp only [hline, hnone Nfs.isBreak rfl rfl, hparse, if_true]
  rfl

theorem nfs_freshEntries : FreshEntries nfs := by
  intro avoid
  have hinj : Function.Injective freshExport := by
    intro n m h
    have hlen := congrArg (fun entry => entry.path.length) h
    simpa [freshExport] using hlen
  obtain ⟨n, hn⟩ := exists_not_mem hinj avoid
  exact ⟨freshExport n, _, hn, renderLine_freshExport n, checkRaw_of_any (by simp)⟩

end Exports

/-- Exactly when the edits of a text keep its continued lines, for both modules. -/
theorem continued_lines_kept_iff (src : Text) :
    ((∀ model doc report, Samba.apply (Samba.parse src) model = .ok (doc, report) →
        continued (physicalLines doc.render) = continued (physicalLines src)) ↔
      Apart samba (Samba.parse src).lines ∧ HeadersClear samba (Samba.parse src).lines) ∧
    ((∀ model doc report, Nfs.apply (Nfs.parse src) model = .ok (doc, report) →
        continued (physicalLines doc.render) = continued (physicalLines src)) ↔
      Apart nfs (Nfs.parse src).lines) := by
  constructor
  · constructor
    · intro hkeep
      have hedits : EditsKeep samba src := fun wanted => hkeep ⟨wanted⟩
      have hfresh : FreshEntries samba := by
        intro avoid
        obtain ⟨entry, raw, hentry, hrender, hcheck, _⟩ := samba_freshHeaders avoid
        exact ⟨entry, raw, hentry, hrender, hcheck⟩
      exact ⟨apart_of_editsKeep samba_lawful hfresh hedits,
        headersClear_of_editsKeep samba_lawful samba_freshHeaders hedits⟩
    · intro ⟨hapart, hheaders⟩ model doc report happly
      exact editEntries_continued samba_lawful hapart (fun _ => hheaders) happly
  · constructor
    · intro hkeep
      have hedits : EditsKeep nfs src := fun wanted => hkeep ⟨wanted⟩
      exact apart_of_editsKeep nfs_lawful nfs_freshEntries hedits
    · intro hapart model doc report happly
      refine editEntries_continued nfs_lawful hapart ?_ happly
      rintro ⟨entry, raw, _, hopens⟩
      cases hopens

/-- Dropping the entry in the second half of `path = /srv \` / `comment = x` leaves
the first half open to swallow the next line. -/
theorem second_half_removed :
    ¬ ((∀ src model doc report, Samba.apply (Samba.parse src) model = .ok (doc, report) →
        continued (physicalLines doc.render) = continued (physicalLines src)) ∧
      (∀ src model doc report, Nfs.apply (Nfs.parse src) model = .ok (doc, report) →
        continued (physicalLines doc.render) = continued (physicalLines src))) := by
  intro ⟨hsamba, _⟩
  have hbefore : continued (physicalLines "path = /srv \\\ncomment = x\n".toList) =
      [["path = /srv \\".toList, "comment = x".toList]] := by decide +kernel
  have hafter : ((Samba.apply (Samba.parse "path = /srv \\\ncomment = x\n".toList) ⟨[]⟩).toOption.map
      (fun result => continued (physicalLines result.1.render))) = some [] := by decide +kernel
  obtain ⟨⟨doc, report⟩, happly, hlines⟩ := Option.map_eq_some_iff.mp hafter
  have hsame := hsamba _ _ doc report (eq_ok_of_toOption happly)
  rw [hbefore] at hsame
  rw [hsame] at hlines
  cases hlines

end Detent.Guarantees.ContinuedEntries
