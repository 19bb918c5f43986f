import Detent.Source.AuditFile
import Detent.Guarantees.AuditChain

/-!
# Reading the log from its end

`TailLines` cuts a file into chunks from its end, `scan_records` splits it from
its start. `lines_ofFile` says that the reader returns the pieces of the split,
last first, whatever the chunks are. A query then walks the accepted chain
backwards: `Chain.snoc_cases` takes the last line off a chain, and the link that
`check_link` verified on the way forward is the link it verifies on the way back.
-/
namespace Detent.Guarantees.AuditTail
open Lib Source Source.AuditLog Source.AuditFile AuditChain
open Source.Engine (AuditQuery)

/-- The pieces without an empty first one: a carry that is empty at the start of
the file is no line. -/
def dropEmptyHead : List Bytes → List Bytes
  | [] :: pieces => pieces
  | pieces => pieces

/-- The lines the reader has still to return, in the order of the file. -/
def pending (t : TailLines) : List Bytes :=
  dropEmptyHead ((t.file.take t.pos ++ t.carry).splitOn newline) ++ t.ready

theorem dropEmptyHead_append (pieces rest : List Bytes) (h : pieces ≠ []) :
    dropEmptyHead (pieces ++ rest) = dropEmptyHead pieces ++ rest := by
  match pieces, h with
  | [] :: pieces, _ => rfl
  | (b :: piece) :: pieces, _ => rfl

/-- One more chunk changes neither what is pending nor where lines end. -/
theorem readChunk_spec (t : TailLines) (h : t.ready = []) :
    pending t.readChunk = pending t ∧ newline ∉ t.readChunk.carry := by
  have hfile : t.file.take (t.pos - min t.pos tailChunk) ++
      (t.file.drop (t.pos - min t.pos tailChunk)).take (min t.pos tailChunk) =
      t.file.take t.pos := by
    rw [← List.take_add]
    congr 1
    omega
  unfold TailLines.readChunk
  dsimp only
  split
  next hsplit => exact absurd hsplit (List.splitOn_ne_nil _ _)
  next first parts hsplit =>
    constructor
    · have happ := splitOn_append newline (t.file.take (t.pos - min t.pos tailChunk)) _ _ _ hsplit
      rw [← List.append_assoc, hfile] at happ
      simp only [pending, h, List.append_nil]
      rw [happ, dropEmptyHead_append _ _ (List.splitOn_ne_nil _ _)]
    · exact not_mem_of_mem_splitOn newline _ first (by rw [hsplit]; simp)

/-- What one call of `next_line` returns and leaves. -/
theorem nextLine_spec (t : TailLines) (hcarry : newline ∉ t.carry) :
    newline ∉ t.nextLine.2.carry ∧
      match t.nextLine.1 with
      | none => pending t = []
      | some line => pending t = pending t.nextLine.2 ++ [line] := by
  induction t using TailLines.nextLine.induct with
  | case1 t last hlast =>
    have hnext : t.nextLine = (some last, { t with ready := t.ready.dropLast }) := by
      rw [TailLines.nextLine.eq_def, hlast]
    obtain ⟨rest, hready⟩ := List.getLast?_eq_some_iff.mp hlast
    rw [hnext]
    refine ⟨hcarry, ?_⟩
    simp only [pending, hready, List.dropLast_concat, List.append_assoc]
  | case2 t hready hpos hempty =>
    have hnext : t.nextLine = (none, t) := by
      rw [TailLines.nextLine.eq_def, hready]
      simp only [hpos, hempty, if_true]
    have hnil : t.ready = [] := List.getLast?_eq_none_iff.mp hready
    have hc : t.carry = [] := by simpa using hempty
    rw [hnext]
    refine ⟨hcarry, ?_⟩
    simp [pending, hpos, hnil, hc, dropEmptyHead]
  | case3 t hready hpos hempty =>
    have hnext : t.nextLine = (some t.carry, { t with carry := [] }) := by
      rw [TailLines.nextLine.eq_def, hready]
      simp only [hpos, hempty, if_true, Bool.false_eq_true, if_false]
    have hnil : t.ready = [] := List.getLast?_eq_none_iff.mp hready
    rw [hnext]
    refine ⟨by simp, ?_⟩
    simp only [pending, hpos, hnil, List.take_zero, List.append_nil, List.nil_append,
      List.splitOn_eq_singleton hcarry, List.splitOn_nil]
    cases hc : t.carry with
    | nil => simp [hc] at hempty
    | cons b carry => rfl
  | case4 t hready hpos ih =>
    have hnext : t.nextLine = t.readChunk.nextLine := by
      rw [TailLines.nextLine.eq_def, hready]
      simp only [hpos, if_false]
    have hnil : t.ready = [] := List.getLast?_eq_none_iff.mp hready
    obtain ⟨hpending, hnew⟩ := readChunk_spec t hnil
    rw [hnext, ← hpending]
    exact ih hnew

theorem lines_eq_pending (t : TailLines) (hcarry : newline ∉ t.carry) :
    t.lines = (pending t).reverse := by
  induction t using TailLines.lines.induct with
  | case1 t rest hnext =>
    obtain ⟨_, hspec⟩ := nextLine_spec t hcarry
    rw [hnext] at hspec
    rw [TailLines.lines.eq_def, hspec]
    split
    · rfl
    next line' rest' hline => simp [hnext] at hline
  | case2 t line rest hnext ih =>
    obtain ⟨hcarry', hspec⟩ := nextLine_spec t hcarry
    rw [hnext] at hspec hcarry'
    rw [TailLines.lines.eq_def]
    split
    next rest' hnone => simp [hnext] at hnone
    next line' rest' hline =>
      rw [hnext] at hline
      cases hline
      rw [ih hcarry', hspec, List.reverse_append]
      rfl

theorem lines_ofFile (file : Bytes) :
    (TailLines.ofFile file).lines = (dropEmptyHead (file.splitOn newline)).reverse := by
  rw [lines_eq_pending _ (by simp [TailLines.ofFile])]
  simp [pending, TailLines.ofFile]

theorem filter_dropEmptyHead (pieces : List Bytes) :
    (dropEmptyHead pieces).filter (fun line => !isBlank line) =
      pieces.filter (fun line => !isBlank line) := by
  match pieces with
  | [] => rfl
  | [] :: pieces => simp [dropEmptyHead, isBlank]
  | (b :: piece) :: pieces => rfl

/-- The two readers agree on the lines that are not blank. -/
theorem filter_lines_ofFile (file : Bytes) :
    (TailLines.ofFile file).lines.filter (fun line => !isBlank line) =
      (visibleLines file).reverse := by
  rw [lines_ofFile, List.filter_reverse, filter_dropEmptyHead]
  rfl

variable (x : Backend)

/-- The last line of a chain is torn and ends the gap, or is the record that the
anchor belongs to. -/
theorem Chain.snoc_cases {a b : Option AuditChain} {g h line : Bytes} {lines : List Bytes}
    {rs : List AuditRecord} (chain : Chain x a g (lines ++ [line]) b h rs) :
    (∃ err k, x.fromSlice line = .error err ∧ h = k ++ line ++ [newline] ∧
      Chain x a g lines b k rs) ∨
    (∃ r c b' k before, x.fromSlice line = .ok r ∧ Linked x b' k r c ∧ b = some c ∧ h = [] ∧
      rs = before ++ [r] ∧ Chain x a g lines b' k before) := by
  induction lines generalizing a g rs with
  | nil =>
    cases chain with
    | torn unreadable rest =>
      cases rest
      exact Or.inl ⟨_, _, unreadable, rfl, .nil _ _⟩
    | record readable linked rest =>
      cases rest
      exact Or.inr ⟨_, _, _, _, [], readable, linked, rfl, rfl, rfl, .nil _ _⟩
  | cons head lines ih =>
    cases chain with
    | torn unreadable rest =>
      rcases ih rest with ⟨err, k, hl, hh, hrest⟩ | ⟨r, c, b', k, before, hl, hlink, hb, hh, hrs, hrest⟩
      · exact Or.inl ⟨err, k, hl, hh, .torn unreadable hrest⟩
      · exact Or.inr ⟨r, c, b', k, before, hl, hlink, hb, hh, hrs, .torn unreadable hrest⟩
    | record readable linked rest =>
      rcases ih rest with ⟨err, k, hl, hh, hrest⟩ | ⟨r, c, b', k, before, hl, hlink, hb, hh, hrs, hrest⟩
      · exact Or.inl ⟨err, k, hl, hh, .record readable linked hrest⟩
      · refine Or.inr ⟨r, c, b', k, _ :: before, hl, hlink, hb, hh, ?_,
          .record readable linked hrest⟩
        rw [hrs]
        rfl

/-- The record read before, if any, follows the chain that is left to read. -/
def Follows (x : Backend) (newer : Option AuditRecord) (b : Option AuditChain) (gap : Bytes) :
    Prop :=
  ∀ r, newer = some r → ∃ c, Linked x b gap r c

/-- The hash `query` recomputes is the one the link carries. -/
theorem makeChain_of_linked {b : Option AuditChain} {gap : Bytes} {r : AuditRecord} {c : AuditChain}
    (h : Linked x b gap r c) (previous : Option AuditChain) :
    ∃ own, makeChain x r previous = .ok own ∧ own.hash = c.hash := by
  obtain ⟨bytes, henc, hhash⟩ := h.hash
  unfold makeChain
  rw [henc]
  exact ⟨_, rfl, hhash⟩

theorem linkNewer_of_follows {newer : Option AuditRecord} {b : Option AuditChain} {gap : List Bytes}
    (h : Follows x newer b (gapBytes gap)) : linkNewer x newer b gap = .ok () := by
  cases newer with
  | none => rfl
  | some r => exact (checkLink_ok_iff x r b (gapBytes gap) none).mpr (h r rfl)

theorem gapBytes_snoc (gap : List Bytes) (line : Bytes) :
    gapBytes (gap ++ [line]) = line ++ [newline] ++ gapBytes gap := by
  simp [gapBytes]

theorem queryLines_filter (start : Option AuditChain) (q : AuditQuery) (limit : Nat)
    (lines : List Bytes) (newer : Option AuditRecord) (gap : List Bytes) (out : List AuditRecord) :
    queryLines x start q limit lines newer gap out =
      queryLines x start q limit (lines.filter (fun line => !isBlank line)) newer gap out := by
  induction lines generalizing newer gap out with
  | nil => rfl
  | cons line lines ih =>
    by_cases hblank : isBlank line = true
    · rw [List.filter_cons_of_neg (by simp [hblank]), queryLines, if_pos hblank]
      exact ih newer gap out
    · rw [List.filter_cons_of_pos (by simp [hblank]), queryLines, queryLines, if_neg hblank,
        if_neg hblank]
      simp only [ih]

/-- Over the lines of an accepted chain, read from the last, the loop adds the
matching records until the limit is reached. -/
theorem queryLines_of_chain (start : Option AuditChain) (q : AuditQuery) (limit : Nat)
    (lines : List Bytes) (b : Option AuditChain) (g : Bytes) (rs : List AuditRecord)
    (chain : Chain x start [] lines b g rs) (visible : ∀ line ∈ lines, isBlank line = false)
    (newer : Option AuditRecord) (gap : List Bytes)
    (follows : Follows x newer b (g ++ gapBytes gap)) (out : List AuditRecord)
    (room : out.length < limit) :
    queryLines x start q limit lines.reverse newer gap out =
      .ok (out ++ (rs.reverse.filter (queryMatches q)).take (limit - out.length)) := by
  -- Induction on the lines from the last; the link of `newer` is checked when the
  -- record before it, or the start of the file, is reached.
  induction lines using List.reverseRecOn generalizing b g rs newer gap out with
  | nil =>
    cases chain
    simp [queryLines, linkNewer_of_follows x follows, bind, Except.bind]
  | append_singleton lines line ih =>
    have hline : isBlank line = false := visible line (by simp)
    have hrest : ∀ l ∈ lines, isBlank l = false := fun l hl => visible l (by simp [hl])
    rw [List.reverse_append, List.reverse_singleton, List.singleton_append, queryLines,
      if_neg (by simp [hline])]
    rcases Chain.snoc_cases x chain with
      ⟨err, k, hparse, rfl, hchain⟩ | ⟨r, c, b', k, before, hparse, hlink, rfl, rfl, rfl, hchain⟩
    · simp only [hparse]
      apply ih b k rs hchain hrest newer (gap ++ [line]) _ out room
      rw [gapBytes_snoc, ← List.append_assoc, ← List.append_assoc]
      exact follows
    · obtain ⟨own, hown, hhash⟩ := makeChain_of_linked x hlink none
      have hnewer : linkNewer x newer (some c) gap = .ok () := linkNewer_of_follows x follows
      have hfollows : Follows x (some r) b' (k ++ gapBytes []) := by
        intro r' hr'
        cases hr'
        exact ⟨c, by simpa [gapBytes] using hlink⟩
      have hih := fun out hroom => ih b' k before hchain hrest (some r) [] hfollows out hroom
      simp only [hparse, hlink.carries, hown, bind, Except.bind, hhash, hnewer, ne_eq,
        not_true_eq_false, if_false, List.reverse_append, List.reverse_singleton,
        List.singleton_append]
      by_cases hmatch : queryMatches q r = true
      · rw [if_pos hmatch, List.filter_cons_of_pos hmatch]
        obtain ⟨n, hn⟩ : ∃ n, limit - out.length = n + 1 := ⟨limit - out.length - 1, by omega⟩
        rw [hn, List.take_succ_cons]
        split
        next hfull =>
          simp only [List.length_append, List.length_singleton] at hfull
          obtain rfl : n = 0 := by omega
          simp
        next hfull =>
          simp only [List.length_append, List.length_singleton] at hfull
          rw [hih (out ++ [r]) (by simp only [List.length_append, List.length_singleton]; omega)]
          have hleft : limit - (out ++ [r]).length = n := by
            simp only [List.length_append, List.length_singleton]
            omega
          rw [hleft]
          simp
      · rw [if_neg hmatch, List.filter_cons_of_neg hmatch]
        exact hih out room

/-- **The tail query agrees with the full scan.** Whenever the scan accepts the
log after the rotated anchor, a query returns the newest matching records of the
scan, newest first, up to its limit. -/
theorem query_eq_scan (x : Backend) (start : Option AuditChain) (raw : Bytes) (scan : Scan)
    (rs : List AuditRecord) (q : AuditQuery)
    (accepted : scanRecords x raw start = .ok (scan, rs)) :
    query x start (some raw) q =
      .ok ((rs.reverse.filter (queryMatches q)).take (effectiveLimit q)) := by
  obtain ⟨anchor, gap⟩ := scan
  have chain := (scanRecords_iff x raw start anchor gap rs).mp accepted
  unfold query
  dsimp only
  by_cases hlimit : effectiveLimit q = 0
  · rw [if_pos hlimit, hlimit, List.take_zero]
  · rw [if_neg hlimit, queryLines_filter, filter_lines_ofFile]
    have hvisible : ∀ line ∈ visibleLines raw, isBlank line = false :=
      fun line hl => (mem_visibleLines raw line hl).2
    have hnone : Follows x none anchor (gap ++ gapBytes []) := fun r hr => nomatch hr
    rw [queryLines_of_chain x start q _ _ anchor gap rs chain hvisible none [] hnone []
      (by simp only [List.length_nil]; omega)]
    simp

/-- The newest record of one caller, in a log of three. -/
theorem query_newest_of_bob :
    let x := AuditJson.backend hexText
    query x none
        (some (logFile (appended x none [applyBy "alice", applyBy "bob", applyBy "carol"])))
        { module := none, who := some "bob", limit := some 1 } =
      .ok [sealed x (sealed x none (applyBy "alice")).chain (applyBy "bob")] := by
  intro x
  rw [query_eq_scan x none _ _ _ _ (scanRecords_appended hexText none _)]
  simp only [x, appended, sealed_eq, List.reverse_cons, List.reverse_nil, List.nil_append,
    List.cons_append]
  rfl

end Detent.Guarantees.AuditTail
