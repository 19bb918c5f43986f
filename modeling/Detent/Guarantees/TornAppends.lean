import Detent.Guarantees.AuditTail

/-!
# Torn appends

A crash may cut `FileAudit::record` after the rename of a rotation or after any
byte of its line. `Trail` follows a run of calls: the two files, the number of
whole records persisted and the torn lines the current log ends in. `Sound` is
the invariant: the log continues the rotated one as an accepted chain whose
anchor counts the records and whose gap is exactly those torn lines.

A rotation replaces the rotated log. When the log it moves holds torn lines only,
the anchor that the next record links to is lost with the file that is replaced:
`Kept` excludes that one rotation, and `recovers_iff_kept` shows that nothing else
has to be excluded.
-/
namespace Detent.Guarantees.TornAppends
open Lib Source Source.AuditLog Source.AuditFile AuditChain AuditTail

/-! ## Lines added at the end of a log -/

theorem visibleLines_nil : visibleLines [] = [] := by
  simp [visibleLines, isBlank]

theorem visibleLines_append_newline (left right : Bytes) :
    visibleLines (left ++ newline :: right) = visibleLines left ++ visibleLines right := by
  unfold visibleLines
  rw [List.splitOn_append_cons_self, List.filter_append]

theorem visibleLines_of_line (line : Bytes) (h : newline ∉ line) :
    visibleLines line = if isBlank line then [] else [line] := by
  unfold visibleLines
  rw [List.splitOn_eq_singleton h]
  cases hblank : isBlank line <;> simp [hblank]

/-- Text added to a log that is empty or ends in a newline starts a new line. -/
theorem visibleLines_append_closed (raw more : Bytes) (h : endsOpen (some raw) = false) :
    visibleLines (raw ++ more) = visibleLines raw ++ visibleLines more := by
  rcases List.eq_nil_or_concat raw with rfl | ⟨front, last, rfl⟩
  · simp [visibleLines_nil]
  · obtain rfl : last = newline := by simpa [endsOpen] using h
    have hraw := visibleLines_append_newline front []
    rw [visibleLines_nil, List.append_nil] at hraw
    rw [List.concat_eq_append, List.append_assoc, List.singleton_append,
      visibleLines_append_newline, hraw]

/-! ## The rotated anchor -/

theorem chainOf_of_unreadable (x : Backend) {line : Bytes} (h : Unreadable x line) :
    chainOf x line = none := by
  obtain ⟨err, herr⟩ := h
  simp only [chainOf, herr]

theorem findSome_filter_visible (x : Backend) (cut : x.Truncates) (lines : List Bytes) :
    (lines.filter (fun line => !isBlank line)).findSome? (chainOf x) =
      lines.findSome? (chainOf x) := by
  induction lines with
  | nil => rfl
  | cons line lines ih =>
    by_cases hblank : isBlank line = true
    · rw [List.filter_cons_of_neg (by simp [hblank]), ih, List.findSome?_cons,
        chainOf_of_unreadable x (cut.blank line hblank)]
    · rw [List.filter_cons_of_pos (by simp [hblank]), List.findSome?_cons, List.findSome?_cons, ih]

variable {rs : List AuditRecord} {start : Option AuditChain}

/-- The last chained record of an accepted log carries its anchor. -/
theorem findSome_of_chain (x : Backend) {a b : Option AuditChain} {g h : Bytes} {lines : List Bytes}
    (chain : Chain x a g lines b h rs) :
    lines.reverse.findSome? (chainOf x) = if rs = [] then none else b := by
  induction lines using List.reverseRecOn generalizing b h rs with
  | nil =>
    cases chain
    simp
  | append_singleton lines line ih =>
    rw [List.reverse_append, List.reverse_singleton, List.singleton_append, List.findSome?_cons]
    rcases Chain.snoc_cases x chain with
      ⟨err, k, hparse, _, hrest⟩ | ⟨r, c, b', k, before, hparse, hlink, rfl, _, rfl, _⟩
    · rw [chainOf_of_unreadable x ⟨err, hparse⟩]
      exact ih hrest
    · simp [chainOf, hparse, hlink.carries]

theorem rotatedAnchor_some (x : Backend) (cut : x.Truncates) (raw : Bytes) :
    rotatedAnchor x (some raw) = (visibleLines raw).reverse.findSome? (chainOf x) := by
  rw [← filter_lines_ofFile, findSome_filter_visible x cut]
  rfl

/-- The anchor of a log that is rotated, by whether it holds a record. -/
theorem rotatedAnchor_of_chain (x : Backend) (cut : x.Truncates) {a b : Option AuditChain}
    {g raw : Bytes} (chain : Chain x a [] (visibleLines raw) b g rs) :
    rotatedAnchor x (some raw) = if rs = [] then none else b := by
  rw [rotatedAnchor_some x cut, findSome_of_chain x chain]

/-! ## What an append decides and writes -/

/-- The newline that closes a torn final line, when the log is not rotated. -/
def lead (rotateBytes : Nat) (logs : Logs) : Bytes :=
  if !rotates rotateBytes logs.log && endsOpen logs.log then [newline] else []

/-- An append to a log that ends in `anchor` and the torn bytes `gap`: the stored
record and its line. -/
structure Prepared (x : Backend) (rotateBytes : Nat) (logs : Logs) (record : AuditRecord)
    (anchor : Option AuditChain) (gap : Bytes) (a : Append) (c : AuditChain) (json : Bytes) :
    Prop where
  rotate : a.rotate = rotates rotateBytes logs.log
  encoded : x.toVec { record with chain := some c } = .ok json
  line : a.line = lead rotateBytes logs ++ json ++ [newline]
  linked : Linked x anchor (if a.rotate then [] else gap) { record with chain := some c } c

theorem scanLog_of_chain (x : Backend) {anchor : Option AuditChain} {gap : Bytes}
    (log : Option Bytes) (chain : Chain x start [] (visibleLines (log.getD [])) anchor gap rs) :
    scanLog x start log = .ok ⟨anchor, gap⟩ := by
  cases log with
  | none =>
    rw [Option.getD_none, visibleLines_nil] at chain
    cases chain
    rfl
  | some raw =>
    have hscan := (scanRecords_iff x raw start anchor gap rs).mpr chain
    simp only [scanLog, hscan]
    rfl

/-- The digest a new record carries: that of the torn lines, unless they stay
behind in the rotated log. -/
theorem torn_noted (x : Backend) (rotate : Bool) (gap : Bytes) (sequence : Fin (2 ^ 64))
    (prev : Option String) (hash : String) :
    (if !gap.isEmpty && !rotate then
      (⟨sequence, prev, hash, some (x.sha256Hex gap)⟩ : AuditChain)
    else ⟨sequence, prev, hash, none⟩) =
      ⟨sequence, prev, hash, tornDigest x (if rotate then [] else gap)⟩ := by
  cases rotate with
  | true => simp [tornDigest]
  | false => cases gap <;> simp [tornDigest]

theorem prepare_of_chain (x : Backend) (law : x.Lawful) (rotateBytes : Nat) (logs : Logs)
    (record : AuditRecord) {anchor : Option AuditChain} {gap : Bytes}
    (chain : Chain x (rotatedAnchor x logs.rotated) [] (visibleLines (logs.log.getD [])) anchor
      gap rs) :
    ∃ a c json, prepare x rotateBytes logs record = .ok a ∧
      Prepared x rotateBytes logs record anchor gap a c json := by
  have hscan := scanLog_of_chain x logs.log chain
  obtain ⟨bytes, hbytes, _⟩ := law.roundTrip { record with chain := none }
  have hmake : makeChain x record anchor = .ok
      { sequence := nextSequence anchor, prev := anchor.map (·.hash), hash := x.sha256Hex bytes
        torn := none } := by
    unfold makeChain
    rw [hbytes]
  obtain ⟨json, hjson, _⟩ := law.roundTrip (AuditRecord.mk record.ts record.who record.kind
    record.op record.module record.prevHash record.newHash record.beforeHash record.afterHash
    record.commitId record.result record.errorId (some
      ⟨nextSequence anchor, anchor.map (·.hash), x.sha256Hex bytes,
        tornDigest x (if rotates rotateBytes logs.log then [] else gap)⟩))
  refine ⟨{ rotate := rotates rotateBytes logs.log
            line := lead rotateBytes logs ++ json ++ [newline] }, _, json, ?_,
    ⟨rfl, hjson, rfl, rfl, rfl, rfl, rfl, bytes, hbytes, rfl⟩⟩
  simp only [prepare, hscan, hmake, bind, Except.bind]
  rw [torn_noted, hjson]
  rfl

section Written

variable {x : Backend} {rotateBytes : Nat} {logs : Logs} {record : AuditRecord}
variable {anchor : Option AuditChain} {gap : Bytes} {a : Append} {c : AuditChain} {json : Bytes}

theorem visibleLines_lead (more : Bytes) (n : Nat) :
    visibleLines ((lead rotateBytes logs).take n ++ more) = visibleLines more := by
  unfold lead
  split
  · cases n with
    | zero => rfl
    | succ n =>
      rw [List.take_of_length_le (by simp)]
      have h := visibleLines_append_newline [] more
      rw [visibleLines_nil] at h
      exact h
  · rw [List.take_nil, List.nil_append]

/-- A line cut before its last byte of JSON leaves no record. -/
theorem unreadable_of_cut (law : x.Lawful) (cut : x.Truncates)
    (p : Prepared x rotateBytes logs record anchor gap a c json) (n : Nat)
    (h : n + 1 < a.line.length) :
    ∀ line ∈ visibleLines (a.line.take n), Unreadable x line := by
  rw [p.line, List.append_assoc, List.take_append, visibleLines_lead]
  rw [p.line] at h
  simp only [List.length_append, List.length_singleton] at h
  generalize hk : n - (lead rotateBytes logs).length = k
  have hne : 0 < json.length := by
    cases hjson : json with
    | nil =>
      have hopens := cut.opens _ _ p.encoded
      simp [hjson] at hopens
    | cons b rest => simp
  rw [List.take_append_of_le_length (by omega)]
  have hmem : newline ∉ json.take k :=
    fun hin => law.oneLine _ _ p.encoded (List.mem_of_mem_take hin)
  rw [visibleLines_of_line _ hmem]
  intro line hline
  split at hline
  · cases hline
  · rw [List.mem_singleton.mp hline]
    exact cut.cut _ _ k p.encoded (by omega)

theorem record_of_whole (law : x.Lawful)
    (p : Prepared x rotateBytes logs record anchor gap a c json) (n : Nat)
    (h : a.line.length ≤ n + 1) : visibleLines (a.line.take n) = [json] := by
  have hjson : visibleLines json = [json] := by
    rw [visibleLines_of_line _ (law.oneLine _ _ p.encoded), law.visible _ _ p.encoded]
    rfl
  rw [p.line, List.append_assoc, List.take_append, visibleLines_lead]
  rw [p.line] at h
  simp only [List.length_append, List.length_singleton] at h
  generalize hk : n - (lead rotateBytes logs).length = k
  by_cases hfull : json.length < k
  · rw [List.take_of_length_le (by simp only [List.length_append, List.length_singleton]; omega),
      visibleLines_append_newline, visibleLines_nil, List.append_nil, hjson]
  · obtain rfl : k = json.length := by omega
    rw [List.take_append_of_le_length (Nat.le_refl _), List.take_length, hjson]

theorem visibleLines_write (p : Prepared x rotateBytes logs record anchor gap a c json) (n : Nat) :
    visibleLines ((a.rename logs).log.getD [] ++ a.line.take n) =
      visibleLines ((a.rename logs).log.getD []) ++ visibleLines (a.line.take n) := by
  unfold Append.rename
  split
  next hrotate => simp [visibleLines_nil]
  next hrotate =>
    have hstay : rotates rotateBytes logs.log = false := by
      rw [← p.rotate]
      simpa using hrotate
    cases hopen : endsOpen logs.log with
    | false =>
      cases hlog : logs.log with
      | none => simp [visibleLines_nil]
      | some raw =>
        rw [hlog] at hopen
        exact visibleLines_append_closed raw _ hopen
    | true =>
      have hlead : lead rotateBytes logs = [newline] := by simp [lead, hstay, hopen]
      cases n with
      | zero => simp [visibleLines_nil]
      | succ n =>
        have hline : a.line = newline :: (json ++ [newline]) := by
          rw [p.line, hlead]
          rfl
        have hfirst := visibleLines_append_newline [] ((json ++ [newline]).take n)
        rw [visibleLines_nil, List.nil_append, List.nil_append] at hfirst
        rw [hline, List.take_succ_cons, visibleLines_append_newline, hfirst]

end Written

/-! ## Runs of calls -/

/-- A call of `record`, and the crash that cuts it, if any. -/
structure Call where
  record : AuditRecord
  crash : Option Crash
  deriving DecidableEq, Repr

/-- The files after a call. -/
def Call.logs (x : Backend) (rotateBytes : Nat) (call : Call) (logs : Logs) : Logs :=
  match call.crash with
  | some crash => recordCut x rotateBytes logs call.record crash
  | none =>
    match AuditFile.record x rotateBytes logs call.record with
    | .ok logs' => logs'
    | .error _ => logs

/-- How many bytes of its line a call has appended. -/
def Call.written (call : Call) (a : Append) : Nat :=
  match call.crash with
  | none => a.line.length
  | some .afterRename => 0
  | some (.afterBytes n) => n

/-- A run so far: the files, the number of records whose whole JSON was persisted
and the torn lines the log ends in. -/
structure Trail where
  logs : Logs
  persisted : Nat
  torn : List Bytes
  deriving DecidableEq, Repr

/-- One call. A record is whole when at most the final newline of its line is
missing; otherwise the call leaves the torn part of its line. -/
def step (x : Backend) (rotateBytes : Nat) (t : Trail) (call : Call) : Trail :=
  match prepare x rotateBytes t.logs call.record with
  | .error _ => t
  | .ok a =>
    let logs := call.logs x rotateBytes t.logs
    if a.line.length ≤ call.written a + 1 then
      { logs, persisted := t.persisted + 1, torn := [] }
    else
      { logs, persisted := t.persisted
        torn := (if a.rotate then [] else t.torn) ++ visibleLines (a.line.take (call.written a)) }

/-- No files. -/
def noFiles : Trail := { logs := { log := none, rotated := none }, persisted := 0, torn := [] }

def run (x : Backend) (rotateBytes : Nat) (t : Trail) (calls : List Call) : Trail :=
  calls.foldl (step x rotateBytes) t

/-- A call that finds the log over its limit finds a record in it, or finds none
in the rotated log that the rotation replaces. -/
def Kept (x : Backend) (rotateBytes : Nat) (logs : Logs) : Prop :=
  rotates rotateBytes logs.log = true →
    rotatedAnchor x logs.log ≠ none ∨ rotatedAnchor x logs.rotated = none

instance (x : Backend) (rotateBytes : Nat) (logs : Logs) : Decidable (Kept x rotateBytes logs) :=
  inferInstanceAs (Decidable (_ → _))

/-- Every call of the run starts from files that meet the condition. -/
def AllKept (x : Backend) (rotateBytes : Nat) : Trail → List Call → Prop
  | _, [] => True
  | t, call :: calls => Kept x rotateBytes t.logs ∧ AllKept x rotateBytes (step x rotateBytes t call) calls

/-- The log continues the rotated log, its anchor counts the whole records and its
gap is the torn lines. -/
def Sound (x : Backend) (t : Trail) : Prop :=
  ∃ anchor rs, Chain x (rotatedAnchor x t.logs.rotated) [] (visibleLines (t.logs.log.getD []))
      anchor (terminate newline t.torn) rs ∧
    position anchor = min t.persisted (2 ^ 64 - 1)

theorem sound_noFiles (x : Backend) : Sound x noFiles := by
  refine ⟨none, [], ?_, rfl⟩
  change Chain x none [] (visibleLines []) none [] []
  rw [visibleLines_nil]
  exact .nil none []

/-- The files after a call that was prepared: renamed, and then the written part
of the line appended unless the crash came before. -/
theorem logs_of_prepared (x : Backend) (rotateBytes : Nat) (call : Call) (logs : Logs) (a : Append)
    (h : prepare x rotateBytes logs call.record = .ok a) :
    (call.logs x rotateBytes logs).rotated = (a.rename logs).rotated ∧
      (call.logs x rotateBytes logs).log.getD [] =
        (a.rename logs).log.getD [] ++ a.line.take (call.written a) := by
  obtain ⟨record, crash⟩ := call
  match crash with
  | none =>
    simp only at h
    simp [Call.logs, AuditFile.record, h, Call.written, Append.write, bind, Except.bind]
  | some .afterRename =>
    simp only at h
    simp [Call.logs, recordCut, h, Call.written]
  | some (.afterBytes n) =>
    simp only at h
    simp [Call.logs, recordCut, h, Call.written, Append.write]

theorem step_logs (x : Backend) (rotateBytes : Nat) (t : Trail) (call : Call) :
    (step x rotateBytes t call).logs = call.logs x rotateBytes t.logs := by
  unfold step
  cases hprep : prepare x rotateBytes t.logs call.record with
  | error e =>
    cases hcrash : call.crash with
    | none => simp [Call.logs, hcrash, AuditFile.record, hprep, bind, Except.bind]
    | some crash => simp [Call.logs, hcrash, recordCut, hprep]
  | ok a =>
    dsimp only
    split <;> rfl

theorem terminate_append (left right : List Bytes) :
    terminate newline (left ++ right) = terminate newline left ++ terminate newline right := by
  simp [terminate]

/-- A rotation that meets the condition keeps the anchor. -/
theorem anchor_kept (x : Backend) (cut : x.Truncates) (rotateBytes : Nat) {logs : Logs}
    {anchor : Option AuditChain} {gap : Bytes}
    (chain : Chain x (rotatedAnchor x logs.rotated) [] (visibleLines (logs.log.getD [])) anchor
      gap rs) (hrotate : rotates rotateBytes logs.log = true) (kept : Kept x rotateBytes logs) :
    rotatedAnchor x logs.log = anchor := by
  cases hlog : logs.log with
  | none => simp [hlog, rotates] at hrotate
  | some raw =>
    have hkept := kept hrotate
    rw [hlog] at hkept
    rw [hlog, Option.getD_some] at chain
    have hanchor := rotatedAnchor_of_chain x cut chain
    by_cases hrs : rs = []
    · rw [if_pos hrs] at hanchor
      obtain ⟨_, hsame, _⟩ := Chain.unreadable_of_nil x chain hrs
      rw [hanchor, hsame]
      rcases hkept with hsome | hnone
      · exact absurd hanchor hsome
      · exact hnone.symm
    · rw [hanchor, if_neg hrs]

/-- The chain a call starts its line from: the log as it stands, or a new file
after the log that was moved. -/
theorem chain_renamed (x : Backend) (cut : x.Truncates) (rotateBytes : Nat) {logs : Logs}
    {anchor : Option AuditChain} {torn : List Bytes}
    (chain : Chain x (rotatedAnchor x logs.rotated) [] (visibleLines (logs.log.getD [])) anchor
      (terminate newline torn) rs) (kept : Kept x rotateBytes logs) (a : Append)
    (ha : a.rotate = rotates rotateBytes logs.log) :
    ∃ rs', Chain x (rotatedAnchor x (a.rename logs).rotated) []
      (visibleLines ((a.rename logs).log.getD [])) anchor
      (terminate newline (if a.rotate then [] else torn)) rs' := by
  cases hrotate : a.rotate with
  | false =>
    have hname : a.rename logs = logs := by simp [Append.rename, hrotate]
    rw [hname]
    exact ⟨rs, chain⟩
  | true =>
    have hname : a.rename logs = { log := none, rotated := logs.log } := by
      simp [Append.rename, hrotate]
    rw [hname]
    simp only [Option.getD_none, visibleLines_nil, if_true, terminate_nil]
    rw [anchor_kept x cut rotateBytes chain (ha.symm.trans hrotate) kept]
    exact ⟨[], .nil anchor []⟩

theorem chain_of_whole (x : Backend) (law : x.Lawful) {rotateBytes : Nat} {logs : Logs}
    {record : AuditRecord} {anchor : Option AuditChain} {torn : List Bytes} {a : Append}
    {c : AuditChain} {json : Bytes}
    (p : Prepared x rotateBytes logs record anchor (terminate newline torn) a c json)
    (before : Chain x start [] (visibleLines ((a.rename logs).log.getD [])) anchor
      (terminate newline (if a.rotate then [] else torn)) rs) (n : Nat)
    (whole : a.line.length ≤ n + 1) :
    Chain x start [] (visibleLines ((a.rename logs).log.getD [] ++ a.line.take n)) (some c) []
      (rs ++ [{ record with chain := some c }]) := by
  have hgap : terminate newline (if a.rotate = true then [] else torn) =
      if a.rotate = true then [] else terminate newline torn := by
    split <;> rfl
  obtain ⟨line, henc, hread⟩ := law.roundTrip { record with chain := some c }
  obtain rfl : line = json := Except.ok.inj (henc.symm.trans p.encoded)
  rw [visibleLines_write p n, record_of_whole law p n whole]
  rw [hgap] at before
  exact Chain.append x before (.record hread p.linked (.nil _ _))

/-- One call, cut or not, from files that meet the condition. -/
theorem step_sound (x : Backend) (law : x.Lawful) (cut : x.Truncates) (rotateBytes : Nat)
    (t : Trail) (call : Call) (sound : Sound x t) (kept : Kept x rotateBytes t.logs) :
    Sound x (step x rotateBytes t call) := by
  obtain ⟨anchor, rs, chain, hpos⟩ := sound
  obtain ⟨a, c, json, hprep, p⟩ := prepare_of_chain x law rotateBytes t.logs call.record chain
  obtain ⟨hrotated, hlog⟩ := logs_of_prepared x rotateBytes call t.logs a hprep
  obtain ⟨rs', before⟩ := chain_renamed x cut rotateBytes chain kept a p.rotate
  unfold step
  simp only [hprep]
  split
  next whole =>
    refine ⟨some c, rs' ++ [{ call.record with chain := some c }], ?_, ?_⟩
    · simp only [hrotated, hlog, terminate_nil]
      exact chain_of_whole x law p before _ whole
    · change c.sequence.val = _
      rw [p.linked.sequence, nextSequence_val, hpos]
      dsimp only
      omega
  next short =>
    have hunreadable := unreadable_of_cut law cut p (call.written a) (by omega)
    have gapped := Chain.of_unreadable x anchor
      (terminate newline (if a.rotate = true then [] else t.torn)) _ hunreadable
    have joined := Chain.append x before gapped
    rw [List.append_nil] at joined
    refine ⟨anchor, rs', ?_, hpos⟩
    simp only [hrotated, hlog, visibleLines_write p, terminate_append]
    exact joined

theorem run_sound (x : Backend) (law : x.Lawful) (cut : x.Truncates) (rotateBytes : Nat)
    (calls : List Call) (t : Trail) (sound : Sound x t) (kept : AllKept x rotateBytes t calls) :
    Sound x (run x rotateBytes t calls) := by
  induction calls generalizing t with
  | nil => exact sound
  | cons call calls ih =>
    exact ih _ (step_sound x law cut rotateBytes t call sound kept.1) kept.2

theorem persisted_le (x : Backend) (rotateBytes : Nat) (calls : List Call) (t : Trail) :
    (run x rotateBytes t calls).persisted ≤ t.persisted + calls.length := by
  induction calls generalizing t with
  | nil => exact Nat.le_refl _
  | cons call calls ih =>
    have hrest := ih (step x rotateBytes t call)
    have hone : (step x rotateBytes t call).persisted ≤ t.persisted + 1 := by
      unfold step
      split
      · omega
      · dsimp only
        split
        · exact Nat.le_refl _
        · exact Nat.le_succ _
    rw [List.length_cons]
    change (run x rotateBytes (step x rotateBytes t call) calls).persisted ≤ _
    omega

/-! ## The next whole append -/

/-- An append of `r` that no crash cuts succeeds, and the log then verifies to
the chain of `r`: the count of whole records, the hash of `r` and the digest of
the torn lines before it. -/
def Recovers (x : Backend) (rotateBytes : Nat) (t : Trail) (r : AuditRecord) : Prop :=
  ∃ logs c, AuditFile.record x rotateBytes t.logs r = .ok logs ∧
    verify x (rotatedAnchor x logs.rotated) logs.log = .ok c ∧
    c.sequence.val = t.persisted + 1 ∧ HashOf x r c.hash ∧
    c.torn = tornDigest x
      (if rotates rotateBytes t.logs.log then [] else terminate newline t.torn)

/-- What an uncut append leaves, once prepared. -/
theorem record_of_prepared (x : Backend) {rotateBytes : Nat} {logs : Logs} {r : AuditRecord}
    {a : Append} (h : prepare x rotateBytes logs r = .ok a) :
    AuditFile.record x rotateBytes logs r = .ok
      { (a.rename logs) with log := some ((a.rename logs).log.getD [] ++ a.line) } := by
  simp [AuditFile.record, h, Append.write, bind, Except.bind]

theorem verify_of_chain (x : Backend) {raw gap : Bytes} {c : AuditChain}
    (chain : Chain x start [] (visibleLines raw) (some c) gap rs) :
    verify x start (some raw) = .ok c := by
  have hscan := (scanRecords_iff x raw start (some c) gap rs).mpr chain
  simp [verify, hscan, bind, Except.bind]

theorem chain_of_verify (x : Backend) {raw : Bytes} {c : AuditChain}
    (h : verify x start (some raw) = .ok c) :
    ∃ gap rs, Chain x start [] (visibleLines raw) (some c) gap rs := by
  simp only [verify, bind, Except.bind] at h
  cases hscan : scanRecords x raw start with
  | error e => simp [hscan] at h
  | ok out =>
    obtain ⟨⟨anchor, gap⟩, rs⟩ := out
    simp only [hscan] at h
    cases hanchor : anchor with
    | none => simp [hanchor] at h
    | some c' =>
      rw [hanchor] at h hscan
      obtain rfl : c' = c := Except.ok.inj h
      exact ⟨gap, rs, (scanRecords_iff x raw start (some c') gap rs).mp hscan⟩

theorem recovers_of_kept (x : Backend) (law : x.Lawful) (cut : x.Truncates) (rotateBytes : Nat)
    (t : Trail) (r : AuditRecord) (sound : Sound x t) (few : t.persisted + 1 < 2 ^ 64)
    (kept : Kept x rotateBytes t.logs) : Recovers x rotateBytes t r := by
  obtain ⟨anchor, rs, chain, hpos⟩ := sound
  obtain ⟨a, c, json, hprep, p⟩ := prepare_of_chain x law rotateBytes t.logs r chain
  obtain ⟨rs', before⟩ := chain_renamed x cut rotateBytes chain kept a p.rotate
  have whole := chain_of_whole x law p before a.line.length (Nat.le_succ _)
  rw [List.take_length] at whole
  refine ⟨_, c, record_of_prepared x hprep, verify_of_chain x whole, ?_, p.linked.hash, ?_⟩
  · rw [p.linked.sequence, nextSequence_val, hpos]
    omega
  · rw [p.linked.torn, p.rotate]

theorem linked_of_single (x : Backend) {c : AuditChain} {line gap : Bytes} {s : AuditRecord}
    (hread : x.fromSlice line = .ok s) (chain : Chain x start [] [line] (some c) gap rs) :
    ∃ c', Linked x start [] s c' := by
  cases chain with
  | torn unreadable rest =>
    rw [hread] at unreadable
    cases unreadable
  | record readable linked rest =>
    rw [hread] at readable
    cases readable
    exact ⟨_, linked⟩

/-- The rotation of a log of torn lines over a rotated log with records: the next
record names a predecessor that is in neither file. -/
theorem not_recovers_of_not_kept (x : Backend) (law : x.Lawful)
    (rotateBytes : Nat) (t : Trail) (r : AuditRecord) (sound : Sound x t)
    (lost : ¬ Kept x rotateBytes t.logs) :
    ¬ Recovers x rotateBytes t r := by
  obtain ⟨anchor, rs, chain, hpos⟩ := sound
  obtain ⟨a, c, json, hprep, p⟩ := prepare_of_chain x law rotateBytes t.logs r chain
  simp only [Kept, ne_eq, Classical.not_imp, not_or, not_not] at lost
  obtain ⟨hrotate, hnone, hsome⟩ := lost
  have hanchor : anchor ≠ none := by
    cases hlog : t.logs.log with
    | none => simp [hlog, rotates] at hrotate
    | some raw =>
      rw [hlog, Option.getD_some] at chain
      rw [hlog] at hnone
      rcases List.eq_nil_or_concat rs with rfl | ⟨front, last, rfl⟩
      · obtain ⟨_, hsame, _⟩ := Chain.unreadable_of_nil x chain rfl
        rw [hsame]
        exact hsome
      · rw [List.concat_eq_append] at chain
        obtain ⟨c', hc', _⟩ := Chain.last x front chain
        rw [hc']
        simp
  rintro ⟨logs, c', hrecord, hverify, _⟩
  have ha : a.rotate = true := p.rotate.trans hrotate
  have hname : a.rename t.logs = { log := none, rotated := t.logs.log } := by
    simp [Append.rename, ha]
  rw [record_of_prepared x hprep, hname] at hrecord
  obtain rfl := Except.ok.inj hrecord
  simp only [Option.getD_none, List.nil_append] at hverify
  rw [hnone] at hverify
  -- The new file holds the one record, which links to the anchor that is gone.
  obtain ⟨gap, rs', verified⟩ := chain_of_verify x hverify
  have hline := record_of_whole law p a.line.length (Nat.le_succ _)
  rw [List.take_length] at hline
  rw [hline] at verified
  obtain ⟨line, henc, hread⟩ := law.roundTrip { r with chain := some c }
  obtain rfl : line = json := Except.ok.inj (henc.symm.trans p.encoded)
  obtain ⟨c'', first⟩ := linked_of_single x hread verified
  obtain rfl : c = c'' := Option.some.inj first.carries
  have hprev := p.linked.prev.symm.trans first.prev
  simp only [Option.map_none, Option.map_eq_none_iff] at hprev
  exact hanchor hprev

/-- **Torn appends and the audit log.** After every run of calls, each cut
anywhere or not at all, whose calls all meet `Kept`, the next whole append
succeeds and the log verifies to its chain exactly when that append meets `Kept`
too. -/
theorem recovers_iff_kept (x : Backend) (law : x.Lawful) (cut : x.Truncates) (rotateBytes : Nat)
    (calls : List Call) (few : calls.length + 1 < 2 ^ 64)
    (kept : AllKept x rotateBytes noFiles calls) (r : AuditRecord) :
    Recovers x rotateBytes (run x rotateBytes noFiles calls) r ↔
      Kept x rotateBytes (run x rotateBytes noFiles calls).logs := by
  have sound := run_sound x law cut rotateBytes calls noFiles (sound_noFiles x) kept
  have hcount := persisted_le x rotateBytes calls noFiles
  simp only [noFiles, Nat.zero_add] at hcount
  constructor
  · intro recovers
    by_contra lost
    exact not_recovers_of_not_kept x law rotateBytes _ r sound lost recovers
  · exact recovers_of_kept x law cut rotateBytes _ r sound
      (Nat.lt_of_le_of_lt (Nat.succ_le_succ hcount) few)

/-- With the largest limit nothing is ever rotated. -/
theorem kept_of_largest_limit (x : Backend) (logs : Logs) : Kept x (2 ^ 64 - 1) logs := by
  intro hrotate
  exfalso
  cases hlog : logs.log with
  | none => simp [hlog, rotates] at hrotate
  | some raw =>
    simp only [hlog, rotates, decide_eq_true_eq] at hrotate
    omega

/-- An append torn after ten bytes, and the append after it. -/
theorem recovers_after_ten_bytes :
    Recovers (AuditJson.strict hexText) (2 ^ 64 - 1)
      (run (AuditJson.strict hexText) (2 ^ 64 - 1) noFiles
        [⟨applyBy "alice", none⟩, ⟨applyBy "bob", some (.afterBytes 10)⟩]) (applyBy "carol") :=
  (recovers_iff_kept _ (AuditJson.strict_lawful hexText) (AuditJson.strict_truncates hexText)
    (2 ^ 64 - 1) [⟨applyBy "alice", none⟩, ⟨applyBy "bob", some (.afterBytes 10)⟩] (by decide)
    ⟨kept_of_largest_limit _ _, kept_of_largest_limit _ _, trivial⟩ _).mpr
    (kept_of_largest_limit _ _)

theorem first_append (x : Backend) (law : x.Lawful) (rotateBytes : Nat) (r : AuditRecord) :
    ∃ raw c rs, (step x rotateBytes noFiles ⟨r, none⟩).logs = { log := some raw, rotated := none } ∧
      raw ≠ [] ∧ rs ≠ [] ∧ Chain x none [] (visibleLines raw) (some c) [] rs := by
  have empty : Chain x none [] (visibleLines []) none [] [] := by
    rw [visibleLines_nil]
    exact .nil none []
  obtain ⟨a, c, json, hprep, p⟩ := prepare_of_chain x law rotateBytes noFiles.logs r empty
  have hname : a.rename noFiles.logs = noFiles.logs := by
    have hstay : a.rotate = false := p.rotate
    simp [Append.rename, hstay]
  have hrecord := record_of_prepared x hprep
  rw [hname] at hrecord
  have hline := record_of_whole law p a.line.length (Nat.le_succ _)
  rw [List.take_length] at hline
  obtain ⟨line, henc, hread⟩ := law.roundTrip { r with chain := some c }
  obtain rfl : line = json := Except.ok.inj (henc.symm.trans p.encoded)
  have hlink : Linked x none [] { r with chain := some c } c := by
    have h := p.linked
    rw [ite_self] at h
    exact h
  refine ⟨a.line, c, [{ r with chain := some c }], ?_, ?_, by simp, ?_⟩
  · rw [step_logs]
    simp only [Call.logs, hrecord]
    rfl
  · rw [p.line]
    simp
  · rw [hline]
    exact .record hread hlink (.nil _ _)

/-- A log with one record, rotated by a call that is cut after one byte: the next
call finds a torn line over the limit and rotates it over the record. -/
theorem not_kept_after_cut (x : Backend) (law : x.Lawful) (cut : x.Truncates)
    (long : ∀ record json, x.toVec record = .ok json → 2 ≤ json.length) (r₁ r₂ : AuditRecord) :
    AllKept x 0 noFiles [⟨r₁, none⟩, ⟨r₂, some (.afterBytes 1)⟩] ∧
      ¬ Kept x 0 (run x 0 noFiles [⟨r₁, none⟩, ⟨r₂, some (.afterBytes 1)⟩]).logs := by
  obtain ⟨raw, c, rs, hfirst, hraw, hrs, chain⟩ := first_append x law 0 r₁
  have hanchor : rotatedAnchor x (some raw) = some c := by
    rw [rotatedAnchor_of_chain x cut chain, if_neg hrs]
  obtain ⟨a, c₂, json, hprep, p⟩ := prepare_of_chain x law 0
    { log := some raw, rotated := none } r₂ chain
  have hlength : 2 < a.line.length := by
    have hjson := long _ _ p.encoded
    rw [p.line]
    simp only [List.length_append, List.length_singleton]
    omega
  have hmove : a.rotate = true := by
    have hpos := List.length_pos_of_ne_nil hraw
    rw [p.rotate]
    simp only [rotates, decide_eq_true_eq]
    omega
  have hsecond : (run x 0 noFiles [⟨r₁, none⟩, ⟨r₂, some (.afterBytes 1)⟩]).logs =
      { log := some (a.line.take 1), rotated := some raw } := by
    change (step x 0 (step x 0 noFiles ⟨r₁, none⟩) ⟨r₂, some (.afterBytes 1)⟩).logs = _
    rw [step_logs, hfirst]
    simp only [Call.logs, recordCut, hprep, Append.write, Append.rename, hmove, if_true,
      Option.getD_none, List.nil_append]
  have hlost : rotatedAnchor x (some (a.line.take 1)) = none := by
    rw [rotatedAnchor_some x cut, List.findSome?_eq_none_iff]
    intro line hline
    exact chainOf_of_unreadable x
      (unreadable_of_cut law cut p 1 (by omega) line (List.mem_reverse.mp hline))
  have hrotate : rotates 0 (some (a.line.take 1)) = true := by
    simp only [rotates, List.length_take, decide_eq_true_eq]
    omega
  constructor
  · refine ⟨nofun, ?_, trivial⟩
    rw [hfirst]
    intro _
    exact Or.inr rfl
  · rw [hsecond]
    intro kept
    rcases kept hrotate with hsome | hnone
    · exact hsome hlost
    · rw [hanchor] at hnone
      cases hnone

/-- Rotation limit 0: one whole append, one that a crash cuts after the rename and
one byte, and the append after it no longer leaves a log that verifies. -/
theorem torn_log_rotated_over_records :
    ¬ ∀ (x : Backend), x.Lawful → x.Truncates → ∀ (rotateBytes : Nat) (calls : List Call),
      calls.length + 1 < 2 ^ 64 → ∀ r : AuditRecord,
        Recovers x rotateBytes (run x rotateBytes noFiles calls) r := by
  intro claim
  have law := AuditJson.strict_lawful hexText
  have cut := AuditJson.strict_truncates hexText
  have long : ∀ record json, (AuditJson.strict hexText).toVec record = .ok json →
      2 ≤ json.length := by
    intro record json h
    obtain rfl := Except.ok.inj h
    exact Nat.le_add_left 2 _
  obtain ⟨kept, lost⟩ := not_kept_after_cut _ law cut long (applyBy "alice") (applyBy "bob")
  have sound := run_sound _ law cut 0 _ _ (sound_noFiles _) kept
  exact not_recovers_of_not_kept _ law 0 _ (applyBy "carol") sound lost
    (claim _ law cut 0 _ (by decide) _)

end Detent.Guarantees.TornAppends
