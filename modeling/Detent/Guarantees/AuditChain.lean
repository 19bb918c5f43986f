import Detent.Lib.Base64
import Detent.Source.AuditJson

/-!
# Tamper evidence of the audit chain

`scan_records` accepts a log when every record links to the one before it
(`Chain`, proved equal to the loop by `scanRecords_iff`). The hash of a link
covers the record with its chain cleared (`make_chain`), so it binds the
record's own fields and nothing of the chain: neither `prev` nor `torn` nor the
sequence. The retained anchor therefore pins the last record, and the payload of
the one before it, and no earlier history. `tamperEvident_iff` states exactly
which logs the anchor pins.
-/
namespace Detent.Guarantees.AuditChain
open Lib Source Source.AuditLog

/-- `hash` is the digest `make_chain` computes for `record`. -/
def HashOf (x : Backend) (record : AuditRecord) (hash : String) : Prop :=
  ∃ bytes, x.toVec { record with chain := none } = .ok bytes ∧ x.sha256Hex bytes = hash

/-- The chain `check_link` accepts on `record` after `previous` and `gap`. -/
structure Linked (x : Backend) (previous : Option AuditChain) (gap : Bytes)
    (record : AuditRecord) (chain : AuditChain) : Prop where
  carries : record.chain = some chain
  sequence : chain.sequence = nextSequence previous
  prev : chain.prev = previous.map (·.hash)
  torn : chain.torn = tornDigest x gap
  hash : HashOf x record chain.hash

variable (x : Backend)

/-- `check_link` succeeds exactly on a linked record, whatever parse error it
was handed for its message. -/
theorem checkLink_ok_iff (record : AuditRecord) (previous : Option AuditChain) (gap : Bytes)
    (bad : Option String) :
    checkLink x record previous gap bad = .ok () ↔ ∃ chain, Linked x previous gap record chain := by
  unfold checkLink
  cases hchain : record.chain with
  | none =>
    constructor
    · nofun
    · rintro ⟨chain, hl⟩
      rw [hl.carries] at hchain
      cases hchain
  | some actual =>
    simp only [bind, Except.bind]
    split
    next hlink =>
      constructor
      · nofun
      · rintro ⟨chain, hl⟩
        obtain rfl : chain = actual := Option.some.inj (hl.carries.symm.trans hchain)
        rcases hlink with hs | hp
        · exact absurd hl.sequence hs
        · exact absurd hl.prev hp
    next hlink =>
      rw [not_or, not_not, not_not] at hlink
      split
      next htorn =>
        constructor
        · nofun
        · rintro ⟨chain, hl⟩
          obtain rfl : chain = actual := Option.some.inj (hl.carries.symm.trans hchain)
          exact absurd hl.torn htorn
      next htorn =>
        rw [not_not] at htorn
        unfold makeChain
        cases henc : x.toVec { record with chain := none } with
        | error err =>
          constructor
          · nofun
          · rintro ⟨chain, hl⟩
            obtain ⟨bytes, hb, _⟩ := hl.hash
            rw [henc] at hb
            cases hb
        | ok bytes =>
          simp only
          split
          next hhash =>
            constructor
            · nofun
            · rintro ⟨chain, hl⟩
              obtain rfl : chain = actual := Option.some.inj (hl.carries.symm.trans hchain)
              obtain ⟨bytes', hb, hh⟩ := hl.hash
              rw [henc] at hb
              cases hb
              exact absurd hh hhash
          next hhash =>
            rw [not_not] at hhash
            exact ⟨fun _ => ⟨actual, hchain, hlink.1, hlink.2, htorn, bytes, henc, hhash⟩,
              fun _ => rfl⟩

/-- The logs the scan accepts, line by line: `Chain x a g lines a' g' rs` says
that from anchor `a` and open gap `g` the lines lead to anchor `a'` and gap
`g'`, with the records `rs` read on the way. -/
inductive Chain (x : Backend) :
    Option AuditChain → Bytes → List Bytes → Option AuditChain → Bytes → List AuditRecord → Prop
  | nil (a : Option AuditChain) (g : Bytes) : Chain x a g [] a g []
  | torn {a a' : Option AuditChain} {g g' line : Bytes} {lines : List Bytes}
      {rs : List AuditRecord} {err : String} (unreadable : x.fromSlice line = .error err)
      (rest : Chain x a (g ++ line ++ [newline]) lines a' g' rs) :
      Chain x a g (line :: lines) a' g' rs
  | record {a a' : Option AuditChain} {g g' line : Bytes} {lines : List Bytes}
      {rs : List AuditRecord} {r : AuditRecord} {c : AuditChain}
      (readable : x.fromSlice line = .ok r) (linked : Linked x a g r c)
      (rest : Chain x (some c) [] lines a' g' rs) :
      Chain x a g (line :: lines) a' g' (r :: rs)

theorem scanLine_of_error (st : ScanState) (line : Bytes) (err : String)
    (h : x.fromSlice line = .error err) :
    ∃ st', scanLine x st line = .ok st' ∧
      st'.scan = ⟨st.scan.anchor, st.scan.gap ++ line ++ [newline]⟩ ∧ st'.each = st.each := by
  simp only [scanLine, h]
  exact ⟨_, rfl, rfl, rfl⟩

theorem scanLine_of_linked (st : ScanState) (line : Bytes) (r : AuditRecord) (c : AuditChain)
    (h : x.fromSlice line = .ok r) (hl : Linked x st.scan.anchor st.scan.gap r c) :
    ∃ st', scanLine x st line = .ok st' ∧ st'.scan = ⟨some c, []⟩ ∧ st'.each = st.each ++ [r] := by
  have hlink := (checkLink_ok_iff x r _ _ st.firstBad).mpr ⟨c, hl⟩
  simp only [scanLine, h, hl.carries, Option.isNone_some, Bool.false_eq_true, if_false, hlink,
    bind, Except.bind]
  exact ⟨_, rfl, rfl, rfl⟩

theorem scanLine_cases (st st' : ScanState) (line : Bytes) (h : scanLine x st line = .ok st') :
    (∃ err, x.fromSlice line = .error err ∧ st'.each = st.each ∧
      st'.scan = ⟨st.scan.anchor, st.scan.gap ++ line ++ [newline]⟩) ∨
    (∃ r c, x.fromSlice line = .ok r ∧ Linked x st.scan.anchor st.scan.gap r c ∧
      st'.each = st.each ++ [r] ∧ st'.scan = ⟨some c, []⟩) := by
  cases hparse : x.fromSlice line with
  | error err =>
    obtain ⟨out, hout, hscan, heach⟩ := scanLine_of_error x st line err hparse
    rw [hout] at h
    cases h
    exact Or.inl ⟨err, rfl, heach, hscan⟩
  | ok r =>
    unfold scanLine at h
    simp only [hparse] at h
    split at h
    · cases h
    · cases hlink : checkLink x r st.scan.anchor st.scan.gap st.firstBad with
      | error e => simp [hlink, bind, Except.bind] at h
      | ok u =>
        obtain ⟨c, hl⟩ := (checkLink_ok_iff x r _ _ _).mp hlink
        obtain ⟨out, hout, hscan, heach⟩ := scanLine_of_linked x st line r c hparse hl
        have hsame : scanLine x st line = .ok st' := by
          unfold scanLine
          simp only [hparse]
          rw [if_neg (by assumption)]
          exact h
        rw [hout] at hsame
        cases hsame
        exact Or.inr ⟨r, c, rfl, hl, heach, hscan⟩

theorem chain_of_foldlM (lines : List Bytes) (st st' : ScanState)
    (h : lines.foldlM (scanLine x) st = .ok st') :
    ∃ rs, st'.each = st.each ++ rs ∧
      Chain x st.scan.anchor st.scan.gap lines st'.scan.anchor st'.scan.gap rs := by
  induction lines generalizing st with
  | nil =>
    cases h
    exact ⟨[], by simp, .nil _ _⟩
  | cons line lines ih =>
    rw [List.foldlM_cons] at h
    cases hstep : scanLine x st line with
    | error e => simp [hstep, bind, Except.bind] at h
    | ok mid =>
      simp only [hstep, bind, Except.bind] at h
      obtain ⟨rs, heach, hrest⟩ := ih mid h
      rcases scanLine_cases x st mid line hstep with ⟨err, hp, he, hs⟩ | ⟨r, c, hp, hl, he, hs⟩
      · rw [hs] at hrest
        exact ⟨rs, by rw [heach, he], .torn hp hrest⟩
      · rw [hs] at hrest
        exact ⟨r :: rs, by rw [heach, he]; simp, .record hp hl hrest⟩

variable {a a' start : Option AuditChain} {g g' : Bytes} {lines : List Bytes}
  {rs : List AuditRecord} {r : AuditRecord} {c : AuditChain}

theorem foldlM_of_chain (h : Chain x a g lines a' g' rs) (st : ScanState) (hst : st.scan = ⟨a, g⟩) :
    ∃ st', lines.foldlM (scanLine x) st = .ok st' ∧ st'.scan = ⟨a', g'⟩ ∧
      st'.each = st.each ++ rs := by
  induction h generalizing st with
  | nil a g => exact ⟨st, rfl, hst, by simp⟩
  | @torn a a' g g' line lines rs err unreadable rest ih =>
    obtain ⟨mid, hmid, hscan, heach⟩ := scanLine_of_error x st line err unreadable
    rw [hst] at hscan
    obtain ⟨out, hout, hs, he⟩ := ih mid hscan
    refine ⟨out, ?_, hs, by rw [he, heach]⟩
    rw [List.foldlM_cons, hmid]
    exact hout
  | @record a a' g g' line lines rs r c readable linked rest ih =>
    obtain ⟨mid, hmid, hscan, heach⟩ := scanLine_of_linked x st line r c readable
      (by rw [hst]; exact linked)
    obtain ⟨out, hout, hs, he⟩ := ih mid hscan
    refine ⟨out, ?_, hs, by rw [he, heach]; simp⟩
    rw [List.foldlM_cons, hmid]
    exact hout

/-- The source loop and the line-by-line chain accept the same logs with the
same anchor, gap and records. -/
theorem scanRecords_iff (raw : Bytes) (start a' : Option AuditChain) (g' : Bytes)
    (rs : List AuditRecord) :
    scanRecords x raw start = .ok (⟨a', g'⟩, rs) ↔
      Chain x start [] (visibleLines raw) a' g' rs := by
  constructor
  · intro h
    unfold scanRecords at h
    cases hfold : (visibleLines raw).foldlM (scanLine x) (startState start) with
    | error e => simp [hfold, bind, Except.bind] at h
    | ok st =>
      simp only [hfold, bind, Except.bind, Except.ok.injEq, Prod.mk.injEq] at h
      obtain ⟨hscan, heach⟩ := h
      obtain ⟨out, hout, hchain⟩ := chain_of_foldlM x _ _ _ hfold
      have hrs : rs = out := by
        rw [← heach, hout]
        simp [startState]
      rw [hscan] at hchain
      rw [hrs]
      exact hchain
  · intro h
    obtain ⟨st, hfold, hscan, heach⟩ := foldlM_of_chain x h (startState start) rfl
    have hrs : st.each = rs := by
      rw [heach]
      simp [startState]
    unfold scanRecords
    simp only [hfold, bind, Except.bind, hscan, hrs]

/-! ## Cutting and joining accepted logs -/

theorem Chain.append {b : Option AuditChain} {h : Bytes} {left right : List Bytes}
    (first : Chain x a g left b h rs) {c : Option AuditChain} {k : Bytes} {ss : List AuditRecord}
    (second : Chain x b h right c k ss) : Chain x a g (left ++ right) c k (rs ++ ss) := by
  induction first with
  | nil => exact second
  | torn unreadable _ ih => exact .torn unreadable (ih second)
  | record readable linked _ ih => exact .record readable linked (ih second)

/-- A line that is not a record, as the scan sees it. -/
def Unreadable (x : Backend) (line : Bytes) : Prop := ∃ err, x.fromSlice line = .error err

theorem Chain.of_unreadable (a : Option AuditChain) (g : Bytes) (lines : List Bytes)
    (h : ∀ line ∈ lines, Unreadable x line) :
    Chain x a g lines a (g ++ terminate newline lines) [] := by
  induction lines generalizing g with
  | nil => simpa using Chain.nil (x := x) a g
  | cons line lines ih =>
    obtain ⟨err, herr⟩ := h line (by simp)
    have rest := ih (g ++ line ++ [newline]) (fun l hl => h l (by simp [hl]))
    have hgap : g ++ terminate newline (line :: lines) = g ++ line ++ [newline] ++ terminate newline lines := by
      simp [terminate_cons, List.append_assoc]
    rw [hgap]
    exact .torn herr rest

/-- An accepted log with no record is all gap. -/
theorem Chain.unreadable_of_nil (h : Chain x a g lines a' g' rs) (hrs : rs = []) :
    (∀ line ∈ lines, Unreadable x line) ∧ a' = a ∧ g' = g ++ terminate newline lines := by
  induction h with
  | nil a g => simp
  | torn unreadable _ ih =>
    obtain ⟨hall, ha, hg⟩ := ih hrs
    refine ⟨?_, ha, ?_⟩
    · intro line hline
      rcases List.mem_cons.mp hline with rfl | htail
      · exact ⟨_, unreadable⟩
      · exact hall line htail
    · rw [hg]
      simp [terminate_cons, List.append_assoc]
  | record => cases hrs

/-- An accepted log is cut at any of its records: what was read before it, the
record's own line, and what was read after it. -/
theorem Chain.cut (h : Chain x a g lines a' g' rs) (before after : List AuditRecord)
    (r : AuditRecord) (hrs : rs = before ++ r :: after) :
    ∃ left line right b k c, lines = left ++ line :: right ∧ Chain x a g left b k before ∧
      x.fromSlice line = .ok r ∧ Linked x b k r c ∧ Chain x (some c) [] right a' g' after := by
  induction h generalizing before with
  | nil => simp at hrs
  | @torn a a' g g' line lines rs err unreadable rest ih =>
    obtain ⟨left, l, right, b, k, c, hlines, hleft, hl, hlink, hright⟩ := ih before hrs
    exact ⟨line :: left, l, right, b, k, c, by rw [hlines]; rfl, .torn unreadable hleft, hl, hlink,
      hright⟩
  | @record a a' g g' line lines rs r₀ c₀ readable linked rest ih =>
    cases before with
    | nil =>
      simp only [List.nil_append, List.cons.injEq] at hrs
      obtain ⟨rfl, rfl⟩ := hrs
      exact ⟨[], line, lines, a, g, c₀, rfl, .nil a g, readable, linked, rest⟩
    | cons b₀ before =>
      simp only [List.cons_append, List.cons.injEq] at hrs
      obtain ⟨rfl, htail⟩ := hrs
      obtain ⟨left, l, right, b, k, c, hlines, hleft, hl, hlink, hright⟩ := ih before htail
      exact ⟨line :: left, l, right, b, k, c, by rw [hlines]; rfl,
        .record readable linked hleft, hl, hlink, hright⟩

/-- Lines a log can hold: one line each, not blank. -/
def Visible (line : Bytes) : Prop := newline ∉ line ∧ isBlank line = false

theorem visibleLines_terminate (lines : List Bytes) (h : ∀ line ∈ lines, Visible line) :
    visibleLines (terminate newline lines) = lines := by
  unfold visibleLines
  rw [splitOn_terminate newline lines (fun line hl => (h line hl).1), List.filter_append]
  rw [List.filter_eq_self.mpr (fun line hl => by simp [(h line hl).2])]
  simp [isBlank]

theorem mem_visibleLines (raw line : Bytes) (h : line ∈ visibleLines raw) : Visible line := by
  obtain ⟨hmem, hvis⟩ := List.mem_filter.mp h
  exact ⟨not_mem_of_mem_splitOn newline raw line hmem, by simpa using hvis⟩

/-! ## What an anchor pins -/

/-- Everything a record says apart from its chain. -/
def payload (r : AuditRecord) : AuditRecord := { r with chain := none }

theorem hashOf_injective (law : x.Lawful) (inj : Function.Injective x.sha256Hex) {s : AuditRecord}
    {hash : String} (hr : HashOf x r hash) (hs : HashOf x s hash) : payload r = payload s := by
  obtain ⟨bytes, hb, hh⟩ := hr
  obtain ⟨bytes', hb', hh'⟩ := hs
  obtain rfl : bytes = bytes' := inj (hh.trans hh'.symm)
  obtain ⟨line, hl, hrt⟩ := law.roundTrip (payload r)
  obtain ⟨line', hl', hrt'⟩ := law.roundTrip (payload s)
  have e : line = bytes := Except.ok.inj (hl.symm.trans hb)
  have e' : line' = bytes := Except.ok.inj (hl'.symm.trans hb')
  rw [e] at hrt
  rw [e'] at hrt'
  exact Except.ok.inj (hrt.symm.trans hrt')

theorem record_eq_of_payload {s : AuditRecord} (hp : payload r = payload s)
    (hc : r.chain = s.chain) : r = s := by
  cases r
  cases s
  simp only [payload, AuditRecord.mk.injEq] at hp
  simp_all

/-- The position an anchor records. -/
def position : Option AuditChain → Nat
  | none => 0
  | some chain => chain.sequence.val

theorem position_le (a : Option AuditChain) : position a ≤ 2 ^ 64 - 1 := by
  cases a with
  | none => exact Nat.zero_le _
  | some chain =>
    have := chain.sequence.isLt
    simp only [position]
    omega

theorem nextSequence_val (a : Option AuditChain) :
    (nextSequence a).val = min (position a + 1) (2 ^ 64 - 1) := by
  cases a with
  | none => decide
  | some chain =>
    have := chain.sequence.isLt
    simp only [nextSequence, saturatingSucc, position]
    split
    · change chain.sequence.val + 1 = _
      omega
    · omega

/-- The anchor counts the records read, up to the saturation of `u64`. -/
theorem Chain.position_eq (h : Chain x a g lines a' g' rs) :
    position a' = min (position a + rs.length) (2 ^ 64 - 1) := by
  induction h with
  | nil a g =>
    have := position_le a
    simp only [List.length_nil, Nat.add_zero]
    omega
  | torn _ _ ih => exact ih
  | @record a a' g g' line lines rs r c readable linked rest ih =>
    have hc : position (some c) = min (position a + 1) (2 ^ 64 - 1) := by
      simp only [position, linked.sequence, nextSequence_val]
    rw [ih, hc, List.length_cons]
    omega

/-- The last record read carries the anchor. -/
theorem Chain.last (before : List AuditRecord) (h : Chain x a g lines a' g' (before ++ [r])) :
    ∃ c, a' = some c ∧ r.chain = some c ∧ HashOf x r c.hash := by
  obtain ⟨_, _, _, _, _, c, _, _, _, hlink, hright⟩ := Chain.cut x h before [] r rfl
  obtain ⟨_, ha, _⟩ := Chain.unreadable_of_nil x hright rfl
  exact ⟨c, ha, hlink.carries, hlink.hash⟩

/-- An anchor that a record following another record can carry: its `prev` is
the hash of some record, its `hash` that of another, and its `torn` names some
unreadable lines. -/
def IsLink (x : Backend) (c : AuditChain) : Prop :=
  ∃ r₀ r₁ hash lines, HashOf x r₀ hash ∧ c.prev = some hash ∧ HashOf x r₁ c.hash ∧
    (∀ line ∈ lines, Visible line ∧ Unreadable x line) ∧
    c.torn = tornDigest x (terminate newline lines)

/-- A log that ends in two records ends in such an anchor. -/
theorem Chain.isLink {before : List AuditRecord} {r₀ r₁ : AuditRecord}
    (visible : ∀ line ∈ lines, Visible line)
    (h : Chain x a g lines (some c) g' (before ++ [r₀, r₁])) : IsLink x c := by
  obtain ⟨left, line₀, right, b, k, c₀, hlines, _, _, hlink₀, hright⟩ :=
    Chain.cut x h before [r₁] r₀ rfl
  obtain ⟨mid, line₁, tail, b₁, k₁, c₁, hright', hmid, _, hlink₁, htail⟩ :=
    Chain.cut x hright [] [] r₁ rfl
  obtain ⟨hun, hb, hk⟩ := Chain.unreadable_of_nil x hmid rfl
  obtain ⟨_, hc, _⟩ := Chain.unreadable_of_nil x htail rfl
  obtain rfl : c = c₁ := Option.some.inj hc
  refine ⟨r₀, r₁, c₀.hash, mid, hlink₀.hash, ?_, hlink₁.hash, ?_, ?_⟩
  · rw [hlink₁.prev, hb]
    rfl
  · intro line hl
    exact ⟨visible line (by rw [hlines, hright']; simp [hl]), hun line hl⟩
  · rw [hlink₁.torn, hk, List.nil_append]

/-! ## Which logs the anchor pins -/

/-- Every log accepted from `start` that ends in the anchor `c` holds exactly
the records `rs`. -/
def TamperEvident (x : Backend) (start : Option AuditChain) (c : AuditChain)
    (rs : List AuditRecord) : Prop :=
  ∀ raw gap rs', scanRecords x raw start = .ok (⟨some c, gap⟩, rs') → rs' = rs

theorem tornDigest_append_ne (inj : Function.Injective x.sha256Hex) (gap line : Bytes) :
    tornDigest x (gap ++ line ++ [newline]) ≠ tornDigest x gap := by
  intro h
  have hne : (gap ++ line ++ [newline]).isEmpty = false := by simp
  unfold tornDigest at h
  rw [hne] at h
  cases hgap : gap.isEmpty with
  | true => simp [hgap] at h
  | false =>
    simp only [hgap, Bool.false_eq_true, if_false, Option.some.injEq] at h
    have hlen := congrArg List.length (inj h)
    simp only [List.length_append, List.length_singleton] at hlen
    omega

/-- Two records are enough for an undetected change: put an unreadable line
before the second record from the end and note it in that record's `torn`,
which no hash covers. -/
theorem rewrite_before_last (law : x.Lawful) (inj : Function.Injective x.sha256Hex) {gap : Bytes}
    {before : List AuditRecord} {r₀ r₁ : AuditRecord} (visible : ∀ line ∈ lines, Visible line)
    (h : Chain x start [] lines (some c) gap (before ++ [r₀, r₁])) :
    ∃ lines' r₀', (∀ line ∈ lines', Visible line) ∧ r₀' ≠ r₀ ∧ payload r₀' = payload r₀ ∧
      Chain x start [] lines' (some c) gap (before ++ [r₀', r₁]) := by
  obtain ⟨left, line₀, right, b, k, c₀, hlines, hleft, _, hlink₀, hright⟩ :=
    Chain.cut x h before [r₁] r₀ rfl
  obtain ⟨mid, line₁, tail, b₁, k₁, c₁, hright', hmid, hline₁, hlink₁, htail⟩ :=
    Chain.cut x hright [] [] r₁ rfl
  obtain ⟨hun, hb, hk⟩ := Chain.unreadable_of_nil x hmid rfl
  obtain ⟨err, hbad⟩ := law.rejects
  -- the forged record: the same payload under a chain whose `torn` also names the planted line
  let c₀' : AuditChain := { c₀ with torn := tornDigest x (k ++ [120] ++ [newline]) }
  let r₀' : AuditRecord := { r₀ with chain := some c₀' }
  obtain ⟨line₀', henc, hdec⟩ := law.roundTrip r₀'
  refine ⟨left ++ [120] :: line₀' :: (mid ++ line₁ :: tail), r₀', ?_, ?_, rfl, ?_⟩
  · intro line hl
    have old : ∀ l, l ∈ left ∨ l ∈ mid ∨ l = line₁ ∨ l ∈ tail → Visible l := by
      intro l hm
      apply visible
      rw [hlines, hright']
      simp only [List.mem_append, List.mem_cons]
      tauto
    simp only [List.mem_append, List.mem_cons] at hl
    rcases hl with hl | rfl | rfl | hl | rfl | hl
    · exact old line (Or.inl hl)
    · exact ⟨by decide, by decide⟩
    · exact ⟨law.oneLine _ _ henc, law.visible _ _ henc⟩
    · exact old line (Or.inr (Or.inl hl))
    · exact old line (by simp)
    · exact old line (by simp [hl])
  · intro heq
    have hchain : some c₀' = r₀.chain := congrArg AuditRecord.chain heq
    rw [hlink₀.carries] at hchain
    have htorn := congrArg AuditChain.torn (Option.some.inj hchain)
    rw [hlink₀.torn] at htorn
    exact tornDigest_append_ne x inj k [120] htorn
  · have forged : Linked x b (k ++ [120] ++ [newline]) r₀' c₀' :=
      ⟨rfl, hlink₀.sequence, hlink₀.prev, rfl, hlink₀.hash⟩
    -- the last record names the hash and the position of its predecessor, both unchanged
    have relinked : Linked x (some c₀') (terminate newline mid) r₁ c₁ := by
      refine ⟨hlink₁.carries, ?_, ?_, ?_, hlink₁.hash⟩
      · rw [hlink₁.sequence, hb]
        rfl
      · rw [hlink₁.prev, hb]
        rfl
      · rw [hlink₁.torn, hk, List.nil_append]
    have gapped := Chain.of_unreadable x (some c₀') [] mid hun
    rw [List.nil_append] at gapped
    exact Chain.append x hleft (.torn hbad (.record hdec forged
      (Chain.append x gapped (.record hline₁ relinked htail))))

/-- At the saturated position an anchor that two records can carry is reached
again by two more records. -/
theorem extend_saturated (law : x.Lawful) (full : 2 ^ 64 - 2 ≤ position start)
    (hc : c.sequence.val = 2 ^ 64 - 1) (link : IsLink x c) :
    ∃ lines r₀ r₁, (∀ line ∈ lines, Visible line) ∧
      Chain x start [] lines (some c) [] [r₀, r₁] := by
  obtain ⟨s₀, s₁, hash, gap, hs₀, hprev, hs₁, hgap, htorn⟩ := link
  let c₀ : AuditChain :=
    { sequence := nextSequence start, prev := start.map (·.hash), hash := hash, torn := none }
  let r₀ : AuditRecord := { s₀ with chain := some c₀ }
  let r₁ : AuditRecord := { s₁ with chain := some c }
  obtain ⟨line₀, henc₀, hdec₀⟩ := law.roundTrip r₀
  obtain ⟨line₁, henc₁, hdec₁⟩ := law.roundTrip r₁
  refine ⟨line₀ :: (gap ++ [line₁]), r₀, r₁, ?_, ?_⟩
  · intro line hl
    simp only [List.mem_cons, List.mem_append, List.not_mem_nil, or_false] at hl
    rcases hl with rfl | hl | rfl
    · exact ⟨law.oneLine _ _ henc₀, law.visible _ _ henc₀⟩
    · exact (hgap line hl).1
    · exact ⟨law.oneLine _ _ henc₁, law.visible _ _ henc₁⟩
  · have first : Linked x start [] r₀ c₀ := ⟨rfl, rfl, rfl, rfl, hs₀⟩
    have second : Linked x (some c₀) (terminate newline gap) r₁ c := by
      refine ⟨rfl, ?_, hprev, htorn, hs₁⟩
      apply Fin.ext
      have hnext : (nextSequence start).val = 2 ^ 64 - 1 := by
        rw [nextSequence_val]
        have := position_le start
        omega
      rw [hc, nextSequence_val]
      change _ = min ((nextSequence start).val + 1) _
      omega
    have gapped := Chain.of_unreadable x (some c₀) [] gap (fun l hl => (hgap l hl).2)
    rw [List.nil_append] at gapped
    exact .record hdec₀ first (Chain.append x gapped (.record hdec₁ second (.nil _ _)))

/-- One record that leads an anchor back to itself: the counter is saturated and
the anchor is a link. -/
theorem loop_saturated (visible : ∀ line ∈ lines, Visible line)
    (h : Chain x (some c) [] lines (some c) g' [r]) : c.sequence.val = 2 ^ 64 - 1 ∧ IsLink x c := by
  have hpos := Chain.position_eq x h
  simp only [position, List.length_singleton] at hpos
  obtain ⟨left, line, right, b, k, c', hlines, hleft, _, hlink, hright⟩ :=
    Chain.cut x h [] [] r rfl
  obtain ⟨hun, hb, hk⟩ := Chain.unreadable_of_nil x hleft rfl
  obtain ⟨_, hc, _⟩ := Chain.unreadable_of_nil x hright rfl
  obtain rfl : c = c' := Option.some.inj hc
  have hlt := c.sequence.isLt
  refine ⟨by omega, r, r, c.hash, left, hlink.hash, ?_, hlink.hash, ?_, ?_⟩
  · rw [hlink.prev, hb]
    rfl
  · intro l hl
    exact ⟨visible l (by rw [hlines]; simp [hl]), hun l hl⟩
  · rw [hlink.torn, hk, List.nil_append]

/-- A list of at least two entries is a list followed by its last two. -/
theorem split_last_two {α : Type} (l : List α) (h : 2 ≤ l.length) :
    ∃ before a b, l = before ++ [a, b] := by
  induction l with
  | nil => simp at h
  | cons head tail ih =>
    match tail, ih with
    | [], _ => simp at h
    | [b], _ => exact ⟨[], head, b, rfl⟩
    | t₁ :: t₂ :: rest, ih =>
      obtain ⟨before, a, b, hsplit⟩ := ih (by simp)
      exact ⟨head :: before, a, b, by rw [hsplit]; rfl⟩

/-- Under the condition, a log that ends in the anchor holds at most one record. -/
theorem length_le_one_of_unsaturated {lines' : List Bytes} {rs' : List AuditRecord}
    (visible : ∀ line ∈ lines', Visible line) (h : Chain x start [] lines (some c) g rs)
    (h' : Chain x start [] lines' (some c) g' rs') (short : rs.length ≤ 1)
    (free : c.sequence.val = 2 ^ 64 - 1 → ¬ IsLink x c) : rs'.length ≤ 1 := by
  by_contra hlong
  obtain ⟨before, r₀, r₁, rfl⟩ := split_last_two rs' (by omega)
  have link := Chain.isLink x visible h'
  have hp := Chain.position_eq x h
  have hp' := Chain.position_eq x h'
  have hlt := c.sequence.isLt
  have hne : c.sequence.val ≠ 2 ^ 64 - 1 := fun hmax => free hmax link
  simp only [position] at hp hp'
  simp only [List.length_append, List.length_cons, List.length_nil] at hp' hlong
  omega

/-- **The anchor pins a log exactly when the log holds at most one record** (and,
at the saturated sequence number, when no two records can carry the anchor).
From two records on, an accepted log with the same anchor and other records
always exists. -/
theorem tamperEvident_iff (x : Backend) (law : x.Lawful)
    (inj : Function.Injective x.sha256Hex) (start : Option AuditChain) (raw gap : Bytes)
    (c : AuditChain) (rs : List AuditRecord)
    (accepted : scanRecords x raw start = .ok (⟨some c, gap⟩, rs)) :
    TamperEvident x start c rs ↔
      rs.length ≤ 1 ∧ (c.sequence.val = 2 ^ 64 - 1 → ¬ IsLink x c) := by
  have hchain := (scanRecords_iff x raw start (some c) gap rs).mp accepted
  have hvis : ∀ line ∈ visibleLines raw, Visible line := fun l hl => mem_visibleLines raw l hl
  have realise : ∀ lines g rs', (∀ line ∈ lines, Visible line) →
      Chain x start [] lines (some c) g rs' →
      scanRecords x (terminate newline lines) start = .ok (⟨some c, g⟩, rs') := by
    intro lines g rs' hv h
    rw [scanRecords_iff, visibleLines_terminate lines hv]
    exact h
  constructor
  · intro evident
    have short : rs.length ≤ 1 := by
      by_contra hlong
      obtain ⟨before, r₀, r₁, rfl⟩ := split_last_two rs (by omega)
      obtain ⟨lines', r₀', hv, hne, _, hforged⟩ := rewrite_before_last x law inj hvis hchain
      have hsame := evident _ _ _ (realise _ _ _ hv hforged)
      simp only [List.append_cancel_left_eq, List.cons.injEq, and_true] at hsame
      exact hne hsame
    refine ⟨short, fun hmax link => ?_⟩
    have hpos := Chain.position_eq x hchain
    change c.sequence.val = _ at hpos
    have full : 2 ^ 64 - 2 ≤ position start := by omega
    obtain ⟨lines', r₀, r₁, hv, hforged⟩ := extend_saturated x law full hmax link
    have hsame := evident _ _ _ (realise _ _ _ hv hforged)
    rw [← hsame] at short
    simp at short
  · rintro ⟨short, free⟩ raw' gap' rs' accepted'
    have hchain' := (scanRecords_iff x raw' start (some c) gap' rs').mp accepted'
    have hvis' : ∀ line ∈ visibleLines raw', Visible line := fun l hl => mem_visibleLines raw' l hl
    have short' := length_le_one_of_unsaturated x hvis' hchain hchain' short free
    cases rs with
    | nil =>
      obtain ⟨_, hstart, _⟩ := Chain.unreadable_of_nil x hchain rfl
      cases rs' with
      | nil => rfl
      | cons r' rest' =>
        obtain rfl : rest' = [] := List.eq_nil_of_length_eq_zero (by simpa using short')
        rw [← hstart] at hchain'
        obtain ⟨hmax, link⟩ := loop_saturated x hvis' hchain'
        exact absurd link (free hmax)
    | cons r rest =>
      obtain rfl : rest = [] := List.eq_nil_of_length_eq_zero (by simpa using short)
      cases rs' with
      | nil =>
        obtain ⟨_, hstart, _⟩ := Chain.unreadable_of_nil x hchain' rfl
        rw [← hstart] at hchain
        obtain ⟨hmax, link⟩ := loop_saturated x hvis hchain
        exact absurd link (free hmax)
      | cons r' rest' =>
        obtain rfl : rest' = [] := List.eq_nil_of_length_eq_zero (by simpa using short')
        obtain ⟨c₁, hc₁, hcar₁, hh₁⟩ := Chain.last x [] hchain
        obtain ⟨c₂, hc₂, hcar₂, hh₂⟩ := Chain.last x [] hchain'
        obtain rfl : c = c₁ := Option.some.inj hc₁
        obtain rfl : c = c₂ := Option.some.inj hc₂
        have hp := hashOf_injective x law inj hh₂ hh₁
        rw [record_eq_of_payload hp (hcar₂.trans hcar₁.symm)]

/-! ## Logs written by appending -/

/-- A record as an append after `previous` persists it, with no torn lines in
between. -/
def sealed (x : Backend) (previous : Option AuditChain) (r : AuditRecord) : AuditRecord :=
  match makeChain x r previous with
  | .ok c => { r with chain := some c }
  | .error _ => r

/-- Records appended one after the other. -/
def appended (x : Backend) : Option AuditChain → List AuditRecord → List AuditRecord
  | _, [] => []
  | previous, r :: rs => sealed x previous r :: appended x (sealed x previous r).chain rs

/-- The log file that holds `rs`. -/
def logFile (rs : List AuditRecord) : Bytes :=
  terminate newline (rs.map (fun r => utf8 (AuditJson.record.write r)))

variable (hash : Bytes → String)

/-- The link an append puts on `r`. -/
def linkOf (previous : Option AuditChain) (r : AuditRecord) : AuditChain :=
  { sequence := nextSequence previous, prev := previous.map (·.hash)
    hash := hash (utf8 (AuditJson.record.write (payload r))), torn := none }

theorem sealed_eq (previous : Option AuditChain) (r : AuditRecord) :
    sealed (AuditJson.backend hash) previous r =
      { r with chain := some (linkOf hash previous r) } := rfl

theorem linkOf_linked (previous : Option AuditChain) (r : AuditRecord) :
    Linked (AuditJson.backend hash) previous [] { r with chain := some (linkOf hash previous r) }
      (linkOf hash previous r) :=
  ⟨rfl, rfl, rfl, rfl, _, rfl, rfl⟩

/-- Appended records form a chain that ends in the last record's link. -/
theorem chain_appended (previous : Option AuditChain) (rs : List AuditRecord) :
    Chain (AuditJson.backend hash) previous []
      ((appended (AuditJson.backend hash) previous rs).map
        (fun r => utf8 (AuditJson.record.write r)))
      ((appended (AuditJson.backend hash) previous rs).foldl (fun _ r => r.chain) previous) []
      (appended (AuditJson.backend hash) previous rs) := by
  induction rs generalizing previous with
  | nil => exact Chain.nil _ _
  | cons r rs ih =>
    simp only [appended, List.map_cons, List.foldl_cons, sealed_eq]
    exact Chain.record (AuditJson.fromSlice_write hash _) (linkOf_linked hash previous r) (ih _)

theorem scanRecords_appended (start : Option AuditChain) (rs : List AuditRecord) :
    scanRecords (AuditJson.backend hash) (logFile (appended (AuditJson.backend hash) start rs)) start
      = .ok (⟨(appended (AuditJson.backend hash) start rs).foldl (fun _ r => r.chain) start, []⟩,
          appended (AuditJson.backend hash) start rs) := by
  have law := AuditJson.backend_lawful hash
  rw [scanRecords_iff, logFile, visibleLines_terminate]
  · exact chain_appended hash start rs
  · intro line hl
    obtain ⟨r, _, rfl⟩ := List.mem_map.mp hl
    exact ⟨law.oneLine r _ rfl, law.visible r _ rfl⟩

/-- Two hex digits for each byte: a hash without collisions. -/
def hexText (bytes : Bytes) : String :=
  String.ofList (bytes.flatMap (fun b =>
    [Nat.digitChar (b.toNat / 16), Nat.digitChar (b.toNat % 16)]))

theorem hexText_injective : Function.Injective hexText := by
  intro xs ys h
  exact hexPairs_injective (String.ofList_injective h)

/-- An apply by `who`, as the engine records it. -/
def applyBy (who : String) : AuditRecord :=
  { ts := "2026-01-01T00:00:00Z", who := who, kind := .localUser, op := .apply
    module := some "hosts", prevHash := none, newHash := none, beforeHash := none
    afterHash := none, commitId := none, result := .ok, errorId := none, chain := none }

/-- With one record in the log the anchor does pin it. -/
theorem tamperEvident_single :
    TamperEvident (AuditJson.backend hexText) none
      { sequence := 1, prev := none
        hash := hexText (utf8 (AuditJson.record.write (applyBy "alice"))), torn := none }
      (appended (AuditJson.backend hexText) none [applyBy "alice"]) :=
  (tamperEvident_iff _ (AuditJson.backend_lawful hexText) hexText_injective none _ [] _ _
    (scanRecords_appended hexText none [applyBy "alice"])).mpr
    ⟨by decide, fun h => absurd h (by decide)⟩

/-- Three appends, and the same log with another caller in the first record and
the second linked to it: both scans end in the same anchor. -/
theorem rewritten_history_keeps_anchor :
    let honest := appended (AuditJson.backend hexText) none
      [applyBy "alice", applyBy "bob", applyBy "carol"]
    let forged := appended (AuditJson.backend hexText) none
      [applyBy "mallory", applyBy "bob", applyBy "carol"]
    ∃ anchor,
      scanRecords (AuditJson.backend hexText) (logFile honest) none = .ok (⟨some anchor, []⟩, honest) ∧
      scanRecords (AuditJson.backend hexText) (logFile forged) none = .ok (⟨some anchor, []⟩, forged) ∧
      honest ≠ forged := by
  intro honest forged
  have last : ∀ who, (appended (AuditJson.backend hexText) none
      [applyBy who, applyBy "bob", applyBy "carol"]).foldl (fun _ r => r.chain) none =
      some (linkOf hexText (some ⟨2, none, (linkOf hexText none (applyBy "bob")).hash, none⟩)
        (applyBy "carol")) := by
    intro who
    simp only [appended, sealed_eq, List.foldl_cons, List.foldl_nil]
    rfl
  refine ⟨_, (scanRecords_appended hexText none _).trans (by rw [last]),
    (scanRecords_appended hexText none _).trans (by rw [last]), ?_⟩
  intro h
  have hwho := congrArg (List.map (·.who)) h
  simp only [honest, forged, appended, sealed_eq, List.map_cons, List.map_nil] at hwho
  exact absurd hwho (by decide)

end Detent.Guarantees.AuditChain
