import Detent.Guarantees.FlavourPlans
import Detent.Source.Resolver

/-!
# Resolver edits are exact for all three flavours at once

The line that an entry is rendered as is read by its own flavour and by no parser
before it, though only its own parser is asked when it is rendered. So each of the
three plans is foreign to the other flavours, and one pass carries all of them out.
-/
namespace Detent.Guarantees.ResolverEdits
open Lib Lib.Text Source.Resolver
open Source.Doc hiding parse
open DocShape PlanMerge EntryPlans
open CanonicalDocuments EntryEdits
open FlavourPlans

section Carriage

variable (raw : Text) {c : Char} (hc : isWhitespace c = true)

include hc

theorem parseResolv_trailing : parseResolv (raw ++ [c]) = parseResolv raw := by
  rw [parseResolv, splitWhitespace_append_whitespace raw hc, parseResolv]

theorem parseResolved_trailing : parseResolved (raw ++ [c]) = parseResolved raw := by
  rw [parseResolved, trim_append_whitespace raw hc, parseResolved]

theorem parseUnbound_trailing : parseUnbound (raw ++ [c]) = parseUnbound raw := by
  rw [parseUnbound, trim_append_whitespace raw hc, parseUnbound]

theorem parseEntry_trailing : parseEntry (raw ++ [c]) = parseEntry raw := by
  rw [parseEntry, parseResolv_trailing raw hc, parseResolved_trailing raw hc,
    parseUnbound_trailing raw hc, parseEntry]

/-- Trailing white space means nothing to any flavour. -/
theorem classify_trailing : classify (raw ++ [c]) = classify raw := by
  rw [classify, trim_append_whitespace raw hc, head?_trimStart_append_whitespace raw hc,
    parseEntry_trailing raw hc, classify]

theorem resolvOf_trailing : resolvOf (raw ++ [c]) = resolvOf raw := by
  rw [resolvOf, parseEntry_trailing raw hc, resolvOf]

theorem resolvedOf_trailing : resolvedOf (raw ++ [c]) = resolvedOf raw := by
  rw [resolvedOf, parseEntry_trailing raw hc, resolvedOf]

theorem unboundOf_trailing : unboundOf (raw ++ [c]) = unboundOf raw := by
  rw [unboundOf, parseEntry_trailing raw hc, unboundOf]

end Carriage

section Rendered

theorem finishRender_ok {T : Type} [DecidableEq T] {entry : T} {line raw : Text}
    {reparse : Text → Option T} (h : finishRender entry line reparse = .ok raw) :
    raw = line ∧ reparse raw = some entry := by
  unfold finishRender at h
  by_cases hbreak : line.any isBreak = true
  · rw [if_pos hbreak] at h
    cases h
  · rw [if_neg hbreak] at h
    by_cases hparse : reparse line = some entry
    · rw [if_pos hparse] at h
      obtain rfl := Except.ok.inj h
      exact ⟨rfl, hparse⟩
    · rw [if_neg hparse] at h
      cases h

theorem classify_directive {raw : Text} {c : Char} {entry : Entry}
    (hfirst : (trimStart raw).head? = some c) (hmark : isCommentMark c = false)
    (hentry : parseEntry raw = some entry) : classify raw = .directive := by
  obtain ⟨rest, htrim⟩ := trim_of_first hfirst
  simp [classify, htrim, hfirst, hmark, hentry]

/-- A line is a `resolv.conf` entry only by its first word. -/
theorem parseResolv_eq_none {raw word : Text} {tokens : List Text}
    (hsplit : splitWhitespace raw = word :: tokens)
    (hword : word ∉ ["nameserver", "search", "domain", "options"].map String.toList) :
    parseResolv raw = none := by
  simp only [List.map_cons, List.map_nil, List.mem_cons, List.not_mem_nil, or_false, not_or] at hword
  simp only [parseResolv, hsplit, hword, if_false]

theorem key_first {c : Char} {rest key value : Text} (hc : isWhitespace c = false)
    (h : splitOnceP (· == '=') (c :: rest) = some (key, value)) :
    trim key = [] ∨ (trim key).head? = some c := by
  unfold splitOnceP at h
  by_cases heq : c = '='
  · subst heq
    simp only [List.dropWhile_cons, List.takeWhile_cons, beq_self_eq_true, Bool.not_true,
      Bool.false_eq_true, if_false, Option.some.injEq, Prod.mk.injEq] at h
    rw [← h.1]
    exact .inl rfl
  · have hne : (c == '=') = false := by simpa using heq
    simp only [List.dropWhile_cons, List.takeWhile_cons, hne, Bool.not_false, if_true] at h
    cases hrest : rest.dropWhile (fun c => !(c == '=')) with
    | nil => simp [hrest] at h
    | cons d more =>
      simp only [hrest, Option.some.injEq, Prod.mk.injEq] at h
      obtain ⟨tail, htail⟩ := trim_of_first (t := key) (c := c) (by simp [← h.1, trimStart, hc])
      exact .inr (by rw [htail]; rfl)

def resolvedKeys : List Text :=
  ["DNS", "FallbackDNS", "Domains", "DNSSEC", "DNSOverTLS"].map String.toList

/-- A line is a `resolved.conf` entry only by its first character. -/
theorem parseResolved_eq_none {raw : Text} {c : Char} (hfirst : (trimStart raw).head? = some c)
    (hc : c ∉ ['[', 'D', 'F']) : parseResolved raw = none := by
  obtain ⟨rest, htrim⟩ := trim_of_first hfirst
  simp only [List.mem_cons, List.not_mem_nil, or_false, not_or] at hc
  have hheader : c :: rest ≠ "[Resolve]".toList := fun h => hc.1 (List.cons.inj h).1
  simp only [parseResolved, htrim, hheader, if_false]
  cases hsplit : splitOnceP (· == '=') (c :: rest) with
  | none => rfl
  | some pair =>
    have hheads : ∀ key ∈ resolvedKeys, key.head? = some 'D' ∨ key.head? = some 'F' := by decide
    have hkey : trim pair.1 ∉ resolvedKeys := by
      intro hmem
      have hhead := hheads _ hmem
      rcases key_first (trim_head raw c rest htrim) hsplit with hnil | hkey
      · simp [hnil] at hhead
      · simp only [hkey, Option.some.injEq] at hhead
        exact hhead.elim hc.2.1 hc.2.2
    simp only [resolvedKeys, List.map_cons, List.map_nil, List.mem_cons, List.not_mem_nil, or_false,
      not_or] at hkey
    simp only [hkey, if_false]

theorem resolvLine_first (entry : ResolvEntry) :
    ∃ c, (trimStart (resolvLine entry)).head? = some c ∧ isCommentMark c = false := by
  cases entry <;> exact ⟨_, rfl, by decide⟩

theorem resolvedLine_first (entry : ResolvedEntry) :
    ∃ c rest, resolvedLine entry = c :: rest ∧ c ∈ ['[', 'D', 'F'] := by
  cases entry <;> exact ⟨_, _, rfl, by decide⟩

theorem resolv_reads (wanted : List ResolvEntry) :
    Reads classify resolvOf renderResolv wanted := by
  intro entry _ raw hrender
  obtain ⟨rfl, hparse⟩ := finishRender_ok hrender
  have hentry : parseEntry (resolvLine entry) = some (.resolv entry) := by
    rw [parseEntry, hparse]
  obtain ⟨c, hfirst, hmark⟩ := resolvLine_first entry
  exact ⟨classify_directive hfirst hmark hentry, by rw [resolvOf, hentry]⟩

theorem resolved_reads (wanted : List ResolvedEntry) :
    Reads classify resolvedOf renderResolved wanted := by
  intro entry _ raw hrender
  obtain ⟨rfl, hparse⟩ := finishRender_ok hrender
  obtain ⟨c, rest, hline, hc⟩ := resolvedLine_first entry
  have hspace : ∀ d ∈ ['[', 'D', 'F'], isWhitespace d = false ∧ isCommentMark d = false := by decide
  have hwords : ∀ d ∈ ['[', 'D', 'F'], ∀ word ∈
      ["nameserver", "search", "domain", "options"].map String.toList, word.head? ≠ some d := by
    decide
  obtain ⟨word, tokens, hsplit⟩ := splitWhitespace_first rest (hspace c hc).1
  have hnone : parseResolv (resolvedLine entry) = none := by
    rw [hline]
    exact parseResolv_eq_none hsplit (fun hmem => hwords c hc _ hmem rfl)
  have hentry : parseEntry (resolvedLine entry) = some (.resolved entry) := by
    rw [parseEntry, hnone, hparse]
  have hfirst : (trimStart (resolvedLine entry)).head? = some c := by
    simp [hline, trimStart, (hspace c hc).1]
  exact ⟨classify_directive hfirst (hspace c hc).2 hentry, by rw [resolvedOf, hentry]⟩

/-- What a rendered `unbound.conf` line starts with. -/
structure UnboundStart (raw : Text) : Prop where
  word : ∃ word tokens, splitWhitespace raw = word :: tokens ∧
    word ∉ ["nameserver", "search", "domain", "options"].map String.toList
  first : ∃ c, (trimStart raw).head? = some c ∧ isCommentMark c = false ∧ c ∉ ['[', 'D', 'F']

theorem option_start {key : Text} (value : Text) {c : Char} (hne : key ≠ [])
    (hkey : ∀ d ∈ key, isWhitespace d = false) (hfirst : key.head? = some c)
    (hmark : isCommentMark c = false) (hc : c ∉ ['[', 'D', 'F'])
    (hword : key ∉ ["nameserver", "search", "domain", "options"].map String.toList) :
    UnboundStart ("    ".toList ++ key ++ ' ' :: value) where
  word := by
    refine ⟨key, splitWhitespace value, ?_, hword⟩
    have hspace : isWhitespace ' ' = true := by decide
    show splitWhitespace (' ' :: ' ' :: ' ' :: ' ' :: (key ++ ' ' :: value)) = _
    simp only [splitWhitespace_cons_whitespace _ hspace]
    exact splitWhitespace_word value hne hkey hspace
  first := by
    refine ⟨c, ?_, hmark, hc⟩
    obtain ⟨rest, rfl⟩ : ∃ rest, key = c :: rest := by
      cases key with
      | nil => exact absurd rfl hne
      | cons d rest => exact ⟨rest, by simpa using hfirst⟩
    have hspace : isWhitespace c = false := hkey c (by simp)
    show (trimStart (' ' :: ' ' :: ' ' :: ' ' :: (c :: rest ++ ' ' :: value))).head? = _
    simp [trimStart, hspace, show isWhitespace ' ' = true by decide]

theorem hardening_known {raw key : Text} {enabled : Bool}
    (h : parseUnbound raw = some (.hardening key enabled)) : key ∈ knownHardening := by
  unfold parseUnbound at h
  simp only at h
  split_ifs at h with hserver hzone
  · cases h
  · cases h
  · cases hsplit : splitOnceP (· == ':') (trim raw) with
    | none => simp [hsplit] at h
    | some pair =>
      simp only [hsplit] at h
      split_ifs at h with hname haddr htls hknown
      · cases h
      · cases h
      · obtain ⟨flag, _, hflag⟩ := Option.map_eq_some_iff.mp h
        cases hflag
      · obtain ⟨flag, _, hflag⟩ := Option.map_eq_some_iff.mp h
        cases hflag
        exact hknown

theorem append_colon (indent key value : Text) :
    indent ++ key ++ ": ".toList ++ value = indent ++ (key ++ [':']) ++ ' ' :: value := by
  have hcolon : ": ".toList = [':', ' '] := by decide
  rw [hcolon]
  simp

theorem unbound_start {entry : UnboundEntry} (h : parseUnbound (unboundLine entry) = some entry) :
    UnboundStart (unboundLine entry) := by
  have hkeys : ∀ key ∈ knownHardening ++ ["name", "forward-addr", "forward-tls-upstream"].map
      String.toList, (∀ d ∈ key ++ [':'], isWhitespace d = false) ∧
        ((key ++ [':']).head?.any
          (fun c => !isCommentMark c && decide (c ∉ ['[', 'D', 'F']))) = true ∧
        key ++ [':'] ∉ ["nameserver", "search", "domain", "options"].map String.toList := by
    decide +kernel
  have hoption : ∀ key ∈ knownHardening ++ ["name", "forward-addr", "forward-tls-upstream"].map
      String.toList, ∀ value, UnboundStart ("    ".toList ++ (key ++ [':']) ++ ' ' :: value) := by
    intro key hmem value
    obtain ⟨hspace, hfirst, hword⟩ := hkeys key hmem
    cases hhead : (key ++ [':']).head? with
    | none => simp [hhead] at hfirst
    | some c =>
      simp only [hhead, Option.any_some, Bool.and_eq_true, Bool.not_eq_true', decide_eq_true_eq]
        at hfirst
      exact option_start value (by simp) hspace hhead hfirst.1 hfirst.2 hword
  cases entry with
  | server | forwardZone => exact ⟨⟨_, _, rfl, by decide⟩, ⟨_, rfl, by decide, by decide⟩⟩
  | hardening key enabled =>
    have hstart := hoption key (List.mem_append_left _ (hardening_known h)) (yesNo enabled)
    rwa [← append_colon] at hstart
  | forwardName name => exact hoption "name".toList (by decide) name
  | forwardAddr addr => exact hoption "forward-addr".toList (by decide) addr
  | forwardTls enabled => exact hoption "forward-tls-upstream".toList (by decide) (yesNo enabled)

theorem unbound_reads (wanted : List UnboundEntry) :
    Reads classify unboundOf renderUnbound wanted := by
  intro entry _ raw hrender
  unfold renderUnbound at hrender
  cases hrefusal : unboundRefusal entry with
  | some err =>
    rw [hrefusal] at hrender
    cases hrender
  | none =>
    rw [hrefusal] at hrender
    obtain ⟨rfl, hparse⟩ := finishRender_ok hrender
    obtain ⟨⟨word, tokens, hsplit, hword⟩, c, hfirst, hmark, hc⟩ := unbound_start hparse
    have hentry : parseEntry (unboundLine entry) = some (.unbound entry) := by
      rw [parseEntry, parseResolv_eq_none hsplit hword, parseResolved_eq_none hfirst hc, hparse]
      rfl
    exact ⟨classify_directive hfirst hmark hentry, by rw [unboundOf, hentry]⟩

end Rendered

section Model

theorem model_ext {a b : Model} (hresolv : a.resolv = b.resolv) (hresolved : a.resolved = b.resolved)
    (hunbound : a.unbound = b.unbound) : a = b := by
  cases a
  cases b
  simp_all

/-- The model of a document is its entries, flavour by flavour. -/
theorem foldl_push (entries : List Entry) (model : Model) :
    entries.foldl Model.push model =
      ⟨model.resolv ++ entries.filterMap (fun | .resolv entry => some entry | _ => none),
        model.resolved ++ entries.filterMap (fun | .resolved entry => some entry | _ => none),
        model.unbound ++ entries.filterMap (fun | .unbound entry => some entry | _ => none)⟩ := by
  induction entries generalizing model with
  | nil => simp
  | cons entry entries ih =>
    rw [List.foldl_cons, ih]
    cases entry <;> simp [Model.push]

theorem entriesOf_flavour {T : Type} (pick : Entry → Option T) (lines : List Line) :
    (((lines.filter (·.kind == .directive)).filterMap (fun line => parseEntry line.raw)).filterMap
        pick) = entriesOf (fun raw => (parseEntry raw).bind pick) lines := by
  induction lines with
  | nil => rfl
  | cons line lines ih =>
    by_cases hkind : line.kind = .directive
    · rw [List.filter_cons_of_pos (by simp [hkind])]
      cases hparse : parseEntry line.raw with
      | none => simp_all [entriesOf, entryOf]
      | some entry =>
        cases hpick : pick entry with
        | none | some => simp_all [entriesOf, entryOf]
    · rw [List.filter_cons_of_neg (by simp [hkind]), ih]
      simp [entriesOf, entryOf, hkind]

theorem toModel_eq (doc : Document) : toModel doc =
    ⟨entriesOf resolvOf doc.lines, entriesOf resolvedOf doc.lines, entriesOf unboundOf doc.lines⟩ := by
  rw [toModel, foldl_push, entriesOf_flavour, entriesOf_flavour, entriesOf_flavour]
  have hresolv : (fun raw => (parseEntry raw).bind
      (fun | .resolv entry => some entry | _ => none)) = resolvOf := by
    funext raw
    rw [resolvOf]
    cases parseEntry raw with
    | none => rfl
    | some entry => cases entry <;> rfl
  have hresolved : (fun raw => (parseEntry raw).bind
      (fun | .resolved entry => some entry | _ => none)) = resolvedOf := by
    funext raw
    rw [resolvedOf]
    cases parseEntry raw with
    | none => rfl
    | some entry => cases entry <;> rfl
  have hunbound : (fun raw => (parseEntry raw).bind
      (fun | .unbound entry => some entry | _ => none)) = unboundOf := by
    funext raw
    rw [unboundOf]
    cases parseEntry raw with
    | none => rfl
    | some entry => cases entry <;> rfl
  simp only [List.nil_append, ← hresolv, ← hresolved, ← hunbound]

end Model

section Flavours

theorem resolvOf_apart {raw : Text} (h : (resolvOf raw).isSome) :
    resolvedOf raw = none ∧ unboundOf raw = none := by
  unfold resolvOf at h
  unfold resolvedOf unboundOf
  split at h
  next entry hentry => simp [hentry]
  · cases h

theorem resolvedOf_apart {raw : Text} (h : (resolvedOf raw).isSome) :
    resolvOf raw = none ∧ unboundOf raw = none := by
  unfold resolvedOf at h
  unfold resolvOf unboundOf
  split at h
  next entry hentry => simp [hentry]
  · cases h

theorem unboundOf_apart {raw : Text} (h : (unboundOf raw).isSome) :
    resolvOf raw = none ∧ resolvedOf raw = none := by
  unfold unboundOf at h
  unfold resolvOf resolvedOf
  split at h
  next entry hentry => simp [hentry]
  · cases h

/-- The rows that an edit must leave alone: those of no entry, and those whose entry the
alignment of its flavour keeps. -/
def survives (doc : Document) (model : Model) (row : Nat) : Bool :=
  (doc.lines[row]?).any (fun line => line.kind != .directive) ||
    decide (row ∈ keptRows doc resolvOf model.resolv) ||
    decide (row ∈ keptRows doc resolvedOf model.resolved) ||
    decide (row ∈ keptRows doc unboundOf model.unbound)

def survivors (doc : Document) (model : Model) : List Line :=
  linesAt doc.lines (survives doc model)

/-- The plans of an edit, each read off the entries of its own flavour. -/
structure Plans (src : Text) (model : Model) where
  resolv : EntryPlan
  resolved : EntryPlan
  unbound : EntryPlan
  first : List (Placement ResolvEntry)
  second : List (Placement ResolvedEntry)
  third : List (Placement UnboundEntry)
  resolvPlanned : Planned (parse src) model.resolv resolvOf renderResolv (fun _ => false) resolv first
  resolvedPlanned : Planned (parse src) model.resolved resolvedOf renderResolved (fun _ => false)
    resolved second
  unboundPlanned : Planned (parse src) model.unbound unboundOf renderUnbound opensUnboundSection
    unbound third
  clean : CleanPlan ((resolv.extend resolved).extend unbound)
  resolvOnce : AtMostOne resolv
  resolvedOnce : AtMostOne resolved
  unboundOnce : AtMostOne unbound

namespace Plans

variable {src : Text} {model : Model} (plans : Plans src model)

def whole : EntryPlan := among plans.resolv plans.resolved plans.unbound

theorem resolv_foreign : Foreign (parse src) resolvedOf plans.resolv ∧
    Foreign (parse src) unboundOf plans.resolv := by
  constructor
  · exact planned_foreign plans.resolvPlanned (fun _ h => (resolvOf_apart h).1) (resolv_reads _)
  · exact planned_foreign plans.resolvPlanned (fun _ h => (resolvOf_apart h).2) (resolv_reads _)

theorem resolved_foreign : Foreign (parse src) resolvOf plans.resolved ∧
    Foreign (parse src) unboundOf plans.resolved := by
  constructor
  · exact planned_foreign plans.resolvedPlanned (fun _ h => (resolvedOf_apart h).1)
      (resolved_reads _)
  · exact planned_foreign plans.resolvedPlanned (fun _ h => (resolvedOf_apart h).2)
      (resolved_reads _)

theorem unbound_foreign : Foreign (parse src) resolvOf plans.unbound ∧
    Foreign (parse src) resolvedOf plans.unbound := by
  constructor
  · exact planned_foreign plans.unboundPlanned (fun _ h => (unboundOf_apart h).1) (unbound_reads _)
  · exact planned_foreign plans.unboundPlanned (fun _ h => (unboundOf_apart h).2) (unbound_reads _)

theorem two_once : AtMostOne (plans.resolv.extend plans.resolved) := by
  refine atMostOne_extend plans.resolvOnce plans.resolvedOnce ?_
  intro row hmem hother
  exact plans.resolved_foreign.1.rows row hother ((planned_own plans.resolvPlanned).rows row hmem)

/-- No line is touched by two flavours. -/
theorem once : AtMostOne plans.whole := by
  refine atMostOne_extend plans.two_once plans.unboundOnce ?_
  intro row hmem hother
  exact (plans.resolv_foreign.2.extend plans.resolved_foreign.2).rows row hmem
    ((planned_own plans.unboundPlanned).rows row hother)

theorem resolv_entries : entriesOf resolvOf (merged (parse src) plans.whole) = model.resolv := by
  have hforeign : Foreign (parse src) resolvOf
      (EntryPlan.extend {} (plans.resolved.extend plans.unbound)) := by
    rw [empty_extend]
    exact plans.resolved_foreign.1.extend plans.unbound_foreign.1
  have hone := plans.once
  rw [whole, ← among_first] at hone ⊢
  rw [entriesOf_among (planned_own plans.resolvPlanned) hforeign hone]
  exact entriesOf_merged (resolv_reads _) plans.resolvPlanned plans.resolvOnce

theorem resolved_entries :
    entriesOf resolvedOf (merged (parse src) plans.whole) = model.resolved := by
  rw [whole, entriesOf_among (planned_own plans.resolvedPlanned)
    (plans.resolv_foreign.1.extend plans.unbound_foreign.2) plans.once]
  exact entriesOf_merged (resolved_reads _) plans.resolvedPlanned plans.resolvedOnce

theorem unbound_entries : entriesOf unboundOf (merged (parse src) plans.whole) = model.unbound := by
  have hforeign : Foreign (parse src) unboundOf
      ((plans.resolv.extend plans.resolved).extend {}) := by
    rw [extend_empty]
    exact plans.resolv_foreign.2.extend plans.resolved_foreign.2
  have hone := plans.once
  rw [whole, ← among_last] at hone ⊢
  rw [entriesOf_among (planned_own plans.unboundPlanned) hforeign hone]
  exact entriesOf_merged (unbound_reads _) plans.unboundPlanned plans.unboundOnce

theorem touched {row : Nat} (h : row ∈ plans.whole.replace.map (·.1) ++ plans.whole.remove) :
    row ∈ plans.resolv.replace.map (·.1) ++ plans.resolv.remove ∨
      row ∈ plans.resolved.replace.map (·.1) ++ plans.resolved.remove ∨
      row ∈ plans.unbound.replace.map (·.1) ++ plans.unbound.remove := by
  simp only [whole, among, EntryPlan.extend, List.map_append, List.mem_append] at h ⊢
  tauto

/-- No plan touches a line that must survive. -/
theorem survives_untouched {row : Nat} (h : survives (parse src) model row = true) :
    row ∉ plans.whole.replace.map (·.1) ++ plans.whole.remove := by
  intro htouched
  simp only [survives, Bool.or_eq_true, decide_eq_true_eq] at h
  rcases plans.touched htouched with hmem | hmem | hmem
  · have hentry := (planned_own plans.resolvPlanned).rows row hmem
    rcases h with ((h | h) | h) | h
    · exact not_mem_entryRows h hentry
    · exact kept_untouched plans.resolvPlanned h hmem
    · exact plans.resolv_foreign.1.rows row hmem (mem_keptRows h)
    · exact plans.resolv_foreign.2.rows row hmem (mem_keptRows h)
  · have hentry := (planned_own plans.resolvedPlanned).rows row hmem
    rcases h with ((h | h) | h) | h
    · exact not_mem_entryRows h hentry
    · exact plans.resolved_foreign.1.rows row hmem (mem_keptRows h)
    · exact kept_untouched plans.resolvedPlanned h hmem
    · exact plans.resolved_foreign.2.rows row hmem (mem_keptRows h)
  · have hentry := (planned_own plans.unboundPlanned).rows row hmem
    rcases h with ((h | h) | h) | h
    · exact not_mem_entryRows h hentry
    · exact plans.unbound_foreign.1.rows row hmem (mem_keptRows h)
    · exact plans.unbound_foreign.2.rows row hmem (mem_keptRows h)
    · exact kept_untouched plans.unboundPlanned h hmem

end Plans

theorem plan_ok {src : Text} {model : Model} {whole : EntryPlan}
    (h : plan (parse src) model = .ok whole) : ∃ plans : Plans src model, plans.whole = whole := by
  obtain ⟨resolv, hresolv, h⟩ := ok_of_bind h
  obtain ⟨resolved, hresolved, h⟩ := ok_of_bind h
  obtain ⟨unbound, hunbound, h⟩ := ok_of_bind h
  obtain ⟨first, hfirst⟩ := planEntries_spec hresolv
  obtain ⟨second, hsecond⟩ := planEntries_spec hresolved
  obtain ⟨third, hthird⟩ := planEntries_spec hunbound
  refine ⟨⟨resolv, resolved, unbound, first, second, third, hfirst, hsecond, hthird, ?_,
    planEntries_atMostOne hresolv, planEntries_atMostOne hresolved,
    planEntries_atMostOne hunbound⟩, Except.ok.inj h⟩
  exact ((planEntries_clean hresolv).extend (planEntries_clean hresolved)).extend
    (planEntries_clean hunbound)

end Flavours

/-- Appending after a last line that ends in a carriage return keeps its kind. -/
theorem applied_canonical {src : Text} {plan : EntryPlan} (hclean : CleanPlan plan) :
    Canonical ((parse src).applyPlan plan).1 := by
  refine applyPlan_canonical (parse_canonical _ _) hclean (fun _ _ => ?_)
  intro last hhanging _
  obtain ⟨init, hraw⟩ := List.getLast?_eq_some_iff.mp hhanging.2.2
  show classify last.raw.dropLast = classify last.raw
  rw [hraw, List.dropLast_concat, classify_trailing init (by decide)]

/-- A resolver edit that succeeds reads back as the model in all three sections, and
keeps, byte for byte and in order, every line that is no entry or whose entry its
flavour keeps, apart from an empty line that is last once the unterminated end of the
text is removed. One that fails leaves the document as it was. -/
theorem apply_exact (src : Text) (model : Model) :
    (∀ report, (apply (parse src) model).2 = .ok report →
      toModel (parse (apply (parse src) model).1.render) = model ∧
      (List.SublistForall₂ Keeps (survivors (parse src) model)
          (parse (apply (parse src) model).1.render).lines ∨
        ∃ stay line, survivors (parse src) model = stay ++ [line] ∧ line.raw = [] ∧
          line.ending ≠ .none ∧ endsUnterminated (parse src).lines = true ∧
          List.SublistForall₂ Keeps stay (parse (apply (parse src) model).1.render).lines)) ∧
    ∀ err, (apply (parse src) model).2 = .error err → (apply (parse src) model).1 = parse src := by
  cases hplan : plan (parse src) model with
  | error err =>
    simp only [apply, hplan]
    exact ⟨nofun, fun _ _ => trivial⟩
  | ok whole =>
    obtain ⟨plans, rfl⟩ := plan_ok hplan
    obtain ⟨hshape, _⟩ := (canonical_iff _).mp (parse_canonical src classify)
    have hcanonical : (parse ((parse src).applyPlan plans.whole).1.render).lines =
        ((parse src).applyPlan plans.whole).1.lines := applied_canonical plans.clean
    simp only [apply, hplan]
    refine ⟨fun report _ => ⟨?_, ?_⟩, nofun⟩
    · have hempty : ¬ classify [] = .directive := by decide
      have hcr : isWhitespace '\r' = true := by decide
      have hresolv := (entriesOf_applyPlan src classify plans.clean
        (fun raw => resolvOf_trailing raw hcr) (fun h => hempty h.1)).trans plans.resolv_entries
      have hresolved := (entriesOf_applyPlan src classify plans.clean
        (fun raw => resolvedOf_trailing raw hcr) (fun h => hempty h.1)).trans plans.resolved_entries
      have hunbound := (entriesOf_applyPlan src classify plans.clean
        (fun raw => unboundOf_trailing raw hcr) (fun h => hempty h.1)).trans plans.unbound_entries
      rw [toModel_eq, hcanonical]
      exact model_ext hresolv hresolved hunbound
    · rw [hcanonical]
      exact applyPlan_keeps hshape plans.clean plans.once (fun row => plans.survives_untouched)

namespace Sample

/-- Lines of all three flavours and a note, without a last terminator. -/
def mixed : Text := "search a\n# note\nDNS=1.1.1.1\nserver:\nDNSSEC=no".toList

/-- One entry of each flavour changes, and one of the end of the file goes. -/
def wanted : Model where
  resolv := [.search ["a".toList], .domain "b".toList]
  resolved := [.dns [⟨.v4 ⟨8, 8, 8, 8⟩, some "dns".toList⟩]]
  unbound := [.server, .forwardName ".".toList]

end Sample

theorem mixed_edited : (apply (parse Sample.mixed) Sample.wanted).2 = .ok ⟨1, 2, 1⟩ ∧
    toModel (parse (apply (parse Sample.mixed) Sample.wanted).1.render) = Sample.wanted := by
  have hok : (apply (parse Sample.mixed) Sample.wanted).2 = .ok ⟨1, 2, 1⟩ := by decide +kernel
  exact ⟨hok, ((apply_exact Sample.mixed Sample.wanted).1 _ hok).1⟩

/-- Where the only entry is the unterminated last line, the blank line before it goes
with it. -/
theorem blank_line_lost :
    ¬ ∀ (src : Text) (model : Model) (report : EditReport),
      (apply (parse src) model).2 = .ok report →
        List.SublistForall₂ Keeps (survivors (parse src) model)
          (parse (apply (parse src) model).1.render).lines := by
  intro hall
  have hlines := hall "\nnameserver 1.1.1.1".toList ⟨[], [], []⟩ ⟨0, 0, 1⟩ (by decide +kernel)
  have hsurvivors : survivors (parse "\nnameserver 1.1.1.1".toList) ⟨[], [], []⟩ =
      [⟨.blank, [], .lf, ⟨0, 0⟩⟩] := by decide +kernel
  have hnone : (parse (apply (parse "\nnameserver 1.1.1.1".toList) ⟨[], [], []⟩).1.render).lines =
      [] := by decide +kernel
  rw [hsurvivors, hnone] at hlines
  cases hlines

end Detent.Guarantees.ResolverEdits
