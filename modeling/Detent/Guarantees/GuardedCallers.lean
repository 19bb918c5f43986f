import Detent.Guarantees.SessionTable
import Detent.Lib.Except
import Detent.Source.Csrf

/-!
# The guard and the extractor judge one credential

A request that the guard let pass and whose caller has a session passed the checks of the
guard for that same session: the two find the same cookie, and the table has no other
session under its id.
-/
namespace Detent.Guarantees.GuardedCallers
open Lib Lib.Text Source Source.Sessions Source.Csrf
open SessionTable

/-- A space in front of a pair is trimmed with its name. -/
theorem cookiePair_space (pair : Text) : cookiePair (' ' :: pair) = cookiePair pair := by
  have hsplit : splitOnceP (· == '=') (' ' :: pair) =
      (splitOnceP (· == '=') pair).map (fun x => (' ' :: x.1, x.2)) := by
    simp only [splitOnceP, List.dropWhile_cons, List.takeWhile_cons]
    cases pair.dropWhile (fun c => !(c == '=')) <;> rfl
  unfold cookiePair
  rw [hsplit]
  cases splitOnceP (· == '=') pair with
  | none => rfl
  | some x =>
    simp [trim_cons_whitespace x.1 (by decide : isWhitespace ' ' = true)]

theorem cookieValue_space (line : Text) : cookieValue (' ' :: line) = cookieValue line := by
  unfold cookieValue
  rw [List.splitOn_cons_eq_if_modifyHead, if_neg (by decide)]
  cases line.splitOn ';' with
  | nil => rfl
  | cons head tail => simp [List.findSome?_cons, cookiePair_space]

/-- Lines joined hold the first cookie that one of them holds. -/
theorem cookieValue_join (lines : List Text) :
    cookieValue (join "; ".toList lines) = lines.findSome? cookieValue := by
  induction lines with
  | nil => decide
  | cons line lines ih =>
    cases lines with
    | nil => simp [join]
    | cons next rest =>
      have hjoined : join "; ".toList (line :: next :: rest) =
          line ++ ';' :: (' ' :: join "; ".toList (next :: rest)) := by
        simp [join]
      have hline : cookieValue (line ++ ';' :: (' ' :: join "; ".toList (next :: rest))) =
          (cookieValue line).or (cookieValue (' ' :: join "; ".toList (next :: rest))) := by
        unfold cookieValue
        rw [List.splitOn_append_cons_self, List.findSome?_append]
      rw [hjoined, hline, cookieValue_space, ih]
      cases hfound : cookieValue line <;> simp [List.findSome?_cons, hfound]

/-- The guard reads the cookie line by line and finds the one the extractor finds. -/
theorem guard_cookie (headers : HeaderMap) :
    (getAll headers cookie).findSome? (fun value => (toStr value).bind cookieValue) =
      cookieId headers := by
  unfold cookieId
  rw [cookieValue_join]
  induction getAll headers cookie with
  | nil => rfl
  | cons value values ih =>
    rw [List.findSome?_cons, List.filterMap_cons]
    cases toStr value with
    | none => simpa using ih
    | some text =>
      simp only [Option.bind_some, List.findSome?_cons, ih]

/-- Exactly one line of a name is there, and it reads `text`. -/
def Carries (headers : HeaderMap) (name text : Text) : Prop :=
  ∃ value, getAll headers name = [value] ∧ toStr value = some text

variable {headers : HeaderMap} {c : Char} {t : Text}

theorem soleHeader_carries {name text : Text} (h : soleHeader headers name = some text) :
    Carries headers name text := by
  unfold soleHeader at h
  split at h
  · rename_i value hlines
    exact ⟨value, hlines, h⟩
  · cases h

/-- The single authority of a request: that of its URI, where no single `Host` line names
another, or that of its only `Host` line, where the URI has none. -/
def SingleAuthority (request : Csrf.Request) (authority : Text) : Prop :=
  (request.authority = some authority ∧ ∀ other, ¬ Carries request.headers host other) ∨
    (request.authority = none ∧ Carries request.headers host authority)

theorem soleHeader_none {name : Text} (h : soleHeader headers name = none) :
    ∀ text, ¬ Carries headers name text := by
  rintro text ⟨value, hlines, htext⟩
  simp only [soleHeader, hlines, htext] at h
  cases h

theorem requestAuthority_single {request : Csrf.Request} {authority : Text}
    (h : requestAuthority request = some authority) : SingleAuthority request authority := by
  unfold requestAuthority at h
  split at h
  · rename_i found hauthority hhost
    cases h
    exact .inl ⟨hauthority, soleHeader_none hhost⟩
  · rename_i found hauthority hhost
    cases h
    exact .inr ⟨hauthority, soleHeader_carries hhost⟩
  · cases h

theorem orRejected_ok {α : Type} {o : Option α} {a : α} (h : orRejected o = .ok a) : o = some a := by
  cases o with
  | none => cases h
  | some b => rw [Except.ok.inj h]

theorem mem_toAsciiLowercase (hc : c.toNat < 97 ∨ 122 < c.toNat) (h : c ∈ toAsciiLowercase t) :
    c ∈ t := by
  simp only [toAsciiLowercase, List.mem_map] at h
  obtain ⟨d, hd, hsame⟩ := h
  split at hsame
  · rename_i hupper
    simp only [Bool.and_eq_true, decide_eq_true_eq] at hupper
    have hlow : 65 ≤ d.toNat := hupper.1
    have hhigh : d.toNat ≤ 90 := hupper.2
    have hvalue := congrArg Char.toNat hsame
    rw [toNat_ofNat (by omega)] at hvalue
    omega
  · exact hsame ▸ hd

/-- A host as `Origin::parse` leaves it: an address in brackets, or a name without colons. -/
def HostForm (host : Text) : Prop :=
  (∃ inside, host = '[' :: (inside ++ [']']) ∧ ']' ∉ inside) ∨
    (host ≠ [] ∧ host.head? ≠ some '[' ∧ ':' ∉ host)

theorem splitOnceP_some {before after : Text} (h : splitOnceP (· == c) t = some (before, after)) :
    c ∉ before := by
  unfold splitOnceP at h
  split at h
  · cases h
  · cases h
    intro hmem
    have hbefore := List.mem_takeWhile_imp hmem
    simp at hbefore

theorem splitOnceP_none (h : splitOnceP (· == c) t = none) : c ∉ t := by
  unfold splitOnceP at h
  split at h
  · rename_i hdrop
    intro hmem
    have hall := List.dropWhile_eq_nil_iff.mp hdrop c hmem
    simp at hall
  · cases h

theorem head_toAsciiLowercase (hc : c.toNat < 97 ∨ 122 < c.toNat)
    (h : (toAsciiLowercase t).head? = some c) : t.head? = some c := by
  cases t with
  | nil => cases h
  | cons d t =>
    have hmem : c ∈ toAsciiLowercase [d] := by
      rw [← Option.some.inj h]
      simp [toAsciiLowercase]
    have hsame := mem_toAsciiLowercase hc hmem
    rw [List.mem_singleton] at hsame
    rw [hsame, List.head?_cons]

theorem stripStart_none (h : stripStart [c] t = none) : t.head? ≠ some c := by
  intro hhead
  cases t with
  | nil => cases hhead
  | cons d t =>
    obtain rfl := Option.some.inj hhead
    simp [stripStart] at h

theorem bracket_form {inside : Text} (h : ']' ∉ inside) :
    HostForm ('[' :: toAsciiLowercase inside ++ [']']) :=
  .inl ⟨toAsciiLowercase inside, rfl, fun hmem => h (mem_toAsciiLowercase (.inl (by decide)) hmem)⟩

theorem name_form {name : Text} (hne : toAsciiLowercase name ≠ []) (hhead : name.head? ≠ some '[')
    (hcolon : ':' ∉ name) : HostForm (toAsciiLowercase name) :=
  .inr ⟨hne, fun h => hhead (head_toAsciiLowercase (.inl (by decide)) h),
    fun hmem => hcolon (mem_toAsciiLowercase (.inl (by decide)) hmem)⟩

theorem hostAndPort_form {rest host : Text} {port : Option Text}
    (h : hostAndPort rest = some (host, port)) (hne : host ≠ []) : HostForm host := by
  unfold hostAndPort at h
  split at h
  · rename_i after hbracket
    split at h
    · cases h
    · rename_i inside hsplit
      cases h
      exact bracket_form (splitOnceP_some hsplit)
    · rename_i inside other hother hsplit
      cases hport : stripStart [':'] other with
      | none =>
        rw [hport] at h
        cases h
      | some digits =>
        rw [hport] at h
        cases h
        exact bracket_form (splitOnceP_some hsplit)
  · rename_i hplain
    have hhead := stripStart_none hplain
    split at h
    · rename_i name digits hsplit
      cases h
      refine name_form hne (fun hname => hhead ?_) (splitOnceP_some hsplit)
      unfold splitOnceP at hsplit
      split at hsplit
      · cases hsplit
      · cases hsplit
        cases rest with
        | nil => cases hname
        | cons c rest =>
          rw [List.takeWhile_cons] at hname
          split at hname
          · exact hname
          · cases hname
    · rename_i hsplit
      cases h
      exact name_form hne hhead (splitOnceP_none hsplit)

theorem defaultPort_scheme {scheme : Text} {port : Nat} (h : defaultPort scheme = some port) :
    ':' ∉ scheme := by
  unfold defaultPort at h
  split at h
  · rename_i hhttps
    rw [hhttps]
    decide
  · split at h
    · rename_i hhttp
      rw [hhttp]
      decide
    · cases h

theorem originParts_form {text : Text} {parts : OriginParts} (h : originParts text = some parts) :
    (∃ scheme found, splitAtMatch "://".toList text = some (scheme, found) ∧
      parts.scheme = toAsciiLowercase scheme) ∧ ':' ∉ parts.scheme ∧ HostForm parts.host := by
  simp only [originParts, bind, Option.bind_eq_some_iff] at h
  obtain ⟨⟨scheme, found⟩, hsplit, default, hdefault, h⟩ := h
  have hscheme := defaultPort_scheme hdefault
  split at h
  · cases h
  · simp only [Option.bind_eq_some_iff] at h
    obtain ⟨⟨host, portText⟩, hhost, h⟩ := h
    dsimp only at h
    split at h
    · cases h
    · rename_i hnonempty
      have hne : host ≠ [] := by
        rintro rfl
        simp at hnonempty
      have hform := hostAndPort_form hhost hne
      split at h
      · cases h
        exact ⟨⟨scheme, found, hsplit, rfl⟩, hscheme, hform⟩
      · simp only [Option.bind_eq_some_iff] at h
        obtain ⟨number, -, h⟩ := h
        cases h
        exact ⟨⟨scheme, found, hsplit, rfl⟩, hscheme, hform⟩

/-- What is before a separator is found again, when what follows starts with it. -/
theorem before_inj {a b s : Text} (ha : c ∉ a) (hb : c ∉ b) (hs : s = [] ∨ s.head? = some c)
    (ht : t = [] ∨ t.head? = some c) (h : a ++ s = b ++ t) : a = b ∧ s = t := by
  have hbefore : ∀ {x y : Text}, c ∉ x → (y = [] ∨ y.head? = some c) →
      (x ++ y).takeWhile (· != c) = x := by
    intro x y hx hy
    have hall : ∀ d ∈ x, (d != c) = true := fun d hd => by
      simp only [bne_iff_ne]
      exact fun hdc => hx (hdc ▸ hd)
    rw [List.takeWhile_append_of_pos hall]
    rcases hy with rfl | hy
    · simp
    · cases y with
      | nil => cases hy
      | cons d y =>
        obtain rfl := Option.some.inj hy
        simp
  have hsame : a = b := by
    rw [← hbefore ha hs, ← hbefore hb ht, h]
  subst hsame
  exact ⟨rfl, List.append_cancel_left h⟩

theorem portText_head (port : Option (Fin 65536)) :
    portText port = [] ∨ (portText port).head? = some ':' := by
  cases port with
  | none => exact .inl rfl
  | some port => exact .inr rfl

theorem portText_inj {port port' : Option (Fin 65536)} (h : portText port = portText port') :
    port = port' := by
  cases port with
  | none =>
    cases port' with
    | none => rfl
    | some _ => cases h
  | some n =>
    cases port' with
    | none => cases h
    | some n' =>
      have hdigits := congrArg (fun t => Nat.ofDigitChars 10 t 0) (List.cons.inj h).2
      simp only [Nat.ofDigitChars_ten_toDigits] at hdigits
      rw [Fin.ext hdigits]

theorem host_inj {host host' s : Text} (hhost : HostForm host) (hhost' : HostForm host')
    (hs : s = [] ∨ s.head? = some ':') (ht : t = [] ∨ t.head? = some ':')
    (h : host ++ s = host' ++ t) : host = host' ∧ s = t := by
  rcases hhost with ⟨inside, rfl, hinside⟩ | ⟨hne, hhead, hcolon⟩
  · rcases hhost' with ⟨inside', rfl, hinside'⟩ | ⟨hne', hhead', hcolon'⟩
    · simp only [List.cons_append, List.append_assoc, List.nil_append] at h
      obtain ⟨rfl, rfl⟩ := append_sep_inj hinside hinside' (List.cons.inj h).2
      exact ⟨rfl, rfl⟩
    · obtain ⟨c, rest, rfl⟩ := List.exists_cons_of_ne_nil hne'
      exact absurd (congrArg some (List.cons.inj h).1).symm hhead'
  · rcases hhost' with ⟨inside', rfl, hinside'⟩ | ⟨hne', hhead', hcolon'⟩
    · obtain ⟨c, rest, rfl⟩ := List.exists_cons_of_ne_nil hne
      exact absurd (congrArg some (List.cons.inj h).1) hhead
    · exact before_inj hcolon hcolon' hs ht h

/-- The normalized text of an origin says its parts. -/
theorem normalized_inj {parts parts' : OriginParts} (hscheme : ':' ∉ parts.scheme)
    (hscheme' : ':' ∉ parts'.scheme) (hhost : HostForm parts.host) (hhost' : HostForm parts'.host)
    (h : parts.normalized = parts'.normalized) : parts = parts' := by
  obtain ⟨scheme, host, port⟩ := parts
  obtain ⟨scheme', host', port'⟩ := parts'
  have hsame : scheme ++ ':' :: ("//".toList ++ (host ++ portText port)) =
      scheme' ++ ':' :: ("//".toList ++ (host' ++ portText port')) := by
    simpa [OriginParts.normalized] using h
  obtain ⟨rfl, hrest⟩ := append_sep_inj hscheme hscheme' hsame
  obtain ⟨rfl, hports⟩ := host_inj hhost hhost' (portText_head port) (portText_head port')
    (List.append_cancel_left hrest)
  rw [portText_inj hports]

/-- The origin names the authority over https: the same host, but for the case of its
letters, and the same port, the default one for none. -/
def NamesOverHttps (origin authority : Text) : Prop :=
  ∃ parts, parts.scheme = "https".toList ∧
    originParts ("https://".toList ++ authority) = some parts ∧ originParts origin = some parts

theorem matches_names {origin authority : Text} {expected : Origin}
    (hexpected : Origin.parse ("https://".toList ++ authority) = some expected)
    (hmatches : expected.matches origin = true) : NamesOverHttps origin authority := by
  unfold Origin.parse at hexpected
  cases hparts : originParts ("https://".toList ++ authority) with
  | none =>
    rw [hparts] at hexpected
    cases hexpected
  | some parts =>
    rw [hparts] at hexpected
    obtain rfl := Option.some.inj hexpected
    unfold Origin.matches Origin.parse at hmatches
    cases hother : originParts origin with
    | none =>
      rw [hother] at hmatches
      cases hmatches
    | some other =>
      rw [hother] at hmatches
      simp only [Option.map_some, beq_iff_eq] at hmatches
      obtain ⟨⟨scheme, found, hsplit, hlower⟩, hscheme, hhost⟩ := originParts_form hparts
      obtain ⟨-, hscheme', hhost'⟩ := originParts_form hother
      obtain rfl := normalized_inj hscheme' hscheme hhost' hhost hmatches
      have hhttps : splitAtMatch "://".toList ("https://".toList ++ authority) =
          some ("https".toList, "://".toList ++ authority) := rfl
      cases hhttps.symm.trans hsplit
      exact ⟨other, hlower, hparts, hother⟩

variable [Sha256]

/-- Every session under `id` has a token that satisfies `P`. -/
def Under (id : Secret) (P : Secret → Prop) (entries : Entries) : Prop :=
  ∀ x ∈ entries, x.2.id = id → P x.2.session.csrfToken

section Under
variable {id : Secret} {P : Secret → Prop} {s s' : SessionStore}

omit [Sha256] in
theorem Under.retain (h : Under id P s.entries) (keep : Entry → Bool) :
    Under id P (s.retain keep).entries :=
  fun x hx => h x (mem_retain.mp hx).1

/-- A call that establishes no session under `id` leaves the tokens under it. -/
theorem Under.step {e : SessionEvent} (hkeys : WellKeyed s.entries) (h : Under id P s.entries)
    (hstep : SessionStep s e s') (hnew : ∀ issue, e.issue = some issue → issue.id ≠ id) :
    Under id P s'.entries := by
  intro x hx hid
  rcases (perform_left hkeys hstep).entries x hx with ⟨old, hold, hkept⟩ | hestablished
  · rw [hkept.csrfToken]
    exact h old hold (hkept.id.symm.trans hid)
  · exact absurd hid (hnew _ hestablished.issue)

theorem Under.run {es : List SessionEvent} (hkeys : WellKeyed s.entries)
    (h : Under id P s.entries) (hrun : Run SessionStep s es s')
    (hnew : ∀ e ∈ es, ∀ issue, e.issue = some issue → issue.id ≠ id) :
    WellKeyed s'.entries ∧ Under id P s'.entries := by
  induction hrun with
  | nil s => exact ⟨hkeys, h⟩
  | cons hstep _ ih =>
    exact ih (perform_left hkeys hstep).keys
      (h.step hkeys hstep (hnew _ List.mem_cons_self))
      (fun e he => hnew e (List.mem_cons_of_mem _ he))

omit [Sha256] in
theorem Under.revoke (subjects : List String) (h : Under id P s.entries) :
    Under id P (subjects.foldl SessionStore.revokeSubject s).entries := by
  induction subjects generalizing s with
  | nil => exact h
  | cons subject subjects ih => exact ih (h.retain _)

/-- A lookup that found no session leaves none under the id. -/
theorem lookup_none {now : Instant} (hkeys : WellKeyed s.entries)
    (h : (s.lookup id now).1 = none) : Under id (fun _ => False) (s.lookup id now).2.entries := by
  intro x hx hid
  unfold SessionStore.lookup at h hx
  cases hget : s.entries.get (keyOf id) with
  | none =>
    rw [hget] at hx
    exact get_eq_none hget x hx (hid ▸ hkeys.keyed x hx)
  | some entry =>
    rw [hget] at h hx
    dsimp only at h hx
    split at hx
    · rename_i hother
      have honly := hkeys.get_of_mem hx
      rw [hkeys.keyed x hx, hid, hget, Option.some.injEq] at honly
      exact hother (honly ▸ hid)
    · rename_i hsame
      split at hx
      · obtain ⟨hmem, hkey⟩ := mem_remove.mp hx
        exact hkey (hid ▸ hkeys.keyed x hmem)
      · rename_i hlive
        rw [if_neg hsame, if_neg hlive] at h
        cases h

/-- A lookup that found a session leaves that one alone under the id. -/
theorem lookup_some {now : Instant} {session : Session} (hkeys : WellKeyed s.entries)
    (h : (s.lookup id now).1 = some session) :
    Under id (· = session.csrfToken) (s.lookup id now).2.entries := by
  obtain ⟨entry, hget, hentry, hlive, rfl⟩ := lookup_found h
  intro x hx hid
  simp only [SessionStore.lookup, hget, hentry, hlive, ne_eq, not_true_eq_false, if_false,
    Bool.false_eq_true] at hx
  rcases mem_put.mp hx with rfl | ⟨hmem, hkey⟩
  · rfl
  · exact absurd (hid ▸ hkeys.keyed x hmem) hkey

theorem lookup_keyed (now : Instant) (hkeys : WellKeyed s.entries) :
    WellKeyed (s.lookup id now).2.entries :=
  (lookup_left hkeys).keys

end Under

omit [Sha256] in
/-- What a request with a live session carried when its checks passed. -/
theorem judge_ok {request : Csrf.Request} {session : Session} (h : judge request session = .ok ()) :
    ∃ site authority origin, Carries request.headers secFetchSite site ∧
      (site = sameOrigin ∨ site = sameSite) ∧ SingleAuthority request authority ∧
      Carries request.headers originName origin ∧ NamesOverHttps origin authority ∧
      Carries request.headers csrfHeader session.csrfToken.toList := by
  obtain ⟨site, hsite, h⟩ := ok_of_bind h
  split at h
  · cases h
  · rename_i hlabel
    obtain ⟨authority, hauthority, h⟩ := ok_of_bind h
    obtain ⟨origin, horigin, h⟩ := ok_of_bind h
    obtain ⟨expected, hexpected, h⟩ := ok_of_bind h
    split at h
    · cases h
    · rename_i hmatches
      obtain ⟨token, htoken, h⟩ := ok_of_bind h
      split at h
      · cases h
      · rename_i hsame
        have hcarried := soleHeader_carries (orRejected_ok htoken)
        have hequal : session.csrfToken = String.ofList token := not_not.mp hsame
        refine ⟨site, authority, origin, soleHeader_carries (orRejected_ok hsite), ?_,
          requestAuthority_single (orRejected_ok hauthority),
          soleHeader_carries (orRejected_ok horigin),
          matches_names (orRejected_ok hexpected) (by simpa using hmatches), ?_⟩
        · by_contra hneither
          exact hlabel (not_or.mp hneither)
        · rw [hequal, String.toList_ofList]
          exact hcarried

/-- A caller with a session came by the cookie alone, and its session was found under it. -/
theorem resolve_session {stores : Stores} {store : SessionStore} {now : Instant} {caller : Caller}
    {session : Session} (h : (Caller.resolve stores store headers now).1 = .ok caller)
    (hsession : caller.session = some session) :
    ∃ (id : Text) (changed : List String), cookieId headers = some id ∧ bearer headers = none ∧
      ((changed.foldl SessionStore.revokeSubject store).lookup (String.ofList id) now).1 =
        some session := by
  unfold Caller.resolve at h
  split at h
  · cases h
  · rename_i id hid hbearer
    split at h
    · cases h
    · rename_i changed hchanged
      split at h
      · cases h
      · rename_i found store' hfound
        cases h
        refine ⟨id, changed, hid, hbearer, ?_⟩
        rw [hfound]
        exact hsession
  · split at h
    · cases h
    · cases h
    · cases h
      cases hsession
  · cases h

omit [Sha256] in
theorem hasBearer_none (h : bearer headers = none) : hasBearer headers = false := by
  unfold hasBearer
  split
  · rw [h]
    rfl
  · rfl

/-- **One credential.** When the guard passes a request with another method than GET, HEAD
and OPTIONS and its caller then has a session, whatever happened to the table in between
but that a session was established under the presented id, the request carried one
`Sec-Fetch-Site` that says same-origin or same-site, one `Origin` that names its single
authority over https, and the token of that session. -/
theorem session_caller_was_judged {s₀ s s' : SessionStore} {before between : List SessionEvent}
    {request : Csrf.Request} {now later : Instant} {stores : Stores} {caller : Caller}
    {session : Session} (hempty : s₀.entries = []) (hbefore : Run SessionStep s₀ before s)
    (hmethod : request.method ∉ safeMethods) (hpass : (verdict s request now).1 = .ok ())
    (hbetween : Run SessionStep (verdict s request now).2 between s')
    (hnew : ∀ id, cookieId request.headers = some id → ∀ e ∈ between, ∀ issue,
      e.issue = some issue → issue.id ≠ String.ofList id)
    (hcaller : (Caller.resolve stores s' request.headers later).1 = .ok caller)
    (hsession : caller.session = some session) :
    ∃ site authority origin, Carries request.headers secFetchSite site ∧
      (site = sameOrigin ∨ site = sameSite) ∧ SingleAuthority request authority ∧
      Carries request.headers originName origin ∧ NamesOverHttps origin authority ∧
      Carries request.headers csrfHeader session.csrfToken.toList := by
  have hkeys := (TableInvariant.run hempty hbefore).keys
  obtain ⟨id, changed, hid, hbearer, hfound⟩ := resolve_session hcaller hsession
  obtain ⟨entry, hget, hentry, -, rfl⟩ := lookup_found hfound
  have hunder : ∀ {P : Secret → Prop} {t : SessionStore}, WellKeyed t.entries →
      Under (String.ofList id) P t.entries → Run SessionStep t between s' →
      P entry.session.csrfToken := by
    intro P t hwell hstart hrun
    obtain ⟨-, hend⟩ := hstart.run hwell hrun (hnew id hid)
    exact hend.revoke changed _ (mem_of_get hget) hentry
  simp only [verdict, if_neg hmethod, hasBearer_none hbearer, guard_cookie, hid,
    Bool.false_eq_true, if_false] at hpass hbetween
  have hafter := @lookup_keyed _ (String.ofList id) s now hkeys
  cases hlooked : s.lookup (String.ofList id) now with
  | mk found t =>
    have hfirst : (s.lookup (String.ofList id) now).1 = found := by rw [hlooked]
    rw [hlooked] at hpass hbetween hafter
    cases found with
    | none =>
      have hgone := lookup_none hkeys hfirst
      rw [hlooked] at hgone
      exact (hunder hafter hgone hbetween).elim
    | some judged =>
      have honly := lookup_some hkeys hfirst
      rw [hlooked] at honly
      have hsame : entry.session.csrfToken = judged.csrfToken := hunder hafter honly hbetween
      have hjudged := judge_ok hpass
      rw [← hsame] at hjudged
      exact hjudged

namespace GuardSample

def line (name : Text) (text : String) : Text × ByteList := (name, utf8 text.toList)

/-- A login, and the cookie of it in the third of three lines. -/
def login : List Call := [.create "alice" ⟨true⟩ false 0 (some ⟨"a", "c", "h"⟩)]

def posted : Csrf.Request where
  method := "POST".toList
  authority := none
  headers :=
    [line host "box:3333", line cookie "theme=dark", (cookie, [200]),
      line cookie "x; __Host-detent_session = a", line secFetchSite "same-site",
      line originName "https://BOX:3333", line csrfHeader "c"]

def session : Session :=
  ⟨"alice", ⟨true⟩, "c", 0, 7, false, false, "h", some 6⟩

def caller : Caller := ⟨⟨"alice", .session⟩, ⟨true⟩, some session, some "a".toList⟩

/-- Between the two steps another request steps the session up. -/
def meanwhile : List Call := [.stepUp "a" 6]

end GuardSample

omit [Sha256] in
theorem posted_was_judged :
    letI := SessionSample.sha256
    ∃ site authority origin, Carries GuardSample.posted.headers secFetchSite site ∧
      (site = sameOrigin ∨ site = sameSite) ∧ SingleAuthority GuardSample.posted authority ∧
      Carries GuardSample.posted.headers originName origin ∧ NamesOverHttps origin authority ∧
      Carries GuardSample.posted.headers csrfHeader "c".toList := by
  let _ := SessionSample.sha256
  let s := (SessionSample.perform SessionSample.store GuardSample.login).2
  let s' := (verdict s GuardSample.posted 5).2
  have hpass : (verdict s GuardSample.posted 5).1 = .ok () := by decide +kernel
  have hcaller : (Caller.resolve ⟨.ok [], fun _ => .error .unknownToken⟩
      (SessionSample.perform s' GuardSample.meanwhile).2 GuardSample.posted.headers 7).1 =
      .ok GuardSample.caller := by decide +kernel
  refine session_caller_was_judged rfl
    (SessionSample.run_perform SessionSample.store GuardSample.login) (by decide +kernel) hpass
    (SessionSample.run_perform s' GuardSample.meanwhile) ?_ hcaller rfl
  intro id _ e he issue hissue
  obtain rfl := List.mem_singleton.mp he
  cases hissue

end Detent.Guarantees.GuardedCallers
