import Detent.Guarantees.FlavourPlans
import Detent.Guarantees.NetworkLines

/-!
# The syntax in which an edit writes

The file is chosen by the host profile and the syntax by the lines of the file. The
two agree as soon as one line tells the syntax: then every line that an edit inserts
or rewrites is in it. A file that tells nothing is written as networkd, whichever
backend it belongs to.
-/
namespace Detent.Guarantees.NetworkSyntax
open Lib Lib.Text Source.Network
open Source.Doc hiding parse
open NetworkLines EntryPlans
open CanonicalDocuments FlavourPlans
open Except (ok.inj)
open List (append_assoc forall_mem_append forall_mem_cons mem_append mem_cons mem_flatMap mem_map
  mem_singleton not_mem_nil)

section Syntax

/-- A line is in the syntax of a backend. A `source` line is one of ifupdown. -/
def InSyntax (flavor : BackendFlavor) (raw : Text) : Prop :=
  if isIfupdownSource raw then flavor = .ifupdown else shapeOf raw = some flavor

instance (flavor : BackendFlavor) (raw : Text) : Decidable (InSyntax flavor raw) :=
  inferInstanceAs (Decidable (if isIfupdownSource raw then flavor = .ifupdown else _))

/-- A line that tells the syntax of its file. -/
def Telling (line : Line) : Prop := line.kind = .directive ∨ isIfupdownSource line.raw = true

instance (line : Line) : Decidable (Telling line) :=
  inferInstanceAs (Decidable (line.kind = .directive ∨ isIfupdownSource line.raw = true))

theorem countedFor_iff (line : Line) (flavor : BackendFlavor) :
    countedFor line = some flavor ↔ Telling line ∧ InSyntax flavor line.raw := by
  unfold countedFor Telling InSyntax
  by_cases hsource : isIfupdownSource line.raw = true
  · simp [hsource, eq_comm]
  · by_cases hkind : line.kind = .directive
    all_goals simp [hsource, hkind]

/-- The backend that the lines of a file tell; networkd, where they tell nothing. -/
theorem detectFlavor_eq {doc : Document} {flavor : BackendFlavor}
    (h : ∀ line ∈ doc.lines, Telling line → InSyntax flavor line.raw) :
    ((∃ line ∈ doc.lines, Telling line) → detectFlavor doc = flavor) ∧
      ((∀ line ∈ doc.lines, ¬ Telling line) → detectFlavor doc = .networkd) := by
  have hother : ∀ other, other ≠ flavor →
      doc.lines.countP (fun line => countedFor line == some other) = 0 := by
    intro other hne
    rw [List.countP_eq_zero]
    intro line hmem hcount
    obtain ⟨htelling, hsyntax⟩ := (countedFor_iff line other).mp (beq_iff_eq.mp hcount)
    have hcounted := (countedFor_iff line flavor).mpr ⟨htelling, h line hmem htelling⟩
    rw [beq_iff_eq.mp hcount] at hcounted
    exact hne (Option.some.inj hcounted)
  constructor
  · rintro ⟨line, hmem, htelling⟩
    have hpos : 0 < doc.lines.countP (fun line => countedFor line == some flavor) := by
      rw [List.countP_pos_iff]
      exact ⟨line, hmem, beq_iff_eq.mpr ((countedFor_iff line flavor).mpr ⟨htelling, h line hmem htelling⟩)⟩
    unfold detectFlavor
    cases flavor with
    | networkd =>
      simp only [hother .networkManager (by decide), hother .ifupdown (by decide),
        hother .netplan (by decide)]
      split_ifs <;> first | rfl | omega
    | networkManager =>
      simp only [hother .networkd (by decide), hother .ifupdown (by decide),
        hother .netplan (by decide)]
      split_ifs <;> first | rfl | omega
    | ifupdown =>
      simp only [hother .networkd (by decide), hother .networkManager (by decide),
        hother .netplan (by decide)]
      split_ifs <;> first | rfl | omega
    | netplan =>
      simp only [hother .networkd (by decide), hother .networkManager (by decide),
        hother .ifupdown (by decide)]
      split_ifs <;> first | rfl | omega
  · intro hsilent
    have hnone : ∀ other, doc.lines.countP (fun line => countedFor line == some other) = 0 := by
      intro other
      rw [List.countP_eq_zero]
      intro line hmem hcount
      exact hsilent line hmem ((countedFor_iff line other).mp (beq_iff_eq.mp hcount)).1
    simp [detectFlavor, hnone]

theorem inSyntax_of_shape {flavor : BackendFlavor} {raw : Text} (h : shapeOf raw = some flavor)
    (hsource : isIfupdownSource raw = true → flavor = .ifupdown) : InSyntax flavor raw := by
  unfold InSyntax
  by_cases hraw : isIfupdownSource raw = true
  · rw [if_pos hraw]
    exact hsource hraw
  · rwa [if_neg hraw]

/-- A line whose first word is not `source` is no `source` line. -/
theorem not_source (pad word rest : Text) (hpad : ∀ c ∈ pad, isWhitespace c = true)
    (hne : word ≠ []) (hspace : ∀ c ∈ word, isWhitespace c = false)
    (h : ¬ word <+: "source ".toList ∧ ¬ word <+: "source-directory ".toList) :
    isIfupdownSource (pad ++ word ++ rest) = false := by
  have htrim : trim (pad ++ word ++ rest) = word ++ trimEnd rest := by
    rw [append_assoc, trim_pad _ hpad, trim_word rest hne hspace]
  have hpattern : ∀ pattern : Text, ' ' ∈ pattern → ¬ pattern <+: word :=
    fun pattern hmem hstart => absurd (hspace ' ' (hstart.subset hmem)) (by decide)
  rw [isIfupdownSource, htrim, startsWith_append _ (hpattern _ (by decide)) h.1,
    startsWith_append _ (hpattern _ (by decide)) h.2]
  rfl

end Syntax

variable {lines : List Text} {iface : Interface} {name : Text}

section Ini

theorem not_source_key {pre : Text} (h : pre ∈ (networkdKeys ++ nmKeys).map (· ++ ['=']))
    (value : Text) : isIfupdownSource (pre ++ value) = false := by
  have hkeys : ∀ pre ∈ (networkdKeys ++ nmKeys).map (· ++ ['=']), pre ≠ [] ∧
      (∀ c ∈ pre, isWhitespace c = false) ∧ ¬ pre <+: "source ".toList ∧
      ¬ pre <+: "source-directory ".toList := by decide
  obtain ⟨hne, hspace, hpre⟩ := hkeys pre h
  exact not_source [] pre value (by simp) hne hspace hpre

theorem networkd_key (pre value : Text) (h : pre ∈ networkdKeys.map (· ++ ['='])) :
    InSyntax .networkd (pre ++ value) := by
  apply inSyntax_of_shape (shape_networkdKey h value)
  have hmem : pre ∈ (networkdKeys ++ nmKeys).map (· ++ ['=']) := by
    rw [List.map_append]
    exact List.mem_append_left _ h
  simp [not_source_key hmem value]

theorem nm_key (pre value : Text) (h : pre ∈ nmKeys.map (· ++ ['='])) :
    InSyntax .networkManager (pre ++ value) := by
  apply inSyntax_of_shape (shape_nmKey h value)
  have hmem : pre ∈ (networkdKeys ++ nmKeys).map (· ++ ['=']) := by
    rw [List.map_append]
    exact List.mem_append_right _ h
  simp [not_source_key hmem value]

/-- A rendered line is empty or in the syntax of its backend. -/
def Fits (flavor : BackendFlavor) (line : Text) : Prop := line = [] ∨ InSyntax flavor line

theorem fits_map {α : Type} {flavor : BackendFlavor} {items : List α} {line : α → Text}
    (h : ∀ item ∈ items, InSyntax flavor (line item)) : ∀ l ∈ items.map line, Fits flavor l := by
  intro l hmem
  obtain ⟨item, hitem, rfl⟩ := mem_map.mp hmem
  exact .inr (h item hitem)

theorem networkd_section (name : Text) (h : name ∈ networkdSections) :
    InSyntax .networkd ('[' :: name ++ [']']) := by
  have hsections : ∀ name ∈ networkdSections,
      shapeOf ('[' :: name ++ [']']) = some .networkd ∧
        isIfupdownSource ('[' :: name ++ [']']) = false := by decide
  obtain ⟨hshape, hsource⟩ := hsections name h
  exact inSyntax_of_shape hshape (fun hline => absurd (hsource.symm.trans hline) (by decide))

theorem nm_section (name : Text) (h : name ∈ nmSections) :
    InSyntax .networkManager ('[' :: name ++ [']']) := by
  have hsections : ∀ name ∈ nmSections,
      shapeOf ('[' :: name ++ [']']) = some .networkManager ∧
        isIfupdownSource ('[' :: name ++ [']']) = false := by decide
  obtain ⟨hshape, hsource⟩ := hsections name h
  exact inSyntax_of_shape hshape (fun hline => absurd (hsource.symm.trans hline) (by decide))

theorem renderNetworkdRoute_fits {route : Route} (h : renderNetworkdRoute route = .ok lines) :
    ∀ line ∈ lines, Fits .networkd line := by
  obtain ⟨_, _, hlines⟩ := ok_of_bind h
  obtain rfl := ok.inj hlines
  intro line hmem
  simp only [mem_cons, not_mem_nil, or_false] at hmem
  rcases hmem with rfl | rfl | rfl | rfl
  · exact .inl rfl
  · exact .inr (networkd_section "Route".toList (by decide))
  all_goals exact .inr (networkd_key _ _ (by decide))

theorem renderNetworkd_fits (h : renderNetworkd iface = .ok lines) :
    ∀ line ∈ lines, Fits .networkd line := by
  unfold renderNetworkd at h
  by_cases hbridge : iface.bridge.isSome = true
  · rw [if_pos hbridge] at h
    cases h
  rw [if_neg hbridge] at h
  obtain ⟨routes, hroutes, h⟩ := ok_of_bind h
  obtain rfl := ok.inj h
  simp only [forall_mem_append]
  refine ⟨⟨⟨⟨⟨⟨⟨?_, ?_⟩, ?_⟩, ?_⟩, ?_⟩, ?_⟩, ?_⟩, ?_⟩
  · simp only [forall_mem_cons, not_mem_nil, false_imp_iff, implies_true, and_true]
    exact ⟨.inr (networkd_section "Match".toList (by decide)), .inr (networkd_key _ _ (by decide)),
      .inl rfl, .inr (networkd_section "Network".toList (by decide)),
      .inr (networkd_key _ _ (by decide))⟩
  · exact fits_map (fun _ _ => networkd_key _ _ (by decide))
  · exact fits_map (fun _ _ => networkd_key _ _ (by decide))
  · exact fits_map (fun _ _ => networkd_key _ _ (by decide))
  · split_ifs
    · simp
    · intro line hmem
      rw [mem_singleton.mp hmem]
      exact .inr (networkd_key _ _ (by decide))
  · refine fits_map (fun vlan _ => ?_)
    rw [append_assoc]
    exact networkd_key _ _ (by decide)
  · intro line hmem
    obtain ⟨block, hblock, hline⟩ := List.mem_flatten.mp hmem
    obtain ⟨route, _, hroute⟩ := mapM_ok hroutes block hblock
    exact renderNetworkdRoute_fits hroute line hline
  · intro line hmem
    obtain ⟨vlan, _, hline⟩ := mem_flatMap.mp hmem
    simp only [mem_cons, not_mem_nil, or_false] at hline
    rcases hline with rfl | rfl | rfl
    · exact .inl rfl
    · exact .inr (networkd_section "VLAN".toList (by decide))
    · exact .inr (networkd_key _ _ (by decide))

theorem nmList_fits {key : String} (h : key.toList ∈ nmKeys.map (· ++ ['='])) (values : List Text) :
    ∀ line ∈ nmList key values, Fits .networkManager line := by
  unfold nmList
  split_ifs
  · simp
  · intro line hmem
    rw [mem_singleton.mp hmem]
    exact .inr (nm_key _ _ h)

theorem renderNm_fits (h : renderNm iface = .ok lines) :
    ∀ line ∈ lines, Fits .networkManager line := by
  unfold renderNm at h
  by_cases hheld : (!iface.routes.isEmpty || iface.bridge.isSome) = true
  · rw [if_pos hheld] at h
    cases h
  rw [if_neg hheld] at h
  obtain rfl := ok.inj h
  simp only [forall_mem_append]
  refine ⟨⟨⟨⟨⟨⟨⟨?_, ?_⟩, ?_⟩, ?_⟩, ?_⟩, ?_⟩, ?_⟩, ?_⟩
  · simp only [forall_mem_cons, not_mem_nil, false_imp_iff, implies_true, and_true]
    exact ⟨.inr (nm_section "connection".toList (by decide)), .inr (nm_key _ _ (by decide)),
      .inr (nm_key "type=".toList "ethernet".toList (by decide)),
      .inr (nm_key _ _ (by decide)), .inl rfl,
      .inr (nm_section "ethernet".toList (by decide)), .inl rfl,
      .inr (nm_section "ipv4".toList (by decide))⟩
  · split_ifs
    · intro line hmem
      rw [mem_singleton.mp hmem]
      exact .inr (nm_key "method=".toList "auto".toList (by decide))
    · rw [forall_mem_cons]
      exact ⟨.inr (nm_key "method=".toList "manual".toList (by decide)),
        nmList_fits (by decide) _⟩
  · exact nmList_fits (by decide) _
  · simp only [forall_mem_cons, not_mem_nil, false_imp_iff, implies_true, and_true]
    exact ⟨.inl rfl, .inr (nm_section "ipv6".toList (by decide))⟩
  · split_ifs
    · intro line hmem
      rw [mem_singleton.mp hmem]
      exact .inr (nm_key "method=".toList "auto".toList (by decide))
    · rw [forall_mem_cons]
      exact ⟨.inr (nm_key "method=".toList "disabled".toList (by decide)),
        fits_map (fun _ _ => nm_key _ _ (by decide))⟩
  · exact nmList_fits (by decide) _
  · exact nmList_fits (by decide) _
  · intro line hmem
    obtain ⟨vlan, _, hline⟩ := mem_flatMap.mp hmem
    simp only [mem_cons, not_mem_nil, or_false] at hline
    rcases hline with rfl | rfl | rfl | rfl
    · exact .inl rfl
    · exact .inr (nm_section "vlan".toList (by decide))
    all_goals exact .inr (nm_key _ _ (by decide))

end Ini

section Ifupdown

theorem ifupdown_shape {raw : Text} (hsection : (trimStart raw).head? ≠ some '[') (heq : '=' ∉ raw)
    (h : (parseIfupdownAuto raw).isSome ∨ (parseIfupdownIface raw).isSome ∨
      (parseIfupdownOption raw).isSome) : InSyntax .ifupdown raw := by
  refine inSyntax_of_shape ?_ (fun _ => rfl)
  rw [shapeOf, parseSection_eq_none hsection, parseKvEquals_eq_none heq]
  simp only [Bool.or_eq_true, or_assoc, if_pos h]

theorem not_mem_of_plain {value : Text} (h : Plain value) : '=' ∉ value :=
  fun hmem => (h '=' hmem).2 rfl

theorem option_fits (word value : Text) (hword : word ∈ ifupdownOptions) (hvalue : '=' ∉ value) :
    InSyntax .ifupdown ('\t' :: (word ++ ' ' :: value)) := by
  have hwords : ∀ word ∈ ifupdownOptions, word.head? ≠ some '[' ∧ word ≠ [] ∧
      (∀ c ∈ word, isWhitespace c = false) ∧ '=' ∉ word := by decide
  obtain ⟨hhead, hne, hspace, heq⟩ := hwords word hword
  apply ifupdown_shape
  · obtain ⟨c, tail, rfl⟩ := List.exists_cons_of_ne_nil hne
    have hstart : trimStart ('\t' :: (c :: tail ++ ' ' :: value)) = c :: tail ++ ' ' :: value :=
      trimStart_cons _ (hspace c (by simp))
    rw [hstart]
    exact hhead
  · simp [heq, hvalue]
  · rw [option_line hword value]
    simp

theorem not_mem_join {sep : Text} {words : List Text} (hsep : '=' ∉ sep)
    (h : ∀ word ∈ words, Plain word) : '=' ∉ join sep words := by
  intro hmem
  rcases mem_join hmem with hmem | ⟨word, hword, hmem⟩
  · exact hsep hmem
  · exact not_mem_of_plain (h word hword) hmem

theorem auto_fits (h : isValidIfname name = true) :
    InSyntax .ifupdown ("auto ".toList ++ name) := by
  obtain ⟨hplain, hne⟩ := ifname_plain h
  apply ifupdown_shape
  · rw [trimStart_of_head rfl (by decide)]
    simp
  · simp [not_mem_of_plain hplain]
  · rw [auto_line hplain hne]
    simp

theorem iface_fits {name : Text} (family method : Text) (h : isValidIfname name = true)
    (hfamily : family = "inet".toList ∨ family = "inet6".toList)
    (hmethod : method ∈ ["dhcp", "loopback", "static"].map String.toList) :
    InSyntax .ifupdown ("iface ".toList ++ name ++ (' ' :: family ++ ' ' :: method)) := by
  rw [← append_assoc]
  obtain ⟨hplain, hne⟩ := ifname_plain h
  have hmethods : ∀ method ∈ ["dhcp", "loopback", "static"].map String.toList, '=' ∉ method ∧
      (∀ d ∈ method, isWhitespace d = false) ∧ method ≠ [] := by decide
  obtain ⟨heq, hspace, hmethodNe⟩ := hmethods method hmethod
  apply ifupdown_shape
  · have hhead : ("iface ".toList ++ name ++ ' ' :: family ++ ' ' :: method).head? = some 'i' := rfl
    rw [trimStart_of_head hhead (by decide), hhead]
    decide
  · have hfamilies : '=' ∉ family := by
      rcases hfamily with rfl | rfl <;> decide
    simp [not_mem_of_plain hplain, hfamilies, heq]
  · rw [iface_line hplain hne hfamily hspace hmethodNe]
    simp

theorem inet_fits {name : Text} {method : String} (h : isValidIfname name = true)
    (hmethod : method = "dhcp" ∨ method = "loopback" ∨ method = "static") :
    InSyntax .ifupdown ("iface ".toList ++ name ++ " inet ".toList ++ method.toList) := by
  rw [append_assoc]
  rcases hmethod with rfl | rfl | rfl
  · exact iface_fits "inet".toList "dhcp".toList h (.inl rfl) (by decide)
  · exact iface_fits "inet".toList "loopback".toList h (.inl rfl) (by decide)
  · exact iface_fits "inet".toList "static".toList h (.inl rfl) (by decide)

theorem renderIfupdown_fits (hchecked : Checked iface) (h : renderIfupdown iface = .ok lines) :
    ∀ line ∈ lines, Fits .ifupdown line := by
  obtain ⟨ports, hports, h⟩ := ok_of_bind h
  obtain ⟨routes, hroutes, h⟩ := ok_of_bind h
  obtain rfl := ok.inj h
  simp only [forall_mem_append]
  have haddresses : ∀ address ∈ iface.addresses, InSyntax .ifupdown ("\taddress ".toList ++ address) :=
    fun address hmem => option_fits "address".toList _ (by decide)
      (not_mem_of_plain (cidr_plain (hchecked.addresses address hmem)).1)
  have hgateway : ∀ gateway, (∀ c ∈ gateway, IpAddr.isIpChar c = true) →
      InSyntax .ifupdown ("\tgateway ".toList ++ gateway) :=
    fun gateway hchars => option_fits "gateway".toList _ (by decide)
      (not_mem_of_plain (fun c hmem => ipChar_plain (hchars c hmem)))
  refine ⟨⟨⟨⟨⟨⟨⟨?_, ?_⟩, ?_⟩, ?_⟩, ?_⟩, ?_⟩, ?_⟩, ?_⟩
  · simp only [forall_mem_cons, not_mem_nil, false_imp_iff, implies_true, and_true]
    refine ⟨.inr (auto_fits hchecked.name), .inr ?_⟩
    apply inet_fits hchecked.name
    split_ifs <;> simp
  · exact fits_map (fun address hmem => haddresses address (List.mem_of_mem_filter hmem))
  · split_ifs
    · rw [forall_mem_append, forall_mem_cons]
      refine ⟨⟨.inr ?_, ?_⟩, ?_⟩
      · exact iface_fits "inet6".toList "static".toList hchecked.name (.inr rfl) (by decide)
      · exact fits_map (fun address hmem => haddresses address (List.mem_of_mem_filter hmem))
      · exact fits_map (fun gateway hmem => hgateway gateway
          (IpAddr.parseV6_chars (hchecked.gatewayV6 gateway (Option.mem_toList.mp hmem))))
    · intro line hmem
      rw [mem_singleton.mp hmem]
      exact .inr (iface_fits "inet6".toList "dhcp".toList hchecked.name (.inr rfl) (by decide))
    · simp
  · exact fits_map (fun gateway hmem => hgateway gateway
      (IpAddr.parseV4_chars (hchecked.gatewayV4 gateway (Option.mem_toList.mp hmem))))
  · split_ifs
    · simp
    · intro line hmem
      rw [mem_singleton.mp hmem]
      exact .inr (option_fits "dns-nameservers".toList _ (by decide)
        (not_mem_join (by decide) (fun server hserver => ip_plain (hchecked.dns server hserver))))
  · intro line hmem
    obtain ⟨vlan, hvlan, hline⟩ := mem_flatMap.mp hmem
    simp only [mem_cons, not_mem_nil, or_false] at hline
    rcases hline with rfl | rfl
    · exact .inr (option_fits "vlan-raw-device".toList _ (by decide)
        (not_mem_of_plain (ifname_plain (hchecked.link vlan (Option.mem_toList.mp hvlan))).1))
    · exact .inr (option_fits "vlan_id".toList _ (by decide)
        (not_mem_of_plain (u16_plain vlan.id)))
  · intro line hmem
    obtain ⟨bridge, hbridge, hline⟩ := mapM_ok hports line hmem
    unfold renderBridgePorts at hline
    split_ifs at hline
    obtain rfl := ok.inj hline
    exact .inr (option_fits "bridge_ports".toList _ (by decide) (not_mem_join (by decide)
      (fun name hname => (ifname_plain (hchecked.members bridge (Option.mem_toList.mp hbridge) name
        hname)).1)))
  · intro line hmem
    obtain ⟨route, _, hline⟩ := mapM_ok hroutes line hmem
    obtain ⟨_, hroute, hline⟩ := ok_of_bind hline
    obtain rfl := ok.inj hline
    obtain ⟨hdest, hvia⟩ := route_plain hroute
    refine .inr (option_fits "up".toList
      ("ip route add ".toList ++ route.dest ++ " via ".toList ++ route.via) (by decide) ?_)
    simp [not_mem_of_plain hdest, not_mem_of_plain hvia]

end Ifupdown

section Netplan

theorem first_word {word tail : Text} (hspace : ∀ c ∈ word, isWhitespace c = false)
    (htail : tail = [] ∨ startsWithSpace tail = true) :
    (word ++ tail).takeWhile (fun c => !isWhitespace c) = word := by
  rw [List.takeWhile_append_of_pos (by simpa using hspace)]
  rcases htail with rfl | htail
  · simp
  · cases tail with
    | nil => simp
    | cons c tail =>
      have hc : isWhitespace c = true := htail
      simp [hc]

theorem stripStart_eq_some {pattern t rest : Text} (h : stripStart pattern t = some rest) :
    t = pattern ++ rest := by
  unfold stripStart at h
  split_ifs at h with hprefix
  obtain ⟨tail, rfl⟩ := List.isPrefixOf_iff_prefix.mp hprefix
  simpa using h

theorem startsWithSpace_trimEnd {rest : Text} (h : rest = [] ∨ startsWithSpace rest = true) :
    trimEnd rest = [] ∨ startsWithSpace (trimEnd rest) = true := by
  cases hrest : trimEnd rest with
  | nil => exact .inl rfl
  | cons c tail =>
    obtain ⟨after, hafter⟩ : trimEnd rest <+: rest := List.rdropWhile_prefix _ _
    rw [hrest] at hafter
    rcases h with rfl | h
    · cases hafter
    · rw [← hafter] at h
      exact .inr h

/-- The signs by which the first word of a netplan line is none of ifupdown's. -/
def NetplanWord (word : Text) : Prop := ':' ∈ word ∨ word = ['-']

theorem NetplanWord.apart {word : Text} (h : NetplanWord word) :
    word ∉ "auto".toList :: "iface".toList :: ifupdownOptions ∧
      ¬ word <+: "source ".toList ∧ ¬ word <+: "source-directory ".toList := by
  have hcolon : ∀ other ∈ "source ".toList :: "source-directory ".toList :: "auto".toList ::
      "iface".toList :: ifupdownOptions, ':' ∉ other := by decide
  rcases h with hmem | rfl
  · refine ⟨fun hin => hcolon word (by simp_all) hmem, fun hstart => ?_, fun hstart => ?_⟩
    · exact hcolon "source ".toList (by simp) (hstart.subset hmem)
    · exact hcolon "source-directory ".toList (by simp) (hstart.subset hmem)
  · decide

/-- A line that starts with such a word is no section and nothing of ifupdown's. -/
theorem netplan_foreign {pad word rest : Text} (hpad : ∀ c ∈ pad, isWhitespace c = true)
    (hspace : ∀ c ∈ word, isWhitespace c = false) (hword : NetplanWord word)
    (hhead : word.head? ≠ some '[') (hrest : rest = [] ∨ startsWithSpace rest = true) :
    parseSection (pad ++ word ++ rest) = none ∧ parseIfupdownAuto (pad ++ word ++ rest) = none ∧
      parseIfupdownIface (pad ++ word ++ rest) = none ∧
      parseIfupdownOption (pad ++ word ++ rest) = none := by
  have hne : word ≠ [] := by
    rcases hword with hmem | rfl
    · exact List.ne_nil_of_mem hmem
    · simp
  obtain ⟨hapart, -⟩ := hword.apart
  have htrim : trim (pad ++ word ++ rest) = word ++ trimEnd rest := by
    rw [append_assoc, trim_pad _ hpad, trim_word rest hne hspace]
  have htail := startsWithSpace_trimEnd hrest
  have hfirst : ∀ pattern after : Text, (∀ c ∈ pattern, isWhitespace c = false) →
      startsWithSpace after = true → word ++ trimEnd rest = pattern ++ after → word = pattern := by
    intro pattern after hpattern hafter hsame
    rw [← first_word hspace htail, hsame, first_word hpattern (.inr hafter)]
  refine ⟨?_, ?_, ?_, ?_⟩
  · unfold parseSection
    rw [htrim]
    obtain ⟨c, tail, rfl⟩ := List.exists_cons_of_ne_nil hne
    split
    next after hsame => exact absurd (by rw [(List.cons.inj hsame).1]; rfl) hhead
    next => rfl
  · rw [parseIfupdownAuto, htrim]
    cases hstrip : stripStart "auto".toList (word ++ trimEnd rest) with
    | none => rfl
    | some after =>
      by_cases hafter : startsWithSpace after = true
      · have hsame := hfirst _ after (by decide) hafter (stripStart_eq_some hstrip)
        exact absurd (by simp [hsame]) hapart
      · simp [hafter]
  · rw [parseIfupdownIface, htrim]
    cases hstrip : stripStart "iface".toList (word ++ trimEnd rest) with
    | none => rfl
    | some after =>
      by_cases hafter : startsWithSpace after = true
      · have hsame := hfirst _ after (by decide) hafter (stripStart_eq_some hstrip)
        exact absurd (by simp [hsame]) hapart
      · simp [hafter]
  · have hkey : ¬ ifupdownOptions.contains word = true := by
      rw [List.contains_iff_mem]
      exact fun hmem => hapart (by simp [hmem])
    simp only [parseIfupdownOption, htrim, first_word hspace htail, if_neg hkey, ite_self]

/-- A directive is netplan's, when its first word is. -/
theorem netplan_fits {pad word rest : Text} (hpad : ∀ c ∈ pad, isWhitespace c = true)
    (hspace : ∀ c ∈ word, isWhitespace c = false) (hword : NetplanWord word)
    (hhead : word.head? ≠ some '[') (hrest : rest = [] ∨ startsWithSpace rest = true)
    (heq : '=' ∉ pad ++ word ++ rest) (hdirective : isDirectiveLike (pad ++ word ++ rest) = true) :
    InSyntax .netplan (pad ++ word ++ rest) := by
  have hne : word ≠ [] := by
    rcases hword with hmem | rfl
    · exact List.ne_nil_of_mem hmem
    · simp
  obtain ⟨hsection, hauto, hiface, hoption⟩ := netplan_foreign hpad hspace hword hhead hrest
  refine inSyntax_of_shape ?_ (fun hline => ?_)
  · unfold isDirectiveLike classify at hdirective
    unfold shapeOf
    simp only [hsection, parseKvEquals_eq_none heq, hauto, hiface, hoption] at hdirective ⊢
    split_ifs at hdirective ⊢ <;> first | rfl | simp_all
  · rw [not_source pad word rest hpad hne hspace hword.apart.2] at hline
    cases hline

/-- A rendered line is one of netplan, if it is a directive at all. -/
def Directed (line : Text) : Prop := isDirectiveLike line = true → InSyntax .netplan line

/-- The key of a line that opens a block or carries a value. -/
structure Key (pad key : Text) : Prop where
  pad : ∀ c ∈ pad, c = ' '
  space : ∀ c ∈ key, isWhitespace c = false
  equals : '=' ∉ key
  bracket : key.head? ≠ some '['

instance (pad key : Text) : Decidable (Key pad key) :=
  decidable_of_iff ((∀ c ∈ pad, c = ' ') ∧ (∀ c ∈ key, isWhitespace c = false) ∧ '=' ∉ key ∧
    key.head? ≠ some '[') ⟨fun ⟨hpad, hspace, hequals, hbracket⟩ => ⟨hpad, hspace, hequals, hbracket⟩,
      fun h => ⟨h.pad, h.space, h.equals, h.bracket⟩⟩

theorem Key.directed {pad key rest : Text} (h : Key pad key)
    (hrest : rest = [] ∨ startsWithSpace rest = true) (heq : '=' ∉ rest) :
    Directed (pad ++ (key ++ [':']) ++ rest) := by
  intro hdirective
  refine netplan_fits ?_ ?_ (.inl (by simp)) ?_ hrest ?_ hdirective
  · intro c hmem
    rw [h.pad c hmem]
    decide
  · intro c hmem
    rcases mem_append.mp hmem with hmem | hmem
    · exact h.space c hmem
    · rw [mem_singleton.mp hmem]
      decide
  · cases hkey : key with
    | nil => decide
    | cons c key =>
      have hbracket := h.bracket
      rwa [hkey] at hbracket
  · have hpad : '=' ∉ pad := fun hmem => absurd (h.pad '=' hmem) (by decide)
    simp [hpad, h.equals, heq]

theorem opens (pad key : Text) (h : Key pad key) : Directed (pad ++ (key ++ [':']) ++ []) :=
  h.directed (.inl rfl) (by simp)

theorem leaf (pad key value : Text) (h : Key pad key) (hvalue : '=' ∉ value) :
    Directed (pad ++ (key ++ [':']) ++ ' ' :: value) :=
  h.directed (.inr rfl) (by simp [hvalue])

theorem item (pad value : Text) (hpad : ∀ c ∈ pad, c = ' ') (hvalue : '=' ∉ value) :
    Directed (pad ++ ['-'] ++ ' ' :: value) := by
  refine netplan_fits ?_ (by decide) (.inr rfl) (by decide) (.inr rfl) ?_
  · intro c hmem
    rw [hpad c hmem]
    decide
  · have hpad : '=' ∉ pad := fun hmem => absurd (hpad '=' hmem) (by decide)
    simp [hpad, hvalue]

theorem not_mem_yamlBool (value : Bool) : '=' ∉ yamlBool value := by
  cases value <;> decide

theorem renderNetplanRoute_directed {route : Route} (h : renderNetplanRoute route = .ok lines) :
    ∀ line ∈ lines, Directed line := by
  obtain ⟨_, hroute, hlines⟩ := ok_of_bind h
  obtain rfl := ok.inj hlines
  obtain ⟨hdest, hvia⟩ := route_plain hroute
  intro line hmem
  simp only [mem_cons, not_mem_nil, or_false] at hmem
  rcases hmem with rfl | rfl
  · exact item "        ".toList ("to: ".toList ++ route.dest) (by decide)
      (by simp [not_mem_of_plain hdest])
  · exact leaf "          ".toList "via".toList route.via (by decide) (not_mem_of_plain hvia)

theorem renderNetplanIface_directed (hchecked : Checked iface)
    (h : renderNetplanIface iface = .ok lines) : ∀ line ∈ lines, Directed line := by
  obtain ⟨routes, hroutes, h⟩ := ok_of_bind h
  obtain rfl := ok.inj h
  simp only [forall_mem_append]
  refine ⟨⟨⟨⟨⟨?_, ?_⟩, ?_⟩, ?_⟩, ?_⟩, ?_⟩
  · simp only [forall_mem_cons, not_mem_nil, false_imp_iff, implies_true, and_true]
    exact ⟨leaf "      ".toList "dhcp4".toList _ (by decide) (not_mem_yamlBool _),
      leaf "      ".toList "dhcp6".toList _ (by decide) (not_mem_yamlBool _)⟩
  · split_ifs
    · simp
    · rw [forall_mem_cons]
      refine ⟨opens "      ".toList "addresses".toList (by decide), ?_⟩
      intro line hmem
      obtain ⟨address, haddress, rfl⟩ := mem_map.mp hmem
      exact item "        ".toList address (by decide)
        (not_mem_of_plain (cidr_plain (hchecked.addresses address haddress)).1)
  · intro line hmem
    obtain ⟨gateway, hgateway, rfl⟩ := mem_map.mp hmem
    have hchars := IpAddr.parseV4_chars (hchecked.gatewayV4 gateway (Option.mem_toList.mp hgateway))
    exact leaf "      ".toList "gateway4".toList gateway (by decide)
      (not_mem_of_plain (fun c hc => ipChar_plain (hchars c hc)))
  · intro line hmem
    obtain ⟨gateway, hgateway, rfl⟩ := mem_map.mp hmem
    have hchars := IpAddr.parseV6_chars (hchecked.gatewayV6 gateway (Option.mem_toList.mp hgateway))
    exact leaf "      ".toList "gateway6".toList gateway (by decide)
      (not_mem_of_plain (fun c hc => ipChar_plain (hchars c hc)))
  · split_ifs
    · simp
    · simp only [forall_mem_cons, not_mem_nil, false_imp_iff, implies_true, and_true]
      have hservers : '=' ∉ join [',', ' '] iface.dns :=
        not_mem_join (by decide) (fun server hserver => ip_plain (hchecked.dns server hserver))
      exact ⟨opens "      ".toList "nameservers".toList (by decide),
        leaf "        ".toList "addresses".toList ('[' :: (join [',', ' '] iface.dns ++ [']'])) (by decide)
          (by simp [hservers])⟩
  · split_ifs
    · simp
    · rw [forall_mem_cons]
      refine ⟨opens "      ".toList "routes".toList (by decide), ?_⟩
      intro line hmem
      obtain ⟨block, hblock, hline⟩ := List.mem_flatten.mp hmem
      obtain ⟨route, _, hroute⟩ := mapM_ok hroutes block hblock
      exact renderNetplanRoute_directed hroute line hline

/-- The name of an interface, as the key of its block. -/
theorem name_key {name : Text} (h : isValidIfname name = true) : Key "    ".toList name := by
  obtain ⟨hplain, _⟩ := ifname_plain h
  refine ⟨by decide, fun c hmem => (hplain c hmem).1, not_mem_of_plain hplain, ?_⟩
  intro hhead
  simp only [isValidIfname, Bool.and_eq_true, List.all_eq_true] at h
  exact absurd (h.2 '[' (List.mem_of_mem_head? hhead)) (by decide)

theorem renderCollection_directed (header : String) (hheader : Directed header.toList)
    {members : List (Interface × List Text)}
    (hmembers : ∀ entry ∈ members, Checked entry.1 ∧ ∀ line ∈ entry.2, Directed line)
    (h : renderCollection header members = .ok lines) : ∀ line ∈ lines, Directed line := by
  obtain ⟨blocks, hblocks, h⟩ := ok_of_bind h
  obtain rfl := ok.inj h
  split_ifs
  · simp
  · rw [forall_mem_cons]
    refine ⟨hheader, ?_⟩
    intro line hmem
    obtain ⟨block, hblock, hline⟩ := List.mem_flatten.mp hmem
    obtain ⟨⟨iface, kind⟩, hentry, hrender⟩ := mapM_ok hblocks block hblock
    obtain ⟨hchecked, hkind⟩ := hmembers _ hentry
    obtain ⟨shared, hshared, hblock⟩ := ok_of_bind hrender
    obtain rfl := ok.inj hblock
    rcases mem_cons.mp hline with rfl | hline
    · have hopens := opens "    ".toList iface.name (name_key hchecked.name)
      rwa [List.append_nil, ← append_assoc] at hopens
    · rcases mem_append.mp hline with hline | hline
      · exact hkind line hline
      · exact renderNetplanIface_directed hchecked hshared line hline

theorem renderNetplan_directed {model : Model}
    (hchecked : ∀ iface ∈ model.interfaces, Checked iface) (h : renderNetplan model = .ok lines) :
    ∀ line ∈ lines, Directed line := by
  obtain ⟨ethernets, hethernets, h⟩ := ok_of_bind h
  obtain ⟨vlans, hvlans, h⟩ := ok_of_bind h
  obtain ⟨bridges, hbridges, h⟩ := ok_of_bind h
  obtain rfl := ok.inj h
  simp only [forall_mem_append]
  refine ⟨⟨⟨?_, ?_⟩, ?_⟩, ?_⟩
  · simp only [forall_mem_cons, not_mem_nil, false_imp_iff, implies_true, and_true]
    exact ⟨opens [] "network".toList (by decide),
      leaf "  ".toList "version".toList "2".toList (by decide) (by decide)⟩
  · refine renderCollection_directed "  ethernets:" (opens "  ".toList "ethernets".toList (by decide)) ?_ hethernets
    intro entry hmem
    obtain ⟨iface, hiface, rfl⟩ := mem_map.mp hmem
    exact ⟨hchecked iface (List.mem_of_mem_filter hiface), by simp⟩
  · refine renderCollection_directed "  vlans:" (opens "  ".toList "vlans".toList (by decide)) ?_ hvlans
    intro entry hmem
    obtain ⟨iface, hiface, hentry⟩ := mem_flatMap.mp hmem
    obtain ⟨vlan, hvlan, rfl⟩ := mem_map.mp hentry
    refine ⟨hchecked iface hiface, ?_⟩
    simp only [forall_mem_cons, not_mem_nil, false_imp_iff, implies_true, and_true]
    have hlink := (hchecked iface hiface).link vlan (Option.mem_toList.mp hvlan)
    exact ⟨leaf "      ".toList "id".toList _ (by decide) (not_mem_of_plain (u16_plain vlan.id)),
      leaf "      ".toList "link".toList _ (by decide) (not_mem_of_plain (ifname_plain hlink).1)⟩
  · refine renderCollection_directed "  bridges:" (opens "  ".toList "bridges".toList (by decide)) ?_ hbridges
    intro entry hmem
    obtain ⟨iface, hiface, hentry⟩ := mem_flatMap.mp hmem
    obtain ⟨bridge, hbridge, rfl⟩ := mem_map.mp hentry
    refine ⟨hchecked iface hiface, ?_⟩
    intro line hmem
    rw [mem_singleton.mp hmem]
    have hnames : '=' ∉ join [',', ' '] bridge.members :=
      not_mem_join (by decide) (fun name hname => (ifname_plain
        ((hchecked iface hiface).members bridge (Option.mem_toList.mp hbridge) name hname)).1)
    exact leaf "      ".toList "interfaces".toList ('[' :: (join [',', ' '] bridge.members ++ [']']))
      (by decide) (by simp [hnames])

end Netplan

section Rendered

theorem mem_blankBetween {blocks : List (List Text)} {line : Text} (h : line ∈ blankBetween blocks) :
    line = [] ∨ ∃ block ∈ blocks, line ∈ block := by
  induction blocks with
  | nil => cases h
  | cons block blocks ih =>
    cases blocks with
    | nil => exact .inr ⟨block, by simp, h⟩
    | cons next blocks =>
      rw [blankBetween, mem_append, mem_cons] at h
      · rcases h with h | h | h
        · exact .inr ⟨block, by simp, h⟩
        · exact .inl h
        · rcases ih h with h | ⟨other, hother, h⟩
          · exact .inl h
          · exact .inr ⟨other, List.mem_cons_of_mem _ hother, h⟩
      · simp

theorem Fits.inSyntax {flavor : BackendFlavor} {line : Text} (h : Fits flavor line)
    (hdirective : isDirectiveLike line = true) : InSyntax flavor line := by
  rcases h with rfl | h
  · exact absurd hdirective (by decide)
  · exact h

/-- Every directive that a renderer writes is in the syntax of its backend. -/
theorem renderModelLines_inSyntax {flavor : BackendFlavor} {model : Model}
    (h : renderModelLines flavor model = .ok lines) :
    ∀ line ∈ lines, isDirectiveLike line = true → InSyntax flavor line := by
  obtain ⟨_, hchecks, h⟩ := ok_of_bind h
  have hchecked : ∀ iface ∈ model.interfaces, Checked iface :=
    fun iface hmem => checked_of_ok (forM_ok hchecks iface hmem)
  have hblocks : ∀ {render : Interface → Except EditError (List Text)},
      (∀ iface ∈ model.interfaces, ∀ block, render iface = .ok block → ∀ line ∈ block, Fits flavor line) →
      (do let blocks ← model.interfaces.mapM render; pure (blankBetween blocks)) = Except.ok lines →
      ∀ line ∈ lines, isDirectiveLike line = true → InSyntax flavor line := by
    intro render hrender h line hmem hdirective
    obtain ⟨blocks, hblocks, h⟩ := ok_of_bind h
    obtain rfl := ok.inj h
    rcases mem_blankBetween hmem with rfl | ⟨block, hblock, hline⟩
    · exact absurd hdirective (by decide)
    · obtain ⟨iface, hiface, hrendered⟩ := mapM_ok hblocks block hblock
      exact (hrender iface hiface block hrendered line hline).inSyntax hdirective
  cases flavor with
  | networkd => exact hblocks (fun _ _ _ hrender => renderNetworkd_fits hrender) h
  | networkManager => exact hblocks (fun _ _ _ hrender => renderNm_fits hrender) h
  | ifupdown =>
    exact hblocks (fun iface hmem _ hrender => renderIfupdown_fits (hchecked iface hmem) hrender) h
  | netplan => exact renderNetplan_directed hchecked h

end Rendered

section Plans

/-- A plan writes only some texts, each on a line of its own. -/
def Writes (texts : List Text) (plan : EntryPlan) : Prop :=
  ∀ x ∈ plan.replace ++ plan.insert, x.2 ∈ texts ∧ Clean x.2

variable {texts : List Text} {plan plan' : EntryPlan}

theorem Writes.clean (h : Writes texts plan) : CleanPlan plan where
  replace := fun x hmem => (h x (List.mem_append_left _ hmem)).2
  insert := fun x hmem => (h x (List.mem_append_right _ hmem)).2

theorem Writes.addReplace (h : Writes texts plan) {row : Nat} {raw : Text} (hraw : raw ∈ texts)
    (hplan : plan.addReplace row raw = .ok plan') : Writes texts plan' := by
  obtain ⟨_, hcheck, hplan⟩ := ok_of_bind hplan
  obtain rfl := ok.inj hplan
  intro x hmem
  simp only [mem_append, mem_singleton] at hmem
  rcases hmem with (hmem | rfl) | hmem
  · exact h x (List.mem_append_left _ hmem)
  · exact ⟨hraw, clean_of_checkRaw hcheck⟩
  · exact h x (List.mem_append_right _ hmem)

theorem Writes.addInsert (h : Writes texts plan) {place : Nat} {raw : Text} (hraw : raw ∈ texts)
    (hplan : plan.addInsert place raw = .ok plan') : Writes texts plan' := by
  obtain ⟨_, hcheck, hplan⟩ := ok_of_bind hplan
  obtain rfl := ok.inj hplan
  intro x hmem
  simp only [mem_append, mem_singleton] at hmem
  rcases hmem with hmem | hmem | rfl
  · exact h x (List.mem_append_left _ hmem)
  · exact h x (List.mem_append_right _ hmem)
  · exact ⟨hraw, clean_of_checkRaw hcheck⟩

theorem mem_scopedFrom {current : Text} {x : Text × Text × Text}
    (h : x ∈ scopedFrom current lines) : x.1 ∈ lines := by
  induction lines generalizing current with
  | nil => cases h
  | cons raw lines ih =>
    rw [scopedFrom] at h
    split at h
    next section_ key _ =>
      rcases mem_cons.mp h with rfl | h
      · simp
      · exact List.mem_cons_of_mem _ (ih h)
    next => exact List.mem_cons_of_mem _ (ih h)

variable {planned : List (Text × Text × Text)} (hplanned : ∀ x ∈ planned, x.1 ∈ texts)

include hplanned

theorem placeManaged_writes {partner : List (Nat × Nat)} {index : Nat}
    {managed : List (Nat × Text × Text × Text)} {placed placed' : List (Nat × Nat)}
    (h : Writes texts plan)
    (hplan : placeManaged planned partner index managed plan placed = .ok (plan', placed')) :
    Writes texts plan' := by
  induction managed generalizing index plan placed with
  | nil =>
    obtain ⟨rfl, _⟩ := Prod.mk.inj (ok.inj hplan)
    exact h
  | cons line managed ih =>
    obtain ⟨row, raw, scope⟩ := line
    rw [placeManaged] at hplan
    cases hpartner : (partner.lookup index).bind
        (fun new => planned[new]?.map (fun line => (new, line.1))) with
    | none =>
      simp only [hpartner] at hplan
      have hremoved : Writes texts (plan.addRemove row) := h
      exact ih hremoved hplan
    | some pair =>
      obtain ⟨new, want⟩ := pair
      obtain ⟨other, _, hwant⟩ := Option.bind_eq_some_iff.mp hpartner
      obtain ⟨line, hline, hpair⟩ := Option.map_eq_some_iff.mp hwant
      obtain ⟨_, rfl⟩ := Prod.mk.inj hpair
      have hraw := hplanned line (List.mem_of_getElem? hline)
      simp only [hpartner] at hplan
      by_cases hsame : raw ≠ line.1
      · rw [if_pos hsame] at hplan
        obtain ⟨next, hnext, hplan⟩ := ok_of_bind hplan
        exact ih (h.addReplace hraw hnext) hplan
      · rw [if_neg hsame] at hplan
        exact ih h hplan

omit hplanned in
theorem placeSurplus_writes {doc : Document} {new : Nat} {surplus : List (Text × Text × Text)}
    (hsurplus : ∀ x ∈ surplus, x.1 ∈ texts) {placed : List (Nat × Nat)} {atEnd atEnd' : List Text}
    (hend : ∀ raw ∈ atEnd, raw ∈ texts) (h : Writes texts plan)
    (hplan : placeSurplus doc new surplus plan placed atEnd = .ok (plan', atEnd')) :
    Writes texts plan' ∧ ∀ raw ∈ atEnd', raw ∈ texts := by
  induction surplus generalizing new plan placed atEnd with
  | nil =>
    obtain ⟨rfl, rfl⟩ := Prod.mk.inj (ok.inj hplan)
    exact ⟨h, hend⟩
  | cons line surplus ih =>
    obtain ⟨raw, scope⟩ := line
    have hraw : raw ∈ texts := hsurplus (raw, scope) (by simp)
    have hrest : ∀ x ∈ surplus, x.1 ∈ texts := fun x hmem => hsurplus x (by simp [hmem])
    rw [placeSurplus] at hplan
    by_cases hplaced : placed.any (fun x => decide (x.1 = new)) = true
    · rw [if_pos hplaced] at hplan
      exact ih hrest hend h hplan
    · rw [if_neg hplaced] at hplan
      cases hbefore : placedBefore placed new with
      | none =>
        simp only [hbefore] at hplan
        refine ih hrest ?_ h hplan
        intro other hmem
        rcases mem_append.mp hmem with hmem | hmem
        · exact hend other hmem
        · rwa [mem_singleton.mp hmem]
      | some after =>
        simp only [hbefore] at hplan
        obtain ⟨next, hnext, hplan⟩ := ok_of_bind hplan
        exact ih hrest hend (h.addInsert hraw hnext) hplan

omit hplanned in
theorem addInserts_writes {place : Nat} {raws : List Text} (hraws : ∀ raw ∈ raws, raw ∈ texts)
    (h : Writes texts plan)
    (hplan : raws.foldlM (fun plan raw => plan.addInsert place raw) plan = .ok plan') :
    Writes texts plan' := by
  induction raws generalizing plan with
  | nil =>
    obtain rfl := ok.inj hplan
    exact h
  | cons raw raws ih =>
    rw [List.foldlM_cons] at hplan
    obtain ⟨next, hnext, hplan⟩ := ok_of_bind hplan
    exact ih (fun other hmem => hraws other (by simp [hmem])) (h.addInsert (hraws raw (by simp)) hnext) hplan

end Plans

section Edits

variable {doc : Document} {plan : EntryPlan}

theorem networkdPlan_writes {newLines : List Text} (h : networkdPlan doc newLines = .ok plan) :
    Writes (newLines.filter isDirectiveLike) plan := by
  have hplanned : ∀ x ∈ scopedFrom [] (newLines.filter isDirectiveLike),
      x.1 ∈ newLines.filter isDirectiveLike := fun x hmem => mem_scopedFrom hmem
  obtain ⟨⟨managed, placed⟩, hmanaged, h⟩ := ok_of_bind h
  obtain ⟨⟨placedAll, atEnd⟩, hsurplus, h⟩ := ok_of_bind h
  have hempty : Writes (newLines.filter isDirectiveLike) {} := by simp [Writes]
  obtain ⟨hwrites, hend⟩ := placeSurplus_writes hplanned (by simp)
    (placeManaged_writes hplanned hempty hmanaged) hsurplus
  exact addInserts_writes hend hwrites h

theorem planEntries_writes {texts : List Text} {opensSection : Text → Bool}
    (h : doc.planEntries texts some .ok opensSection = .ok plan) : Writes texts plan := by
  obtain ⟨places, hplaces⟩ := planEntries_spec h
  have hclean := planEntries_clean h
  intro x hmem
  obtain ⟨entry, hentry, hrender⟩ := planned_texts hplaces hmem
  refine ⟨?_, (mem_append.mp hmem).elim (hclean.replace x) (hclean.insert x)⟩
  rwa [← ok.inj hrender]

theorem editFlat_writes {newLines : List Text} {edited : Document} {report : EditReport}
    (h : editFlat doc newLines = .ok (edited, report)) :
    ∃ plan, Writes (newLines.filter isDirectiveLike) plan ∧ edited = (doc.applyPlan plan).1 := by
  unfold editFlat at h
  by_cases hnetplan : detectFlavor doc = .netplan
  · rw [if_pos hnetplan] at h
    obtain ⟨plan, hplan, h⟩ := ok_of_bind h
    by_cases hmoved : netplanUnmodeledOutline (doc.applyPlan plan).1 ≠ netplanUnmodeledOutline doc
    · simp only [if_pos hmoved] at h
      cases h
    · simp only [if_neg hmoved] at h
      obtain ⟨rfl, _⟩ := Prod.mk.inj (ok.inj h)
      exact ⟨plan, planEntries_writes hplan, rfl⟩
  · rw [if_neg hnetplan] at h
    obtain ⟨plan, hplan, h⟩ := ok_of_bind h
    obtain ⟨rfl, _⟩ := Prod.mk.inj (ok.inj h)
    exact ⟨plan, planEntries_writes hplan, rfl⟩

/-- An edit either changes nothing or carries out a plan whose texts are directives
that were rendered for the file. -/
theorem apply_writes (doc : Document) (model : Model) :
    (apply doc model).1 = doc ∨ ∃ newLines plan, renderModelLines (detectFlavor doc) model = .ok newLines ∧
      Writes (newLines.filter isDirectiveLike) plan ∧ (apply doc model).1 = (doc.applyPlan plan).1 := by
  unfold apply
  cases hvalues : model.interfaces.forM checkValues with
  | error err => exact .inl rfl
  | ok _ =>
    dsimp only
    by_cases hsame : toModel doc = model
    · rw [if_pos hsame]
      exact .inl rfl
    rw [if_neg hsame]
    cases hnew : newLinesFor doc model with
    | error err => exact .inl rfl
    | ok newLines =>
      obtain ⟨lines, hlines, hnew'⟩ := ok_of_bind hnew
      obtain ⟨_, _, hnew'⟩ := ok_of_bind hnew'
      obtain rfl := ok.inj hnew'
      dsimp only
      have hwritten : ∀ {edited : Document}, (∃ plan, Writes (lines.filter isDirectiveLike) plan ∧
            edited = (doc.applyPlan plan).1) →
          ∃ newLines plan, renderModelLines (detectFlavor doc) model = .ok newLines ∧
            Writes (newLines.filter isDirectiveLike) plan ∧ edited = (doc.applyPlan plan).1 :=
        fun ⟨plan, hplan⟩ => ⟨lines, plan, hlines, hplan⟩
      by_cases hsections : detectFlavor doc = .networkd ∧ hasNetworkdSection doc
      · rw [if_pos hsections]
        unfold editNetworkdSections
        cases hplan : networkdPlan doc lines with
        | error err => exact .inl rfl
        | ok plan =>
          dsimp only
          by_cases hround : roundTrips (doc.applyPlan plan).1 model = true
          · rw [if_pos hround]
            exact .inr (hwritten ⟨plan, networkdPlan_writes hplan, rfl⟩)
          · rw [if_neg hround]
            exact .inl rfl
      · rw [if_neg hsections]
        cases hflat : editFlat doc lines with
        | error err => exact .inl rfl
        | ok result =>
          obtain ⟨edited, report'⟩ := result
          dsimp only
          by_cases hround : roundTrips edited model = true
          · rw [if_pos hround]
            exact .inr (hwritten (editFlat_writes hflat))
          · rw [if_neg hround]
            exact .inl rfl

variable {profile : HostProfile} {flavor : BackendFlavor} {contents : Text} {model : Model}

/-- The backend in whose syntax a file is edited. -/
def written (flavor : BackendFlavor) (doc : Document) : BackendFlavor :=
  if doc.lines.any (fun line => line.kind == .directive || isIfupdownSource line.raw) then flavor
  else .networkd

theorem detectFlavor_written (hown : ∀ line ∈ doc.lines, Telling line → InSyntax flavor line.raw) :
    detectFlavor doc = written flavor doc := by
  obtain ⟨htold, hsilent⟩ := detectFlavor_eq hown
  by_cases hany : ∃ line ∈ doc.lines, Telling line
  · rw [htold hany, written, if_pos]
    simpa [Telling] using hany
  · rw [hsilent (fun line hmem htelling => hany ⟨line, hmem, htelling⟩), written, if_neg]
    simpa [Telling] using hany

theorem isIfupdownSource_trailing (raw : Text) {c : Char} (hc : isWhitespace c = true) :
    isIfupdownSource (raw ++ [c]) = isIfupdownSource raw := by
  rw [isIfupdownSource, trim_append_whitespace raw hc, isIfupdownSource]

theorem carries_inSyntax {old line : Line} (h : Carries old line) (hold : InSyntax flavor old.raw) :
    InSyntax flavor line.raw := by
  rcases h.raw with hraw | hraw
  · rwa [hraw]
  · rwa [hraw, InSyntax, isIfupdownSource_trailing line.raw (by decide),
      shapeOf_trailing line.raw (by decide)] at hold

/-- Where the directive and `source` lines of the file of a backend are all in its
syntax, so is every line that an edit inserts or rewrites; the other lines are old
ones. Where there is no such line, the edit is in the syntax of networkd. -/
theorem edits_match_backend (_hdetect : (fileTarget flavor).backendDetect profile = true)
    (hown : ∀ line ∈ (parse contents).lines, Telling line → InSyntax flavor line.raw) :
    ∀ line ∈ (apply (parse contents) model).1.lines,
      (line.kind = .directive ∧ InSyntax (written flavor (parse contents)) line.raw) ∨
        (line.kind ≠ .directive ∧ ∃ old ∈ (parse contents).lines, old.kind ≠ .directive ∧
          Keeps old line) := by
  have htold : ∀ old ∈ (parse contents).lines, Telling old → written flavor (parse contents) = flavor :=
    fun old hmem htelling => if_pos (List.any_eq_true.mpr ⟨old, hmem, by simpa [Telling] using htelling⟩)
  have hkept : ∀ line, (∃ old ∈ (parse contents).lines, line.kind = old.kind ∧ Carries old line) →
      (line.kind = .directive ∧ InSyntax (written flavor (parse contents)) line.raw) ∨
        (line.kind ≠ .directive ∧ ∃ old ∈ (parse contents).lines, old.kind ≠ .directive ∧
          Keeps old line) := by
    intro line ⟨old, hmem, hkind, hcarries⟩
    by_cases hdirective : old.kind = .directive
    · rw [htold old hmem (.inl hdirective)]
      exact .inl ⟨hkind.trans hdirective, carries_inSyntax hcarries (hown old hmem (.inl hdirective))⟩
    · exact .inr ⟨hkind ▸ hdirective, old, hmem, hdirective, hcarries.keeps⟩
  intro line hmem
  rcases apply_writes (parse contents) model with hsame | ⟨newLines, plan, hrendered, hwrites, hedited⟩
  · rw [hsame] at hmem
    exact hkept line ⟨line, hmem, rfl, .inl rfl, line.ending, rfl, .inl rfl⟩
  rw [hedited] at hmem
  rcases applyPlan_origin hwrites.clean hmem with hold | ⟨x, hx, hraw, hkind⟩
  · exact hkept line hold
  · have hdirective : isDirectiveLike x.2 = true := (List.mem_filter.mp (hwrites x hx).1).2
    have hsyntax := renderModelLines_inSyntax hrendered x.2 (List.mem_filter.mp (hwrites x hx).1).1 hdirective
    refine .inl ⟨hkind.trans (beq_iff_eq.mp hdirective), ?_⟩
    rw [hraw]
    rwa [detectFlavor_written hown] at hsyntax

end Edits

def netplanHost : HostProfile := ⟨.linux, [("netplan".toList, "1.0".toList)]⟩

/-- One interface that is configured by DHCP. -/
def oneInterface : Model := ⟨[{ name := "eth0".toList, dhcpV4 := true }]⟩

def netplanHeader : Text := "network:\n  version: 2\n".toList

theorem netplan_file_stays_netplan : (apply (parse netplanHeader) oneInterface).2 = .ok ⟨0, 4, 0⟩ ∧
    ∀ line ∈ (apply (parse netplanHeader) oneInterface).1.lines,
      (line.kind = .directive ∧ InSyntax (written .netplan (parse netplanHeader)) line.raw) ∨
        (line.kind ≠ .directive ∧ ∃ old ∈ (parse netplanHeader).lines, old.kind ≠ .directive ∧
          Keeps old line) :=
  ⟨by decide +kernel, @edits_match_backend netplanHost .netplan netplanHeader oneInterface (by decide)
    (by decide +kernel)⟩

def sourcesAndHeader : Text := "source a\nsource b\nnetwork:\n".toList

/-- On a netplan host an empty file is written as networkd, and one with two `source`
lines and a netplan directive as ifupdown. -/
theorem empty_file_written_as_networkd : (fileTarget .netplan).backendDetect netplanHost = true ∧
    (∀ line ∈ (parse []).lines, line.kind = .directive → InSyntax .netplan line.raw) ∧
    (apply (parse []) oneInterface).2 = .ok ⟨0, 4, 0⟩ ∧
    (∃ line ∈ (apply (parse []) oneInterface).1.lines, line.raw = "[Match]".toList ∧
      ¬ InSyntax .netplan line.raw) ∧
    (∀ line ∈ (parse sourcesAndHeader).lines, line.kind = .directive → InSyntax .netplan line.raw) ∧
    (apply (parse sourcesAndHeader) oneInterface).2 = .ok ⟨1, 1, 0⟩ ∧
    ∃ line ∈ (apply (parse sourcesAndHeader) oneInterface).1.lines, line.raw = "auto eth0".toList ∧
      ¬ InSyntax .netplan line.raw := by
  decide +kernel

end Detent.Guarantees.NetworkSyntax
