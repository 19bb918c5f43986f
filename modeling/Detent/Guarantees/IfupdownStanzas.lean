import Detent.Guarantees.NetworkLines
import Detent.Lib.Except

/-!
# The stanzas of a rendered interface

`render_ifupdown` writes the `inet` stanza, then an `inet6` stanza where there is an IPv6
address or DHCPv6, then the IPv4 gateway. By the rule of interfaces(5), an option belongs
to the last `iface` line above it, so the IPv4 gateway is misplaced whenever there is a
second stanza; the IPv6 gateway is written only beside an IPv6 address.
-/
namespace Detent.Guarantees.IfupdownStanzas
open Lib Lib.Text Source.Network Source.Doc
open NetworkLines

/-- One `iface` line: its address family, and the words of its options. -/
structure Stanza where
  family : Text
  options : List (List Text)
  deriving DecidableEq, Repr

/-- The options before the first `iface` line, and the stanzas. -/
def stanzasOf : List Text → List (List Text) × List Stanza
  | [] => ([], [])
  | line :: lines =>
    match splitWhitespace line with
    | [] => stanzasOf lines
    | word :: words =>
      if word = "iface".toList then
        ([], { family := words[1]?.getD [], options := (stanzasOf lines).1 } :: (stanzasOf lines).2)
      else if word = "auto".toList ∨ word.head? = some '#' then stanzasOf lines
      else ((word :: words) :: (stanzasOf lines).1, (stanzasOf lines).2)

/-- The option is there, and in stanzas of the family only. -/
def OptionOf (lines : List Text) (family : String) (option : List Text) : Prop :=
  (∃ stanza ∈ (stanzasOf lines).2, option ∈ stanza.options) ∧
    ∀ stanza ∈ (stanzasOf lines).2, option ∈ stanza.options → stanza.family = family.toList

/-- A CIDR whose address is an IPv6 address. -/
def IsV6Cidr (address : Text) : Prop :=
  ∃ ip bits v6, splitOnceP (· == '/') address = some (ip, bits) ∧ IpAddr.parse ip = some (.v6 v6)

def IsV4Cidr (address : Text) : Prop :=
  ∃ ip bits v4, splitOnceP (· == '/') address = some (ip, bits) ∧ IpAddr.parse ip = some (.v4 v4)

/-- Every address and gateway is an option of a stanza of its family, and no stanza has two
gateways. -/
structure WellFormed (iface : Interface) (lines : List Text) : Prop where
  v4 : ∀ address ∈ iface.addresses, IsV4Cidr address →
    OptionOf lines "inet" ["address".toList, address]
  v6 : ∀ address ∈ iface.addresses, IsV6Cidr address →
    OptionOf lines "inet6" ["address".toList, address]
  gatewayV4 : ∀ gateway ∈ iface.gatewayV4, OptionOf lines "inet" ["gateway".toList, gateway]
  gatewayV6 : ∀ gateway ∈ iface.gatewayV6, OptionOf lines "inet6" ["gateway".toList, gateway]
  single : ∀ stanza ∈ (stanzasOf lines).2,
    stanza.options.countP (fun option => option.head? = some "gateway".toList) ≤ 1

/-- No second stanza where there is an IPv4 gateway, and an IPv6 address where there is an
IPv6 gateway. -/
def Placed (iface : Interface) : Prop :=
  (iface.gatewayV4.isSome → (∀ address ∈ iface.addresses, ¬ IsV6Cidr address) ∧ iface.dhcpV6 = false) ∧
    (iface.gatewayV6.isSome → ∃ address ∈ iface.addresses, IsV6Cidr address)

/-- An indented option. -/
def optionLine (key : String) (value : Text) : Text := '\t' :: (key.toList ++ ' ' :: value)

variable {key : String} {values : List Text}

theorem words_option (hkey : key.toList ∈ ifupdownOptions) (value : Text) :
    splitWhitespace (optionLine key value) = key.toList :: splitWhitespace value := by
  have hwords : ∀ word ∈ ifupdownOptions, word ≠ [] ∧ ∀ d ∈ word, isWhitespace d = false := by decide
  obtain ⟨hne, hspace⟩ := hwords _ hkey
  rw [optionLine, splitWhitespace_cons_whitespace _ (by decide),
    splitWhitespace_word _ hne hspace (by decide)]

theorem words_plain {value : Text} (hne : value ≠ []) (hplain : Plain value) :
    splitWhitespace value = [value] :=
  splitWhitespace_eq_singleton hne (fun c hc => (hplain c hc).1)

/-- Option lines above a line are options of what stands there. -/
theorem stanzasOf_options {lines rest : List Text}
    (h : ∀ line ∈ lines, ∃ key value, key.toList ∈ ifupdownOptions ∧ line = optionLine key value) :
    stanzasOf (lines ++ rest) =
      (lines.map splitWhitespace ++ (stanzasOf rest).1, (stanzasOf rest).2) := by
  induction lines with
  | nil => rfl
  | cons line lines ih =>
    obtain ⟨key, value, hkey, rfl⟩ := h line List.mem_cons_self
    have hword : ∀ word ∈ ifupdownOptions, word ≠ "iface".toList ∧
        ¬ (word = "auto".toList ∨ word.head? = some '#') := by decide
    rw [List.cons_append, stanzasOf, words_option hkey]
    dsimp only
    rw [if_neg (hword _ hkey).1, if_neg (hword _ hkey).2,
      ih (fun line hline => h line (List.mem_cons_of_mem _ hline)), List.map_cons, words_option hkey]
    rfl

theorem stanzasOf_iface {name : Text} (hname : isValidIfname name = true) (family method : String)
    (hfamily : family.toList ≠ [] ∧ ∀ d ∈ family.toList, isWhitespace d = false) (rest : List Text) :
    stanzasOf (("iface ".toList ++ name ++ ' ' :: (family.toList ++ ' ' :: method.toList)) :: rest) =
      ([], { family := family.toList, options := (stanzasOf rest).1 } :: (stanzasOf rest).2) := by
  obtain ⟨hplain, hne⟩ := ifname_plain hname
  have hwords : splitWhitespace
      ("iface ".toList ++ name ++ ' ' :: (family.toList ++ ' ' :: method.toList)) =
      "iface".toList :: name :: family.toList :: splitWhitespace method.toList := by
    have hline : "iface ".toList ++ name ++ ' ' :: (family.toList ++ ' ' :: method.toList) =
        "iface".toList ++ ' ' :: (name ++ ' ' :: (family.toList ++ ' ' :: method.toList)) := by simp
    rw [hline, splitWhitespace_word _ (by decide) (by decide) (by decide),
      splitWhitespace_word _ hne (fun c hc => (hplain c hc).1) (by decide),
      splitWhitespace_word _ hfamily.1 hfamily.2 (by decide)]
  rw [stanzasOf, hwords]
  rfl

theorem stanzasOf_auto {name : Text} (hname : isValidIfname name = true) (rest : List Text) :
    stanzasOf (("auto ".toList ++ name) :: rest) = stanzasOf rest := by
  obtain ⟨hplain, hne⟩ := ifname_plain hname
  have hwords : splitWhitespace ("auto ".toList ++ name) = ["auto".toList, name] := by
    have hline : "auto ".toList ++ name = "auto".toList ++ ' ' :: name := by simp
    rw [hline, splitWhitespace_word _ (by decide) (by decide) (by decide), words_plain hne hplain]
  rw [stanzasOf, hwords]
  rfl

theorem cidr_parts {address : Text} (h : isValidCidr address = true) :
    ∃ ip bits addr, splitOnceP (· == '/') address = some (ip, bits) ∧ bits.all isAsciiDigit = true ∧
      IpAddr.parse ip = some addr := by
  unfold isValidCidr at h
  cases hsplit : splitOnceP (· == '/') address with
  | none => simp [hsplit] at h
  | some pair =>
    obtain ⟨ip, bits⟩ := pair
    simp only [hsplit] at h
    by_cases hdigits : (ip.isEmpty || !bits.all isAsciiDigit) = true
    · simp [hdigits] at h
    by_cases hip : (!isValidIp ip) = true
    · simp [hdigits, hip] at h
    simp only [Bool.or_eq_true, Bool.not_eq_true', not_or, Bool.not_eq_false] at hdigits hip
    obtain ⟨addr, haddr⟩ := Option.isSome_iff_exists.mp hip
    exact ⟨ip, bits, addr, rfl, hdigits.2, haddr⟩

/-- A checked address is of the family that its colons say. -/
theorem cidr_family {address : Text} (h : isValidCidr address = true) :
    (isV6 address = true ↔ IsV6Cidr address) ∧ (isV6 address = false ↔ IsV4Cidr address) := by
  obtain ⟨ip, bits, addr, hsplit, hdigits, haddr⟩ := cidr_parts h
  obtain ⟨c, hc, rfl⟩ := splitOnceP_eq_some hsplit
  obtain rfl : c = '/' := by simpa using hc
  have hbits : ':' ∉ bits := by
    intro hmem
    have hdigit := List.all_eq_true.mp hdigits ':' hmem
    exact absurd hdigit (by decide)
  have hcolon : isV6 (ip ++ '/' :: bits) = true ↔ ':' ∈ ip := by
    simp [isV6, hbits]
  have hfamily := IpAddr.parse_colon haddr
  rw [← Bool.not_eq_true, hcolon, hfamily]
  simp only [IsV6Cidr, IsV4Cidr, hsplit, Option.some.injEq, Prod.mk.injEq]
  constructor
  · constructor
    · rintro ⟨v6, rfl⟩
      exact ⟨ip, bits, v6, ⟨rfl, rfl⟩, haddr⟩
    · rintro ⟨_, _, v6, ⟨rfl, rfl⟩, hv6⟩
      exact ⟨v6, Option.some.inj (haddr.symm.trans hv6)⟩
  · constructor
    · intro hv4
      cases addr with
      | v4 v4 => exact ⟨ip, bits, v4, ⟨rfl, rfl⟩, haddr⟩
      | v6 v6 => exact absurd ⟨v6, rfl⟩ hv4
    · rintro ⟨_, _, v4, ⟨rfl, rfl⟩, hv4⟩ ⟨v6, rfl⟩
      exact absurd (haddr.symm.trans hv4) (by simp)

/-- The options of one key, one for each value. -/
def optionsOf (key : String) (values : List Text) : List (List Text) :=
  values.map (fun value => [key.toList, value])

/-- The stanzas of an interface; `tail` has the options after the IPv4 gateway. -/
def expected (iface : Interface) (tail : List (List Text)) : List Stanza :=
  let v4 := optionsOf "address" (iface.addresses.filter (!isV6 ·))
  let tail := optionsOf "gateway" iface.gatewayV4.toList ++ tail
  if !(iface.addresses.filter isV6).isEmpty then
    [⟨"inet".toList, v4⟩, ⟨"inet6".toList, optionsOf "address" (iface.addresses.filter isV6) ++
      optionsOf "gateway" iface.gatewayV6.toList ++ tail⟩]
  else if iface.dhcpV6 then [⟨"inet".toList, v4⟩, ⟨"inet6".toList, tail⟩]
  else [⟨"inet".toList, v4 ++ tail⟩]

/-- Every line is an indented option whose key is neither `address` nor `gateway`. -/
def Others (lines : List Text) : Prop :=
  ∀ line ∈ lines, ∃ key value, key.toList ∈ ifupdownOptions ∧ line = optionLine key value ∧
    key.toList ≠ "address".toList ∧ key.toList ≠ "gateway".toList

theorem map_words (hkey : key.toList ∈ ifupdownOptions)
    (h : ∀ value ∈ values, Plain value ∧ value ≠ []) :
    (values.map (optionLine key)).map splitWhitespace = optionsOf key values := by
  rw [List.map_map, optionsOf, List.map_inj_left]
  intro value hvalue
  obtain ⟨hplain, hne⟩ := h value hvalue
  rw [Function.comp_apply, words_option hkey, words_plain hne hplain]

theorem stanzasOf_keyed (hkey : key.toList ∈ ifupdownOptions) {rest : List Text}
    (h : ∀ value ∈ values, Plain value ∧ value ≠ []) :
    stanzasOf (values.map (optionLine key) ++ rest) =
      (optionsOf key values ++ (stanzasOf rest).1, (stanzasOf rest).2) := by
  rw [stanzasOf_options, map_words hkey h]
  intro line hline
  obtain ⟨value, _, rfl⟩ := List.mem_map.mp hline
  exact ⟨key, value, hkey, rfl⟩

/-- The IPv4 gateway and what stands below it. -/
theorem stanzasOf_tail {gateway : Option Text} {others : List Text}
    (hgateway : ∀ text ∈ gateway, Plain text ∧ text ≠ []) (hothers : Others others) :
    stanzasOf (gateway.toList.map (optionLine "gateway") ++ others) =
      (optionsOf "gateway" gateway.toList ++ others.map splitWhitespace, []) := by
  have hbelow : stanzasOf others = (others.map splitWhitespace, []) := by
    have hoptions := @stanzasOf_options others [] (fun line hline => by
      obtain ⟨key, value, hkey, hline, _⟩ := hothers line hline
      exact ⟨key, value, hkey, hline⟩)
    simpa [stanzasOf] using hoptions
  rw [stanzasOf_keyed (by decide) (fun text htext => hgateway text (Option.mem_toList.mp htext)),
    hbelow]

/-- The words of the lines below the gateway start with neither of its keys. -/
theorem others_head {others : List Text} (h : Others others) :
    ∀ option ∈ others.map splitWhitespace,
      option.head? ≠ some "address".toList ∧ option.head? ≠ some "gateway".toList := by
  intro option hoption
  obtain ⟨line, hline, rfl⟩ := List.mem_map.mp hoption
  obtain ⟨key, value, hkey, rfl, haddress, hgateway⟩ := h line hline
  rw [words_option hkey, List.head?_cons]
  exact ⟨fun h => haddress (Option.some.inj h), fun h => hgateway (Option.some.inj h)⟩

/-- The lines in the order they are pushed. -/
theorem renderIfupdown_eq {iface : Interface} {lines : List Text}
    (h : renderIfupdown iface = .ok lines) :
    ∃ (method : String) (others : List Text), Others others ∧
      lines = ("auto ".toList ++ iface.name) ::
        ("iface ".toList ++ iface.name ++ ' ' :: ("inet".toList ++ ' ' :: method.toList)) ::
        ((iface.addresses.filter (!isV6 ·)).map (optionLine "address") ++
          ((if !(iface.addresses.filter isV6).isEmpty then
            ("iface ".toList ++ iface.name ++ ' ' :: ("inet6".toList ++ ' ' :: "static".toList)) ::
              ((iface.addresses.filter isV6).map (optionLine "address") ++
                iface.gatewayV6.toList.map (optionLine "gateway"))
          else if iface.dhcpV6 then
            ["iface ".toList ++ iface.name ++ ' ' :: ("inet6".toList ++ ' ' :: "dhcp".toList)]
          else []) ++
          (iface.gatewayV4.toList.map (optionLine "gateway") ++ others))) := by
  obtain ⟨ports, hports, h⟩ := ok_of_bind h
  obtain ⟨routes, hroutes, h⟩ := ok_of_bind h
  obtain rfl := Except.ok.inj h
  refine ⟨if iface.dhcpV4 && iface.addresses.isEmpty then "dhcp"
    else if iface.name = "lo".toList ∧ iface.addresses.isEmpty then "loopback"
    else "static", (if iface.dns.isEmpty then [] else ["\tdns-nameservers ".toList ++ join [' '] iface.dns]) ++
    (iface.vlan.toList.flatMap (fun vlan =>
      ["\tvlan-raw-device ".toList ++ vlan.link, "\tvlan_id ".toList ++ u16 vlan.id]) ++
    (ports ++ routes)), ?_, ?_⟩
  · have hother : ∀ key value, key.toList ∈ ifupdownOptions →
        key.toList ≠ "address".toList ∧ key.toList ≠ "gateway".toList →
        ∃ key' value', key'.toList ∈ ifupdownOptions ∧ optionLine key value = optionLine key' value' ∧
          key'.toList ≠ "address".toList ∧ key'.toList ≠ "gateway".toList :=
      fun key value hkey hne => ⟨key, value, hkey, rfl, hne⟩
    simp only [Others, List.forall_mem_append]
    refine ⟨?_, ?_, ?_, ?_⟩
    · split_ifs
      · simp
      · intro line hline
        rw [List.mem_singleton.mp hline]
        exact hother "dns-nameservers" _ (by decide) (by decide)
    · intro line hline
      obtain ⟨vlan, _, hline⟩ := List.mem_flatMap.mp hline
      simp only [List.mem_cons, List.not_mem_nil, or_false] at hline
      rcases hline with rfl | rfl
      · exact hother "vlan-raw-device" _ (by decide) (by decide)
      · exact hother "vlan_id" _ (by decide) (by decide)
    · intro line hline
      obtain ⟨bridge, _, hline⟩ := mapM_ok hports line hline
      unfold renderBridgePorts at hline
      split_ifs at hline
      obtain rfl := Except.ok.inj hline
      exact hother "bridge_ports" _ (by decide) (by decide)
    · intro line hline
      obtain ⟨route, _, hline⟩ := mapM_ok hroutes line hline
      obtain ⟨_, _, hline⟩ := ok_of_bind hline
      obtain rfl := Except.ok.inj hline
      exact hother "up" ("ip route add ".toList ++ route.dest ++ " via ".toList ++ route.via)
        (by decide) (by decide)
  · have haddress : (fun x => "\taddress ".toList ++ x) = optionLine "address" := rfl
    have hgateway : (fun x => "\tgateway ".toList ++ x) = optionLine "gateway" := rfl
    have hinet (method : Text) : "iface ".toList ++ iface.name ++ " inet ".toList ++ method =
        "iface ".toList ++ iface.name ++ ' ' :: ("inet".toList ++ ' ' :: method) := by simp
    rw [haddress, hgateway, hinet]
    simp only [List.append_assoc, List.cons_append, List.nil_append]
    rfl

theorem stanzasOf_render {iface : Interface} (hchecked : Checked iface) {lines : List Text}
    (h : renderIfupdown iface = .ok lines) :
    ∃ tail, (∀ option ∈ tail, option.head? ≠ some "address".toList ∧
        option.head? ≠ some "gateway".toList) ∧
      (stanzasOf lines).2 = expected iface tail := by
  obtain ⟨method, others, hothers, rfl⟩ := renderIfupdown_eq h
  have hfamily : ∀ family ∈ ["inet", "inet6"],
      family.toList ≠ [] ∧ ∀ d ∈ family.toList, isWhitespace d = false := by decide
  have hcidrs (p : Text → Bool) : ∀ address ∈ iface.addresses.filter p, Plain address ∧ address ≠ [] :=
    fun address hmem => cidr_plain (hchecked.addresses address (List.mem_of_mem_filter hmem))
  have hgateway4 : ∀ gateway ∈ iface.gatewayV4, Plain gateway ∧ gateway ≠ [] := by
    intro gateway hmem
    have hsome := hchecked.gatewayV4 gateway hmem
    refine ⟨fun c hc => ipChar_plain (IpAddr.parseV4_chars hsome c hc), ?_⟩
    rintro rfl
    exact absurd hsome (by decide)
  have hgateway6 : ∀ gateway ∈ iface.gatewayV6.toList, Plain gateway ∧ gateway ≠ [] := by
    intro gateway hmem
    have hsome := hchecked.gatewayV6 gateway (Option.mem_toList.mp hmem)
    refine ⟨fun c hc => ipChar_plain (IpAddr.parseV6_chars hsome c hc), ?_⟩
    rintro rfl
    exact absurd hsome (by decide)
  refine ⟨others.map splitWhitespace, others_head hothers, ?_⟩
  rw [stanzasOf_auto hchecked.name, stanzasOf_iface hchecked.name _ _ (hfamily "inet" (by simp)),
    stanzasOf_keyed (by decide) (hcidrs _)]
  unfold expected
  split_ifs with hv6 hdhcp
  · rw [List.cons_append, stanzasOf_iface hchecked.name _ _ (hfamily "inet6" (by simp)),
      List.append_assoc, stanzasOf_keyed (by decide) (hcidrs _),
      stanzasOf_keyed (by decide) hgateway6, stanzasOf_tail hgateway4 hothers]
    simp
  · rw [List.cons_append, List.nil_append,
      stanzasOf_iface hchecked.name _ _ (hfamily "inet6" (by simp)), stanzasOf_tail hgateway4 hothers]
    simp
  · rw [List.nil_append, stanzasOf_tail hgateway4 hothers]

section Options

@[simp] theorem mem_optionsOf {word value : Text} :
    [word, value] ∈ optionsOf key values ↔ word = key.toList ∧ value ∈ values := by
  simp only [optionsOf, List.mem_map, List.cons.injEq, and_true]
  constructor
  · rintro ⟨value', hvalue, rfl, rfl⟩
    exact ⟨rfl, hvalue⟩
  · rintro ⟨rfl, hvalue⟩
    exact ⟨value, hvalue, rfl, rfl⟩

/-- The gateways among some options. -/
def gateways (options : List (List Text)) : Nat :=
  options.countP (fun option => option.head? = some "gateway".toList)

theorem gateways_append (options others : List (List Text)) :
    gateways (options ++ others) = gateways options + gateways others := List.countP_append

theorem gateways_none {options : List (List Text)}
    (h : ∀ option ∈ options, option.head? ≠ some "gateway".toList) : gateways options = 0 := by
  rw [gateways, List.countP_eq_zero]
  simpa using h

theorem gateways_addresses (values : List Text) : gateways (optionsOf "address" values) = 0 := by
  apply gateways_none
  intro option hoption
  obtain ⟨value, _, rfl⟩ := List.mem_map.mp hoption
  simp

theorem gateways_single (gateway : Option Text) :
    gateways (optionsOf "gateway" gateway.toList) ≤ 1 := by
  cases gateway <;> simp [gateways, optionsOf]

variable {lines : List Text} {options options6 : List (List Text)}

theorem optionOf_one (h : (stanzasOf lines).2 = [⟨"inet".toList, options⟩]) (option : List Text) :
    (OptionOf lines "inet" option ↔ option ∈ options) ∧ ¬ OptionOf lines "inet6" option := by
  simp [OptionOf, h]

theorem optionOf_two (h : (stanzasOf lines).2 =
      [⟨"inet".toList, options⟩, ⟨"inet6".toList, options6⟩]) (option : List Text) :
    (OptionOf lines "inet" option ↔ option ∈ options ∧ option ∉ options6) ∧
      (OptionOf lines "inet6" option ↔ option ∈ options6 ∧ option ∉ options) := by
  have hfamilies : "inet".toList ≠ "inet6".toList := by decide
  simp only [OptionOf, h, List.mem_cons, List.not_mem_nil, or_false, exists_eq_or_imp,
    exists_eq_left, forall_eq_or_imp, forall_eq, hfamilies, hfamilies.symm]
  tauto

end Options

/-- What stands below the gateways has options of other keys. -/
structure Tail (tail : List (List Text)) : Prop where
  address : ∀ address, ["address".toList, address] ∉ tail
  gateway : ∀ gateway, ["gateway".toList, gateway] ∉ tail
  none : gateways tail = 0

section Rule

variable {iface : Interface} {lines : List Text} {tail : List (List Text)} (hchecked : Checked iface)
  (htail : Tail tail)

include hchecked

theorem v4_filtered {address : Text} (hmem : address ∈ iface.addresses) (h : IsV4Cidr address) :
    address ∈ iface.addresses.filter (!isV6 ·) ∧ address ∉ iface.addresses.filter isV6 := by
  have hv6 := (cidr_family (hchecked.addresses address hmem)).2.mpr h
  simp [hmem, hv6]

theorem v6_filtered {address : Text} (hmem : address ∈ iface.addresses) (h : IsV6Cidr address) :
    address ∈ iface.addresses.filter isV6 ∧ address ∉ iface.addresses.filter (!isV6 ·) := by
  have hv6 := (cidr_family (hchecked.addresses address hmem)).1.mpr h
  simp [hmem, hv6]

include htail

/-- With two stanzas, the IPv4 gateway is misplaced. -/
theorem two_stanzas {gateway6 : Option Text} (hgateway6 : ∀ gateway ∈ gateway6, gateway ∈ iface.gatewayV6)
    (h : (stanzasOf lines).2 =
      [⟨"inet".toList, optionsOf "address" (iface.addresses.filter (!isV6 ·))⟩,
        ⟨"inet6".toList, optionsOf "address" (iface.addresses.filter isV6) ++
          optionsOf "gateway" gateway6.toList ++
          (optionsOf "gateway" iface.gatewayV4.toList ++ tail)⟩]) :
    WellFormed iface lines ↔ iface.gatewayV4 = none ∧ iface.gatewayV6 = gateway6 := by
  have hkeys : "address".toList ≠ "gateway".toList := by decide
  have hoption := optionOf_two h
  constructor
  · intro hwell
    have hnone : iface.gatewayV4 = none := by
      rw [Option.eq_none_iff_forall_not_mem]
      intro gateway hgateway
      have hmem := ((hoption _).1.mp (hwell.gatewayV4 gateway hgateway)).1
      exact hkeys (mem_optionsOf.mp hmem).1.symm
    refine ⟨hnone, Option.ext fun gateway => ⟨fun hgateway => ?_, hgateway6 gateway⟩⟩
    have hmem := ((hoption _).2.mp (hwell.gatewayV6 gateway hgateway)).1
    simpa only [List.mem_append, mem_optionsOf, hkeys.symm, false_and, true_and, false_or, hnone,
      Option.toList_none, List.not_mem_nil, htail.gateway, or_false, Option.mem_toList] using hmem
  · rintro ⟨hnone, rfl⟩
    constructor
    · intro address hmem hv4
      obtain ⟨hin, hout⟩ := v4_filtered hchecked hmem hv4
      rw [(hoption _).1]
      simp only [List.mem_append, mem_optionsOf, hkeys, hin, hout, htail.address, false_and, and_false,
        or_false, not_false_eq_true, and_true]
    · intro address hmem hv6
      obtain ⟨hin, hout⟩ := v6_filtered hchecked hmem hv6
      rw [(hoption _).2]
      simp only [List.mem_append, mem_optionsOf, hin, hout, and_self, true_or, and_false, not_false_eq_true]
    · simp [hnone]
    · intro gateway hgateway
      rw [(hoption _).2]
      simp only [List.mem_append, mem_optionsOf, hkeys.symm, Option.mem_toList.mpr hgateway, false_and,
        and_self, or_true, true_or, not_false_eq_true]
    · simp only [h, List.forall_mem_cons, List.not_mem_nil, false_imp_iff, implies_true, and_true]
      constructor
      · change gateways _ ≤ 1
        rw [gateways_addresses]
        exact Nat.zero_le 1
      · change gateways _ ≤ 1
        have hsingle := gateways_single iface.gatewayV6
        have hempty : gateways (optionsOf "gateway" iface.gatewayV4.toList) = 0 := by
          rw [hnone]
          rfl
        rw [gateways_append, gateways_append, gateways_append, gateways_addresses, hempty, htail.none]
        omega

theorem one_stanza (hall : iface.addresses.filter isV6 = []) (h : (stanzasOf lines).2 =
      [⟨"inet".toList, optionsOf "address" (iface.addresses.filter (!isV6 ·)) ++
        (optionsOf "gateway" iface.gatewayV4.toList ++ tail)⟩]) :
    WellFormed iface lines ↔ iface.gatewayV6 = none := by
  have hkeys : "address".toList ≠ "gateway".toList := by decide
  have hoption := optionOf_one h
  constructor
  · intro hwell
    rw [Option.eq_none_iff_forall_not_mem]
    intro gateway hgateway
    exact (hoption _).2 (hwell.gatewayV6 gateway hgateway)
  · intro hnone
    constructor
    · intro address hmem hv4
      rw [(hoption _).1]
      exact List.mem_append_left _ (mem_optionsOf.mpr ⟨rfl, (v4_filtered hchecked hmem hv4).1⟩)
    · intro address hmem hv6
      have hin := (v6_filtered hchecked hmem hv6).1
      rw [hall] at hin
      cases hin
    · intro gateway hgateway
      rw [(hoption _).1]
      exact List.mem_append_right _ (List.mem_append_left _
        (mem_optionsOf.mpr ⟨rfl, Option.mem_toList.mpr hgateway⟩))
    · simp [hnone]
    · simp only [h, List.forall_mem_cons, List.not_mem_nil, false_imp_iff, implies_true, and_true]
      change gateways _ ≤ 1
      have hsingle := gateways_single iface.gatewayV4
      rw [gateways_append, gateways_append, gateways_addresses, htail.none]
      omega

end Rule

/-- Exactly where there is no second stanza below an IPv4 gateway, and an IPv6 address beside an
IPv6 gateway, is the rendered interface well formed. -/
theorem wellFormed_iff_placed (iface : Interface) (lines : List Text)
    (hcheck : checkInterface iface = .ok ()) (hrender : renderIfupdown iface = .ok lines) :
    WellFormed iface lines ↔ Placed iface := by
  have hchecked := checked_of_ok hcheck
  obtain ⟨tail, hothers, hstanzas⟩ := stanzasOf_render hchecked hrender
  have htail : Tail tail :=
    { address := fun _ hmem => (hothers _ hmem).1 rfl
      gateway := fun _ hmem => (hothers _ hmem).2 rfl
      none := gateways_none (fun option hoption => (hothers option hoption).2) }
  unfold expected at hstanzas
  by_cases hsecond : iface.addresses.filter isV6 = []
  · have hnone : ¬ ∃ address ∈ iface.addresses, IsV6Cidr address := by
      rintro ⟨address, hmem, hv6⟩
      have hin := (v6_filtered hchecked hmem hv6).1
      rw [hsecond] at hin
      cases hin
    have hall : ∀ address ∈ iface.addresses, ¬ IsV6Cidr address :=
      fun address hmem hv6 => hnone ⟨address, hmem, hv6⟩
    simp only [hsecond, List.isEmpty_nil, Bool.not_true, Bool.false_eq_true, if_false] at hstanzas
    cases hdhcp : iface.dhcpV6 with
    | true =>
      rw [hdhcp, if_pos rfl] at hstanzas
      have hrule := @two_stanzas iface lines tail hchecked htail none (by simp)
        (by rw [hstanzas, hsecond]; rfl)
      rw [hrule]
      simp [Placed, hnone, hdhcp]
    | false =>
      rw [hdhcp, if_neg (by decide)] at hstanzas
      rw [one_stanza hchecked htail hsecond hstanzas]
      rw [Placed, hdhcp]
      simp only [hnone, imp_false, Bool.not_eq_true, Option.isSome_eq_false_iff, Option.isNone_iff_eq_none,
        and_true]
      exact ⟨fun hnone6 => ⟨fun _ => hall, hnone6⟩, fun hplaced => hplaced.2⟩
  · have hsome : ∃ address ∈ iface.addresses, IsV6Cidr address := by
      obtain ⟨address, hin⟩ := List.exists_mem_of_ne_nil _ hsecond
      obtain ⟨hmem, hv6⟩ := List.mem_filter.mp hin
      exact ⟨address, hmem, (cidr_family (hchecked.addresses address hmem)).1.mp hv6⟩
    have hnot : ¬ ∀ address ∈ iface.addresses, ¬ IsV6Cidr address := by
      intro hall
      obtain ⟨address, hmem, hv6⟩ := hsome
      exact hall address hmem hv6
    rw [if_pos (by simpa using hsecond)] at hstanzas
    rw [two_stanzas hchecked htail (fun _ hgateway => hgateway) hstanzas]
    simp [Placed, hnot, hsome]

/-- Both families, with the IPv6 gateway. -/
def dual (gatewayV4 : Option Text) : Interface where
  name := "eth0".toList
  addresses := ["192.0.2.2/24".toList, "2001:db8::2/64".toList]
  gatewayV4 := gatewayV4
  gatewayV6 := some "2001:db8::1".toList

theorem dual_wellFormed : ∃ lines,
    checkInterface (dual none) = .ok () ∧ renderIfupdown (dual none) = .ok lines ∧
      WellFormed (dual none) lines ∧ Placed (dual none) := by
  have hcheck : checkInterface (dual none) = .ok () := by decide +kernel
  have hrender : renderIfupdown (dual none) = .ok
      ["auto eth0".toList, "iface eth0 inet static".toList, "\taddress 192.0.2.2/24".toList,
        "iface eth0 inet6 static".toList, "\taddress 2001:db8::2/64".toList,
        "\tgateway 2001:db8::1".toList] := by decide +kernel
  have hplaced : Placed (dual none) := by
    refine ⟨by simp [dual], fun _ => ⟨"2001:db8::2/64".toList, by simp [dual], ?_⟩⟩
    exact (@cidr_family "2001:db8::2/64".toList (by decide +kernel)).1.mp (by decide +kernel)
  exact ⟨_, hcheck, hrender, (wellFormed_iff_placed _ _ hcheck hrender).mpr hplaced, hplaced⟩

/-- With both gateways, the `inet6` stanza has both and the `inet` stanza none. -/
theorem dual_gateways_misplaced : ∃ iface lines,
    checkInterface iface = .ok () ∧ renderIfupdown iface = .ok lines ∧
      (stanzasOf lines).2 =
        [{ family := "inet".toList, options := [["address".toList, "192.0.2.2/24".toList]] },
          { family := "inet6".toList
            options := [["address".toList, "2001:db8::2/64".toList],
              ["gateway".toList, "2001:db8::1".toList], ["gateway".toList, "192.0.2.1".toList]] }] ∧
      ¬ WellFormed iface lines := by
  have hstanzas : ∃ lines, renderIfupdown (dual (some "192.0.2.1".toList)) = .ok lines ∧
      (stanzasOf lines).2 =
        [{ family := "inet".toList, options := [["address".toList, "192.0.2.2/24".toList]] },
          { family := "inet6".toList
            options := [["address".toList, "2001:db8::2/64".toList],
              ["gateway".toList, "2001:db8::1".toList], ["gateway".toList, "192.0.2.1".toList]] }] :=
    ⟨["auto eth0".toList, "iface eth0 inet static".toList, "\taddress 192.0.2.2/24".toList,
      "iface eth0 inet6 static".toList, "\taddress 2001:db8::2/64".toList,
      "\tgateway 2001:db8::1".toList, "\tgateway 192.0.2.1".toList], by decide +kernel, by decide +kernel⟩
  obtain ⟨lines, hrender, hlines⟩ := hstanzas
  refine ⟨dual (some "192.0.2.1".toList), lines, by decide +kernel, hrender, hlines, fun hwell => ?_⟩
  have htwo := hwell.single
  rw [hlines] at htwo
  exact absurd (htwo _ (List.mem_cons_of_mem _ (List.mem_singleton.mpr rfl))) (by decide)

end Detent.Guarantees.IfupdownStanzas
