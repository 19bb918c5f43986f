import Detent.Guarantees.NetplanLines

/-!
# Comments at the end of a netplan line

In YAML a space and `#` start a comment. The netplan reader takes the rest of the line as the
value, comment included, so a comment changes the model wherever the value is read. `Unread`
says which lines do not have their value read; on these, and only these, no comment ever
shows.
-/
namespace Detent.Guarantees.NetplanComments
open Lib Lib.Text Source.Network
open Source.Doc hiding parse
open NetplanReading NetworkSyntax DocShape
open NetplanLines

/-! ## Where a value is read -/

/-- A leaf of an interface whose value is read: a true switch, a gateway, an address or a link, a
list of members, a number that the interface does not have already. -/
inductive LeafRead (builder : Builder) (key value : Text) : Prop
  | switch (hkey : key = "dhcp4".toList ∨ key = "dhcp6".toList)
      (hvalue : value = "true".toList ∨ value = "yes".toList)
  | text (hkey : key ∈ ["gateway4", "gateway6", "addresses", "link"].map String.toList)
  | members (hkey : key = "interfaces".toList) (hvalue : value.head? = some '[')
  | number (hkey : key = "id".toList) (id : Fin 65536) (hvalue : IpAddr.parseU16 value = some id)
      (iface : Interface) (hmem : iface ∈ builder.ifaces) (hcurrent : builder.netplanIface = some iface.name)
      (hnew : iface.vlan.map (·.id) ≠ some id)

/-- The value of a key is read: it is a list of name servers, or that of a leaf. -/
def KeyRead (builder : Builder) (indent : Nat) (key value : Text) : Prop :=
  isModeledNetplanPath (pathAt builder indent key) = true ∧
    (key = "nameservers".toList ∧ value.head? = some '[' ∨
      (pathAt builder indent key).length ≠ 3 ∧ LeafRead builder key value)

/-- The value of a list item is read: below `addresses` and `nameservers` each one, below `routes`
a destination, and a next hop that has one. -/
def ItemRead (builder : Builder) (value : Text) : Prop :=
  isModeledNetplanPath (pathOf builder) = true ∧
    ((pathOf builder).getLast? = some "addresses".toList ∨
      (pathOf builder).getLast? = some "nameservers".toList ∨
      (pathOf builder).getLast? = some "routes".toList ∧
        ("to:".toList <+: value ∨ "via:".toList <+: value ∧ builder.pendingRouteTo.isSome))

/-- The value of a line is not read, neither with the line nor with the route above it. -/
structure Unread (builder : Builder) (line : Text) : Prop where
  above : builder.consumed = false
  key : ∀ indent key value, parseNetplanKv line = some (indent, key, value) →
    ¬ KeyRead builder indent key value
  item : ∀ indent value, parseNetplanKv line = none → parseNetplanListItem line = some (indent, value) →
    ¬ ItemRead builder value

section Marked

variable {value : Text} (hvalue : PlainValue value) (comment : Text)

include hvalue

theorem plain_count : (trim value).count '#' = 0 := by
  rw [count_trim, List.count_eq_zero]
  intro hmem
  exact (hvalue.plain '#' hmem).1 rfl

theorem mark_count : (trim (mark value comment)).count '#' = 1 + comment.count '#' := by
  obtain ⟨tail, htail, -, hcount⟩ := trim_mark hvalue.nonempty comment
  rw [htail, List.count_append, plain_count hvalue, hcount, Nat.zero_add]

theorem hash_mem : '#' ∈ trim (mark value comment) := by
  rw [← List.count_pos_iff, mark_count hvalue]
  omega

theorem mark_ne : trim value ≠ trim (mark value comment) := by
  intro hsame
  have hcount := mark_count hvalue comment
  rw [← hsame, plain_count hvalue] at hcount
  omega

theorem mark_head : (trim (mark value comment)).head? = (trim value).head? := by
  obtain ⟨tail, htail, -⟩ := trim_mark hvalue.nonempty comment
  rw [htail, List.head?_append_of_ne_nil _ hvalue.nonempty]

theorem mark_false : ¬ (trim (mark value comment) = "true".toList ∨
    trim (mark value comment) = "yes".toList) := by
  have hmem := hash_mem hvalue comment
  rintro (hword | hword)
  all_goals
    rw [hword] at hmem
    exact absurd hmem (by decide)

end Marked

section Effects

variable {builder : Builder} {value : Text} (hvalue : PlainValue value)

include hvalue

theorem leaf_unread {key : Text} (h : ¬ LeafRead builder key (trim value)) (path : List Text)
    (comment : Text) {iface : Interface} (hmem : iface ∈ builder.ifaces)
    (hcurrent : builder.netplanIface = some iface.name) :
    netplanLeaf path key (trim value) iface = netplanLeaf path key (trim (mark value comment)) iface := by
  have hne := hvalue.nonempty
  have hmarkNe := trim_mark_ne hne comment
  have htext : ∀ other ∈ ["gateway4", "gateway6", "addresses", "link"].map String.toList, key ≠ other := by
    rintro other hother rfl
    exact h (.text hother)
  simp only [List.map_cons, List.map_nil, List.forall_mem_cons, List.not_mem_nil, false_imp_iff,
    implies_true, and_true] at htext
  obtain ⟨hgateway4, hgateway6, haddresses, hlink⟩ := htext
  unfold netplanLeaf
  simp only [hgateway4, hgateway6, haddresses, hlink, false_and, if_false, mark_false hvalue comment]
  by_cases hswitch : key = "dhcp4".toList ∨ key = "dhcp6".toList
  · have hfalse : ¬ (trim value = "true".toList ∨ trim value = "yes".toList) :=
      fun htrue => h (.switch hswitch htrue)
    simp only [hfalse]
    rcases hswitch with rfl | rfl
    · rfl
    · rfl
  · rw [not_or] at hswitch
    simp only [hswitch.1, hswitch.2, if_false]
    split_ifs with hid hinterfaces
    · rw [parseU16_hash (hash_mem hvalue comment)]
      cases hnumber : IpAddr.parseU16 (trim value) with
      | none => rfl
      | some id =>
        by_cases hsame : iface.vlan.map (·.id) = some id
        · obtain ⟨vlan, hvlan, rfl⟩ := Option.map_eq_some_iff.mp hsame
          simp only [setVlanId, hvlan, Option.map_some, Option.getD_some]
          rw [← hvlan]
        · exact absurd (.number hid id hnumber iface hmem hcurrent hsame) h
    · have hhead : (trim value).head? ≠ some '[' := fun hhead => h (.members hinterfaces hhead)
      have hmark : (trim (trim (mark value comment))).head? ≠ some '[' := by
        rwa [trim_idem, mark_head hvalue]
      rw [inline_none (by rwa [trim_idem]), inline_none hmark]
    · rfl

theorem netplanKv_unread {indent : Nat} {key : Text} (h : ¬ KeyRead builder indent key (trim value))
    (row : Nat) (comment : Text) :
    builder.netplanKv row indent key (trim value) =
      builder.netplanKv row indent key (trim (mark value comment)) := by
  rw [netplanKv_eq, netplanKv_eq]
  split_ifs with hmodeled
  · apply update_congr
    intro iface hmem hcurrent
    have hleaf : (if (pathAt builder indent key).length = 3 then iface
        else netplanLeaf (pathAt builder indent key) key (trim value) iface) =
        if (pathAt builder indent key).length = 3 then iface
        else netplanLeaf (pathAt builder indent key) key (trim (mark value comment)) iface := by
      split_ifs with hlength
      · rfl
      · obtain ⟨hifaces, hiface⟩ := @entered_leaf builder row indent key hlength
        rw [hifaces] at hmem
        rw [hiface] at hcurrent
        exact leaf_unread hvalue (fun hread => h ⟨hmodeled, .inr ⟨hlength, hread⟩⟩) _ _ hmem hcurrent
    unfold keyEffect
    dsimp only
    rw [hleaf, pathAt_getLast]
    have hne := hvalue.nonempty
    have hmarkNe := trim_mark_ne hne comment
    simp only [hne, hmarkNe, ne_eq, not_false_eq_true, and_true]
    split_ifs with hkey
    all_goals try rfl
    all_goals
      have hhead : (trim value).head? ≠ some '[' :=
        fun hhead => h ⟨hmodeled, .inl ⟨Option.some.inj hkey, hhead⟩⟩
      have hmark : (trim (trim (mark value comment))).head? ≠ some '[' := by
        rwa [trim_idem, mark_head hvalue]
      rw [nameservers, nameservers, inline_none (by rwa [trim_idem]), inline_none hmark]
  · rfl

/-- A word at the start of a value is at the start of the commented value. -/
theorem stripStart_mark {pattern : Text} (hpattern : ∀ c ∈ pattern, isWhitespace c = false)
    (comment : Text) :
    (∀ rest, stripStart pattern (trim value) = some rest →
      ∃ tail, stripStart pattern (trim (mark value comment)) = some (rest ++ tail) ∧
        startsWithSpace tail = true ∧ '#' ∈ tail) ∧
      (stripStart pattern (trim value) = none → stripStart pattern (trim (mark value comment)) = none) := by
  obtain ⟨tail, htail, hstart, hcount⟩ := trim_mark hvalue.nonempty comment
  have hhash : '#' ∈ tail := by
    rw [← List.count_pos_iff, hcount]
    omega
  rw [htail]
  constructor
  · intro rest hrest
    rw [stripStart_eq_some hrest, List.append_assoc, stripStart_append]
    exact ⟨tail, rfl, hstart, hhash⟩
  · intro hnone
    have hprefix : ¬ pattern <+: trim value := by
      intro hprefix
      obtain ⟨rest, hrest⟩ := hprefix
      rw [← hrest, stripStart_append] at hnone
      cases hnone
    have hmark : ¬ pattern <+: trim value ++ tail := by
      intro hmark
      rcases List.prefix_or_prefix_of_prefix hmark (List.prefix_append _ _) with hshort | hlong
      · exact hprefix hshort
      · -- The word would hold the space that starts the comment.
        obtain ⟨more, rfl⟩ := hlong
        cases more with
        | nil => exact hprefix (by simp)
        | cons c more =>
          rw [List.prefix_append_right_inj] at hmark
          obtain ⟨after, hafter⟩ := hmark
          rw [← hafter] at hstart
          have hspace : isWhitespace c = true := hstart
          rw [hpattern c (by simp)] at hspace
          cases hspace
    rw [stripStart, if_neg (by rwa [List.isPrefixOf_iff_prefix])]

theorem netplanRoute_unread (hdest : ¬ "to:".toList <+: trim value)
    (hvia : ¬ ("via:".toList <+: trim value ∧ builder.pendingRouteTo.isSome)) (indent : Nat)
    (next : Option Text) (comment : Text) :
    builder.netplanRoute indent (trim value) next =
      builder.netplanRoute indent (trim (mark value comment)) next := by
  have hnone : stripStart "to:".toList (trim value) = none := by
    rw [stripStart, if_neg (by rwa [List.isPrefixOf_iff_prefix])]
  have hmarkNone := (@stripStart_mark value hvalue "to:".toList (by decide) comment).2 hnone
  have hstep := @stripStart_mark value hvalue "via:".toList (by decide) comment
  unfold Builder.netplanRoute
  rw [hnone, hmarkNone]
  dsimp only
  cases hstrip : stripStart "via:".toList (trim value) with
  | none => rw [hstep.2 hstrip]
  | some rest =>
    obtain ⟨tail, htail, -⟩ := hstep.1 rest hstrip
    have hpending : builder.pendingRouteTo = none := by
      rw [← Option.not_isSome_iff_eq_none]
      exact fun hsome => hvia ⟨⟨rest, (stripStart_eq_some hstrip).symm⟩, hsome⟩
    rw [htail, hpending]
    cases builder.netplanIface <;> rfl

theorem netplanItem_unread (h : ¬ ItemRead builder (trim value)) (row indent : Nat) (next : Option Text)
    (comment : Text) :
    builder.netplanItem row indent (trim value) next =
      builder.netplanItem row indent (trim (mark value comment)) next := by
  rcases item_cases builder with hskip | ⟨hmodeled, parent, hparent, hlast⟩
  · rw [hskip, hskip]
  · simp only [List.map_cons, List.map_nil, List.mem_cons, List.not_mem_nil, or_false] at hparent
    rcases hparent with rfl | rfl | rfl
    · exact absurd ⟨hmodeled, .inl hlast⟩ h
    · have hroute (hread : "to:".toList <+: trim value ∨
          "via:".toList <+: trim value ∧ builder.pendingRouteTo.isSome) : False :=
        h ⟨hmodeled, .inr (.inr ⟨hlast, hread⟩)⟩
      rw [item_routes hmodeled _ _ _ hlast, item_routes hmodeled _ _ _ hlast]
      exact netplanRoute_unread hvalue (fun hdest => hroute (.inl hdest)) (fun hvia => hroute (.inr hvia)) _ _ _
    · exact absurd ⟨hmodeled, .inr (.inl hlast)⟩ h

end Effects

section Leaves

variable (path : List Text) (value : Text) (iface : Interface)

theorem leaf_addresses : netplanLeaf path "addresses".toList value iface =
    match parseInlineList value with
    | some list =>
      if path.reverse[1]? = some "nameservers".toList then addDns list iface else addAddresses list iface
    | none => if value ≠ [] ∧ value.head? ≠ some '[' then addAddresses [value] iface else iface := by
  unfold netplanLeaf
  dsimp only
  rw [if_neg (by decide), if_neg (by decide), if_neg (fun h => absurd h.1 (by decide)),
    if_neg (fun h => absurd h.1 (by decide)), if_pos rfl]
  cases parseInlineList value with
  | none | some => rfl

theorem leaf_interfaces : netplanLeaf path "interfaces".toList value iface =
    match parseInlineList value with
    | some list => { iface with bridge := some ⟨list⟩ }
    | none => iface := by
  unfold netplanLeaf
  dsimp only
  rewrite [if_neg (by decide), if_neg (by decide), if_neg (fun h => absurd h.1 (by decide)),
    if_neg (fun h => absurd h.1 (by decide)), if_neg (by decide), if_neg (by decide),
    if_neg (fun h => absurd h.1 (by decide)), if_pos rfl]
  cases parseInlineList value with
  | none | some => rfl

theorem leaf_id : netplanLeaf path "id".toList value iface =
    match IpAddr.parseU16 value with
    | some id => setVlanId [] id iface
    | none => iface := by
  unfold netplanLeaf
  dsimp only
  rewrite [if_neg (by decide), if_neg (by decide), if_neg (fun h => absurd h.1 (by decide)),
    if_neg (fun h => absurd h.1 (by decide)), if_neg (by decide), if_pos rfl]
  cases IpAddr.parseU16 value with
  | none | some => rfl

theorem leaf_nameservers : netplanLeaf path "nameservers".toList value iface = iface := by
  unfold netplanLeaf
  dsimp only
  rw [if_neg (by decide), if_neg (by decide), if_neg (fun h => absurd h.1 (by decide)),
    if_neg (fun h => absurd h.1 (by decide)), if_neg (by decide), if_neg (by decide),
    if_neg (fun h => absurd h.1 (by decide)), if_neg (by decide)]

end Leaves

/-- A next hop below a route item. -/
def viaLine (indent : Nat) : Text := List.replicate (indent + 1) ' ' ++ ("via".toList ++ [':']) ++ " x".toList

theorem viaAfter_viaLine (indent : Nat) : viaAfter indent (some (viaLine indent)) = some "x".toList := by
  have hpad : ∀ c ∈ List.replicate (indent + 1) ' ', c = ' ' := fun c hc => List.eq_of_mem_replicate hc
  have hkey : PlainKey "via".toList := ⟨by decide, by decide⟩
  have hline := @parseNetplanKv_kv _ _ "x".toList hpad hkey (by decide)
  have hread : (accepted "via".toList && !isOpaque (trim "x".toList)) = true := by decide
  rw [if_pos hread, List.length_replicate] at hline
  have hsame : parseNetplanKv (viaLine indent) = some (indent + 1, "via".toList, "x".toList) := hline
  rw [viaAfter, Option.bind_some, hsame]
  dsimp only
  rw [if_pos ⟨rfl, by omega⟩]

section Differences

theorem addDns_differ {old list : List Text} (hold : hashes old = 0) (hlist : hashes list = 1)
    (iface : Interface) : addDns old iface ≠ addDns list iface := by
  intro hsame
  have hdns := List.append_cancel_left (congrArg Interface.dns hsame)
  rw [hdns, hlist] at hold
  cases hold

theorem addAddresses_differ {old list : List Text} (hold : hashes old = 0) (hlist : hashes list = 1)
    (iface : Interface) : addAddresses old iface ≠ addAddresses list iface := by
  intro hsame
  have haddresses := List.append_cancel_left (congrArg Interface.addresses hsame)
  rw [haddresses, hlist] at hold
  cases hold

variable {builder : Builder} {value : Text} (hvalue : PlainValue value)

include hvalue

theorem closed_list (h : (trim value).head? = some '[') (comment : Text) :
    ∃ list, parseInlineList (trim (mark value (comment ++ [']']))) = some list ∧
      hashes list = 1 + comment.count '#' := by
  obtain ⟨list, hlist⟩ := @inline_mark value comment h
  refine ⟨list, hlist, ?_⟩
  rw [hashes_inline hlist, mark_count hvalue, List.count_append]
  rfl

/-- An inline list of the value itself has no number sign. -/
theorem open_list {list : List Text} (h : parseInlineList (trim value) = some list) : hashes list = 0 := by
  rw [hashes_inline h, plain_count hvalue]

theorem nameservers_differ (h : (trim value).head? = some '[') (iface : Interface) :
    nameservers (trim value) iface ≠ nameservers (trim (mark value [']'])) iface := by
  obtain ⟨list, hlist, hcount⟩ := closed_list hvalue h []
  rw [List.nil_append] at hlist
  unfold nameservers
  rw [hlist]
  cases hopen : parseInlineList (trim value) with
  | none =>
    have hnone : iface = addDns [] iface := by simp [addDns]
    dsimp only
    conv_lhs => rw [hnone]
    exact addDns_differ rfl hcount iface
  | some old => exact addDns_differ (open_list hvalue hopen) hcount iface

theorem addresses_differ (path : List Text) (iface : Interface) :
    netplanLeaf path "addresses".toList (trim value) iface ≠
      netplanLeaf path "addresses".toList (trim (mark value [']'])) iface := by
  rw [leaf_addresses, leaf_addresses]
  by_cases h : (trim value).head? = some '['
  · obtain ⟨list, hlist, hcount⟩ := closed_list hvalue h []
    rw [List.nil_append] at hlist
    rw [hlist]
    cases hopen : parseInlineList (trim value) with
    | none =>
      have hdns : iface = addDns [] iface := by simp [addDns]
      have haddresses : iface = addAddresses [] iface := by simp [addAddresses]
      dsimp only
      rw [if_neg (fun hboth => hboth.2 h)]
      split_ifs
      · conv_lhs => rw [hdns]
        exact addDns_differ rfl hcount iface
      · conv_lhs => rw [haddresses]
        exact addAddresses_differ rfl hcount iface
    | some old =>
      dsimp only
      split_ifs
      · exact addDns_differ (open_list hvalue hopen) hcount iface
      · exact addAddresses_differ (open_list hvalue hopen) hcount iface
  · have hmark : (trim (trim (mark value [']']))).head? ≠ some '[' := by
      rwa [trim_idem, mark_head hvalue]
    have hhead : (trim (mark value [']'])).head? ≠ some '[' := by rwa [mark_head hvalue]
    rw [inline_none (by rwa [trim_idem]), inline_none hmark]
    dsimp only
    rw [if_pos ⟨hvalue.nonempty, h⟩, if_pos ⟨trim_mark_ne hvalue.nonempty _, hhead⟩]
    exact addAddresses_differ (by simpa [hashes] using plain_count hvalue)
      (by simpa [hashes] using mark_count hvalue [']']) iface

/-- Two comments that close the list make two lists of members. -/
theorem members_differ (h : (trim value).head? = some '[') (path : List Text) (iface : Interface) :
    ∃ comment, OneLine comment ∧ netplanLeaf path "interfaces".toList (trim value) iface ≠
      netplanLeaf path "interfaces".toList (trim (mark value comment)) iface := by
  obtain ⟨first, hfirst, hone⟩ := closed_list hvalue h []
  obtain ⟨second, hsecond, htwo⟩ := closed_list hvalue h ['#']
  have hbridge : netplanLeaf path "interfaces".toList (trim (mark value ([] ++ [']']))) iface ≠
      netplanLeaf path "interfaces".toList (trim (mark value (['#'] ++ [']']))) iface := by
    rw [leaf_interfaces, leaf_interfaces, hfirst, hsecond]
    intro hsame
    have hlists := congrArg (fun iface => iface.bridge.map (fun bridge => hashes bridge.members)) hsame
    simp only [Option.map_some, Option.some.injEq] at hlists
    rw [hone, htwo] at hlists
    cases hlists
  by_cases hsame : netplanLeaf path "interfaces".toList (trim value) iface =
      netplanLeaf path "interfaces".toList (trim (mark value ([] ++ [']']))) iface
  · exact ⟨['#'] ++ [']'], ⟨by decide, by decide⟩, fun hother => hbridge (hsame.symm.trans hother)⟩
  · exact ⟨[] ++ [']'], ⟨by decide, by decide⟩, hsame⟩

theorem leaf_read {key : Text} (h : LeafRead builder key (trim value)) (path : List Text)
    {current : Interface} (hmem : current ∈ builder.ifaces)
    (hcurrent : builder.netplanIface = some current.name) :
    ∃ comment iface, OneLine comment ∧ iface ∈ builder.ifaces ∧ builder.netplanIface = some iface.name ∧
      netplanLeaf path key (trim value) iface ≠ netplanLeaf path key (trim (mark value comment)) iface := by
  have hempty : OneLine [] := ⟨by decide, by decide⟩
  have hmark := mark_ne hvalue []
  have hmarkNe := trim_mark_ne hvalue.nonempty []
  cases h with
  | switch hkey htrue =>
    refine ⟨[], current, hempty, hmem, hcurrent, fun hsame => ?_⟩
    have hfalse := mark_false hvalue []
    rcases hkey with rfl | rfl
    · have hdhcp := congrArg Interface.dhcpV4 hsame
      simp only [netplanLeaf, if_true, htrue, hfalse, decide_true, decide_false] at hdhcp
      cases hdhcp
    · have hdhcp := congrArg Interface.dhcpV6 hsame
      have hkeys : "dhcp6".toList ≠ "dhcp4".toList := by decide
      simp only [netplanLeaf, if_true, hkeys, if_false, htrue, hfalse, decide_true, decide_false] at hdhcp
      cases hdhcp
  | text hkey =>
    simp only [List.map_cons, List.map_nil, List.mem_cons, List.not_mem_nil, or_false] at hkey
    rcases hkey with rfl | rfl | rfl | rfl
    · refine ⟨[], current, hempty, hmem, hcurrent, fun hsame => hmark ?_⟩
      have hgateway := congrArg Interface.gatewayV4 hsame
      unfold netplanLeaf at hgateway
      simpa [hvalue.nonempty, hmarkNe] using hgateway
    · refine ⟨[], current, hempty, hmem, hcurrent, fun hsame => hmark ?_⟩
      have hgateway := congrArg Interface.gatewayV6 hsame
      unfold netplanLeaf at hgateway
      simpa [hvalue.nonempty, hmarkNe] using hgateway
    · exact ⟨[']'], current, ⟨by decide, by decide⟩, hmem, hcurrent, addresses_differ hvalue path current⟩
    · refine ⟨[], current, hempty, hmem, hcurrent, fun hsame => hmark ?_⟩
      have hlink := congrArg (fun iface => iface.vlan.map (·.link)) hsame
      unfold netplanLeaf setVlanLink at hlink
      simpa [hvalue.nonempty, hmarkNe] using hlink
  | members hkey hhead =>
    subst hkey
    obtain ⟨comment, hline, hdiffer⟩ := members_differ hvalue hhead path current
    exact ⟨comment, current, hline, hmem, hcurrent, hdiffer⟩
  | number hkey id hnumber iface hiface hname hnew =>
    subst hkey
    refine ⟨[], iface, hempty, hiface, hname, fun hsame => hnew ?_⟩
    rw [leaf_id, leaf_id, hnumber, parseU16_hash (hash_mem hvalue [])] at hsame
    have hvlan := congrArg (fun iface => iface.vlan.map (·.id)) hsame
    exact hvlan.symm

/-- A key that is read shows some comment in the model. -/
theorem netplanKv_read (hreached : Reached builder) {indent : Nat} {key : Text}
    (h : KeyRead builder indent key (trim value)) (row : Nat) :
    ∃ comment, OneLine comment ∧ sorted (builder.netplanKv row indent key (trim value)) ≠
      sorted (builder.netplanKv row indent key (trim (mark value comment))) := by
  obtain ⟨hmodeled, hread⟩ := h
  have hlength : 3 ≤ (pathAt builder indent key).length := by
    refine modeled_length hmodeled (pathAt_getLast builder indent key) ?_
    rcases hread with ⟨rfl, -⟩ | ⟨-, hleaf⟩
    · decide
    · cases hleaf with
      | switch hkey => rcases hkey with rfl | rfl <;> decide
      | text hkey =>
        have hkeys : ∀ key ∈ ["gateway4", "gateway6", "addresses", "link"].map String.toList,
            key ∉ "network".toList :: "version".toList :: netplanCollections := by decide
        exact hkeys key hkey
      | members hkey | number hkey =>
        rw [hkey]
        decide
  obtain ⟨name, hname, hcurrent⟩ := @entered_current builder hreached row indent key hmodeled hlength
  obtain ⟨current, hmem, rfl⟩ := List.mem_map.mp hname
  -- Some comment shows in the effect of the key.
  have heffect : ∃ comment iface, OneLine comment ∧ iface ∈ (entered builder row indent key).ifaces ∧
      (entered builder row indent key).netplanIface = some iface.name ∧
      keyEffect (pathAt builder indent key) key (trim value) iface ≠
        keyEffect (pathAt builder indent key) key (trim (mark value comment)) iface := by
    rcases hread with ⟨rfl, hhead⟩ | ⟨hthree, hleaf⟩
    · refine ⟨[']'], current, ⟨by decide, by decide⟩, hmem, hcurrent, ?_⟩
      have hkey (value : Text) (hne : value ≠ []) :
          keyEffect (pathAt builder indent "nameservers".toList) "nameservers".toList value current =
            nameservers value current := by
        unfold keyEffect
        dsimp only
        rw [pathAt_getLast, if_pos ⟨rfl, hne⟩, leaf_nameservers, ite_self]
      rw [hkey _ hvalue.nonempty, hkey _ (trim_mark_ne hvalue.nonempty _)]
      exact nameservers_differ hvalue hhead current
    · obtain ⟨hifaces, hiface⟩ := @entered_leaf builder row indent key hthree
      rw [hifaces] at hmem ⊢
      rw [hiface] at hcurrent ⊢
      obtain ⟨comment, iface, hline, hin, hown, hdiffer⟩ :=
        leaf_read hvalue hleaf (pathAt builder indent key) hmem hcurrent
      refine ⟨comment, iface, hline, hin, hown, ?_⟩
      have hother : key ≠ "nameservers".toList := by
        rintro rfl
        exact hdiffer (by rw [leaf_nameservers, leaf_nameservers])
      have hkey (value : Text) : keyEffect (pathAt builder indent key) key value iface =
          netplanLeaf (pathAt builder indent key) key value iface := by
        unfold keyEffect
        dsimp only
        rw [pathAt_getLast, if_neg (fun h => hother (Option.some.inj h.1)), if_neg hthree]
      rwa [hkey, hkey]
  obtain ⟨comment, iface, hline, hin, hown, hdiffer⟩ := heffect
  refine ⟨comment, hline, ?_⟩
  rw [netplanKv_eq, netplanKv_eq, if_pos hmodeled, if_pos hmodeled, hown]
  exact update_ne (hreached.entered row indent key) (keyEffect_name _ _ _) hin hdiffer

/-- The comment shows in what follows a word at the start of the value. -/
theorem stripped_differ {pattern rest : Text} (hpattern : ∀ c ∈ pattern, isWhitespace c = false)
    (hrest : stripStart pattern (trim value) = some rest) :
    ∃ marked, stripStart pattern (trim (mark value [])) = some marked ∧ trim rest ≠ trim marked := by
  obtain ⟨tail, htail, -, hhash⟩ := (stripStart_mark hvalue hpattern []).1 rest hrest
  refine ⟨rest ++ tail, htail, fun hsame => ?_⟩
  have hcount := congrArg (List.count '#') hsame
  have hplain : rest.count '#' = 0 := by
    have hvalueCount := plain_count hvalue
    rw [stripStart_eq_some hrest, List.count_append] at hvalueCount
    omega
  have hpos := List.count_pos_iff.mpr hhash
  rw [count_trim, count_trim, List.count_append, hplain] at hcount
  omega

omit hvalue in
/-- Whichever route a next hop completes, it is the last one. -/
theorem completeRoute_via (dest via : Text) (iface : Interface) :
    (completeRoute dest via iface).routes.getLast?.map (·.via) = some via := by
  unfold completeRoute
  split
  · split_ifs <;> simp
  · simp

variable (hreached : Reached builder) {current : Interface} (hmem : current ∈ builder.ifaces)
  (hcurrent : builder.netplanIface = some current.name)

include hreached hmem hcurrent

/-- A destination shows the comment once its next hop follows. -/
theorem destination_read (h : "to:".toList <+: trim value) (indent : Nat) :
    sorted (builder.netplanRoute indent (trim value) (some (viaLine indent))) ≠
        sorted (builder.netplanRoute indent (trim (mark value [])) (some (viaLine indent))) ∧
      (builder.netplanRoute indent (trim value) (some (viaLine indent))).consumed = true ∧
      (builder.netplanRoute indent (trim (mark value [])) (some (viaLine indent))).consumed = true := by
  obtain ⟨rest, hrest⟩ := h
  have hstrip : stripStart "to:".toList (trim value) = some rest := by
    rw [← hrest, stripStart_append]
  obtain ⟨marked, hmarked, hdiffer⟩ := stripped_differ hvalue (by decide) hstrip
  unfold Builder.netplanRoute
  rw [hstrip, hmarked]
  dsimp only
  rw [viaAfter_viaLine, hcurrent]
  refine ⟨?_, rfl, rfl⟩
  refine @update_ne builder hreached (addRoute ⟨trim rest, "x".toList⟩) (addRoute ⟨trim marked, "x".toList⟩)
    (addRoute_name _) current hmem (fun hsame => hdiffer ?_)
  have hroutes := List.append_cancel_left (congrArg Interface.routes hsame)
  exact congrArg Route.dest (List.cons.inj hroutes).1

/-- A next hop that completes a route shows the comment. -/
theorem hop_read (hdest : ¬ "to:".toList <+: trim value) (h : "via:".toList <+: trim value)
    (hpending : builder.pendingRouteTo.isSome) (indent : Nat) :
    sorted (builder.netplanRoute indent (trim value) none) ≠
      sorted (builder.netplanRoute indent (trim (mark value [])) none) := by
  have hnone : stripStart "to:".toList (trim value) = none := by
    rw [stripStart, if_neg (by rwa [List.isPrefixOf_iff_prefix])]
  have hmarkNone := (stripStart_mark hvalue (by decide) []).2 hnone
  obtain ⟨rest, hrest⟩ := h
  have hstrip : stripStart "via:".toList (trim value) = some rest := by
    rw [← hrest, stripStart_append]
  obtain ⟨marked, hmarked, hdiffer⟩ := stripped_differ hvalue (by decide) hstrip
  obtain ⟨dest, hdestination⟩ := Option.isSome_iff_exists.mp hpending
  unfold Builder.netplanRoute
  rw [hnone, hmarkNone]
  dsimp only
  rw [hstrip, hmarked, hcurrent, hdestination]
  refine @update_ne builder hreached (completeRoute dest (trim rest)) (completeRoute dest (trim marked))
    (completeRoute_name _ _) current hmem (fun hsame => hdiffer ?_)
  have hvia := congrArg (fun iface => iface.routes.getLast?.map (·.via)) hsame
  simp only [completeRoute_via] at hvia
  exact Option.some.inj hvia

end Differences

/-- An item that is read shows a comment in the model, with a next hop below it where it is the
destination of a route. -/
theorem netplanItem_read {builder : Builder} {value : Text} (hvalue : PlainValue value)
    (hreached : Reached builder) (h : ItemRead builder (trim value)) (row indent : Nat) :
    ∃ next, sorted (builder.netplanItem row indent (trim value) next) ≠
        sorted (builder.netplanItem row indent (trim (mark value [])) next) ∧
      (next = none ∨ next = some (viaLine indent) ∧
        (builder.netplanItem row indent (trim value) next).consumed = true ∧
        (builder.netplanItem row indent (trim (mark value [])) next).consumed = true) := by
  obtain ⟨hmodeled, hread⟩ := h
  have hne := hvalue.nonempty
  have hmarkNe := trim_mark_ne hne []
  have hlength : 3 ≤ (pathOf builder).length := by
    rcases hread with hlast | hlast | ⟨hlast, -⟩ <;> exact modeled_length hmodeled hlast (by decide)
  obtain ⟨name, hname, hcurrent⟩ := hreached.current hlength (modeled_take hlength hmodeled)
  obtain ⟨current, hmem, rfl⟩ := List.mem_map.mp hname
  have hplain : hashes [trim value] = 0 := by simpa [hashes] using plain_count hvalue
  have hmarked : hashes [trim (mark value [])] = 1 := by simpa [hashes] using mark_count hvalue []
  rcases hread with hlast | hlast | ⟨hlast, hroute⟩
  · refine ⟨none, ?_, .inl rfl⟩
    rw [item_addresses hmodeled _ _ _ hlast hne, item_addresses hmodeled _ _ _ hlast hmarkNe, hcurrent]
    split_ifs
    · exact update_ne hreached (addDns_name _) hmem (addDns_differ hplain hmarked current)
    · exact update_ne hreached (addAddresses_name _) hmem (addAddresses_differ hplain hmarked current)
  · refine ⟨none, ?_, .inl rfl⟩
    rw [item_nameservers hmodeled _ _ _ hlast hne, item_nameservers hmodeled _ _ _ hlast hmarkNe, hcurrent]
    exact update_ne hreached (addDns_name _) hmem (addDns_differ hplain hmarked current)
  · by_cases hdest : "to:".toList <+: trim value
    · refine ⟨some (viaLine indent), ?_⟩
      rw [item_routes hmodeled _ _ _ hlast, item_routes hmodeled _ _ _ hlast]
      obtain ⟨hdiffer, hconsumed⟩ := destination_read hvalue hreached hmem hcurrent hdest indent
      exact ⟨hdiffer, .inr ⟨rfl, hconsumed⟩⟩
    · obtain ⟨hvia, hpending⟩ := hroute.resolve_left hdest
      refine ⟨none, ?_, .inl rfl⟩
      rw [item_routes hmodeled _ _ _ hlast, item_routes hmodeled _ _ _ hlast]
      exact hop_read hvalue hreached hmem hcurrent hdest hvia hpending indent

section Above

variable {line : Text} (hread : Reading line) (comment : Text)

include hread

/-- A line is the next hop of the item above it or not, whatever its comment. -/
theorem viaAfter_mark (indent : Nat) :
    (viaAfter indent (some line) = none ∧ viaAfter indent (some (mark line comment)) = none) ∨
      ∃ value, PlainValue value ∧ viaAfter indent (some line) = some (trim value) ∧
        viaAfter indent (some (mark line comment)) = some (trim (mark value comment)) := by
  have hnone (raw : Text) (h : parseNetplanKv raw = none) : viaAfter indent (some raw) = none := by
    rw [viaAfter, Option.bind_some, h]
  cases hread with
  | kv own key value hvalue hline hmark =>
    rw [viaAfter, viaAfter, Option.bind_some, Option.bind_some, hline, hmark comment]
    dsimp only
    by_cases hvia : key = "via".toList ∧ own > indent
    · rw [if_pos hvia, if_pos hvia]
      exact .inr ⟨value, hvalue, rfl, rfl⟩
    · rw [if_neg hvia, if_neg hvia]
      exact .inl ⟨rfl, rfl⟩
  | item own value hvalue hkv hmarkKv hline hmark | foreign hkv hitem hmarkKv hline hmark =>
    exact .inl ⟨hnone _ hkv, hnone _ (hmarkKv comment)⟩

/-- Two states that an item leaves: the same, or both past the next line and with other models. -/
def Apart (first second : Builder) : Prop :=
  (first = second ∧ first.consumed = false) ∨
    (first.consumed = true ∧ second.consumed = true ∧ sorted first ≠ sorted second)

theorem route_above {builder : Builder} (hreached : Reached builder) (hnot : builder.consumed = false)
    {current : Interface} (hmem : current ∈ builder.ifaces)
    (hcurrent : builder.netplanIface = some current.name) (indent : Nat) (value : Text) :
    Apart (builder.netplanRoute indent value (some line))
      (builder.netplanRoute indent value (some (mark line comment))) := by
  unfold Builder.netplanRoute
  cases hdest : stripStart "to:".toList value with
  | none =>
    dsimp only
    refine .inl ⟨rfl, ?_⟩
    split
    · rw [← hnot]
      exact update_consumed _ _ _
    · exact hnot
  | some dest =>
    dsimp only
    rcases viaAfter_mark hread comment indent with ⟨hline, hmark⟩ | ⟨via, hvia, hline, hmark⟩
    · rw [hline, hmark]
      exact .inl ⟨rfl, hnot⟩
    · rw [hline, hmark, hcurrent]
      refine .inr ⟨rfl, rfl, ?_⟩
      refine @update_ne builder hreached (addRoute ⟨trim dest, trim via⟩)
        (addRoute ⟨trim dest, trim (mark via comment)⟩) (addRoute_name _) current hmem
        (fun hsame => mark_ne hvia comment ?_)
      have hroutes := List.append_cancel_left (congrArg Interface.routes hsame)
      exact congrArg Route.via (List.cons.inj hroutes).1

theorem item_above {builder : Builder} (hreached : Reached builder) (hnot : builder.consumed = false)
    (row indent : Nat) (value : Text) :
    Apart (builder.netplanItem row indent value (some line))
      (builder.netplanItem row indent value (some (mark line comment))) := by
  rcases item_cases builder with hskip | ⟨hmodeled, parent, hparent, hlast⟩
  · rw [hskip, hskip]
    exact .inl ⟨rfl, hnot⟩
  · have hlength : 3 ≤ (pathOf builder).length := by
      refine modeled_length hmodeled hlast ?_
      have hkeys : ∀ key ∈ ["addresses", "routes", "nameservers"].map String.toList,
          key ∉ "network".toList :: "version".toList :: netplanCollections := by decide
      exact hkeys parent hparent
    obtain ⟨name, hname, hcurrent⟩ := hreached.current hlength (modeled_take hlength hmodeled)
    obtain ⟨current, hmem, rfl⟩ := List.mem_map.mp hname
    rw [item_below hmodeled _ _ _ hlast hparent, item_below hmodeled _ _ _ hlast hparent]
    split_ifs
    · exact .inl ⟨rfl, hnot⟩
    · exact .inl ⟨rfl, (update_consumed _ _ _).trans hnot⟩
    · exact .inl ⟨rfl, (update_consumed _ _ _).trans hnot⟩
    · exact route_above hread comment hreached hnot hmem hcurrent indent value
    · exact .inl ⟨rfl, hnot⟩
    · exact .inl ⟨rfl, (update_consumed _ _ _).trans hnot⟩

theorem step_above {builder : Builder} (hreached : Reached builder) (hnot : builder.consumed = false)
    (row : Nat) (raw : Text) :
    Apart (builder.step row raw (some line)) (builder.step row raw (some (mark line comment))) := by
  cases hitem : parseNetplanListItem raw with
  | none =>
    obtain ⟨hsame, hconsumed⟩ := step_ahead builder (fun _ => hitem) row (some line) (some (mark line comment))
    exact .inl ⟨hsame, hconsumed.trans hnot⟩
  | some parts =>
    cases hkv : parseNetplanKv raw with
    | some parts =>
      obtain ⟨hsame, hconsumed⟩ := step_ahead builder (fun hnone => by rw [hkv] at hnone; cases hnone) row
        (some line) (some (mark line comment))
      exact .inl ⟨hsame, hconsumed.trans hnot⟩
    | none =>
      unfold Builder.step
      rw [hkv, hitem]
      exact item_above hread comment hreached hnot row parts.1 parts.2

/-- A comment changes the state at its line only where the line above has read it. -/
theorem readTo_mark (front : List Text) (row : Nat) {builder : Builder} (hreached : Reached builder)
    (hnot : front = [] → builder.consumed = false) :
    Apart (readTo (some line) row front builder) (readTo (some (mark line comment)) row front builder) := by
  induction front generalizing row builder with
  | nil => exact .inl ⟨rfl, hnot rfl⟩
  | cons raw front ih =>
    rw [readTo, readTo]
    cases hconsumed : builder.consumed with
    | true =>
      simp only [if_true]
      exact ih _ (hreached.of_names rfl rfl rfl) (fun _ => rfl)
    | false =>
      simp only [Bool.false_eq_true, if_false]
      cases front with
      | nil => exact step_above hread comment hreached hconsumed row raw
      | cons next front =>
        exact ih _ (hreached.step _ _ _) (fun hnil => by cases hnil)

end Above

section Lines

variable {line : Text} (hline : Commentable line) (front : List Text)

theorem buildFrom_at (raw : Text) (rest : List Text) :
    buildFrom 0 (front ++ raw :: rest) {} =
      buildFrom (0 + front.length) (raw :: rest) (readTo (some raw) 0 front {}) :=
  buildFrom_append front (raw :: rest) 0 {}

include hline

theorem step_unread {builder : Builder} (h : Unread builder line) (comment : Text) (row : Nat)
    (next : Option Text) : builder.step row (mark line comment) next = builder.step row line next := by
  cases reading hline with
  | kv indent key value hvalue hkv hmark =>
    unfold Builder.step
    rw [hkv, hmark comment]
    exact (netplanKv_unread hvalue (h.key indent key _ hkv) row comment).symm
  | item indent value hvalue hkv hmarkKv hitem hmark =>
    unfold Builder.step
    rw [hkv, hmarkKv comment, hitem, hmark comment]
    exact (netplanItem_unread hvalue (h.item indent _ hkv hitem) row indent next comment).symm
  | foreign hkv hitem hmarkKv hsame hmark => rw [hsame, hmark]

/-- A line that is not read takes any comment, whatever follows. -/
theorem unread_lines (h : Unread (readTo (some line) 0 front {}) line) (comment : Text)
    (rest : List Text) :
    buildFrom 0 (front ++ mark line comment :: rest) {} = buildFrom 0 (front ++ line :: rest) {} := by
  rw [buildFrom_at, buildFrom_at]
  rcases readTo_mark (reading hline) comment front 0 reached_start (fun _ => rfl) with
    ⟨hsame, hnot⟩ | ⟨hconsumed, -⟩
  · rw [← hsame, buildFrom, buildFrom, hnot]
    simp only [Bool.false_eq_true, if_false]
    rw [step_unread hline h]
  · rw [h.above] at hconsumed
    cases hconsumed

/-- A line that is read shows some comment, at the end of the file or above a next hop. -/
theorem read_lines (h : ¬ Unread (readTo (some line) 0 front {}) line) :
    ∃ comment rest, OneLine comment ∧ (rest = [] ∨ ∃ indent, rest = [viaLine indent]) ∧
      sorted (buildFrom 0 (front ++ mark line comment :: rest) {}) ≠
        sorted (buildFrom 0 (front ++ line :: rest) {}) := by
  have hempty : OneLine [] := ⟨by decide, by decide⟩
  have hreached : Reached (readTo (some line) 0 front {}) := reached_readTo front 0 reached_start
  have habove := fun comment => readTo_mark (reading hline) comment front 0 reached_start (fun _ => rfl)
  cases hconsumed : (readTo (some line) 0 front {}).consumed with
  | true =>
    rcases habove [] with ⟨-, hnot⟩ | ⟨_, hmarkConsumed, hdiffer⟩
    · rw [hconsumed] at hnot
      cases hnot
    · refine ⟨[], [], hempty, .inl rfl, fun hsame => hdiffer ?_⟩
      simp only [buildFrom_at, buildFrom, hconsumed, hmarkConsumed, if_true] at hsame
      exact hsame.symm
  | false =>
    have hsame (comment : Text) :
        readTo (some (mark line comment)) 0 front {} = readTo (some line) 0 front {} := by
      rcases habove comment with ⟨hsame, -⟩ | ⟨htrue, -⟩
      · exact hsame.symm
      · rw [hconsumed] at htrue
        cases htrue
    -- Both runs take the line in the same state.
    have hrun (raw : Text) (rest : List Text)
        (hstate : readTo (some raw) 0 front {} = readTo (some line) 0 front {}) :
        buildFrom 0 (front ++ raw :: rest) {} = buildFrom (0 + front.length + 1) rest
          ((readTo (some line) 0 front {}).step (0 + front.length) raw rest.head?) := by
      rw [buildFrom_at, hstate, buildFrom, hconsumed]
      rfl
    cases reading hline with
    | kv indent key value hvalue hkv hmark =>
      have hkey : KeyRead (readTo (some line) 0 front {}) indent key (trim value) := by
        by_contra hkey
        refine h ⟨hconsumed, ?_, fun _ _ hnone => absurd (hkv.symm.trans hnone) (by simp)⟩
        intro indent' key' value' hsome
        rw [hkv] at hsome
        cases hsome
        exact hkey
      obtain ⟨comment, hone, hdiffer⟩ := netplanKv_read hvalue hreached hkey (0 + front.length)
      refine ⟨comment, [], hone, .inl rfl, fun hequal => hdiffer ?_⟩
      rw [hrun _ _ (hsame comment), hrun line [] rfl, buildFrom, buildFrom] at hequal
      unfold Builder.step at hequal
      rw [hkv, hmark comment] at hequal
      exact hequal.symm
    | item indent value hvalue hkv hmarkKv hitem hmark =>
      have hread : ItemRead (readTo (some line) 0 front {}) (trim value) := by
        by_contra hread
        refine h ⟨hconsumed, fun _ _ _ hsome => absurd (hkv.symm.trans hsome) (by simp), ?_⟩
        intro indent' value' _ hsome
        rw [hitem] at hsome
        cases hsome
        exact hread
      have hstep (next : Option Text) : (readTo (some line) 0 front {}).step (0 + front.length) line next =
          (readTo (some line) 0 front {}).netplanItem (0 + front.length) indent (trim value) next := by
        unfold Builder.step
        rw [hkv, hitem]
      have hmarkStep (next : Option Text) :
          (readTo (some line) 0 front {}).step (0 + front.length) (mark line []) next =
            (readTo (some line) 0 front {}).netplanItem (0 + front.length) indent (trim (mark value []))
              next := by
        unfold Builder.step
        rw [hmarkKv, hmark]
      obtain ⟨next, hdiffer, hnext⟩ := netplanItem_read hvalue hreached hread (0 + front.length) indent
      refine ⟨[], next.toList, hempty, ?_, fun hequal => hdiffer ?_⟩
      · rcases hnext with rfl | ⟨rfl, -⟩
        · exact .inl rfl
        · exact .inr ⟨indent, rfl⟩
      · rw [hrun _ _ (hsame []), hrun line _ rfl, hstep, hmarkStep] at hequal
        rcases hnext with rfl | ⟨rfl, hfirst, hsecond⟩
        · exact hequal.symm
        · simp only [Option.toList_some, List.head?_cons, buildFrom, hfirst, hsecond, if_true] at hequal
          exact hequal.symm
    | foreign hkv hitem hmarkKv hstay hmark =>
      exact absurd ⟨hconsumed, fun _ _ _ hsome => absurd (hkv.symm.trans hsome) (by simp),
        fun _ _ _ hsome => absurd (hitem.symm.trans hsome) (by simp)⟩ h

end Lines

section Texts

/-- The lines of a text, without their terminators. -/
def rawLines (src : Text) : List Text := (parse src).lines.map (·.raw)

theorem rawLines_eq (src : Text) :
    rawLines src = (linesInclusive src).map (fun segment => (splitEnding segment).1) := by
  have hfrom : ∀ (segments : List Text) (offset : Nat),
      (parseFrom classify offset segments).map (·.raw) =
        segments.map (fun segment => (splitEnding segment).1) := by
    intro segments
    induction segments with
    | nil => exact fun _ => rfl
    | cons segment segments ih =>
      intro offset
      rw [parseFrom, List.map_cons, List.map_cons, ih]
  exact hfrom _ 0

theorem rawLines_newline {body : Text} (h : '\n' ∉ body) (rest : Text) :
    rawLines (body ++ '\n' :: rest) = rawLines (body ++ ['\n']) ++ rawLines rest := by
  rw [rawLines_eq, rawLines_eq, rawLines_eq, linesInclusive_newline body rest h,
    linesInclusive_newline body [] h]
  rfl

/-- The text ends where a line ends. -/
def WholeLines (before : Text) : Prop := before = [] ∨ before.getLast? = some '\n'

/-- The text starts where a line ends. -/
def EndsLine (after : Text) : Prop :=
  after = [] ∨ (∃ rest, after = '\n' :: rest) ∨ ∃ rest, after = '\r' :: '\n' :: rest

theorem rawLines_append {before : Text} (h : WholeLines before) (rest : Text) :
    rawLines (before ++ rest) = rawLines before ++ rawLines rest := by
  induction hlength : before.length using Nat.strong_induction_on generalizing before with
  | h n ih =>
    rcases lines_cases before with hlast | ⟨body, more, hbody, rfl⟩
    · rcases h with rfl | h
      · rfl
      · exact absurd (List.mem_of_getLast? h) hlast
    · have hmore : WholeLines more := by
        rcases h with hnil | h
        · simp at hnil
        · cases more with
          | nil => exact .inl rfl
          | cons c more =>
            rw [List.getLast?_append_cons, List.getLast?_cons_cons] at h
            exact .inr h
      have hshort : more.length < n := by
        rw [← hlength, List.length_append, List.length_cons]
        omega
      rw [List.append_assoc, List.cons_append, rawLines_newline hbody, ih _ hshort hmore rfl,
        rawLines_newline hbody more, List.append_assoc]

/-- The lines below one that ends there. -/
def below : Text → List Text
  | '\n' :: rest => rawLines rest
  | '\r' :: '\n' :: rest => rawLines rest
  | _ => []

theorem rawLines_line {before line after : Text} (hbefore : WholeLines before) (hline : OneLine line)
    (hne : line ≠ []) (hafter : EndsLine after) :
    rawLines (before ++ line ++ after) = rawLines before ++ line :: below after := by
  have hlast : line.getLast? ≠ some '\r' := fun hlast => hline.2 (List.mem_of_getLast? hlast)
  rw [List.append_assoc, rawLines_append hbefore]
  rcases hafter with rfl | ⟨rest, rfl⟩ | ⟨rest, rfl⟩
  · rw [List.append_nil, rawLines_eq line, linesInclusive_last line hline.1 hne, List.map_singleton,
      splitEnding_none hline.1]
    rfl
  · rw [rawLines_newline hline.1, rawLines_eq (line ++ ['\n']), linesInclusive_newline line [] hline.1,
      List.map_cons, splitEnding_lf hlast]
    rfl
  · have hcr : '\n' ∉ line ++ ['\r'] := by simp [hline.1]
    have hsplit : line ++ '\r' :: '\n' :: rest = (line ++ ['\r']) ++ '\n' :: rest := by simp
    rw [hsplit, rawLines_newline hcr, rawLines_eq (line ++ ['\r'] ++ ['\n']),
      linesInclusive_newline _ [] hcr, List.map_cons, splitEnding_crLf]
    rfl

theorem commentable_oneLine {line : Text} (h : Commentable line) : OneLine line ∧ line ≠ [] := by
  have hpadLine : ∀ pad : Text, (∀ c ∈ pad, c = ' ') → OneLine pad := fun pad hpad =>
    ⟨fun hmem => absurd (hpad _ hmem) (by decide), fun hmem => absurd (hpad _ hmem) (by decide)⟩
  have hvalueLine : ∀ value, PlainValue value → OneLine value := fun value hvalue =>
    ⟨fun hmem => (hvalue.plain _ hmem).2.2.2.1 rfl, fun hmem => (hvalue.plain _ hmem).2.2.2.2 rfl⟩
  cases h with
  | @kv pad key value hpad hkey hvalue =>
    have hkeyLine : OneLine key :=
      ⟨fun hmem => absurd (hkey.plain _ hmem).1 (by decide), fun hmem => absurd (hkey.plain _ hmem).1 (by decide)⟩
    refine ⟨⟨?_, ?_⟩, by simp⟩
    · simp [(hpadLine pad hpad).1, hkeyLine.1, (hvalueLine value hvalue).1]
    · simp [(hpadLine pad hpad).2, hkeyLine.2, (hvalueLine value hvalue).2]
  | @item pad value hpad hvalue =>
    refine ⟨⟨?_, ?_⟩, by simp⟩
    · simp [(hpadLine pad hpad).1, (hvalueLine value hvalue).1]
    · simp [(hpadLine pad hpad).2, (hvalueLine value hvalue).2]

theorem oneLine_mark {line comment : Text} (hline : OneLine line) (hcomment : OneLine comment) :
    OneLine (mark line comment) := by
  constructor
  · simp [mark, hline.1, hcomment.1]
  · simp [mark, hline.2, hcomment.2]

theorem toModel_parse (src : Text) : toModel (parse src) = ⟨sorted (buildFrom 0 (rawLines src) {})⟩ := rfl

/-- The state in which a line is read below a text. -/
def stateAt (before line : Text) : Builder := readTo (some line) 0 (rawLines before) {}

/-- Exactly the lines whose value is not read can have any comment: whatever the comment says and
whatever stands below the line, the model is that of the text without it. -/
theorem comments_ignored_iff (before line : Text) (hbefore : WholeLines before)
    (hline : Commentable line) :
    (∀ comment after, OneLine comment → EndsLine after →
      toModel (parse (before ++ mark line comment ++ after)) = toModel (parse (before ++ line ++ after))) ↔
    Unread (stateAt before line) line := by
  obtain ⟨honeLine, hne⟩ := commentable_oneLine hline
  have hmarkNe (comment : Text) : mark line comment ≠ [] := by simp [mark]
  constructor
  · intro hall
    by_contra hread
    obtain ⟨comment, rest, hcomment, hrest, hdiffer⟩ := read_lines hline (rawLines before) hread
    obtain ⟨after, hafter, hbelow⟩ : ∃ after, EndsLine after ∧ below after = rest := by
      rcases hrest with rfl | ⟨indent, rfl⟩
      · exact ⟨[], .inl rfl, rfl⟩
      · refine ⟨'\n' :: viaLine indent, .inr (.inl ⟨_, rfl⟩), ?_⟩
        have hvia : OneLine (viaLine indent) := by
          constructor <;> simp [viaLine]
        have hlast := @rawLines_line [] (viaLine indent) [] (.inl rfl) hvia (by simp [viaLine]) (.inl rfl)
        rw [List.nil_append, List.append_nil] at hlast
        rw [below, hlast]
        rfl
    have hsame := hall comment after hcomment hafter
    rw [toModel_parse, toModel_parse, rawLines_line hbefore (oneLine_mark honeLine hcomment) (hmarkNe comment) hafter,
      rawLines_line hbefore honeLine hne hafter, hbelow] at hsame
    exact hdiffer (congrArg Model.interfaces hsame)
  · intro hunread comment after hcomment hafter
    rw [toModel_parse, toModel_parse, rawLines_line hbefore (oneLine_mark honeLine hcomment) (hmarkNe comment) hafter,
      rawLines_line hbefore honeLine hne hafter, unread_lines hline _ hunread]

/-- `optional` is no key of the model, so nothing after it shows. -/
theorem optional_ignored :
    (∀ comment after, OneLine comment → EndsLine after →
      toModel (parse ("network:\n  ethernets:\n    eth0:\n".toList ++
          mark "      optional: true".toList comment ++ after)) =
        toModel (parse ("network:\n  ethernets:\n    eth0:\n".toList ++
          "      optional: true".toList ++ after))) ∧
      Unread (stateAt "network:\n  ethernets:\n    eth0:\n".toList "      optional: true".toList)
        "      optional: true".toList := by
  have hvalue : PlainValue "true".toList := ⟨by decide, by decide⟩
  have hkey : PlainKey "optional".toList := ⟨by decide, by decide⟩
  have hline : Commentable "      optional: true".toList :=
    @Commentable.kv "      ".toList "optional".toList "true".toList (by decide) hkey hvalue
  have hread : parseNetplanKv "      optional: true".toList =
      some (6, "optional".toList, "true".toList) := by decide +kernel
  have hunread : Unread
      (stateAt "network:\n  ethernets:\n    eth0:\n".toList "      optional: true".toList)
      "      optional: true".toList := by
    refine ⟨by decide +kernel, ?_, fun _ _ hnone => absurd (hread.symm.trans hnone) (by simp)⟩
    rintro indent key value hsome ⟨hmodeled, -⟩
    obtain ⟨rfl, rfl, rfl⟩ : 6 = indent ∧ "optional".toList = key ∧ "true".toList = value := by
      simpa using hread.symm.trans hsome
    exact absurd hmodeled (by decide +kernel)
  exact ⟨(comments_ignored_iff _ _ (.inr (by decide)) hline).mpr hunread, hunread⟩

/-- An address keeps the comment on its line. -/
theorem commented_address_differs :
    Commentable "        - 192.0.2.10/24".toList ∧ OneLine "lan".toList ∧
      (toModel (parse ("network:\n  ethernets:\n    eth0:\n      addresses:\n".toList ++
        "        - 192.0.2.10/24".toList ++ "\n".toList))).interfaces.map (·.addresses) =
          [["192.0.2.10/24".toList]] ∧
      (toModel (parse ("network:\n  ethernets:\n    eth0:\n      addresses:\n".toList ++
        mark "        - 192.0.2.10/24".toList "lan".toList ++ "\n".toList))).interfaces.map (·.addresses) =
          [["192.0.2.10/24 # lan".toList]] := by
  refine ⟨?_, ⟨by decide, by decide⟩, by decide +kernel, by decide +kernel⟩
  exact @Commentable.item "        ".toList "192.0.2.10/24".toList (by decide) ⟨by decide, by decide⟩

end Texts

end Detent.Guarantees.NetplanComments
