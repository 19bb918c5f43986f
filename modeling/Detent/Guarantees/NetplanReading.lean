import Detent.Guarantees.NetworkLines

/-!
# The run of the netplan reader

`build_model_from_lines` is one pass over the lines that holds each interface once and, at
every netplan key, the path of keys above it. Both are invariants of the pass; with them, an
effect on the interface that is being read shows in the model.
-/
namespace Detent.Guarantees.NetplanReading
open Lib Lib.Text Source.Network
open Source.Doc hiding parse

/-! ## Names -/

/-- An effect that leaves the name as it is. -/
def KeepsName (f : Interface → Interface) : Prop := ∀ iface, (f iface).name = iface.name

def names (builder : Builder) : List Text := builder.ifaces.map (·.name)

variable {f : Interface → Interface}

theorem names_update (hf : KeepsName f) (builder : Builder) (name : Option Text) :
    names (builder.update name f) = names builder := by
  cases name with
  | none => rfl
  | some name =>
    simp only [names, Builder.update, List.map_map, List.map_inj_left, Function.comp_apply]
    intro iface _
    split_ifs
    · exact hf iface
    · rfl

theorem names_ensure (builder : Builder) (name : Text) :
    names (builder.ensure name) =
      if name ∈ names builder then names builder else names builder ++ [name] := by
  unfold Builder.ensure
  by_cases h : name ∈ names builder
  · have hany : builder.ifaces.any (fun iface => decide (iface.name = name)) = true := by
      simpa [names] using h
    rw [if_pos hany, if_pos h]
  · have hany : ¬ builder.ifaces.any (fun iface => decide (iface.name = name)) = true := by
      simpa [names] using h
    rw [if_neg hany, if_neg h]
    simp [names]

theorem netplanLeaf_name (path : List Text) (key value : Text) :
    KeepsName (netplanLeaf path key value) := by
  intro iface
  unfold netplanLeaf
  dsimp only
  split_ifs
  any_goals rfl
  all_goals split <;> rfl

def addAddresses (list : List Text) (iface : Interface) : Interface :=
  { iface with addresses := iface.addresses ++ list }

def addDns (list : List Text) (iface : Interface) : Interface := { iface with dns := iface.dns ++ list }

def addRoute (route : Route) (iface : Interface) : Interface :=
  { iface with routes := iface.routes ++ [route] }

theorem addAddresses_name (list : List Text) : KeepsName (addAddresses list) := fun _ => rfl

theorem addDns_name (list : List Text) : KeepsName (addDns list) := fun _ => rfl

theorem addRoute_name (route : Route) : KeepsName (addRoute route) := fun _ => rfl

theorem completeRoute_name (dest via : Text) : KeepsName (completeRoute dest via) := by
  intro iface
  unfold completeRoute
  split
  · split_ifs <;> rfl
  · rfl

theorem setGateway_name (gateway : Text) : KeepsName (setGateway gateway) := by
  intro iface
  unfold setGateway
  split_ifs <;> rfl

theorem nmAddress_name (iface : Interface) (part : Text) : (nmAddress iface part).name = iface.name := by
  unfold nmAddress
  split
  · rfl
  · dsimp only
    split
    · split_ifs <;> rfl
    · split_ifs
      any_goals rfl
      all_goals exact setGateway_name _ _

theorem nmAddresses_name (parts : List Text) (iface : Interface) :
    (parts.foldl nmAddress iface).name = iface.name := by
  induction parts generalizing iface with
  | nil => rfl
  | cons part parts ih =>
    rw [List.foldl_cons, ih, nmAddress_name]

theorem ite_name {c : Prop} [Decidable c] {yes no : Interface} {name : Text} (hyes : yes.name = name)
    (hno : no.name = name) : (if c then yes else no).name = name := by
  split_ifs
  · exact hyes
  · exact hno

theorem iniKey_name (section_ ifaceName key value : Text) (iface : Interface) :
    (iniKey section_ ifaceName key value iface).name = iface.name := by
  unfold iniKey
  dsimp only
  repeat' apply ite_name
  any_goals rfl
  any_goals exact nmAddresses_name _ _
  all_goals split
  any_goals rfl
  all_goals split <;> rfl

theorem routeGateway_name (value : Text) : KeepsName (routeGateway value) := by
  intro iface
  unfold routeGateway
  split
  · split_ifs <;> rfl
  · rfl

theorem ifupdownOption_name (key value : Text) : KeepsName (ifupdownOption key value) := by
  intro iface
  unfold ifupdownOption
  split_ifs
  any_goals rfl
  any_goals exact setGateway_name _ _
  all_goals split <;> rfl

theorem ifaceMethod_name (raw method : Text) : KeepsName (ifaceMethod raw method) := by
  intro iface
  unfold ifaceMethod
  split_ifs <;> rfl

/-! ## Paths -/

/-- The keys above the next line, from the top. -/
def pathOf (builder : Builder) : List Text := builder.netplanStack.map (·.2)

/-- The keys above a line at an indent. -/
def above (builder : Builder) (indent : Nat) : List (Nat × Text) :=
  builder.netplanStack.rdropWhile (fun (depth, _) => decide (depth ≥ indent))

theorem above_prefix (builder : Builder) (indent : Nat) :
    above builder indent <+: builder.netplanStack := List.rdropWhile_prefix _ _

/-- The stack that a key leaves, and so the path of the key. -/
def stackAt (builder : Builder) (indent : Nat) (key : Text) : List (Nat × Text) :=
  above builder indent ++ [(indent, key)]

def pathAt (builder : Builder) (indent : Nat) (key : Text) : List Text :=
  (stackAt builder indent key).map (·.2)

/-- The state in which the value of a key is read. -/
def entered (builder : Builder) (row indent : Nat) (key : Text) : Builder :=
  let below := { builder with netplanStack := stackAt builder indent key }
  if !isModeledNetplanPath (pathAt builder indent key) then
    { below with unmodeled := below.unmodeled ++ [row] }
  else if (pathAt builder indent key).length = 3 then { below.ensure key with netplanIface := some key }
  else below

/-- What the name servers in the value of a `nameservers:` key add. -/
def nameservers (value : Text) (iface : Interface) : Interface :=
  match parseInlineList value with
  | some list => addDns list iface
  | none => iface

/-- What the value of a modelled key does to the interface. -/
def keyEffect (path : List Text) (key value : Text) (iface : Interface) : Interface :=
  let iface := if path.length = 3 then iface else netplanLeaf path key value iface
  if path.getLast? = some "nameservers".toList ∧ value ≠ [] then nameservers value iface else iface

theorem keyEffect_name (path : List Text) (key value : Text) : KeepsName (keyEffect path key value) := by
  intro iface
  have hleaf := netplanLeaf_name path key value iface
  unfold keyEffect nameservers
  dsimp only
  split_ifs <;> first | rfl | exact hleaf | (split <;> first | rfl | exact hleaf)

theorem update_update (hf : KeepsName f) (g : Interface → Interface) (builder : Builder)
    (name : Option Text) :
    (builder.update name f).update name g = builder.update name (fun iface => g (f iface)) := by
  cases name with
  | none => rfl
  | some name =>
    simp only [Builder.update, List.map_map, Builder.mk.injEq, and_true, List.map_inj_left,
      Function.comp_apply]
    intro iface _
    by_cases h : iface.name = name
    · simp [h, hf iface]
    · simp [h]

theorem update_id (builder : Builder) (name : Option Text) :
    builder.update name (fun iface => iface) = builder := by
  cases name with
  | none => rfl
  | some name => simp [Builder.update]

@[simp] theorem update_netplanStack (builder : Builder) (name : Option Text) (f : Interface → Interface) :
    (builder.update name f).netplanStack = builder.netplanStack := by
  cases name <;> rfl

@[simp] theorem update_netplanIface (builder : Builder) (name : Option Text) (f : Interface → Interface) :
    (builder.update name f).netplanIface = builder.netplanIface := by
  cases name <;> rfl

@[simp] theorem update_consumed (builder : Builder) (name : Option Text) (f : Interface → Interface) :
    (builder.update name f).consumed = builder.consumed := by
  cases name <;> rfl

@[simp] theorem ensure_netplanStack (builder : Builder) (name : Text) :
    (builder.ensure name).netplanStack = builder.netplanStack := by
  unfold Builder.ensure
  split_ifs <;> rfl

@[simp] theorem ensure_netplanIface (builder : Builder) (name : Text) :
    (builder.ensure name).netplanIface = builder.netplanIface := by
  unfold Builder.ensure
  split_ifs <;> rfl

@[simp] theorem ensure_consumed (builder : Builder) (name : Text) :
    (builder.ensure name).consumed = builder.consumed := by
  unfold Builder.ensure
  split_ifs <;> rfl

theorem nameservers_update (below : Builder) (path : List Text) (value : Text) :
    (if path.getLast? == some "nameservers".toList && !value.isEmpty then
      match parseInlineList value with
      | some list => below.update below.netplanIface (fun iface => { iface with dns := iface.dns ++ list })
      | none => below
    else below) = below.update below.netplanIface (fun iface =>
      if path.getLast? = some "nameservers".toList ∧ value ≠ [] then nameservers value iface
      else iface) := by
  by_cases h : path.getLast? = some "nameservers".toList ∧ value ≠ []
  · rw [if_pos (by simpa using h)]
    simp only [if_pos h, nameservers]
    cases parseInlineList value with
    | none => exact (update_id below _).symm
    | some list => rfl
  · rw [if_neg (by simpa using h)]
    simp only [if_neg h]
    exact (update_id below _).symm

/-- A key first opens what its path names; a modelled one then acts on the interface. -/
theorem netplanKv_eq (builder : Builder) (row indent : Nat) (key value : Text) :
    builder.netplanKv row indent key value =
      if isModeledNetplanPath (pathAt builder indent key) then
        (entered builder row indent key).update (entered builder row indent key).netplanIface
          (keyEffect (pathAt builder indent key) key value)
      else entered builder row indent key := by
  unfold Builder.netplanKv entered
  rw [pathAt, stackAt, above]
  dsimp only
  cases hmodeled : isModeledNetplanPath ((builder.netplanStack.rdropWhile
      (fun x => decide (x.1 ≥ indent)) ++ [(indent, key)]).map (·.2)) with
  | false => simp
  | true =>
    simp only [Bool.not_true, Bool.false_eq_true, if_false, Bool.true_and, if_true]
    refine (nameservers_update _ _ _).trans ?_
    unfold keyEffect
    by_cases hlength : ((builder.netplanStack.rdropWhile (fun x => decide (x.1 ≥ indent)) ++
        [(indent, key)]).map (·.2)).length = 3
    · simp only [if_pos hlength]
    · simp only [if_neg hlength, update_netplanIface]
      rw [update_update (netplanLeaf_name _ _ _)]

theorem pathAt_getLast (builder : Builder) (indent : Nat) (key : Text) : (pathAt builder indent key).getLast? = some key := by
  simp [pathAt, stackAt]

/-- Above an interface, a key opens nothing of its own. -/
theorem entered_leaf {builder : Builder} {row indent : Nat} {key : Text} (h : (pathAt builder indent key).length ≠ 3) :
    (entered builder row indent key).ifaces = builder.ifaces ∧
      (entered builder row indent key).netplanIface = builder.netplanIface := by
  unfold entered
  dsimp only
  split_ifs
  all_goals exact ⟨rfl, rfl⟩

theorem update_congr {builder : Builder} {g : Interface → Interface} {name : Option Text}
    (h : ∀ iface ∈ builder.ifaces, name = some iface.name → f iface = g iface) :
    builder.update name f = builder.update name g := by
  cases name with
  | none => rfl
  | some name =>
    simp only [Builder.update, Builder.mk.injEq, and_true]
    rw [List.map_inj_left]
    intro iface hmem
    split_ifs with hname
    · exact h iface hmem (by rw [hname])
    · rfl

/-! ## What every state satisfies -/

/-- Each name is held once, and below an interface of a collection that interface is read. -/
structure Reached (builder : Builder) : Prop where
  distinct : (names builder).Nodup
  current : 3 ≤ (pathOf builder).length → isModeledNetplanPath ((pathOf builder).take 3) = true →
    ∃ name ∈ names builder, builder.netplanIface = some name

theorem reached_start : Reached {} := ⟨List.nodup_nil, fun h => absurd h (by decide)⟩

section Reached

variable {builder : Builder}

/-- A step that only acts on interfaces. -/
theorem Reached.of_names {next : Builder} (h : Reached builder) (hnames : names next = names builder)
    (hstack : next.netplanStack = builder.netplanStack)
    (hiface : next.netplanIface = builder.netplanIface) : Reached next := by
  constructor
  · rw [hnames]
    exact h.distinct
  · unfold pathOf
    rw [hnames, hstack, hiface]
    exact h.current

theorem Reached.update (h : Reached builder) (hf : KeepsName f) (name : Option Text) :
    Reached (builder.update name f) :=
  h.of_names (names_update hf _ _) (update_netplanStack _ _ _) (update_netplanIface _ _ _)

theorem names_ensure_nodup (h : (names builder).Nodup) (name : Text) :
    (names (builder.ensure name)).Nodup := by
  rw [names_ensure]
  split_ifs with hmem
  · exact h
  · exact List.nodup_append.mpr ⟨h, List.nodup_singleton name, by
      intro other hother other' hother' hsame
      rw [List.mem_singleton.mp hother'] at hsame
      exact hmem (hsame ▸ hother)⟩

theorem mem_names_ensure (name : Text) : name ∈ names (builder.ensure name) := by
  rw [names_ensure]
  split_ifs with hmem
  · exact hmem
  · exact List.mem_append_right _ (List.mem_singleton.mpr rfl)

theorem names_ensure_subset (name : Text) : names builder ⊆ names (builder.ensure name) := by
  rw [names_ensure]
  split_ifs
  · exact fun other hother => hother
  · exact List.subset_append_left _ _

variable (h : Reached builder)
include h

theorem Reached.ensure (name : Text) : Reached (builder.ensure name) := by
  constructor
  · exact names_ensure_nodup h.distinct name
  · intro hlength hmodeled
    have hpath : pathOf (builder.ensure name) = pathOf builder := by
      rw [pathOf, pathOf, ensure_netplanStack]
    rw [hpath] at hlength hmodeled
    obtain ⟨current, hmem, hcurrent⟩ := h.current hlength hmodeled
    exact ⟨current, names_ensure_subset name hmem, by rw [ensure_netplanIface, hcurrent]⟩

omit h in
/-- A modelled path starts with a modelled interface. -/
theorem modeled_take : ∀ {path : List Text}, 3 ≤ path.length → isModeledNetplanPath path = true →
    isModeledNetplanPath (path.take 3) = true
  | [_, _, _], _, h => h
  | [_, _, _, _], _, h => by
    simp only [isModeledNetplanPath, List.take, Bool.and_eq_true] at h ⊢
    exact h.1
  | [_, _, _, _, _], _, h => by
    simp only [isModeledNetplanPath, List.take, Bool.and_eq_true] at h ⊢
    exact ⟨h.1.1.1, h.2⟩
  | [], hlength, _ => absurd hlength (by decide)
  | [_], hlength, _ => absurd hlength (by simp)
  | [_, _], hlength, _ => absurd hlength (by simp)
  | _ :: _ :: _ :: _ :: _ :: _ :: _, _, h => absurd h (by simp [isModeledNetplanPath])

omit h in
theorem pathAt_take {indent : Nat} {key : Text} (h : 4 ≤ (pathAt builder indent key).length) :
    3 ≤ (pathOf builder).length ∧ (pathAt builder indent key).take 3 = (pathOf builder).take 3 := by
  unfold pathAt stackAt pathOf at *
  obtain ⟨dropped, hdropped⟩ := above_prefix builder indent
  simp only [List.length_map, List.length_append, List.length_singleton] at h
  constructor
  · rw [List.length_map, ← hdropped, List.length_append]
    omega
  · conv_rhs => rw [← hdropped]
    rw [List.map_append, List.map_append, List.take_append_of_le_length, List.take_append_of_le_length]
    all_goals
      rw [List.length_map]
      omega

/-- The state in which a value is read. -/
theorem Reached.entered (row indent : Nat) (key : Text) :
    Reached (entered builder row indent key) := by
  unfold NetplanReading.entered
  dsimp only
  cases hmodeled : isModeledNetplanPath (pathAt builder indent key) with
  | false =>
    refine ⟨h.distinct, fun hlength hthree => ?_⟩
    change 3 ≤ (pathAt builder indent key).length at hlength
    change isModeledNetplanPath ((pathAt builder indent key).take 3) = true at hthree
    by_cases hfour : 4 ≤ (pathAt builder indent key).length
    · obtain ⟨habove, htake⟩ := pathAt_take hfour
      rw [htake] at hthree
      exact h.current habove hthree
    · rw [List.take_of_length_le (by omega), hmodeled] at hthree
      cases hthree
  | true =>
    simp only [Bool.not_true, Bool.false_eq_true, if_false]
    split_ifs with hthree
    · exact ⟨@names_ensure_nodup { builder with netplanStack := stackAt builder indent key } h.distinct key,
        fun _ _ => ⟨key, @mem_names_ensure { builder with netplanStack := stackAt builder indent key } key,
          rfl⟩⟩
    · refine ⟨h.distinct, fun hlength htake => ?_⟩
      change 3 ≤ (pathAt builder indent key).length at hlength
      change isModeledNetplanPath ((pathAt builder indent key).take 3) = true at htake
      obtain ⟨habove, hsame⟩ := @pathAt_take builder indent key (by omega)
      rw [hsame] at htake
      exact h.current habove htake

omit h in
/-- A modelled value of an interface has an interface to act on. -/
theorem entered_current (h : Reached builder) {row indent : Nat} {key : Text}
    (hmodeled : isModeledNetplanPath (pathAt builder indent key) = true)
    (hlength : 3 ≤ (pathAt builder indent key).length) :
    ∃ name ∈ names (NetplanReading.entered builder row indent key),
      (NetplanReading.entered builder row indent key).netplanIface = some name := by
  have hpath : pathOf (NetplanReading.entered builder row indent key) = pathAt builder indent key := by
    unfold NetplanReading.entered pathOf
    dsimp only
    rw [hmodeled]
    simp only [Bool.not_true, Bool.false_eq_true, if_false]
    split_ifs
    · rw [ensure_netplanStack]
      rfl
    · rfl
  refine (h.entered row indent key).current ?_ ?_
  · rwa [hpath]
  · rw [hpath]
    exact modeled_take hlength hmodeled

theorem Reached.netplanKv (row indent : Nat) (key value : Text) :
    Reached (builder.netplanKv row indent key value) := by
  rw [netplanKv_eq]
  split_ifs
  · exact (h.entered row indent key).update (keyEffect_name _ _ _) _
  · exact h.entered row indent key

theorem Reached.netplanRoute (indent : Nat) (value : Text) (next : Option Text) :
    Reached (builder.netplanRoute indent value next) := by
  unfold Builder.netplanRoute
  split
  next dest _ =>
    have hpending : Reached { builder with pendingRouteTo := some (trim dest) } :=
      h.of_names rfl rfl rfl
    dsimp only
    split
    next via _ =>
      exact (hpending.update (addRoute_name ⟨trim dest, via⟩) _).of_names rfl rfl rfl
    next => exact hpending
  next =>
    split
    next via _ dest _ _ _ =>
      exact (h.update (completeRoute_name _ _) _).of_names rfl rfl rfl
    next => exact h

theorem Reached.netplanItem (row indent : Nat) (value : Text) (next : Option Text) :
    Reached (builder.netplanItem row indent value next) := by
  unfold Builder.netplanItem
  dsimp only
  split_ifs
  · exact h.of_names rfl rfl rfl
  · exact h
  · exact h.update (addDns_name [value]) _
  · exact h.update (addAddresses_name [value]) _
  · exact h.netplanRoute indent value next
  · exact h
  · exact h.update (addDns_name [value]) _

theorem Reached.ini (key value : Text) : Reached (builder.ini key value) := by
  unfold Builder.ini
  split_ifs
  · exact (h.ensure value).of_names rfl rfl rfl
  · refine h.update (fun iface => ?_) _
    dsimp only
    split_ifs
    · rw [routeGateway_name, iniKey_name]
    · rw [iniKey_name]

theorem Reached.step (row : Nat) (raw : Text) (next : Option Text) :
    Reached (builder.step row raw next) := by
  unfold Builder.step
  split
  · exact h.netplanKv _ _ _ _
  · split
    · exact h.netplanItem _ _ _ _
    · split
      · exact h.of_names rfl rfl rfl
      · split
        · exact h.ini _ _
        · split
          · exact (h.ensure _).of_names rfl rfl rfl
          · split
            next name method _ =>
              have hcurrent : Reached { builder.ensure name with currentIface := some name } :=
                (h.ensure name).of_names rfl rfl rfl
              exact hcurrent.update (ifaceMethod_name _ _) _
            next =>
              split
              · exact h.update (ifupdownOption_name _ _) _
              · exact h

omit h

end Reached

section Items

/-- An item is left out of the model, or stands below one of three keys. -/
theorem item_cases (builder : Builder) :
    (∀ row indent value next, builder.netplanItem row indent value next =
      { builder with unmodeled := builder.unmodeled ++ [row] }) ∨
    isModeledNetplanPath (pathOf builder) = true ∧
      ∃ parent ∈ ["addresses", "routes", "nameservers"].map String.toList,
        (pathOf builder).getLast? = some parent := by
  by_cases h : isModeledNetplanPath (pathOf builder) = true ∧
      ∃ parent ∈ ["addresses", "routes", "nameservers"].map String.toList,
        (pathOf builder).getLast? = some parent
  · exact .inr h
  · refine .inl (fun row indent value next => ?_)
    unfold Builder.netplanItem
    dsimp only
    rw [← pathOf, if_pos]
    rw [Bool.or_eq_true, Bool.not_eq_true', Bool.not_eq_true', ← Bool.not_eq_true]
    by_cases hmodeled : isModeledNetplanPath (pathOf builder) = true
    · right
      cases hlast : (pathOf builder).getLast? with
      | none => decide
      | some parent =>
        have hparent : parent ∉ ["addresses", "routes", "nameservers"].map String.toList :=
          fun hmem => h ⟨hmodeled, parent, hmem, hlast⟩
        simp only [List.map_cons, List.map_nil, List.mem_cons, List.not_mem_nil, or_false, not_or] at hparent
        simp only [Option.getD_some, hparent, decide_false, Bool.or_false]
    · exact .inl hmodeled

variable {builder : Builder} (hmodeled : isModeledNetplanPath (pathOf builder) = true) {value : Text}
  (row indent : Nat) (next : Option Text)

include hmodeled

theorem item_below {parent : Text} (hlast : (pathOf builder).getLast? = some parent)
    (hparent : parent ∈ ["addresses", "routes", "nameservers"].map String.toList) :
    builder.netplanItem row indent value next =
      if parent = "addresses".toList then
        if value.isEmpty then builder
        else if (pathOf builder).reverse[1]? = some "nameservers".toList then
          builder.update builder.netplanIface (addDns [value])
        else builder.update builder.netplanIface (addAddresses [value])
      else if parent = "routes".toList then builder.netplanRoute indent value next
      else if value.isEmpty then builder
      else builder.update builder.netplanIface (addDns [value]) := by
  unfold Builder.netplanItem
  dsimp only
  rw [← pathOf, hmodeled, hlast, Option.getD_some, if_neg]
  · rfl
  · simp only [List.map_cons, List.map_nil, List.mem_cons, List.not_mem_nil, or_false] at hparent
    rcases hparent with rfl | rfl | rfl <;> decide

theorem item_addresses (hlast : (pathOf builder).getLast? = some "addresses".toList) (hne : value ≠ []) :
    builder.netplanItem row indent value next = builder.update builder.netplanIface
      (if (pathOf builder).reverse[1]? = some "nameservers".toList then addDns [value]
        else addAddresses [value]) := by
  rw [item_below hmodeled row indent next hlast (by decide), if_pos rfl,
    if_neg (by simpa using hne)]
  split_ifs
  · rfl
  · rfl

theorem item_nameservers (hlast : (pathOf builder).getLast? = some "nameservers".toList)
    (hne : value ≠ []) :
    builder.netplanItem row indent value next =
      builder.update builder.netplanIface (addDns [value]) := by
  rw [item_below hmodeled row indent next hlast (by decide), if_neg (by decide), if_neg (by decide),
    if_neg (by simpa using hne)]

theorem item_routes (hlast : (pathOf builder).getLast? = some "routes".toList) :
    builder.netplanItem row indent value next = builder.netplanRoute indent value next := by
  rw [item_below hmodeled row indent next hlast (by decide), if_neg (by decide), if_pos rfl]

end Items

section Consumed

variable (builder : Builder)

theorem entered_consumed (row indent : Nat) (key : Text) :
    (entered builder row indent key).consumed = builder.consumed := by
  unfold entered
  dsimp only
  split_ifs
  · rfl
  · exact ensure_consumed _ _
  · rfl

theorem netplanKv_consumed (row indent : Nat) (key value : Text) :
    (builder.netplanKv row indent key value).consumed = builder.consumed := by
  rw [netplanKv_eq]
  split_ifs
  · rw [update_consumed, entered_consumed]
  · exact entered_consumed _ _ _ _

theorem ini_consumed (key value : Text) : (builder.ini key value).consumed = builder.consumed := by
  unfold Builder.ini
  split_ifs
  · exact ensure_consumed _ _
  · exact update_consumed _ _ _

theorem step_ahead {raw : Text} (h : parseNetplanKv raw = none → parseNetplanListItem raw = none)
    (row : Nat) (next next' : Option Text) :
    builder.step row raw next = builder.step row raw next' ∧
      (builder.step row raw next).consumed = builder.consumed := by
  unfold Builder.step
  cases hkv : parseNetplanKv raw with
  | some parts => exact ⟨rfl, netplanKv_consumed _ _ _ _ _⟩
  | none =>
    rw [h hkv]
    refine ⟨rfl, ?_⟩
    dsimp only
    split
    · rfl
    · split
      · exact ini_consumed _ _ _
      · split
        · exact ensure_consumed _ _
        · split
          · exact (update_consumed _ _ _).trans (ensure_consumed _ _)
          · split
            · exact update_consumed _ _ _
            · rfl

end Consumed

/-! ## A run up to a line -/

/-- The state before a line: `next` is that line, on which the last one before it may look ahead. -/
def readTo (next : Option Text) : Nat → List Text → Builder → Builder
  | _, [], builder => builder
  | row, raw :: rest, builder =>
    if builder.consumed then readTo next (row + 1) rest { builder with consumed := false }
    else readTo next (row + 1) rest (builder.step row raw (rest.head?.or next))

theorem buildFrom_append (front rest : List Text) (row : Nat) (builder : Builder) :
    buildFrom row (front ++ rest) builder =
      buildFrom (row + front.length) rest (readTo rest.head? row front builder) := by
  induction front generalizing row builder with
  | nil => rfl
  | cons raw front ih =>
    have hrow : row + (raw :: front).length = row + 1 + front.length := by
      rw [List.length_cons]
      omega
    rw [List.cons_append, buildFrom, readTo, hrow, List.head?_append]
    split_ifs
    all_goals exact ih _ _

theorem reached_readTo {next : Option Text} (front : List Text) (row : Nat) {builder : Builder}
    (h : Reached builder) : Reached (readTo next row front builder) := by
  induction front generalizing row builder with
  | nil => exact h
  | cons raw front ih =>
    rw [readTo]
    split_ifs
    · exact ih _ (h.of_names rfl rfl rfl)
    · exact ih _ (h.step _ _ _)

/-! ## What shows in the model -/

/-- The interfaces of the model, as `buildModelFromLines` sorts them. -/
def sorted (builder : Builder) : List Interface := builder.ifaces.insertionSort byName

/-- A key that names neither the top nor a collection stands below an interface. -/
theorem modeled_length {path : List Text} {key : Text} (h : isModeledNetplanPath path = true)
    (hlast : path.getLast? = some key)
    (hkey : key ∉ "network".toList :: "version".toList :: netplanCollections) : 3 ≤ path.length := by
  match path, h, hlast with
  | [], _, hlast => cases hlast
  | [top], h, hlast =>
    obtain rfl := Option.some.inj hlast
    have htop : top = "network".toList := by simpa [isModeledNetplanPath] using h
    exact absurd (by simp [htop]) hkey
  | [top, below], h, hlast =>
    obtain rfl : below = key := Option.some.inj hlast
    simp only [isModeledNetplanPath, Bool.and_eq_true, Bool.or_eq_true, decide_eq_true_eq,
      List.contains_iff_mem] at h
    rcases h.2 with hversion | hcollection
    · exact absurd (by simp [hversion]) hkey
    · exact absurd (by simp [hcollection]) hkey
  | _ :: _ :: _ :: rest, _, _ =>
    simp only [List.length_cons]
    omega

/-- Two effects that differ on the current interface differ in the model. -/
theorem update_ne {builder : Builder} (h : Reached builder) {f g : Interface → Interface}
    (hf : KeepsName f) {iface : Interface} (hmem : iface ∈ builder.ifaces)
    (hne : f iface ≠ g iface) :
    sorted (builder.update (some iface.name) f) ≠ sorted (builder.update (some iface.name) g) := by
  intro hsame
  have hperm : (builder.update (some iface.name) f).ifaces.Perm
      (builder.update (some iface.name) g).ifaces := by
    have hsorted := List.perm_insertionSort byName (builder.update (some iface.name) g).ifaces
    rw [← sorted, ← hsame] at hsorted
    exact (List.perm_insertionSort byName _).symm.trans hsorted
  have hin : f iface ∈ (builder.update (some iface.name) f).ifaces := by
    simp only [Builder.update, List.mem_map]
    exact ⟨iface, hmem, if_pos rfl⟩
  have hout := hperm.mem_iff.mp hin
  simp only [Builder.update, List.mem_map] at hout
  obtain ⟨other, hother, heq⟩ := hout
  split_ifs at heq with hname
  · have hiface : other = iface := List.inj_on_of_nodup_map h.distinct hother hmem hname
    rw [hiface] at heq
    exact hne heq.symm
  · rw [heq] at hname
    exact hname (hf iface)

end Detent.Guarantees.NetplanReading
