import Detent.Source.Network

/-!
# What the lines of each backend are read as

Every line that a renderer writes has the shape of its own backend: the values that
it carries were checked first, so none of them can bring the sign that another
format is recognised by.
-/
namespace Detent.Guarantees.NetworkLines
open Lib Lib.Text Source.Network
open Source.Doc hiding parse

section Trailing

variable (raw : Text) {c : Char} (hc : isWhitespace c = true)

include hc

theorem parseSection_trailing : parseSection (raw ++ [c]) = parseSection raw := by
  rw [parseSection, trim_append_whitespace raw hc, parseSection]

theorem parseKvEquals_trailing : parseKvEquals (raw ++ [c]) = parseKvEquals raw := by
  rw [parseKvEquals, trim_append_whitespace raw hc, parseKvEquals]

theorem parseIfupdownAuto_trailing : parseIfupdownAuto (raw ++ [c]) = parseIfupdownAuto raw := by
  rw [parseIfupdownAuto, trim_append_whitespace raw hc, parseIfupdownAuto]

theorem parseIfupdownIface_trailing : parseIfupdownIface (raw ++ [c]) = parseIfupdownIface raw := by
  rw [parseIfupdownIface, trim_append_whitespace raw hc, parseIfupdownIface]

theorem parseIfupdownOption_trailing :
    parseIfupdownOption (raw ++ [c]) = parseIfupdownOption raw := by
  cases raw with
  | nil =>
    have htrim : trim [c] = [] := trim_append_whitespace [] hc
    simp [parseIfupdownOption, htrim, startsWithSpace]
  | cons d raw =>
    have hspace : startsWithSpace (d :: raw ++ [c]) = startsWithSpace (d :: raw) := rfl
    rw [parseIfupdownOption, trim_append_whitespace (d :: raw) hc, hspace, parseIfupdownOption]

omit hc in
theorem indentOf_trailing (h : trim raw ≠ []) : indentOf (raw ++ [c]) = indentOf raw := by
  have hstop : raw.takeWhile (fun c => c == ' ' || c == '\t') ≠ raw := by
    intro hall
    apply h
    rw [List.takeWhile_eq_self_iff] at hall
    have hspace : ∀ d ∈ raw, isWhitespace d = true := by
      intro d hmem
      have hd := hall d hmem
      simp only [Bool.or_eq_true, beq_iff_eq] at hd
      rcases hd with rfl | rfl <;> decide
    simp [trim, trimStart, trimEnd, List.dropWhile_eq_nil_iff.mpr hspace]
  have htake : (raw ++ [c]).takeWhile (fun c => c == ' ' || c == '\t') =
      raw.takeWhile (fun c => c == ' ' || c == '\t') := by
    rw [List.takeWhile_append]
    split
    next hlen => exact absurd ((List.takeWhile_prefix _).eq_of_length hlen) hstop
    next => rfl
  rw [indentOf, htake, indentOf]

theorem parseNetplanKv_trailing : parseNetplanKv (raw ++ [c]) = parseNetplanKv raw := by
  by_cases htrim : trim raw = []
  · simp [parseNetplanKv, trim_append_whitespace raw hc, htrim]
  · rw [parseNetplanKv, trim_append_whitespace raw hc, indentOf_trailing raw htrim, parseNetplanKv]

theorem parseNetplanListItem_trailing :
    parseNetplanListItem (raw ++ [c]) = parseNetplanListItem raw := by
  by_cases htrim : trim raw = []
  · have hnone : parseNetplanListItem raw = none := by
      simp [parseNetplanListItem, htrim, startsWith]
    have hnone' : parseNetplanListItem (raw ++ [c]) = none := by
      simp [parseNetplanListItem, trim_append_whitespace raw hc, htrim, startsWith]
    rw [hnone, hnone']
  · rw [parseNetplanListItem, trim_append_whitespace raw hc, indentOf_trailing raw htrim,
      parseNetplanListItem]

/-- Trailing white space does not change the shape of a line. -/
theorem shapeOf_trailing : shapeOf (raw ++ [c]) = shapeOf raw := by
  rw [shapeOf, parseSection_trailing raw hc, parseKvEquals_trailing raw hc,
    parseIfupdownAuto_trailing raw hc, parseIfupdownIface_trailing raw hc,
    parseIfupdownOption_trailing raw hc, parseNetplanKv_trailing raw hc,
    parseNetplanListItem_trailing raw hc, shapeOf]

end Trailing

section Values

/-- A value that is one word and holds no equals sign. -/
def Plain (value : Text) : Prop := ∀ c ∈ value, isWhitespace c = false ∧ c ≠ '='

theorem Plain.append {a b : Text} (ha : Plain a) (hb : Plain b) : Plain (a ++ b) :=
  fun c hmem => (List.mem_append.mp hmem).elim (ha c) (hb c)

theorem Plain.cons {c : Char} {t : Text} (hc : isWhitespace c = false ∧ c ≠ '=') (ht : Plain t) :
    Plain (c :: t) := by
  intro d hmem
  rcases List.mem_cons.mp hmem with rfl | hmem
  · exact hc
  · exact ht d hmem

/-- No character below the letters and digits of a value is white space. -/
theorem plain_char {c : Char} (hlow : 33 ≤ c.toNat) (hhigh : c.toNat ≤ 126) (hne : c ≠ '=') :
    isWhitespace c = false ∧ c ≠ '=' := by
  refine ⟨?_, hne⟩
  unfold isWhitespace
  simp only [Bool.or_eq_false_iff, Bool.and_eq_false_iff, decide_eq_false_iff_not, beq_eq_false_iff_ne]
  omega

theorem toNat_le {a b : Char} (h : decide (a ≤ b) = true) : a.toNat ≤ b.toNat :=
  of_decide_eq_true h

theorem digit_plain {c : Char} (h : isAsciiDigit c = true) : isWhitespace c = false ∧ c ≠ '=' := by
  simp only [isAsciiDigit, Bool.and_eq_true] at h
  have hlow := toNat_le h.1
  have hhigh := toNat_le h.2
  rw [show '0'.toNat = 48 from rfl] at hlow
  rw [show '9'.toNat = 57 from rfl] at hhigh
  refine plain_char (by omega) (by omega) ?_
  rintro rfl
  exact absurd hhigh (by decide)

theorem alphanumeric_plain {c : Char} (h : isAsciiAlphanumeric c = true) :
    isWhitespace c = false ∧ c ≠ '=' := by
  simp only [isAsciiAlphanumeric, Bool.or_eq_true, Bool.and_eq_true] at h
  rcases h with (h | h) | h
  · have hlow := toNat_le h.1
    have hhigh := toNat_le h.2
    rw [show 'a'.toNat = 97 from rfl] at hlow
    rw [show 'z'.toNat = 122 from rfl] at hhigh
    refine plain_char (by omega) (by omega) ?_
    rintro rfl
    exact absurd hlow (by decide)
  · have hlow := toNat_le h.1
    have hhigh := toNat_le h.2
    rw [show 'A'.toNat = 65 from rfl] at hlow
    rw [show 'Z'.toNat = 90 from rfl] at hhigh
    refine plain_char (by omega) (by omega) ?_
    rintro rfl
    exact absurd hlow (by decide)
  · exact digit_plain h

theorem ifname_plain {name : Text} (h : isValidIfname name = true) : Plain name ∧ name ≠ [] := by
  simp only [isValidIfname, Bool.and_eq_true, Bool.not_eq_true', List.isEmpty_eq_false_iff,
    List.all_eq_true, Bool.or_eq_true, beq_iff_eq] at h
  refine ⟨?_, h.1⟩
  intro c hmem
  rcases h.2 c hmem with ((hc | rfl) | rfl) | rfl
  · exact alphanumeric_plain hc
  all_goals decide

theorem ipChar_plain {c : Char} (h : IpAddr.isIpChar c = true) :
    isWhitespace c = false ∧ c ≠ '=' := by
  simp only [IpAddr.isIpChar, Bool.or_eq_true, beq_iff_eq] at h
  rcases h with (h | rfl) | rfl
  · apply alphanumeric_plain
    unfold IpAddr.toDigit at h
    unfold isAsciiAlphanumeric isAsciiDigit
    simp only at h
    split_ifs at h with hnum hlow hup
    · simp only [hnum, Bool.or_true]
    · simp only [hlow, Bool.true_or]
    · simp only [hup, Bool.or_true, Bool.true_or]
    · cases h
  · decide
  · decide

theorem ip_plain {t : Text} (h : isValidIp t = true) : Plain t :=
  fun c hmem => ipChar_plain (IpAddr.parse_chars h c hmem)

theorem splitOnceP_eq_some {p : Char → Bool} {t key value : Text}
    (h : splitOnceP p t = some (key, value)) : ∃ c, p c = true ∧ t = key ++ c :: value := by
  unfold splitOnceP at h
  cases hdrop : t.dropWhile (fun c => !p c) with
  | nil => simp [hdrop] at h
  | cons c rest =>
    simp only [hdrop, Option.some.injEq, Prod.mk.injEq] at h
    have hc := List.head_dropWhile_not (fun c => !p c) (l := t) (by simp [hdrop])
    refine ⟨c, by simpa [hdrop] using hc, ?_⟩
    rw [← h.1, ← h.2, ← hdrop]
    exact (List.takeWhile_append_dropWhile).symm

theorem cidr_plain {t : Text} (h : isValidCidr t = true) : Plain t ∧ t ≠ [] := by
  unfold isValidCidr at h
  cases hsplit : splitOnceP (· == '/') t with
  | none => simp [hsplit] at h
  | some pair =>
    obtain ⟨ip, bits⟩ := pair
    obtain ⟨c, hc, rfl⟩ := splitOnceP_eq_some hsplit
    obtain rfl : c = '/' := by simpa using hc
    simp only [hsplit] at h
    by_cases hdigits : (ip.isEmpty || !bits.all isAsciiDigit) = true
    · simp [hdigits] at h
    by_cases hip : (!isValidIp ip) = true
    · simp [hdigits, hip] at h
    simp only [Bool.or_eq_true, Bool.not_eq_true', not_or, Bool.not_eq_false] at hdigits hip
    have hbits : Plain bits := fun d hmem => digit_plain (List.all_eq_true.mp hdigits.2 d hmem)
    exact ⟨(ip_plain hip).append (Plain.cons (by decide) hbits), by simp⟩

theorem u16_plain (n : Fin 65536) : Plain (u16 n) := by
  intro c hmem
  have hdigit := Nat.isDigit_of_mem_toDigits (by decide) (by decide) hmem
  apply digit_plain
  simpa [Char.isDigit, isAsciiDigit, Char.le_def] using hdigit

/-- The values of an interface that passed its check. -/
structure Checked (iface : Interface) : Prop where
  name : isValidIfname iface.name = true
  link : ∀ vlan ∈ iface.vlan, isValidIfname vlan.link = true
  members : ∀ bridge ∈ iface.bridge, ∀ name ∈ bridge.members, isValidIfname name = true
  addresses : ∀ address ∈ iface.addresses, isValidCidr address = true
  gatewayV4 : ∀ gateway ∈ iface.gatewayV4, (IpAddr.parseV4 gateway).isSome
  gatewayV6 : ∀ gateway ∈ iface.gatewayV6, (IpAddr.parseV6 gateway).isSome
  dns : ∀ server ∈ iface.dns, isValidIp server = true

theorem checked_of_ok {iface : Interface} {u : Unit} (h : checkInterface iface = .ok u) :
    Checked iface := by
  unfold checkInterface at h
  cases hbad : badValue iface with
  | some value => simp [hbad] at h
  | none =>
    simp only [badValue, Option.or_eq_none_iff, List.find?_eq_none, Option.filter_eq_none_iff,
      Bool.not_eq_true', Bool.not_eq_false, Option.isNone_iff_eq_none] at hbad
    obtain ⟨hnames, haddresses, hv4, hv6, hdns⟩ := hbad
    refine ⟨hnames _ (by simp), ?_, ?_, haddresses, ?_, ?_, hdns⟩
    · intro vlan hmem
      refine hnames _ (List.mem_cons_of_mem _ (List.mem_append_left _ ?_))
      exact List.mem_map_of_mem (Option.mem_toList.mpr hmem)
    · intro bridge hmem name hname
      refine hnames _ (List.mem_cons_of_mem _ (List.mem_append_right _ ?_))
      exact List.mem_flatMap.mpr ⟨bridge, Option.mem_toList.mpr hmem, hname⟩
    · intro gateway hmem
      exact Option.isSome_iff_ne_none.mpr (hv4 gateway hmem)
    · intro gateway hmem
      exact Option.isSome_iff_ne_none.mpr (hv6 gateway hmem)

theorem route_plain {route : Route} {required : Bool} {u : Unit}
    (h : checkRoute route required = .ok u) : Plain route.dest ∧ Plain route.via := by
  unfold checkRoute at h
  split_ifs at h with hok
  simp only [Bool.and_eq_true, Bool.or_eq_true, decide_eq_true_eq, List.isEmpty_iff] at hok
  constructor
  · rcases hok.1 with (hdest | hdest) | hdest
    · rw [hdest]
      have hall : ∀ c ∈ "default".toList, isWhitespace c = false ∧ c ≠ '=' := by decide
      exact hall
    · exact (cidr_plain hdest).1
    · exact ip_plain hdest
  · rcases hok.2 with hvia | hvia
    · exact ip_plain hvia
    · rw [hvia.2]
      simp [Plain]

end Values

section Ini

theorem trimStart_of_head {t : Text} {c : Char} (h : t.head? = some c)
    (hc : isWhitespace c = false) : trimStart t = t := by
  obtain ⟨rest, rfl⟩ := List.head?_eq_some_iff.mp h
  exact trimStart_cons rest hc

theorem kv_line {pre : Text} (h : pre ∈ (networkdKeys ++ nmKeys).map (· ++ ['='])) (value : Text) :
    parseSection (pre ++ value) = none ∧
      ∃ key read, pre = key ++ ['='] ∧ parseKvEquals (pre ++ value) = some (key, read) := by
  obtain ⟨key, hkey, rfl⟩ := List.mem_map.mp h
  have hkeys : ∀ key ∈ networkdKeys ++ nmKeys, (∀ d ∈ key, isWhitespace d = false ∧ (d == '=') = false) ∧
      key.head?.any (fun c => c != '[' && c != '#' && c != ';') = true := by decide
  obtain ⟨hchars, hhead⟩ := hkeys key hkey
  cases hfirst : key.head? with
  | none => simp [hfirst] at hhead
  | some c =>
    obtain ⟨tail, rfl⟩ := List.head?_eq_some_iff.mp hfirst
    simp only [List.head?_cons, Option.any_some, Bool.and_eq_true, bne_iff_ne] at hhead
    have hspace : ∀ d ∈ c :: tail ++ ['='], isWhitespace d = false := by
      intro d hmem
      rcases List.mem_append.mp hmem with hmem | hmem
      · exact (hchars d hmem).1
      · rw [List.mem_singleton.mp hmem]
        decide
    have htrim : trim (c :: tail ++ ['='] ++ value) = c :: (tail ++ '=' :: trimEnd value) := by
      rw [trim_word value (by simp) hspace]
      simp
    constructor
    · rw [parseSection, htrim]
      split
      next rest heq => exact absurd (List.cons.inj heq).1 hhead.1.1
      next => rfl
    · refine ⟨c :: tail, trim (trimEnd value), rfl, ?_⟩
      have hcomment : isCommentStart (c :: (tail ++ '=' :: trimEnd value)) = false := by
        rw [isCommentStart, trimStart_cons _ (hspace c (by simp))]
        simp [hhead.1.2, hhead.2]
      have hsplit : splitOnceP (· == '=') (c :: tail ++ '=' :: trimEnd value) =
          some (c :: tail, trimEnd value) :=
        splitOnceP_append _ (fun d hmem => (hchars d hmem).2) (by decide)
      rw [List.cons_append] at hsplit
      have hkeyTrim : trim (c :: tail) = c :: tail :=
        trim_eq_self_of_all (fun d hmem => (hchars d hmem).1)
      have hany : (c :: tail).any isWhitespace = false := by
        rw [List.any_eq_false]
        intro d hmem
        simp [(hchars d hmem).1]
      rw [parseKvEquals, htrim]
      simp [hcomment, hsplit, hkeyTrim, hany, hhead.1.1]

theorem shape_networkdKey {pre : Text} (h : pre ∈ networkdKeys.map (· ++ ['='])) (value : Text) :
    shapeOf (pre ++ value) = some .networkd := by
  have hmem : pre ∈ (networkdKeys ++ nmKeys).map (· ++ ['=']) := by
    rw [List.map_append]
    exact List.mem_append_left _ h
  obtain ⟨hsection, key, read, rfl, hkv⟩ := kv_line hmem value
  obtain ⟨key', hkey, heq⟩ := List.mem_map.mp h
  obtain rfl := List.append_cancel_right heq
  rw [shapeOf, hsection, hkv]
  simp [isNetworkdKey, hkey]

theorem shape_nmKey {pre : Text} (h : pre ∈ nmKeys.map (· ++ ['='])) (value : Text) :
    shapeOf (pre ++ value) = some .networkManager := by
  have hmem : pre ∈ (networkdKeys ++ nmKeys).map (· ++ ['=']) := by
    rw [List.map_append]
    exact List.mem_append_right _ h
  obtain ⟨hsection, key, read, rfl, hkv⟩ := kv_line hmem value
  obtain ⟨key', hkey, heq⟩ := List.mem_map.mp h
  obtain rfl := List.append_cancel_right heq
  have hapart : ∀ key ∈ nmKeys, key ∉ networkdKeys := by decide
  rw [shapeOf, hsection, hkv]
  simp [isNetworkdKey, isNmKey, hkey, hapart key' hkey]

end Ini

section Ifupdown

theorem parseKvEquals_eq_none {raw : Text} (h : '=' ∉ raw) : parseKvEquals raw = none := by
  have hsplit : splitOnceP (· == '=') (trim raw) = none := by
    apply splitOnceP_eq_none
    intro d hmem
    rw [beq_eq_false_iff_ne]
    rintro rfl
    exact h (mem_trim hmem)
  simp [parseKvEquals, hsplit]

theorem parseSection_eq_none {raw : Text} (h : (trimStart raw).head? ≠ some '[') :
    parseSection raw = none := by
  unfold parseSection
  split
  next rest heq =>
    obtain ⟨tail, htail⟩ : trim raw <+: trimStart raw := List.rdropWhile_prefix _ _
    rw [heq] at htail
    exact absurd (by rw [← htail]; rfl) h
  next => rfl

/-- An option of a stanza is read as its key and value. -/
theorem option_line {word : Text} (h : word ∈ ifupdownOptions) (value : Text) :
    parseIfupdownOption ('\t' :: (word ++ ' ' :: value)) = some (word, trim value) := by
  have hwords : ∀ word ∈ ifupdownOptions, word ≠ [] ∧ (∀ d ∈ word, isWhitespace d = false) ∧
      (∀ pattern ∈ ["auto", "iface", "source"].map String.toList,
        ¬ pattern <+: word ∧ ¬ word <+: pattern) ∧
      word.head?.any (fun c => c != '#' && c != ';') = true := by decide
  obtain ⟨hne, hspace, hpatterns, hhead⟩ := hwords word h
  have htrim : trim ('\t' :: (word ++ ' ' :: value)) = word ++ trimEnd (' ' :: value) := by
    rw [trim_cons_whitespace _ (by decide), trim_word _ hne hspace]
  obtain ⟨hword, hvalue⟩ := trim_word_space value hne hspace (c := ' ') (by decide)
  rw [trim_word _ hne hspace] at hword hvalue
  have hstart : ∀ pattern ∈ ["auto", "iface", "source"].map String.toList,
      startsWith pattern (word ++ trimEnd (' ' :: value)) = false :=
    fun pattern hmem => startsWith_append _ (hpatterns pattern hmem).1 (hpatterns pattern hmem).2
  have hcomment : isCommentStart (word ++ trimEnd (' ' :: value)) = false := by
    obtain ⟨c, tail, rfl⟩ := List.exists_cons_of_ne_nil hne
    simp only [List.head?_cons, Option.any_some, Bool.and_eq_true, bne_iff_ne] at hhead
    rw [isCommentStart, List.cons_append, trimStart_cons _ (hspace c (by simp))]
    simp [hhead.1, hhead.2]
  have hauto := hstart "auto".toList (by simp)
  have hiface := hstart "iface".toList (by simp)
  have hsource := hstart "source".toList (by simp)
  simp only [parseIfupdownOption, htrim, hcomment, hauto, hiface, hsource, hword, hvalue]
  simp [startsWithSpace, show isWhitespace '\t' = true by decide, hne, h]

theorem auto_line {name : Text} (hplain : Plain name) (hne : name ≠ []) :
    parseIfupdownAuto ("auto ".toList ++ name) = some name := by
  have hspace : ∀ d ∈ name, isWhitespace d = false := fun d hmem => (hplain d hmem).1
  have htrim : trim ("auto ".toList ++ name) = "auto".toList ++ ' ' :: name := by
    apply trim_eq_self
    · intro c hc
      obtain rfl : 'a' = c := Option.some.inj hc
      decide
    · intro c hc
      rw [List.getLast?_append_of_ne_nil _ hne] at hc
      exact hspace c (List.mem_of_getLast? hc)
  have hany : name.any isWhitespace = false := by
    rw [List.any_eq_false]
    intro d hmem
    simp [hspace d hmem]
  rw [parseIfupdownAuto, htrim, stripStart_append]
  simp [startsWithSpace, show isWhitespace ' ' = true by decide,
    trim_cons_whitespace name (show isWhitespace ' ' = true by decide), trim_eq_self_of_all hspace,
    hne, hany]

theorem iface_line {name family method : Text} (hplain : Plain name) (hne : name ≠ [])
    (hfamily : family = "inet".toList ∨ family = "inet6".toList)
    (hmethod : ∀ d ∈ method, isWhitespace d = false) (hmethodNe : method ≠ []) :
    parseIfupdownIface ("iface ".toList ++ name ++ ' ' :: family ++ ' ' :: method) =
      some (name, method) := by
  have hspace : ∀ d ∈ name, isWhitespace d = false := fun d hmem => (hplain d hmem).1
  have hsep : isWhitespace ' ' = true := by decide
  have hfamilySpace : ∀ d ∈ family, isWhitespace d = false := by
    rcases hfamily with rfl | rfl <;> decide
  have hfamilyNe : family ≠ [] := by
    rcases hfamily with rfl | rfl <;> decide
  have hline : "iface ".toList ++ name ++ ' ' :: family ++ ' ' :: method =
      "iface".toList ++ ' ' :: (name ++ ' ' :: (family ++ ' ' :: method)) := by
    simp
  have htrim : trim ("iface ".toList ++ name ++ ' ' :: family ++ ' ' :: method) =
      "iface".toList ++ ' ' :: (name ++ ' ' :: (family ++ ' ' :: method)) := by
    rw [← hline]
    apply trim_eq_self
    · intro c hc
      obtain rfl : 'i' = c := Option.some.inj hc
      decide
    · intro c hc
      rw [List.getLast?_append_of_ne_nil _ (by simp), List.getLast?_cons_of_ne_nil hmethodNe] at hc
      exact hmethod c (List.mem_of_getLast? hc)
  have hsplit : splitWhitespace (' ' :: (name ++ ' ' :: (family ++ ' ' :: method))) =
      [name, family, method] := by
    rw [splitWhitespace_cons_whitespace _ hsep, splitWhitespace_word _ hne hspace hsep,
      splitWhitespace_word _ hfamilyNe hfamilySpace hsep,
      splitWhitespace_eq_singleton hmethodNe hmethod]
  rw [parseIfupdownIface, htrim, stripStart_append]
  simp only [startsWithSpace, hsep, hsplit, if_pos hfamily]
  rfl

end Ifupdown

end Detent.Guarantees.NetworkLines
