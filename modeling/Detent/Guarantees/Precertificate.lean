import Detent.Lib.Der
import Detent.Source.Verify
import Mathlib.Data.List.Flatten

/-!
# The precertificate of a certificate

`precert_tbs` on the DER encoding of a `TBSCertificate`: what it gives is the encoding of
the same fields without the SCT list extension, so it is given by two certificates only
where they differ in that extension and its place.
-/
namespace Detent.Guarantees.Precertificate
open Source Lib.Der Source.Verify
open List (append_nil length_append)

theorem toNat_ofNat {n : Nat} : (UInt8.ofNat n).toNat = n % 256 := UInt8.toNat_ofNat'

/-- A field is read back. -/
theorem derTlv_tlv (tag : UInt8) {content : Bytes} (rest : Bytes) (h : content.length < 2 ^ 24) :
    derTlv (tlv tag content ++ rest) = some (tag, content, rest) := by
  unfold tlv lengthBytes
  split
  · rename_i hshort
    simp [derTlv, Nat.mod_eq_of_lt (by omega : content.length < 256), hshort]
  · split
    · rename_i hone
      simp [derTlv, Nat.mod_eq_of_lt hone]
    · split
      · rename_i htwo
        have hvalue : content.length / 256 % 256 * 256 + content.length % 256 = content.length := by
          omega
        simp [derTlv, hvalue]
      · have hvalue : (content.length / 65536 % 256 * 256 + content.length / 256 % 256) * 256 +
            content.length % 256 = content.length := by
          omega
        simp [derTlv, hvalue]

/-- A field is written with the length of minimal form. -/
theorem derPush_eq (tag : UInt8) {content : Bytes} (h : content.length < 2 ^ 24) :
    derPush tag content = tlv tag content := by
  unfold derPush tlv lengthBytes
  dsimp only
  split
  · rfl
  · have hhigh : ∀ power, 16777216 ≤ power → content.length / power = 0 :=
      fun power hpower => Nat.div_eq_of_lt (by omega)
    have hbytes : toBeBytes 8 content.length = [0, 0, 0, 0, 0, UInt8.ofNat (content.length / 65536),
        UInt8.ofNat (content.length / 256), UInt8.ofNat content.length] := by
      simp [toBeBytes, List.range_succ, hhigh]
    rw [hbytes]
    have hzero : ∀ n, n % 256 ≠ 0 → UInt8.ofNat n ≠ 0 := by
      intro n hn hsame
      have hvalue := congrArg UInt8.toNat hsame
      rw [toNat_ofNat] at hvalue
      exact hn hvalue
    split
    · rename_i hlow hone
      simp [List.dropWhile, hzero content.length (by omega), Nat.div_eq_of_lt hone,
        Nat.div_eq_of_lt (by omega : content.length < 65536)]
    · split
      · rename_i htwo
        simp [List.dropWhile, hzero (content.length / 256) (by omega), Nat.div_eq_of_lt htwo]
      · simp [List.dropWhile, hzero (content.length / 65536) (by omega)]

/-- A field of a `TBSCertificate` other than its extensions. -/
structure Field where
  tag : UInt8
  content : Bytes
  plain : tag ≠ 0xa3

/-- An extension: its OID, and the fields behind it. -/
structure CertificateExtension where
  oid : Bytes
  fields : Bytes
  deriving DecidableEq

/-- A `TBSCertificate`: the fields before its extensions, these, and the fields behind. -/
structure TbsCertificate where
  before : List Field
  extensions : Option (List CertificateExtension)
  after : List Field

/-- The contents of `SCT_LIST_OID_DER`. -/
def sctOid : Bytes := [0x2b, 0x06, 0x01, 0x04, 0x01, 0xd6, 0x79, 0x02, 0x04, 0x02]

def CertificateExtension.isSct (extension : CertificateExtension) : Bool := extension.oid == sctOid

def Field.encode (field : Field) : Bytes := tlv field.tag field.content

def CertificateExtension.content (extension : CertificateExtension) : Bytes :=
  tlv 0x06 extension.oid ++ extension.fields

def CertificateExtension.encode (extension : CertificateExtension) : Bytes :=
  tlv 0x30 extension.content

def extensionField (extensions : List CertificateExtension) : Bytes :=
  tlv 0xa3 (tlv 0x30 (extensions.flatMap CertificateExtension.encode))

def TbsCertificate.fields (t : TbsCertificate) : Bytes :=
  t.before.flatMap Field.encode ++ (t.extensions.elim [] extensionField ++
    t.after.flatMap Field.encode)

/-- The DER encoding. -/
def TbsCertificate.encode (t : TbsCertificate) : Bytes := tlv 0x30 t.fields

/-- How many extensions are the SCT list. -/
def TbsCertificate.sctCount (t : TbsCertificate) : Nat :=
  (t.extensions.getD []).countP CertificateExtension.isSct

/-- The same fields without the SCT list. -/
def TbsCertificate.withoutSct (t : TbsCertificate) : TbsCertificate :=
  { t with extensions := t.extensions.map (List.filter (fun extension => !extension.isSct)) }

theorem sctListOidDer_eq : sctListOidDer = tlv 0x06 sctOid := by decide

theorem isPrefixOf_content {extension : CertificateExtension}
    (h : extension.content.length < 2 ^ 24) :
    sctListOidDer.isPrefixOf extension.content = extension.isSct := by
  rw [Bool.eq_iff_iff, List.isPrefixOf_iff_prefix, CertificateExtension.isSct, beq_iff_eq,
    sctListOidDer_eq]
  have hoid : extension.oid.length < 2 ^ 24 := by
    have hlt := length_content_lt 0x06 extension.oid
    rw [CertificateExtension.content, length_append] at h
    omega
  constructor
  · rintro ⟨rest, hsame⟩
    have hread := derTlv_tlv 0x06 rest (by decide : sctOid.length < 2 ^ 24)
    rw [hsame, CertificateExtension.content, derTlv_tlv 0x06 _ hoid] at hread
    injection hread with hread
    injection hread with _ hread
    injection hread
  · intro hsame
    rw [CertificateExtension.content, hsame]
    exact List.prefix_append _ _

section Steps
variable {input content rest : Bytes} {tag : UInt8} {rounds : Nat}

theorem keptExtensions_step (hread : derTlv input = some (0x30, content, rest)) :
    keptExtensions (rounds + 1) input = (keptExtensions rounds rest).map (fun later =>
      if sctListOidDer.isPrefixOf content then (later.1, later.2 + 1)
      else (input.take (input.length - rest.length) ++ later.1, later.2)) := by
  cases input with
  | nil => cases hread
  | cons first input =>
    simp only [keptExtensions, hread, bind, Option.bind, ne_eq, not_true_eq_false, if_false]
    cases keptExtensions rounds rest with
    | none => rfl
    | some later =>
      obtain ⟨kept, removed⟩ := later
      simp only [Option.map_some]
      split <;> rfl

theorem keptFields_plain (hread : derTlv input = some (tag, content, rest)) (hplain : tag ≠ 0xa3) :
    keptFields (rounds + 1) input = (keptFields rounds rest).map (fun later =>
      (input.take (input.length - rest.length) ++ later.1, later.2)) := by
  cases input with
  | nil => cases hread
  | cons first input =>
    simp only [keptFields, hread, bind, Option.bind, if_neg hplain]
    cases keptFields rounds rest <;> rfl

theorem keptFields_extensions {inner kept : Bytes} {removed : Nat}
    (hread : derTlv input = some (0xa3, content, rest))
    (hinner : derTlv content = some (0x30, inner, []))
    (hkept : keptExtensions inner.length inner = some (kept, removed)) :
    keptFields (rounds + 1) input = (keptFields rounds rest).map (fun later =>
      (derPush 0xa3 (derPush 0x30 kept) ++ later.1, removed + later.2)) := by
  cases input with
  | nil => cases hread
  | cons first input =>
    simp only [keptFields, hread, hinner, hkept, bind, Option.bind, if_true, ne_eq,
      not_true_eq_false, or_self, if_false]
    cases keptFields rounds rest <;> rfl

end Steps

theorem take_front (front rest : Bytes) :
    (front ++ rest).take ((front ++ rest).length - rest.length) = front := by
  simp

/-- The loop over the extensions keeps those that are not the SCT list. -/
theorem keptExtensions_encode (extensions : List CertificateExtension) {rounds : Nat}
    (hrounds : extensions.length ≤ rounds)
    (h : ∀ extension ∈ extensions, extension.content.length < 2 ^ 24) :
    keptExtensions rounds (extensions.flatMap CertificateExtension.encode) =
      some ((extensions.filter (fun extension => !extension.isSct)).flatMap
        CertificateExtension.encode, extensions.countP CertificateExtension.isSct) := by
  induction extensions generalizing rounds with
  | nil => cases rounds <;> rfl
  | cons extension extensions ih =>
    obtain ⟨hfirst, hrest⟩ := List.forall_mem_cons.mp h
    match rounds with
    | 0 => exact absurd hrounds (by simp)
    | rounds + 1 =>
      have hread := derTlv_tlv 0x30 (extensions.flatMap CertificateExtension.encode) hfirst
      rw [List.length_cons] at hrounds
      rw [List.flatMap_cons, CertificateExtension.encode, keptExtensions_step hread, take_front,
        ih (by omega) hrest, Option.map_some, isPrefixOf_content hfirst, List.filter_cons,
        List.countP_cons]
      cases extension.isSct with
      | true | false => rfl

/-- The loop over the fields takes plain ones over. -/
theorem keptFields_encode (fields : List Field) (tail : Bytes) {rounds : Nat}
    (hrounds : fields.length ≤ rounds) (h : ∀ field ∈ fields, field.content.length < 2 ^ 24) :
    keptFields rounds (fields.flatMap Field.encode ++ tail) =
      (keptFields (rounds - fields.length) tail).map (fun later =>
        (fields.flatMap Field.encode ++ later.1, later.2)) := by
  induction fields generalizing rounds with
  | nil =>
    cases hkept : keptFields rounds tail <;> simp [hkept]
  | cons field fields ih =>
    obtain ⟨hfirst, hrest⟩ := List.forall_mem_cons.mp h
    match rounds with
    | 0 => exact absurd hrounds (by simp)
    | rounds + 1 =>
      rw [List.length_cons] at hrounds ⊢
      have hread := derTlv_tlv field.tag (fields.flatMap Field.encode ++ tail) hfirst
      rw [List.flatMap_cons, List.append_assoc, Field.encode, keptFields_plain hread field.plain,
        take_front, ih (by omega) hrest, Nat.add_sub_add_right]
      cases keptFields (rounds - fields.length) tail with
      | none => rfl
      | some later => simp

theorem keptFields_nil (rounds : Nat) : keptFields rounds [] = some ([], 0) := by
  cases rounds <;> rfl

/-- No part of the certificate has 2^24 bytes. -/
structure Fits (t : TbsCertificate) : Prop where
  fields : t.fields.length < 2 ^ 24
  before : ∀ field ∈ t.before, field.content.length < 2 ^ 24
  after : ∀ field ∈ t.after, field.content.length < 2 ^ 24
  sequence : ∀ extensions, t.extensions = some extensions →
    (tlv 0x30 (extensions.flatMap CertificateExtension.encode)).length < 2 ^ 24
  extension : ∀ extensions, t.extensions = some extensions → ∀ extension ∈ extensions,
    extension.content.length < 2 ^ 24

theorem content_lt {fields : List Field} {field : Field} (hmem : field ∈ fields) :
    field.content.length < (fields.flatMap Field.encode).length := by
  have hle : field.encode.length ≤ (fields.flatMap Field.encode).length := length_encode_le hmem
  exact Nat.lt_of_lt_of_le (length_content_lt field.tag field.content) hle

variable {t : TbsCertificate} {extensions : List CertificateExtension}

theorem fits_of_length (h : t.encode.length < 2 ^ 24) : Fits t := by
  have hfields : t.fields.length < 2 ^ 24 := Nat.lt_trans (length_content_lt 0x30 t.fields) h
  have hsplit := hfields
  rw [TbsCertificate.fields, length_append, length_append] at hsplit
  have hsequence : ∀ extensions, t.extensions = some extensions →
      (tlv 0x30 (extensions.flatMap CertificateExtension.encode)).length < 2 ^ 24 := by
    intro extensions hsome
    rw [hsome, Option.elim_some, extensionField] at hsplit
    have hlt := length_content_lt 0xa3 (tlv 0x30 (extensions.flatMap CertificateExtension.encode))
    omega
  refine ⟨hfields, fun field hmem => ?_, fun field hmem => ?_, hsequence,
    fun extensions hsome extension hmem => ?_⟩
  · have hlt := content_lt hmem
    omega
  · have hlt := content_lt hmem
    omega
  · have hseq := hsequence extensions hsome
    have hinner := length_content_lt 0x30 (extensions.flatMap CertificateExtension.encode)
    have hone := length_content_lt 0x30 extension.content
    have hle : extension.encode.length ≤
        (extensions.flatMap CertificateExtension.encode).length := length_encode_le hmem
    rw [CertificateExtension.encode] at hle
    omega

theorem field_length (field : Field) : 0 < field.encode.length :=
  Nat.lt_of_le_of_lt (Nat.zero_le _) (length_content_lt field.tag field.content)

theorem extension_length (extension : CertificateExtension) : 0 < extension.encode.length :=
  Nat.lt_of_le_of_lt (Nat.zero_le _) (length_content_lt 0x30 extension.content)

/-- Fewer extensions make a shorter list of them. -/
theorem length_flatMap_filter (extensions : List CertificateExtension)
    (p : CertificateExtension → Bool) :
    ((extensions.filter p).flatMap CertificateExtension.encode).length ≤
      (extensions.flatMap CertificateExtension.encode).length :=
  (List.filter_sublist.flatMap _).length_le

theorem withoutSct_length (t : TbsCertificate) :
    t.withoutSct.fields.length ≤ t.fields.length := by
  simp only [TbsCertificate.fields, TbsCertificate.withoutSct, length_append]
  cases t.extensions with
  | none => exact Nat.le_refl _
  | some extensions =>
    have hlist := length_flatMap_filter extensions (fun extension => !extension.isSct)
    have hfield := length_tlv_mono 0xa3 (length_tlv_mono 0x30 hlist)
    simp only [Option.map_some, Option.elim_some, extensionField]
    omega

/-- The loop over the fields of a certificate. -/
theorem keptFields_fields (h : Fits t) :
    keptFields t.fields.length t.fields = some (t.withoutSct.fields, t.sctCount) := by
  have hbefore := length_le_flatMap t.before fun field _ => field_length field
  have hafter := length_le_flatMap t.after fun field _ => field_length field
  have hlength : t.fields.length = (t.before.flatMap Field.encode).length +
      ((t.extensions.elim [] extensionField).length + (t.after.flatMap Field.encode).length) := by
    rw [TbsCertificate.fields, length_append, length_append]
  have hrest : ∀ rounds, t.after.length ≤ rounds →
      keptFields rounds (t.after.flatMap Field.encode) =
        some (t.after.flatMap Field.encode, 0) := by
    intro rounds hrounds
    have hkept := keptFields_encode t.after [] hrounds h.after
    rw [keptFields_nil, append_nil] at hkept
    simpa using hkept
  generalize t.fields.length = count at hlength
  rw [TbsCertificate.fields, keptFields_encode t.before _ (by omega) h.before]
  cases hextensions : t.extensions with
  | none =>
    rw [Option.elim_none, List.nil_append, hrest _ (by omega)]
    simp [TbsCertificate.fields, TbsCertificate.withoutSct, TbsCertificate.sctCount, hextensions]
  | some extensions =>
    rw [hextensions, Option.elim_some, extensionField] at hlength
    have hread := derTlv_tlv 0xa3 (t.after.flatMap Field.encode) (h.sequence _ hextensions)
    have hseq := length_content_lt 0x30 (extensions.flatMap CertificateExtension.encode)
    have hlt := h.sequence _ hextensions
    have hinner : derTlv (tlv 0x30 (extensions.flatMap CertificateExtension.encode)) =
        some (0x30, extensions.flatMap CertificateExtension.encode, []) := by
      have hread' := @derTlv_tlv 0x30 (extensions.flatMap CertificateExtension.encode) [] (by omega)
      rwa [append_nil] at hread'
    have hkept := keptExtensions_encode extensions
      (length_le_flatMap extensions fun extension _ => extension_length extension)
      (h.extension _ hextensions)
    have houter := length_content_lt 0xa3 (tlv 0x30
      (extensions.flatMap CertificateExtension.encode))
    obtain ⟨rounds, hrounds⟩ : ∃ rounds, count - t.before.length = rounds + 1 :=
      ⟨count - t.before.length - 1, by omega⟩
    have hlist := length_flatMap_filter extensions (fun extension => !extension.isSct)
    have hlist' := length_tlv_mono 0x30 hlist
    rw [hrounds, Option.elim_some, extensionField, keptFields_extensions hread hinner hkept,
      hrest rounds (by omega), derPush_eq 0x30 (by omega), derPush_eq 0xa3 (by omega)]
    simp [TbsCertificate.fields, TbsCertificate.withoutSct, TbsCertificate.sctCount, hextensions,
      extensionField]

/-- **The precertificate of one certificate.** -/
theorem precertTbs_encode (h : t.encode.length < 2 ^ 24) :
    precertTbs t.encode = if t.sctCount = 1 then some t.withoutSct.encode else none := by
  have hfits := fits_of_length h
  have hless := withoutSct_length t
  have hlt := hfits.fields
  have hread : derTlv t.encode = some (0x30, t.fields, []) := by
    have hread' := derTlv_tlv 0x30 [] hfits.fields
    rwa [append_nil] at hread'
  simp only [precertTbs, hread, keptFields_fields hfits, bind, Option.bind, ne_eq,
    not_true_eq_false, or_self, if_false]
  by_cases hone : t.sctCount = 1
  · rw [if_neg (by simpa using hone), if_pos hone, derPush_eq 0x30 (by omega)]
    rfl
  · rw [if_pos (by simpa using hone), if_neg hone]

theorem tlv_inj {tag tag' : UInt8} {content content' rest rest' : Bytes}
    (h : content.length < 2 ^ 24) (h' : content'.length < 2 ^ 24)
    (hsame : tlv tag content ++ rest = tlv tag' content' ++ rest') :
    tag = tag' ∧ content = content' ∧ rest = rest' := by
  have hread := derTlv_tlv tag rest h
  rw [hsame, derTlv_tlv tag' rest' h'] at hread
  obtain ⟨htag, hboth⟩ := Prod.mk.inj (Option.some.inj hread)
  obtain ⟨hcontent, hrest⟩ := Prod.mk.inj hboth
  exact ⟨htag.symm, hcontent.symm, hrest.symm⟩

theorem field_inj (a b : Field) (rest rest' : Bytes) (ha : a.content.length < 2 ^ 24)
    (hb : b.content.length < 2 ^ 24) (h : a.encode ++ rest = b.encode ++ rest') :
    a = b ∧ rest = rest' := by
  obtain ⟨tag, content, hplain⟩ := a
  obtain ⟨tag', content', hplain'⟩ := b
  obtain ⟨rfl, rfl, hrest⟩ := tlv_inj ha hb h
  exact ⟨rfl, hrest⟩

theorem extension_inj (a b : CertificateExtension) (rest rest' : Bytes)
    (ha : a.content.length < 2 ^ 24) (hb : b.content.length < 2 ^ 24)
    (h : a.encode ++ rest = b.encode ++ rest') : a = b ∧ rest = rest' := by
  obtain ⟨-, hcontent, hrest⟩ := tlv_inj ha hb h
  have hoid : a.oid.length < 2 ^ 24 := by
    have hlt := length_content_lt 0x06 a.oid
    rw [CertificateExtension.content, length_append] at ha
    omega
  have hoid' : b.oid.length < 2 ^ 24 := by
    have hlt := length_content_lt 0x06 b.oid
    rw [CertificateExtension.content, length_append] at hb
    omega
  obtain ⟨oid, fields⟩ := a
  obtain ⟨oid', fields'⟩ := b
  obtain ⟨-, rfl, rfl⟩ := tlv_inj hoid hoid' hcontent
  exact ⟨rfl, hrest⟩

theorem append_ne_nil {α : Type} {encode : α → Bytes} (hpos : ∀ a, 0 < (encode a).length) (a : α)
    (rest : Bytes) : encode a ++ rest ≠ [] := by
  intro hnil
  have hlength := congrArg List.length hnil
  have hfirst := hpos a
  rw [length_append, List.length_nil] at hlength
  omega

/-- Certificates with extensions are told apart by their bytes. -/
theorem fields_inj {other : TbsCertificate} {extensions' : List CertificateExtension} (h : Fits t)
    (h' : Fits other) (hsome : t.extensions = some extensions)
    (hsome' : other.extensions = some extensions') (hsame : t.fields = other.fields) :
    t.before = other.before ∧ extensions = extensions' ∧ t.after = other.after := by
  simp only [TbsCertificate.fields, hsome, hsome', Option.elim_some, extensionField] at hsame
  have hstop : ∀ (content tail : Bytes), content.length < 2 ^ 24 → ∀ (a : Field) (rest : Bytes),
      a.content.length < 2 ^ 24 → a.encode ++ rest ≠ tlv 0xa3 content ++ tail :=
    fun content tail hcontent a rest ha htlv => a.plain (tlv_inj ha hcontent htlv).1
  obtain ⟨hbefore, hrest⟩ := flatMap_append_inj field_inj (hstop _ _ (h.sequence _ hsome))
    (hstop _ _ (h'.sequence _ hsome')) h.before h'.before hsame
  obtain ⟨-, hsequence, hafter⟩ := tlv_inj (h.sequence _ hsome) (h'.sequence _ hsome') hrest
  have hinner := length_content_lt 0x30 (extensions.flatMap CertificateExtension.encode)
  have hinner' := length_content_lt 0x30 (extensions'.flatMap CertificateExtension.encode)
  have hlt := h.sequence _ hsome
  have hlt' := h'.sequence _ hsome'
  rw [← append_nil (tlv 0x30 _), ← append_nil (tlv 0x30 (extensions'.flatMap _))]
    at hsequence
  obtain ⟨-, hextensions, -⟩ := tlv_inj (by omega) (by omega) hsequence
  have hlist := flatMap_append_inj extension_inj
    (fun a rest _ => append_ne_nil extension_length a rest)
    (fun a rest _ => append_ne_nil extension_length a rest) (h.extension _ hsome)
    (h'.extension _ hsome') (by rw [hextensions])
  have hfields := flatMap_append_inj field_inj (fun a rest _ => append_ne_nil field_length a rest)
    (fun a rest _ => append_ne_nil field_length a rest) h.after h'.after (by rw [hafter])
  exact ⟨hbefore, hlist.1, hfields.1⟩

theorem withoutSct_fits (h : t.encode.length < 2 ^ 24) : Fits t.withoutSct :=
  fits_of_length (Nat.lt_of_le_of_lt (length_tlv_mono 0x30 (withoutSct_length t)) h)

/-- A list with one SCT list among its extensions. -/
theorem split_of_countP (h : extensions.countP CertificateExtension.isSct = 1) :
    ∃ left sct right, extensions = left ++ sct :: right ∧ sct.isSct = true ∧
      extensions.filter (fun extension => !extension.isSct) = left ++ right := by
  induction extensions with
  | nil => cases h
  | cons extension extensions ih =>
    rw [List.countP_cons] at h
    cases hsct : extension.isSct with
    | true =>
      rw [if_pos hsct] at h
      have hnone : ∀ other ∈ extensions, ¬ other.isSct = true :=
        List.countP_eq_zero.mp (by omega)
      refine ⟨[], extension, extensions, rfl, hsct, ?_⟩
      rw [List.filter_cons_of_neg (by simp [hsct]), List.nil_append, List.filter_eq_self]
      intro other hmem
      simpa using hnone other hmem
    | false =>
      rw [if_neg (by simp [hsct])] at h
      obtain ⟨left, sct, right, rfl, hone, hfilter⟩ := ih h
      refine ⟨extension :: left, sct, right, rfl, hone, ?_⟩
      rw [List.filter_cons_of_pos (by simp [hsct]), hfilter]
      rfl

/-- The two differ at most in the contents of their SCT list and in its place among the
extensions. -/
def SameButSct (t other : TbsCertificate) : Prop :=
  t.before = other.before ∧ t.after = other.after ∧
    ∃ left sct right left' sct' right', t.extensions = some (left ++ sct :: right) ∧
      other.extensions = some (left' ++ sct' :: right') ∧ sct.isSct = true ∧ sct'.isSct = true ∧
      left ++ right = left' ++ right'

theorem extensions_of_sctCount (h : t.sctCount = 1) :
    ∃ left sct right, t.extensions = some (left ++ sct :: right) ∧ sct.isSct = true ∧
      t.withoutSct.extensions = some (left ++ right) := by
  cases hextensions : t.extensions with
  | none =>
    rw [TbsCertificate.sctCount, hextensions] at h
    cases h
  | some extensions =>
    rw [TbsCertificate.sctCount, hextensions, Option.getD_some] at h
    obtain ⟨left, sct, right, hsplit, hsct, hfilter⟩ := split_of_countP h
    refine ⟨left, sct, right, by rw [hsplit], hsct, ?_⟩
    rw [TbsCertificate.withoutSct, hextensions, Option.map_some, hfilter]

theorem sameButSct {other : TbsCertificate} (h : t.encode.length < 2 ^ 24)
    (h' : other.encode.length < 2 ^ 24) (hone : t.sctCount = 1) (hone' : other.sctCount = 1)
    (hsame : t.withoutSct.encode = other.withoutSct.encode) : SameButSct t other := by
  obtain ⟨left, sct, right, hextensions, hsct, hkept⟩ := extensions_of_sctCount hone
  obtain ⟨left', sct', right', hextensions', hsct', hkept'⟩ := extensions_of_sctCount hone'
  have hfits := withoutSct_fits h
  have hfits' := withoutSct_fits h'
  rw [TbsCertificate.encode, TbsCertificate.encode, ← append_nil (tlv 0x30 _),
    ← append_nil (tlv 0x30 other.withoutSct.fields)] at hsame
  obtain ⟨-, hfields, -⟩ := tlv_inj hfits.fields hfits'.fields hsame
  obtain ⟨hbefore, hlist, hafter⟩ := fields_inj hfits hfits' hkept hkept' hfields
  exact ⟨hbefore, hafter, left, sct, right, left', sct', right', hextensions, hextensions', hsct,
    hsct', hlist⟩

/-- **Exact.** A certificate gives a precertificate exactly when it has one SCT list
extension, and it is the DER encoding of the same fields without it; two that give the
same differ at most in that extension and its place. -/
theorem precertificate_exact (t : TbsCertificate) (h : t.encode.length < 2 ^ 24) :
    (∀ p, precertTbs t.encode = some p ↔ t.sctCount = 1 ∧ p = t.withoutSct.encode) ∧
    ∀ other p, other.encode.length < 2 ^ 24 → precertTbs t.encode = some p →
      precertTbs other.encode = some p → SameButSct t other := by
  have hexact : ∀ (t : TbsCertificate), t.encode.length < 2 ^ 24 → ∀ p,
      precertTbs t.encode = some p ↔ t.sctCount = 1 ∧ p = t.withoutSct.encode := by
    intro t h p
    rw [precertTbs_encode h]
    by_cases hone : t.sctCount = 1
    · simp [hone, eq_comm]
    · simp [hone]
  refine ⟨hexact t h, fun other p h' hgiven hgiven' => ?_⟩
  obtain ⟨hone, rfl⟩ := (hexact t h p).mp hgiven
  obtain ⟨hone', hsame⟩ := (hexact other h' _).mp hgiven'
  exact sameButSct h h' hone hone' hsame

/-- A version field, and the SCT list before another extension. -/
def shortCertificate : TbsCertificate :=
  ⟨[⟨0xa0, [0x02, 0x01, 0x02], by decide⟩], some [⟨sctOid, [0x04, 0x01, 0x07]⟩, ⟨[0x55], []⟩], []⟩

/-- The same with another SCT list behind it. -/
def movedCertificate : TbsCertificate :=
  ⟨[⟨0xa0, [0x02, 0x01, 0x02], by decide⟩], some [⟨[0x55], []⟩, ⟨sctOid, [0x04, 0x01, 0x08]⟩], []⟩

theorem shortCertificate_exact :
    precertTbs shortCertificate.encode = some shortCertificate.withoutSct.encode ∧
      SameButSct shortCertificate movedCertificate := by
  have hexact := precertificate_exact shortCertificate (by decide)
  exact ⟨(hexact.1 _).mpr ⟨by decide, rfl⟩,
    hexact.2 movedCertificate shortCertificate.withoutSct.encode (by decide) (by decide) (by decide)⟩

end Detent.Guarantees.Precertificate
