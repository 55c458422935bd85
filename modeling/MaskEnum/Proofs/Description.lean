import MaskEnum.Description
import MaskEnum.Proofs.Loaded.Agreement
import MaskEnum.Proofs.Outline.Json
import MaskEnum.Proofs.Outline.Toml
set_option autoImplicit false

/-!
# Descriptions are told

The file for a description tells every field of it, in both formats, also which fields have no
value. In TOML texts the types of a unit are always sections, because their operators need several
lines; the variants of a type are sections as well if one of them is too long for a line, and a
line of the type otherwise. The headlines and the first lines behind them keep these apart.

## Main definitions

* `MaskEnum.Surface.fields`, `MaskEnum.Description.fields` — the fields that have a value.
* `MaskEnum.Surface.tomlChars` — the sections of a type.
* `MaskEnum.Surface.Alike`, `MaskEnum.Description.Alike` — equality of all fields.
* `MaskEnum.Description.Reads` — what a description that was read back tells of a compiled unit.

## Main results

* `MaskEnum.Description.toml_outline` — the TOML text of a description.
* `MaskEnum.Surface.tomlChars_tells` — the sections of a type tell it.
* `MaskEnum.Description.alike_of_text` — the file tells the description.
* `MaskEnum.Description.text_determines` — what is read back from the file for a compiled unit.
-/

namespace MaskEnum

open Outline Text

/-! ## Fields -/

/-- A field that may have no value. -/
def optionalField (name : String) (o : Option Outline) : List (String × Outline) :=
  o.toList.map fun value => (name, value)

/-- A field is plain if its values are. -/
theorem isPlain_optionalField (name : String) {α : Type} {f : α → Outline}
    (hf : ∀ a, (f a).isPlain = true) (o : Option α) :
    ∀ e ∈ optionalField name (o.map f), e.2.isPlain = true := by
  cases o <;> simp [optionalField, hf]

/-- A field tells its value, also a missing one. -/
theorem optionalField_inj {name : String} {α : Type} {f : α → Outline}
    (hf : Function.Injective f) {o o' : Option α}
    (h : optionalField name (o.map f) = optionalField name (o'.map f)) : o = o' := by
  cases o <;> cases o' <;> simp [optionalField] at h
  · rfl
  · rw [hf h]

namespace Outline

/-- Texts have no fields that may lack a value. -/
theorem itemsWithoutNulls_text (texts : List String) :
    itemsWithoutNulls (texts.map .text) = texts.map .text := by
  rw [itemsWithoutNulls_eq, List.map_map]
  rfl

/-- Texts are told apart. -/
theorem text_injective : Function.Injective text := fun _ _ h => text.inj h

/-- Lists of texts are told apart. -/
theorem list_text_inj {texts texts' : List String}
    (h : list (texts.map .text) = list (texts'.map .text)) : texts = texts' :=
  text_injective.list_map (list.inj h)

end Outline

namespace Surface

/-- The fields of a variant that have a value. -/
def variantFields (v : String × Option Int) : List (String × Outline) :=
  ("name", .text v.1) :: optionalField "value" (v.2.map .integer)

/-- The variants of a type, without missing values. -/
def shownVariants (s : Surface) : List Outline := s.variants.map fun v => .record (variantFields v)

/-- The fields of a type in front of its variants. -/
def front (s : Surface) : List (String × Outline) :=
  [("name", .text s.name), ("qualified_name", .text s.qualifiedName),
    ("underlying_type", .text s.type.name), ("type_visibility", .text s.access.level),
    ("field_visibility", .text s.fieldAccess.level), ("field_name", .text s.field)]

/-- The fields of a type behind its variants, without the last one. -/
def back (s : Surface) : List (String × Outline) :=
  [("operators", .list (s.operators.map .text)), ("iteration_type", .text s.type.name),
    ("has_get_bit", .flag s.isOpen), ("has_new", .flag s.isOpen)]

/-- The field for the companion of a type. -/
def companionField (s : Surface) : List (String × Outline) :=
  optionalField "companion_name" (s.companion.map .text)

/-- The fields of a type that have a value. -/
def fields (s : Surface) : List (String × Outline) :=
  s.front ++ ("variants", .list s.shownVariants) :: (s.back ++ s.companionField)

/-- The section of a variant. -/
def variantChars (v : String × Option Int) : List Char :=
  "\n".toList ++ ("[[types.variants]]\n".toList ++ plainLines (variantFields v))

/-- The sections of the variants of a type, if they are sections. -/
def variantSections (s : Surface) : List Char :=
  if needsSections s.shownVariants then s.variants.flatMap variantChars else []

/-- The sections of a type. -/
def tomlChars (s : Surface) : List Char :=
  "\n".toList ++ ("[[types]]\n".toList ++ (plainLines s.fields ++ s.variantSections))

/-- Two types are described by the same values. The type of iteration is the underlying one, and
`isOpen` says whether there are `get_bit` and `new`. -/
structure Alike (s t : Surface) : Prop where
  name : s.name = t.name
  qualifiedName : s.qualifiedName = t.qualifiedName
  type : s.type = t.type
  access : s.access.level = t.access.level
  fieldAccess : s.fieldAccess.level = t.fieldAccess.level
  field : s.field = t.field
  variants : s.variants = t.variants
  operators : s.operators = t.operators
  isOpen : s.isOpen = t.isOpen
  companion : s.companion = t.companion

/-- A variant as data, without missing values. -/
theorem withoutNulls_variantOutline (v : String × Option Int) :
    (variantOutline v).withoutNulls = .record (variantFields v) := by
  obtain ⟨name, value⟩ := v
  cases value <;> rfl

/-- A type as data, without missing values. -/
theorem withoutNulls_outline (s : Surface) : s.outline.withoutNulls = .record s.fields := by
  have hvariants : itemsWithoutNulls (s.variants.map variantOutline) = s.shownVariants := by
    rw [itemsWithoutNulls_eq, List.map_map]
    exact List.map_congr_left fun v _ => withoutNulls_variantOutline v
  cases hcompanion : s.companion <;>
  · simp [outline, fields, front, back, companionField, optionalField, withoutNulls,
      fieldsWithoutNulls, ofOption, hvariants, itemsWithoutNulls_text, hcompanion]

/-- The fields of a variant tell it. -/
theorem variantFields_injective : Function.Injective variantFields := by
  rintro ⟨name, value⟩ ⟨name', value'⟩ h
  obtain ⟨hname, hvalue⟩ := List.cons.inj h
  obtain rfl : name = name' := Outline.text.inj (Prod.mk.inj hname).2
  have hinteger : Function.Injective Outline.integer := fun _ _ h => Outline.integer.inj h
  obtain rfl : value = value' := optionalField_inj hinteger hvalue
  rfl

/-- The variants as data tell them. -/
theorem shownVariants_inj {s t : Surface} (h : s.shownVariants = t.shownVariants) :
    s.variants = t.variants := by
  have hrecord : Function.Injective fun v => Outline.record (variantFields v) := fun _ _ heq =>
    variantFields_injective (Outline.record.inj heq)
  exact hrecord.list_map h

/-- Types are told apart by the parts of their fields. -/
theorem alike_of_parts {s t : Surface} (hfront : s.front = t.front) (hback : s.back = t.back)
    (hvariants : s.shownVariants = t.shownVariants)
    (hcompanion : s.companionField = t.companionField) : s.Alike t := by
  have htype : Function.Injective IntType.name := by
    intro a b h
    cases a <;> cases b <;> first | rfl | exact absurd h (by decide)
  simp only [front, back, List.cons.injEq, Prod.mk.injEq, true_and, and_true,
    Outline.text.injEq, Outline.flag.injEq] at hfront hback
  obtain ⟨hname, hqualified, hunderlying, haccess, hfieldAccess, hfield⟩ := hfront
  obtain ⟨hoperators, -, hopen, -⟩ := hback
  exact ⟨hname, hqualified, htype hunderlying, haccess, hfieldAccess, hfield,
    shownVariants_inj hvariants, list_text_inj hoperators, hopen,
    optionalField_inj text_injective hcompanion⟩

/-- The fields that have a value tell all others. -/
theorem alike_of_fields {s t : Surface} (h : s.fields = t.fields) : s.Alike t := by
  obtain ⟨hfront, hrest⟩ := List.append_inj h rfl
  obtain ⟨hvariants, hbehind⟩ := List.cons.inj hrest
  obtain ⟨hback, hcompanion⟩ := List.append_inj hbehind rfl
  exact alike_of_parts hfront hback (Outline.list.inj (Prod.mk.inj hvariants).2) hcompanion

/-- Types with the same values are the same data. -/
theorem Alike.outline_eq {s t : Surface} (h : s.Alike t) : s.outline = t.outline := by
  unfold outline
  rw [h.name, h.qualifiedName, h.type, h.access, h.fieldAccess, h.field, h.variants, h.operators,
    h.isOpen, h.companion]

/-! ### Sections of a type -/

/-- All fields in front of the variants are lines. -/
theorem isPlain_front (s : Surface) : ∀ e ∈ s.front, e.2.isPlain = true := by
  simp [front, isPlain]

/-- All fields behind the variants are lines. -/
theorem isPlain_behind (s : Surface) : ∀ e ∈ s.back ++ s.companionField, e.2.isPlain = true := by
  refine List.forall_mem_append.mpr ⟨?_, isPlain_optionalField _ (fun _ => rfl) _⟩
  simp [back, isPlain, needsSections_text]

/-- All fields of a variant are lines. -/
theorem isPlain_variantFields (v : String × Option Int) :
    ∀ e ∈ variantFields v, e.2.isPlain = true :=
  List.forall_mem_cons.mpr ⟨rfl, isPlain_optionalField _ (fun _ => rfl) _⟩

/-- The section of a variant. -/
theorem sections_variantFields (v : String × Option Int) :
    sections "types.variants".toList true (.record (variantFields v)) =
      ["[[types.variants]]\n".toList ++ plainLines (variantFields v)] := by
  rw [sections, fieldSections_of_plain (isPlain_variantFields v), List.append_nil]
  rfl

/-- The sections inside the one of a type are those of its variants. -/
theorem fieldSections_fields (s : Surface) :
    fieldSections "types".toList s.fields =
      if needsSections s.shownVariants then
        s.variants.map fun v => "[[types.variants]]\n".toList ++ plainLines (variantFields v)
      else [] := by
  have hname : sectionName "types".toList "variants" = "types.variants".toList := rfl
  rw [fields, fieldSections_append, fieldSections_of_plain s.isPlain_front, List.nil_append,
    fieldSections, fieldSections_of_plain s.isPlain_behind, List.append_nil, itemSections_eq,
    hname, shownVariants, List.flatMap_map]
  split_ifs
  · rw [List.map_eq_flatMap]
    exact List.flatMap_congr fun v _ => sections_variantFields v
  · rfl

/-- The sections of a type, with an empty line in front of each. -/
theorem sections_fields (s : Surface) :
    (sections "types".toList true (.record s.fields)).flatMap ("\n".toList ++ ·) = s.tomlChars := by
  have hfirst : (sectionHead "types".toList true s.fields ++ plainLines s.fields).isEmpty = false :=
    rfl
  have hhead : sectionHead "types".toList true s.fields = "[[types]]\n".toList := rfl
  rw [sections, s.fieldSections_fields, hfirst, hhead, tomlChars, variantSections]
  cases needsSections s.shownVariants with
  | false =>
    simp only [Bool.false_eq_true, if_false, List.append_nil, List.flatMap_singleton]
  | true =>
    simp only [Bool.false_eq_true, if_false, if_true, List.flatMap_append, List.flatMap_singleton,
      List.flatMap_map, List.append_assoc]
    rfl

/-- No type fits a line, because it lists its operators. -/
theorem fitsLine_fields (s : Surface) : fitsLine (.record s.fields) = false := by
  have hoperators : s.operators.map Outline.text ≠ [] := by simp [operators]
  refine @fitsLine_of_list _ "operators" _ hoperators ?_
  refine List.mem_append_right _ (List.mem_cons_of_mem _ (List.mem_append_left _ ?_))
  exact List.mem_cons_self

/-! ### Sections are told -/

/-- What may stand behind the sections of a type: nothing, or the next type. -/
def Ends (r : List Char) : Prop := r = [] ∨ ∃ s, r = "\n[[types]]\n".toList ++ s

/-- The section of a variant tells it. -/
theorem variantChars_tells (v : String × Option Int) : Tells EndsSection variantChars id v := by
  refine (Tells.append_left ?_ _).append_left _
  intro w r r' hr hr' h
  have hfilter : ∀ v, (variantFields v).filter (·.2.isPlain) = variantFields v := fun v =>
    List.filter_eq_self.mpr (isPlain_variantFields v)
  obtain ⟨hfields, hrest⟩ := plainLines_tells hr hr' h
  rw [hfilter, hfilter] at hfields
  exact ⟨variantFields_injective hfields, hrest⟩

/-- The lines of a type. -/
theorem filter_fields (s : Surface) :
    s.fields.filter (·.2.isPlain) =
      s.front ++ ((if needsSections s.shownVariants then [] else
        [("variants", .list s.shownVariants)]) ++ (s.back ++ s.companionField)) := by
  rw [fields, List.filter_append, List.filter_eq_self.mpr s.isPlain_front, List.filter_cons,
    List.filter_eq_self.mpr s.isPlain_behind]
  show _ ++ (if (! needsSections s.shownVariants) = true then _ else _) = _
  cases needsSections s.shownVariants <;> rfl

/-- The next type starts with an empty line. -/
theorem Ends.endsSection {r : List Char} (hr : Ends r) : EndsSection r := by
  intro c hc
  rcases hr with rfl | ⟨rest, rfl⟩
  · cases hc
  · exact (Option.some.inj hc).symm

/-- The section of a variant starts with an empty line. -/
theorem endsSection_variantChars (v : String × Option Int) (rest : List Char) :
    EndsSection (variantChars v ++ rest) :=
  fun _ hc => (Option.some.inj hc).symm

/-- Nothing or an empty line stands behind the lines of a type. -/
theorem endsSection_variantSections (s : Surface) {r : List Char} (hr : Ends r) :
    EndsSection (s.variantSections ++ r) := by
  unfold variantSections
  split_ifs with hsections
  · cases s.variants with
    | nil => exact hr.endsSection
    | cons v vs =>
      rw [List.flatMap_cons, List.append_assoc]
      exact endsSection_variantChars v _
  · exact hr.endsSection

/-- The section of a variant is not the next type, and not the end. -/
theorem Ends.ne_variantChars {r : List Char} (hr : Ends r) (v : String × Option Int)
    (rest : List Char) : r ≠ variantChars v ++ rest := by
  intro h
  rw [variantChars, List.append_assoc, List.append_assoc] at h
  rcases hr with rfl | ⟨next, rfl⟩
  · cases h
  · -- the headlines differ behind the eight characters that they share
    have hdrop := congrArg (fun cs : List Char => (cs.drop 8).head?) h
    cases Option.some.inj hdrop

/-- **Types.** The sections of a type tell its fields. -/
theorem tomlChars_tells (s : Surface) : Tells Ends tomlChars fields s := by
  refine (Tells.append_left ?_ _).append_left _
  intro t r r' hr hr' h
  rw [List.append_assoc, List.append_assoc] at h
  obtain ⟨hlines, hsections⟩ := plainLines_tells (s.endsSection_variantSections hr)
    (t.endsSection_variantSections hr') h
  rw [filter_fields, filter_fields] at hlines
  obtain ⟨hfront, hlines⟩ := List.append_inj hlines rfl
  have hfields : s.shownVariants = t.shownVariants →
      s.back ++ s.companionField = t.back ++ t.companionField → s.fields = t.fields := by
    intro hvariants hbehind
    rw [fields, fields, hfront, hvariants, hbehind]
  unfold variantSections at hsections
  -- the variants of both are sections or lines, because the first line behind them tells which
  cases hs : needsSections s.shownVariants <;> cases ht : needsSections t.shownVariants <;>
    simp only [hs, ht, Bool.false_eq_true, if_false, if_true, List.nil_append,
      List.cons_append] at hlines hsections
  · obtain ⟨hvariants, hbehind⟩ := List.cons.inj hlines
    exact ⟨hfields (Outline.list.inj (Prod.mk.inj hvariants).2) hbehind, hsections⟩
  · exact absurd (Prod.mk.inj (List.cons.inj hlines).1).1 (by decide)
  · exact absurd (Prod.mk.inj (List.cons.inj hlines).1).1 (by decide)
  · obtain ⟨hvariants, hrest⟩ := eq_of_flatMap (fun v _ => variantChars_tells v)
      endsSection_variantChars hr.endsSection hr'.endsSection hr.ne_variantChars
      hr'.ne_variantChars hsections
    refine ⟨hfields ?_ hlines, hrest⟩
    rw [shownVariants, shownVariants, hvariants]

end Surface

namespace Description

/-! ## Descriptions -/

/-- The field for the source of a unit. -/
def sourceField (d : Description) : List (String × Outline) :=
  optionalField "source" (d.source.map .text)

/-- The types of a unit, without missing values. -/
def shownTypes (d : Description) : List Outline := d.types.map fun s => .record s.fields

/-- The types as data are the records of their fields. -/
theorem shownTypes_eq (d : Description) :
    d.shownTypes = (d.types.map Surface.fields).map .record :=
  List.map_map.symm

/-- The field for the constants that a unit needs. -/
def symbolsField (d : Description) : List (String × Outline) :=
  [("symbols", .list (d.symbols.map .text))]

/-- The fields of a description that have a value. -/
def fields (d : Description) : List (String × Outline) :=
  d.sourceField ++ ("types", .list d.shownTypes) :: d.symbolsField

/-- Two descriptions have the same values. -/
structure Alike (d d' : Description) : Prop where
  source : d.source = d'.source
  types : List.Forall₂ Surface.Alike d.types d'.types
  symbols : d.symbols = d'.symbols

/-- A description as data, without missing values. -/
theorem withoutNulls_outline (d : Description) : d.outline.withoutNulls = .record d.fields := by
  have htypes : itemsWithoutNulls (d.types.map Surface.outline) = d.shownTypes := by
    rw [itemsWithoutNulls_eq, List.map_map]
    exact List.map_congr_left fun s _ => s.withoutNulls_outline
  cases hsource : d.source <;>
  · simp [outline, fields, sourceField, symbolsField, optionalField, withoutNulls,
      fieldsWithoutNulls, ofOption, htypes, itemsWithoutNulls_text, hsource]

/-- Descriptions are told apart by the parts of their fields. -/
theorem alike_of_parts {d d' : Description} (hsource : d.sourceField = d'.sourceField)
    (htypes : d.types.map Surface.fields = d'.types.map Surface.fields)
    (hsymbols : d.symbolsField = d'.symbolsField) : d.Alike d' := by
  have hlist := (Prod.mk.inj (List.cons.inj hsymbols).1).2
  refine ⟨optionalField_inj text_injective hsource, ?_, list_text_inj hlist⟩
  have hfields : List.Forall₂ (fun s t : Surface => s.fields = t.fields) d.types d'.types := by
    rw [← List.forall₂_map_right_iff, ← List.forall₂_map_left_iff, List.forall₂_eq_eq_eq]
    exact htypes
  exact hfields.imp fun _ _ => Surface.alike_of_fields

/-- Descriptions with the same values are the same data. -/
theorem alike_iff {d d' : Description} : d.Alike d' ↔ d.outline = d'.outline := by
  refine ⟨fun h => ?_, fun h => ?_⟩
  · have htypes : d.types.map Surface.outline = d'.types.map Surface.outline :=
      map_eq_of_forall₂ (h.types.imp fun _ _ hs => hs.outline_eq)
    unfold outline
    rw [h.source, htypes, h.symbols]
  · have hfields := congrArg withoutNulls h
    rw [withoutNulls_outline, withoutNulls_outline] at hfields
    obtain ⟨hsource, hrest⟩ := List.append_inj' (Outline.record.inj hfields) rfl
    obtain ⟨htypes, hsymbols⟩ := List.cons.inj hrest
    have hrecord : Function.Injective Outline.record := fun _ _ h => Outline.record.inj h
    have hshown := Outline.list.inj (Prod.mk.inj htypes).2
    rw [shownTypes_eq, shownTypes_eq] at hshown
    exact alike_of_parts hsource (hrecord.list_map hshown) hsymbols

/-! ### TOML texts -/

/-- The types of a unit are sections, if there are any. -/
theorem needsSections_shownTypes (d : Description) :
    needsSections d.shownTypes = ! d.types.isEmpty :=
  needsSections_record fun s _ => s.fitsLine_fields

/-- The source is a line. -/
theorem isPlain_sourceField (d : Description) : ∀ e ∈ d.sourceField, e.2.isPlain = true :=
  isPlain_optionalField _ (fun _ => rfl) _

/-- The constants are a line. -/
theorem isPlain_symbolsField (d : Description) : ∀ e ∈ d.symbolsField, e.2.isPlain = true := by
  simp [symbolsField, isPlain, needsSections_text]

/-- The lines of a description. -/
theorem filter_fields (d : Description) :
    d.fields.filter (·.2.isPlain) =
      d.sourceField ++ ((if d.types.isEmpty then [("types", .list d.shownTypes)] else []) ++
        d.symbolsField) := by
  have htypes : (Outline.list d.shownTypes).isPlain = d.types.isEmpty := by
    simp [isPlain, needsSections_shownTypes]
  rw [fields, List.filter_append, List.filter_eq_self.mpr d.isPlain_sourceField, List.filter_cons,
    List.filter_eq_self.mpr d.isPlain_symbolsField, htypes]
  cases d.types.isEmpty <;> rfl

/-- The sections inside a document are those of its types. -/
theorem fieldSections_fields (d : Description) :
    fieldSections [] d.fields =
      d.types.flatMap fun s => sections "types".toList true (.record s.fields) := by
  have hname : sectionName [] "types" = "types".toList := rfl
  rw [fields, fieldSections_append, fieldSections_of_plain d.isPlain_sourceField, List.nil_append,
    fieldSections, fieldSections_of_plain d.isPlain_symbolsField, List.append_nil, hname,
    itemSections_eq, needsSections_shownTypes, shownTypes, List.flatMap_map]
  cases d.types <;> rfl

/-- **TOML texts.** The text of a description: its lines, then the sections of its types. -/
theorem toml_outline (d : Description) :
    d.outline.toml = String.ofList (plainLines d.fields ++ d.types.flatMap Surface.tomlChars) := by
  have hlines : plainLines d.fields ≠ [] := by
    intro h
    have hmem : ("symbols", Outline.list (d.symbols.map .text)) ∈
        d.fields.filter (·.2.isPlain) := by
      rw [filter_fields]
      exact List.mem_append_right _ (List.mem_append_right _ List.mem_cons_self)
    cases List.flatMap_eq_nil_iff.mp h _ hmem
  have hempty : (plainLines d.fields).isEmpty = false := by simpa using hlines
  have hhead : sectionHead [] false d.fields = [] := rfl
  rw [toml, withoutNulls_outline, sections, hhead, List.nil_append, hempty,
    fieldSections_fields]
  simp only [Bool.false_eq_true, if_false]
  rw [List.singleton_append, joined, intercalate_cons_eq, List.flatMap_assoc]
  exact congrArg (fun cs => String.ofList (plainLines d.fields ++ cs))
    (List.flatMap_congr fun s _ => s.sections_fields)

/-- Another type may stand behind the sections of a type. -/
theorem ends_tomlChars (s : Surface) (r : List Char) : Surface.Ends (s.tomlChars ++ r) :=
  .inr ⟨_, rfl⟩

/-- The TOML text of a description tells it. -/
theorem alike_of_toml {d d' : Description} (h : d.outline.toml = d'.outline.toml) :
    d.Alike d' := by
  have hchars := congrArg String.toList h
  rw [toml_outline, toml_outline, String.toList_ofList, String.toList_ofList] at hchars
  have hends : ∀ types : List Surface, Surface.Ends (types.flatMap Surface.tomlChars) := by
    intro types
    cases types with
    | nil => exact .inl rfl
    | cons s types => exact ends_tomlChars s _
  obtain ⟨hlines, hsections⟩ :=
    plainLines_tells (hends d.types).endsSection (hends d'.types).endsSection hchars
  rw [← List.append_nil (List.flatMap _ d.types),
    ← List.append_nil (List.flatMap _ d'.types)] at hsections
  have hnil : ∀ (s : Surface) (r : List Char), [] ≠ s.tomlChars ++ r := fun _ _ heq => by cases heq
  obtain ⟨htypes, -⟩ := map_eq_of_flatMap (fun s _ => s.tomlChars_tells) ends_tomlChars (.inl rfl)
    (.inl rfl) hnil hnil hsections
  have hempty : d.types.isEmpty = d'.types.isEmpty := by
    simpa using congrArg List.isEmpty htypes
  have hshown : d.shownTypes = d'.shownTypes := by
    rw [shownTypes_eq, shownTypes_eq, htypes]
  rw [filter_fields, filter_fields, hempty, hshown] at hlines
  obtain ⟨hsource, hrest⟩ := List.append_inj' hlines (by simp [symbolsField])
  exact alike_of_parts hsource htypes (List.append_cancel_left hrest)

/-- **The file tells the description.** -/
theorem alike_of_text {d d' : Description} {format : DescriptionFormat}
    (h : d.text format = d'.text format) : d.Alike d' := by
  cases format with
  | json indent =>
    have hchars := congrArg String.toList h
    rw [text, text, String.toList_append, String.toList_append] at hchars
    exact alike_iff.mpr (json_injective indent
      (String.toList_inj.mp (List.append_cancel_right hchars)))
  | toml => exact alike_of_toml h

/-- Descriptions with the same values have the same file. -/
theorem Alike.text_eq {d d' : Description} (h : d.Alike d') (format : DescriptionFormat) :
    d.text format = d'.text format := by
  unfold text
  rw [alike_iff.mp h]

/-! ## Descriptions of compiled units -/

/-- What a description that was read back tells of the unit `u` and its source. -/
structure Reads (d : Description) (source : Option String) (u : CompiledUnit) : Prop where
  /-- It has the values of the description of the unit, and lacks those that this one lacks. -/
  alike : d.Alike (ofUnit source u)
  /-- The symbols ascend. -/
  sorted : d.symbols.Pairwise (· < ·)
  /-- The types are those declared, in order, with the variants declared, in order. -/
  declared : List.Forall₂ (fun t e => t.name = e.name ∧
    t.qualifiedName = e.qualifiedName.dotted ∧
    t.variants.map Prod.fst = e.variants.map VariantDecl.name) d.types
    (u.declarations.flatMap Declaration.enums)
  /-- The values are those of the generated types. -/
  generated : d.types.map Surface.variants = u.types.map Surface.variants
  /-- The variants have the values that they are resolved to, as far as these are known. -/
  values : List.Forall₂ (fun t e => t.variants = e.variants.map fun v => (v.name, v.value.known?))
    d.types u.resolved

/-- A description with the values of a compiled unit tells its declarations and values. -/
theorem Alike.reads {text : String} {options : Options} {u : CompiledUnit} {source : Option String}
    {d : Description} (h : d.Alike (ofUnit source u)) (hu : u.Of text options) :
    d.Reads source u := by
  have htypes : List.Forall₂ (fun t e => t.Alike (Surface.ofEnum e.companion? e)) d.types
      u.resolved := by
    rw [← List.forall₂_map_right_iff, ← hu.types_eq]
    exact h.types
  refine ⟨h, ?_, ?_, map_eq_of_forall₂ (h.types.imp fun _ _ ht => ht.variants),
    htypes.imp fun _ _ ht => ht.variants⟩
  · rw [h.symbols]
    exact pairwise_mergeSort_eraseDups _
  · rw [← hu.map_decl_resolved, List.forall₂_map_right_iff]
    refine (forall₂_and_mem htypes).imp ?_
    rintro t e ⟨-, he, ht⟩
    refine ⟨ht.name, ht.qualifiedName, ?_⟩
    rw [ht.variants, ← (hu.inPlace he).names]
    exact List.map_map

/-- **Descriptions.** The files for two descriptions, in one format, are the same exactly if all
values of the two are. What is read back from the file for a compiled unit tells its source, or that
it has none, its types and variants in the order of their declarations, with the known values and
without the others, and its symbols sorted. -/
theorem text_determines :
    (∀ (d d' : Description) (format : DescriptionFormat),
      d.text format = d'.text format ↔ d.Alike d') ∧
    ∀ (text : String) (options : Options) (u : CompiledUnit), compile text options = .ok u →
      ∀ (source : Option String) (format : DescriptionFormat) (d : Description),
        d.text format = (ofUnit source u).text format → d.Reads source u := by
  refine ⟨fun d d' format => ⟨alike_of_text, fun h => h.text_eq format⟩, ?_⟩
  intro text options u hcompile source format d h
  exact (alike_of_text h).reads (compile_of hcompile)

/-- A type with a companion and one without, and a symbolic value. -/
theorem text_determines_symbolic :
    ∃ u, compile ("encap_enum! { pub mod m { pub enum Kind { A, B } } } " ++
        "encap_enum! { enum Mask: u8 { LOW = (u8) LIMIT + 1, HIGH = 8 } }") {} = .ok u ∧
      ∀ format, (ofUnit none u).text format ≠ (ofUnit (some "") u).text format ∧
        ∀ d : Description, d.text format = (ofUnit none u).text format →
          d.source = none ∧ d.symbols = ["LIMIT"] ∧
          d.types.map Surface.variants =
            [[("A", some 0), ("B", some 1)], [("LOW", none), ("HIGH", some 8)]] := by
  obtain ⟨u, hu, hsymbols, hvariants⟩ := exists_compile
    ("encap_enum! { pub mod m { pub enum Kind { A, B } } } " ++
      "encap_enum! { enum Mask: u8 { LOW = (u8) LIMIT + 1, HIGH = 8 } }") {}
    (p := fun u => u.symbols = ["LIMIT"] ∧ u.types.map Surface.variants =
      [[("A", some 0), ("B", some 1)], [("LOW", none), ("HIGH", some 8)]])
    (by decide +kernel)
  refine ⟨u, hu, fun format => ⟨fun h => ?_, fun d h => ?_⟩⟩
  · cases ((text_determines.1 _ _ format).mp h).source
  · have hreads := text_determines.2 _ _ u hu none format d h
    exact ⟨hreads.alike.source, hreads.alike.symbols.trans hsymbols,
      hreads.generated.trans hvariants⟩

end Description

end MaskEnum
