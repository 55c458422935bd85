import MaskEnum.Proofs.Generated.Null
import MaskEnum.Proofs.Generated.Unit
set_option autoImplicit false

/-!
# Metadata that a program can hold

Documentation may write surrogates, which no text can be encoded with, and null characters, which no
program holds. Other attributes are shown as they stand, so they may hold null characters as well.
Every other attribute can be stored, and nothing else brings such characters into a unit's module.

## Main definitions

* `MaskEnum.Docs.isStorable` — whether what is shown of an attribute can be part of a program.
* `MaskEnum.Declaration.attributeLists` — the attributes of everything in a declaration.

## Main results

* `MaskEnum.CompiledUnit.Of.storable_iff` — when all attributes of a unit can be stored.
-/

namespace MaskEnum

/-- Whether what is shown of an attribute can be part of a program. -/
def Docs.isStorable (read : Reader) (attr : String) : Bool :=
  match outcome read attr with
  | .text points => points.all fun n => Text.isScalar n && n != 0
  | .other | .none | .broken _ => ! attr.toList.contains '\x00'

/-! ## The attributes of one thing -/

variable {read : Docs.Reader}

/-- Code points write a null character if it is one of them. -/
theorem Text.null_characters {points : List Nat} : '\x00' ∈ characters points ↔ 0 ∈ points := by
  have hpoint : ∀ n, (if isScalar n then Char.ofNat n else Char.ofNat 0xFFFD) = '\x00' ↔ n = 0 := by
    intro n
    refine ⟨fun h => ?_, fun h => h ▸ rfl⟩
    split at h
    · next hscalar =>
      have hvalid : n.isValidChar := by
        simp only [isScalar, Bool.or_eq_true, Bool.and_eq_true, decide_eq_true_eq] at hscalar
        exact hscalar.imp id fun hn => ⟨by omega, hn.2⟩
      have hnat := congrArg Char.toNat h
      rwa [Char.ofNat, dif_pos hvalid] at hnat
    · exact absurd h (by decide)
  simp [characters, hpoint]

/-- An attribute on one line holds a null character if the attribute does. -/
theorem Docs.null_flatten (attr : String) :
    '\x00' ∈ (flatten attr).toList ↔ '\x00' ∈ attr.toList := by
  rw [flatten, toList_intercalate_ofList, mem_intercalate_iff (by decide), ← List.mem_flatten,
    Text.flatten_words, List.mem_filter, and_iff_left (by decide)]

/-- The text of an attribute is that of a literal. -/
theorem Docs.exists_of_docText {attr text : String} (h : docText read attr = .ok (some text)) :
    ∃ points, outcome read attr = .text points ∧ text = String.ofList (Text.characters points) := by
  unfold docText at h
  split at h
  · next points hpoints => exact ⟨points, hpoints, (Option.some.inj (Except.ok.inj h)).symm⟩
  all_goals cases h

/-- An attribute with a text can be stored if the text has neither surrogates nor null
characters. -/
theorem Docs.isStorable_iff_of_text {attr : String} {points : List Nat}
    (h : outcome read attr = .text points) :
    isStorable read attr = true ↔ writesSurrogate read attr = false ∧ 0 ∉ points := by
  simp only [isStorable, writesSurrogate, h, List.all_eq_true, List.any_eq_false,
    Bool.and_eq_true, bne_iff_ne, Bool.not_eq_true', Bool.not_eq_false]
  exact ⟨fun hall => ⟨fun n hn => (hall n hn).1, fun hzero => (hall 0 hzero).2 rfl⟩,
    fun h n hn => ⟨h.1 n hn, fun heq => h.2 (heq ▸ hn)⟩⟩

/-- One that stays a comment can be stored if it has no null character. -/
theorem Docs.isStorable_iff_of_none {attr : String} (h : docText read attr = .ok none) :
    isStorable read attr = true ↔ writesSurrogate read attr = false ∧ '\x00' ∉ attr.toList := by
  unfold docText at h
  unfold isStorable writesSurrogate
  cases houtcome : outcome read attr with
  | text points =>
    rw [houtcome] at h
    cases h
  | other | none => simp
  | broken =>
    rw [houtcome] at h
    cases h

/-- Attributes can be stored if none writes a surrogate and their metadata has no null character. -/
theorem Notes.storable_iff {attrs : List String} {notes : Notes}
    (h : ofAttributes read attrs = .ok notes) :
    (∀ attr ∈ attrs, Docs.isStorable read attr = true) ↔
      (∀ attr ∈ attrs, Docs.writesSurrogate read attr = false) ∧ ¬ notes.HasNull := by
  induction attrs generalizing notes with
  | nil =>
    obtain rfl := Except.ok.inj h
    simp [HasNull]
  | cons attr attrs ih =>
    obtain ⟨rest, hrest, hcases⟩ := ofAttributes_cons h
    rw [List.forall_mem_cons, List.forall_mem_cons, ih hrest]
    rcases hcases with ⟨text, htext, rfl⟩ | ⟨hnone, rfl⟩
    · obtain ⟨points, hpoints, rfl⟩ := Docs.exists_of_docText htext
      simp only [Docs.isStorable_iff_of_text hpoints, HasNull, Generated.hasNull_cons,
        String.toList_ofList, Text.null_characters, not_or]
      tauto
    · simp only [Docs.isStorable_iff_of_none hnone, HasNull, Generated.hasNull_cons,
        Docs.null_flatten, not_or]
      tauto

/-! ## The attributes of a declaration -/

/-- The attributes of the enumeration and of each of its variants. -/
def EnumDecl.attributeLists (e : EnumDecl) : List (List String) :=
  e.attributes :: e.variants.map VariantDecl.attributes

/-- The attributes of everything in a declaration, from the outside inwards. -/
def Declaration.attributeLists : Declaration → List (List String)
  | .block enums => enums.flatMap EnumDecl.attributeLists
  | .module _ _ attributes enums => attributes :: enums.flatMap EnumDecl.attributeLists

/-- All of them in turn are the attributes of the declaration. -/
theorem Declaration.flatten_attributeLists (d : Declaration) :
    d.attributeLists.flatten = d.allAttributes := by
  have henums : ∀ enums : List EnumDecl,
      (enums.flatMap EnumDecl.attributeLists).flatten = enums.flatMap EnumDecl.allAttributes := by
    intro enums
    rw [List.flatten_eq_flatMap, List.flatMap_assoc]
    refine List.flatMap_congr fun e _ => ?_
    rw [← List.flatten_eq_flatMap]
    rfl
  cases d with
  | block enums => exact henums enums
  | module name access attributes enums => exact congrArg (attributes ++ ·) (henums enums)

namespace Generated

/-- The metadata of a class is that of the attributes of its enumeration. -/
theorem allNotes_of_classOf {companion : Option String} {e : ResolvedEnum} {c : Class}
    (h : classOf read companion e = .ok c) (hplace : e.InPlace) :
    List.Forall₂ (fun attrs notes => Notes.ofAttributes read attrs = .ok notes)
      e.decl.attributeLists c.allNotes := by
  obtain ⟨notes, constants, hnotes, hconstants, rfl⟩ := classOf_eq_ok.mp h
  refine .cons hnotes ?_
  have hvariants : List.Forall₂ (fun attrs notes => Notes.ofAttributes read attrs = .ok notes)
      (e.variants.map ResolvedVariant.attributes) (constants.map Constant.notes) := by
    rw [List.forall₂_map_left_iff, List.forall₂_map_right_iff]
    refine hconstants.imp fun v k hk => ?_
    obtain ⟨notes, hnotes, rfl⟩ := constantOf_eq_ok.mp hk
    exact hnotes
  rwa [hplace.attributes] at hvariants

/-- The metadata of classes is that of the attributes of their enumerations. -/
theorem allNotes_of_classes {companion : ResolvedEnum → Option String}
    {members : List ResolvedEnum} {classes : List Class}
    (h : List.Forall₂ (fun e c => classOf read (companion e) e = .ok c) members classes)
    (hplace : ∀ e ∈ members, e.InPlace) :
    List.Forall₂ (fun attrs notes => Notes.ofAttributes read attrs = .ok notes)
      ((members.map ResolvedEnum.decl).flatMap EnumDecl.attributeLists)
      (classes.flatMap Class.allNotes) := by
  rw [List.flatMap_map]
  exact List.rel_flatMap (forall₂_and_mem h) fun e c ⟨he, _, hc⟩ =>
    allNotes_of_classOf hc (hplace e he)

/-- The metadata of the items for a declaration is that of the attributes of the declaration. -/
theorem ItemsOf.notes {d : Declaration} {members : List ResolvedEnum} {items : List Item}
    (h : ItemsOf read d members items) (hdecl : members.map ResolvedEnum.decl = d.enums)
    (hplace : ∀ e ∈ members, e.InPlace) :
    List.Forall₂ (fun attrs notes => Notes.ofAttributes read attrs = .ok notes)
      d.attributeLists (items.flatMap Item.notes) := by
  cases h with
  | @block enums _ classes hclasses =>
    have henums : members.map ResolvedEnum.decl = enums := hdecl
    subst henums
    rw [List.flatMap_map]
    exact allNotes_of_classes hclasses hplace
  | @module name access attributes enums _ notes classes hnotes hclasses =>
    have henums : members.map ResolvedEnum.decl = enums := hdecl
    subst henums
    rw [List.flatMap_singleton]
    exact .cons hnotes (allNotes_of_classes hclasses hplace)

end Generated

/-- What holds of all attributes if it holds of the metadata of each list of them. -/
theorem Notes.all_storable_iff {lists : List (List String)} {all : List Notes}
    (h : List.Forall₂ (fun attrs notes => ofAttributes read attrs = .ok notes) lists all) :
    (∀ attr ∈ lists.flatten, Docs.isStorable read attr = true) ↔
      (∀ attr ∈ lists.flatten, Docs.writesSurrogate read attr = false) ∧
        ∀ notes ∈ all, ¬ notes.HasNull := by
  induction h with
  | nil => simp
  | cons hnotes _ ih =>
    simp only [List.flatten_cons, List.forall_mem_append, List.forall_mem_cons, ih,
      storable_iff hnotes]
    tauto

namespace CompiledUnit.Of

open Generated

variable {text : String} {options : Options} {u : CompiledUnit} (hu : u.Of text options)
include hu

/-- **Metadata.** All attributes of a unit can be stored if none writes a surrogate and no metadata
of its module holds a null character. -/
theorem storable_iff :
    (∀ attr ∈ u.declarations.flatMap Declaration.allAttributes,
        Docs.isStorable options.read attr = true) ↔
      u.module.hasSurrogate = false ∧ ∀ notes ∈ u.module.notes, ¬ notes.HasNull := by
  obtain ⟨itemss, hitemss, hmodule⟩ := hu.module_eq
  have hnotes : List.Forall₂ (fun attrs notes => Notes.ofAttributes options.read attrs = .ok notes)
      (u.declarations.flatMap Declaration.attributeLists) u.module.notes := by
    rw [hmodule, Module.notes, List.flatten_eq_flatMap, List.flatMap_assoc]
    refine List.rel_flatMap (forall₂_and_mem hitemss) fun d items h => ?_
    obtain ⟨hd, -, hitems⟩ := h
    exact hitems.notes (hu.map_decl_members hd) fun e he =>
      hu.inPlace (hu.mem_resolved hd he)
  have hflatten : (u.declarations.flatMap Declaration.attributeLists).flatten =
      u.declarations.flatMap Declaration.allAttributes := by
    rw [List.flatten_eq_flatMap, List.flatMap_assoc]
    refine List.flatMap_congr fun d _ => ?_
    rw [← List.flatten_eq_flatMap, d.flatten_attributeLists]
  rw [← hflatten, Notes.all_storable_iff hnotes, hmodule, List.any_eq_false, hflatten]
  simp only [Bool.not_eq_true]

end CompiledUnit.Of

end MaskEnum
