import MaskEnum.Loaded
import MaskEnum.Proofs.Generated.Distinct
import MaskEnum.Proofs.Generated.Metadata
set_option autoImplicit false

/-!
# Modules of units are programs

Every name in a declared unit is an identifier and no keyword, metadata stays in its place, and the
check for collisions keeps names apart. So the text of the unit's module is a program in which no
name takes the place of another, unless its first line is none, metadata cannot be stored, or the
brackets of a formula are nested too deep.

## Main definitions

* `MaskEnum.Generated.isHeadline` — whether the first line of a module is an expression.
* `MaskEnum.CompiledUnit.IsShallow` — no formula of a unit nests brackets too deep.

## Main results

* `MaskEnum.CompiledUnit.Of.isProgram` — the items of a module are parts of a program.
* `MaskEnum.CompiledUnit.Of.isFree` — no name of a module takes the place of another.
* `MaskEnum.CompiledUnit.Of.textFault?_eq_none_iff` — when the text of a module is a program.
-/

namespace MaskEnum

namespace Generated

/-- Whether the first line of a module is an expression with a value. -/
def isHeadline (m : Module) : Bool :=
  ! (headline m.source).toList.contains '\x00' &&
    match m.heading with
    | .text _ | .other => true
    | .none | .broken _ => false

/-- The first line is such an expression if it holds no null character and nothing keeps it from
being run. -/
theorem isHeadline_iff {m : Module} :
    isHeadline m = true ↔ '\x00' ∉ (headline m.source).toList ∧ m.headingFault? = none := by
  rw [isHeadline, Bool.and_eq_true, Bool.not_eq_true', ← Bool.not_eq_true, List.contains_iff_mem,
    Module.headingFault?]
  refine and_congr_right fun _ => ?_
  cases m.heading with
  | text | other => exact ⟨fun _ => rfl, fun _ => rfl⟩
  | none | broken => exact iff_of_false Bool.false_ne_true nofun

end Generated

/-- No formula of the unit nests brackets too deep. -/
def CompiledUnit.IsShallow (u : CompiledUnit) : Prop :=
  ∀ e ∈ u.resolved, ∀ v ∈ e.variants, v.value.formula.depth < Generated.bracketLimit

instance (u : CompiledUnit) : Decidable u.IsShallow :=
  inferInstanceAs (Decidable (∀ e ∈ u.resolved, ∀ v ∈ e.variants,
    v.value.formula.depth < Generated.bracketLimit))

/-! ## Names -/

/-- An identifier that is admitted can be used by a program. -/
theorem Admissible.isUsable {name : String} (h : Admissible name)
    (hidentifier : Generated.isIdentifier name = true) : Generated.isUsable name = true := by
  rw [Generated.isUsable, hidentifier, h.notKeyword]
  rfl

/-- The name of a companion is an identifier and no keyword. -/
theorem isUsable_companionName {m : String} (h : Generated.isIdentifier m = true) :
    Generated.isUsable (companionName m) = true := by
  have hidentifier : Generated.isIdentifier (companionName m) = true := by
    have hmark : (companionName m).toList = '_' :: ("encap_enum_".toList ++ m.toList) := by
      rw [companionName, String.toList_append]
      rfl
    have hrest : ∀ c ∈ m.toList, (c.isAlphanum || c == '_') = true := fun c hc =>
      Bool.not_eq_false _ |>.mp fun hother => Generated.not_mem_of_isIdentifier hother h hc
    rw [Generated.isIdentifier, hmark, Bool.and_eq_true, List.all_append, Bool.and_eq_true]
    exact ⟨by decide, by decide, List.all_eq_true.mpr hrest⟩
  have hkeyword : isKeyword (companionName m) = false := by
    have hkeywords : ∀ k ∈ keywords, startsWith companionMark k = false := by decide
    rw [isKeyword, Bool.eq_false_iff]
    intro hmem
    have hmark := hkeywords _ (List.contains_iff_mem.mp hmem)
    rw [startsWith_companionName] at hmark
    cases hmark
  rw [Generated.isUsable, hidentifier, hkeyword]
  rfl

namespace Generated

/-! ## Classes -/

/-- What is asked of an enumeration so that its class is a part of a program. -/
structure Writable (e : ResolvedEnum) : Prop where
  name : isUsable e.decl.name = true
  variants : ∀ v ∈ e.variants, isUsable v.name = true
  readable : ∀ v ∈ e.variants, v.value.Readable
  shallow : ∀ v ∈ e.variants, v.value.formula.depth < bracketLimit

variable {read : Docs.Reader} {companion : Option String} {e : ResolvedEnum}

/-- A constant of such an enumeration is a part of a program. -/
theorem Writable.isProgram_constant (h : Writable e)
    (hcompanion : ∀ name, companion = some name → isUsable name = true) {v : ResolvedVariant}
    (hv : v ∈ e.variants) {k : Constant} (hk : constantOf read companion e v = .ok k)
    (depth : Nat) : k.isProgram depth = true := by
  obtain ⟨notes, hnotes, rfl⟩ := constantOf_eq_ok.mp hk
  have hlines : ∀ line ∈ commentLines depth notes ++ docLines depth notes,
      isOneLine line = true :=
    List.forall_mem_append.mpr
      ⟨isOneLine_commentLines hnotes depth, isOneLine_docLines depth notes⟩
  have hsource : (∀ name ∈ (sourceOf companion e v).names, isUsable name = true) ∧
      (sourceOf companion e v).depth ≤ bracketLimit := by
    unfold sourceOf
    split
    · next name _ =>
      refine ⟨?_, Nat.le_of_ble_eq_true rfl⟩
      simp only [Source.names, List.forall_mem_cons]
      exact ⟨hcompanion name rfl, h.name, h.variants v hv, List.forall_mem_nil _⟩
    · exact ⟨fun name hname => (h.readable v hv).isUsable hname, h.shallow v hv⟩
  simp only [Constant.isProgram, Bool.and_eq_true, List.all_eq_true, decide_eq_true_eq]
  exact ⟨⟨⟨h.variants v hv, hsource.1⟩, hsource.2⟩, hlines⟩

/-- The class of such an enumeration is a part of a program. -/
theorem Writable.isProgram_class (h : Writable e)
    (hcompanion : ∀ name, companion = some name → isUsable name = true) {c : Class}
    (hc : classOf read companion e = .ok c) (depth : Nat) : c.isProgram depth = true := by
  obtain ⟨notes, constants, hnotes, hconstants, rfl⟩ := classOf_eq_ok.mp hc
  simp only [Class.isProgram, Bool.and_eq_true, List.all_eq_true]
  refine ⟨⟨h.name, notesStay_eq hnotes depth⟩, fun k hk => ?_⟩
  obtain ⟨v, hv, hconstant⟩ := exists_left_of_forall₂ hconstants hk
  exact h.isProgram_constant hcompanion hv hconstant (depth + 1)

/-! ## Items -/

/-- The items for a declaration of such enumerations are parts of a program. -/
theorem ItemsOf.isProgram {d : Declaration} {members : List ResolvedEnum} {items : List Item}
    (h : ItemsOf read d members items) (hscope : ∀ name ∈ d.scopeNames, isIdentifier name = true)
    (hadmitted : d.Admitted) (hwritable : ∀ e ∈ members, Writable e) :
    ∀ item ∈ items, item.isProgram = true := by
  cases h with
  | block hclasses =>
    refine List.forall_mem_map.mpr fun c hc => ?_
    obtain ⟨e, he, hclass⟩ := exists_left_of_forall₂ hclasses hc
    exact (hwritable e he).isProgram_class (fun _ h => by cases h) hclass 0
  | @module name _ _ _ _ notes classes hnotes hclasses =>
    have hname := hscope name (List.mem_singleton_self name)
    have husable := (hadmitted.scope name (List.mem_singleton_self name)).isUsable hname
    refine List.forall_mem_singleton.mpr ?_
    simp only [Item.isProgram, Bool.and_eq_true, List.all_eq_true]
    refine ⟨⟨⟨husable, notesStay_eq hnotes 0⟩, ?_⟩, fun c hc => ?_⟩
    · exact List.forall_mem_map.mpr fun e he => (hwritable e (List.mem_filter.mp he).1).name
    · obtain ⟨e, he, hclass⟩ := exists_left_of_forall₂ hclasses hc
      refine (hwritable e he).isProgram_class (fun companion hcompanion => ?_) hclass 1
      unfold companionOf at hcompanion
      split at hcompanion
      · exact Option.some.inj hcompanion ▸ isUsable_companionName hname
      · cases hcompanion

/-- The items for a declaration bind names that the declaration binds, in order. -/
theorem ItemsOf.sublist_boundNames {d : Declaration} {members : List ResolvedEnum}
    {items : List Item} (h : ItemsOf read d members items)
    (hnames : (members.map fun e => e.decl.name).Sublist (d.enums.map EnumDecl.name)) :
    (items.flatMap (·.names.2)).Sublist d.boundNames := by
  cases h with
  | @block enums _ classes hclasses =>
    rw [← map_name_of_classes hclasses, List.map_eq_flatMap] at hnames
    rw [Declaration.boundNames, List.flatMap_map]
    exact hnames
  | module _ _ =>
    rw [List.flatMap_singleton, Item.names, Declaration.boundNames]
    split
    · exact List.Sublist.cons_cons _ (List.nil_sublist _)
    · exact List.Sublist.refl _

end Generated

/-! ## Modules -/

namespace CompiledUnit.Of

open Generated

variable {text : String} {options : Options} {u : CompiledUnit} (hu : u.Of text options)
include hu

/-- An enumeration of a unit without deep formulas can be written. -/
theorem writable (hshallow : u.IsShallow) {e : ResolvedEnum} (he : e ∈ u.resolved) :
    Writable e where
  name := (hu.admitted_decl he).name.isUsable (hu.hasIdentifiers_decl he).name
  variants v hv := by
    have hmem := List.mem_map_of_mem (f := ResolvedVariant.name) hv
    rw [(hu.inPlace he).names] at hmem
    obtain ⟨w, hw, hname⟩ := List.mem_map.mp hmem
    rw [← hname]
    exact ((hu.admitted_decl he).variants w hw).name.isUsable
      ((hu.hasIdentifiers_decl he).variants w hw)
  readable v hv := hu.readable he hv
  shallow v hv := hshallow e he v hv

/-- **Programs.** The items of the module are parts of a program. -/
theorem isProgram (hshallow : u.IsShallow) : u.module.items.all Item.isProgram = true := by
  refine List.all_eq_true.mpr fun item hitem => ?_
  obtain ⟨d, hd, items, hof, hmem⟩ := hu.exists_declaration_of_mem_items hitem
  exact hof.isProgram (hu.hasIdentifiers hd).scope (hu.admitted hd)
    (fun e he => hu.writable hshallow (hu.mem_resolved hd he)) item hmem

/-- **Names.** No name of the module takes the place of another. -/
theorem isFree : u.module.isFree = true := by
  obtain ⟨itemss, hitemss, hmodule⟩ := hu.module_eq
  rw [Module.isFree, Bool.and_eq_true, decide_eq_true_eq]
  constructor
  · rw [hmodule, List.flatten_eq_flatMap, List.flatMap_assoc]
    refine List.Nodup.sublist ?_ (Collisions.nodup_boundNames hu.collisions)
    refine sublist_flatMap_of_forall₂ ((forall₂_and_mem hitemss).imp ?_)
    exact fun d items ⟨_, _, hof⟩ => hof.sublist_boundNames (sublist_name_membersOf _ d)
  · refine List.all_eq_true.mpr fun item hitem => ?_
    obtain ⟨d, hd, items, hof, hmem⟩ := hu.exists_declaration_of_mem_items hitem
    refine (hof.distinct (hu.admitted hd) (fun e he => ?_) (hu.decl_mem_of_members hd).2 item
      hmem).isFree
    exact ⟨hu.inPlace (hu.mem_resolved hd he), hu.admitted_decl (hu.mem_resolved hd he)⟩

/-- **Texts.** The text of a module without preamble and deep formulas is a program if its first
line is an expression and all attributes can be stored. -/
theorem textFault?_eq_none_iff (hpreamble : options.preamble = []) (hshallow : u.IsShallow) :
    u.module.textFault? = none ↔ isHeadline u.module = true ∧
      ∀ attr ∈ u.declarations.flatMap Declaration.allAttributes,
        Docs.isStorable options.read attr = true := by
  have hprogram := hu.isProgram hshallow
  have hpreamble' : u.module.preamble = [] := by
    obtain ⟨_, -, hmodule⟩ := hu.module_eq
    rw [hmodule]
    exact hpreamble
  have hnull :
      (u.module.text.toList.contains '\x00' || ! u.module.items.all Item.isProgram) = true ↔
      '\x00' ∈ (headline u.module.source).toList ∨
        ∃ notes ∈ u.module.notes, notes.HasNull := by
    rw [hprogram, Bool.not_true, Bool.or_false, List.contains_iff_mem,
      Module.null_mem_text hpreamble' hprogram]
  rw [hu.storable_iff, isHeadline_iff, Module.textFault?]
  constructor
  · intro h
    split at h
    · cases h
    · next hsurrogate =>
      split at h
      · cases h
      · next hclean =>
        rw [hnull, not_or, not_exists] at hclean
        exact ⟨⟨hclean.1, h⟩, by simpa using hsurrogate,
          fun notes hnotes hn => hclean.2 notes ⟨hnotes, hn⟩⟩
  · rintro ⟨⟨hline, hheading⟩, hsurrogate, hnotes⟩
    rw [hsurrogate, if_neg Bool.false_ne_true, if_neg, hheading]
    rw [hnull]
    rintro (h | ⟨notes, hmem, hn⟩)
    · exact hline h
    · exact hnotes notes hmem hn

end CompiledUnit.Of

end MaskEnum
