import MaskEnum.Machine.Step
import MaskEnum.Proofs.Loaded.Outcomes
import MaskEnum.Proofs.Loaded.Paths
set_option autoImplicit false

/-!
# Loaded modules agree with their units

The types that a unit describes, the enumerations it is resolved to and the classes of its loaded
module are one list seen three times. A type answers to its full name with the names of its variants
in order, their known values, and the values of their formulas; and each constant can be read by
name. The table of a fieldless enumeration numbers its variants as resolution does.

## Main definitions

* `MaskEnum.Loaded.Shows` — a loaded class is what a type of the unit describes.
* `MaskEnum.Declaration.scopeEntries` — what a declaration binds in the block scope, with access.

## Main results

* `MaskEnum.CompiledUnit.Of.type?_eq` — a type of a unit is found by its full name.
* `MaskEnum.CompiledUnit.loaded_shows` — a loaded module agrees with its unit.
-/

namespace MaskEnum

/-- What a declaration binds in the block scope, with the access that is written for it. -/
def Declaration.scopeEntries : Declaration → List (String × Access)
  | .block enums => enums.map fun e => (e.name, e.access)
  | .module name access _ _ => [(name, access)]

/-- The loaded class `c` is what the type `t` of a unit describes, and has the values of the
enumeration `e`, where symbols stand for the constants `supplied`. -/
structure Loaded.Shows (l : Loaded) (supplied : Table String Int) (t : Surface) (e : ResolvedEnum)
    (c : LoadedClass) : Prop where
  /-- The type has the full name of the enumeration. -/
  name : (⟨t.group, t.name⟩ : QualifiedName) = e.decl.qualifiedName
  /-- It has one variant for each declared, in order. -/
  names : t.variants.map Prod.fst = e.decl.variants.map VariantDecl.name
  /-- Its variants have the values of the enumeration, as far as they are known. -/
  variants : t.variants = e.variants.map fun v => (v.name, v.value.known?)
  /-- The class lists its constants in order. -/
  values : ∀ m : Machine, m.module = l →
    m.ask (.values e.decl.qualifiedName.path.segments) = .ok (.values c.values)
  /-- Iteration gives the values of the constants in order. -/
  iterate : ∀ m : Machine, m.module = l → ∀ count,
    m.ask (.iterate e.decl.qualifiedName.path.segments count) =
      .ok (.iteration ((c.values.map Prod.snd).take count) (c.values.map Prod.snd)
        ((c.values.map Prod.snd).drop count))
  /-- Each constant is named like its variant, and has the value that the emitted formula has in the
  body of the class; if the value is known, it is that. -/
  loaded : List.Forall₂ (fun v entry => entry.1 = v.name ∧
    v.value.formula.evalInBody supplied t.name = .ok entry.2 ∧
    ∀ n, v.value = .known n → entry.2 = n) e.variants c.values
  /-- Each constant can be read by name. -/
  read : ∀ m : Machine, m.module = l → ∀ entry ∈ c.values,
    m.made (.variant e.decl.qualifiedName.path.segments entry.1) = .ok ⟨c, entry.2⟩
  /-- The table of a fieldless enumeration numbers its variants, and their ordinals, their values
  and the constants are these numbers. -/
  ordinals : e.decl.isFieldless = true → ∃ group, t.group = some group ∧
    t.companion = some (companionName group ++ "." ++ t.name) ∧
    (∀ m : Machine, m.module = l →
      m.ask (.members [companionName group, t.name]) =
        .ok (.members (t.variants.map Prod.fst).zipIdx)) ∧
    ∀ v index, (v, index) ∈ e.variants.zipIdx → v.ordinal = some index ∧
      v.value = .known index ∧ c.values[index]? = some (v.name, (index : Int))

/-! ## Full names -/

/-- Full names of identifiers are written in different ways. -/
theorem QualifiedName.dotted_inj {q q' : QualifiedName}
    (hgroup : ∀ m, q.group = some m → '.' ∉ m.toList) (hname : '.' ∉ q.name.toList)
    (hname' : '.' ∉ q'.name.toList) (h : q.dotted = q'.dotted) : q = q' := by
  obtain ⟨group, name⟩ := q
  obtain ⟨group', name'⟩ := q'
  have hlist := congrArg String.toList h
  cases group with
  | none =>
    cases group' with
    | none => exact congrArg _ h
    | some m' =>
      simp only [dotted, String.toList_append] at hlist
      exact absurd (hlist ▸ by simp) hname
  | some m =>
    cases group' with
    | none =>
      simp only [dotted, String.toList_append] at hlist
      exact absurd (hlist ▸ by simp) hname'
    | some m' =>
      simp only [dotted, String.toList_append, List.append_assoc] at hlist
      obtain ⟨hm, -, hn⟩ :=
        (List.append_cons_inj_of_notMem (hgroup m rfl) hname).mp hlist
      obtain rfl : m = m' := String.toList_inj.mp hm
      obtain rfl : name = name' := String.toList_inj.mp hn
      rfl

/-! ## Types of a unit -/

/-- A fieldless enumeration belongs to a module, because those of other blocks have values. -/
theorem Declaration.Spells.exists_group {ts : List Token} {d : Declaration}
    (h : Declaration.Spells ts d) {e : EnumDecl} (he : e ∈ d.enums)
    (hfieldless : e.isFieldless = true) : ∃ group, e.group = some group := by
  have hgrouped := h.grouped
  cases h with
  | module _ _ _ _ _ => exact ⟨_, hgrouped e he⟩
  | block hes _ hvalued =>
    obtain ⟨used, hused⟩ := hes.exists_spells e he
    rw [hused.isFieldless_eq_false_iff.mpr (hvalued e he)] at hfieldless
    cases hfieldless

namespace CompiledUnit.Of

variable {text : String} {options : Options} {u : CompiledUnit} (hu : u.Of text options)
include hu

/-- The types of a unit are those of its resolved enumerations, in order. -/
theorem types_eq : u.types = u.resolved.map fun e => Surface.ofEnum e.companion? e := by
  rw [hu.types]
  conv_rhs => rw [← hu.flatMap_members, List.map_flatMap]
  refine List.flatMap_congr fun d hd => ?_
  obtain ⟨hmembers, -⟩ := hu.decl_mem_of_members hd
  have hgrouped := hu.grouped hd
  rw [Surface.ofDeclaration]
  refine List.map_congr_left fun e he => ?_
  cases d with
  | block enums => rw [ResolvedEnum.companion?_of_block (hgrouped _ (hmembers e he))]
  | module name access attributes enums =>
    rw [ResolvedEnum.companion?_of_module (hgrouped _ (hmembers e he))]

/-- The parts of a full name are identifiers. -/
theorem isIdentifier_qualifiedName {e : ResolvedEnum} (he : e ∈ u.resolved) :
    (∀ m, e.decl.group = some m → '.' ∉ m.toList) ∧ '.' ∉ e.decl.name.toList := by
  obtain ⟨d, hd, -, hdecl⟩ := hu.exists_declaration he
  refine ⟨fun m hm => ?_,
    Generated.not_mem_of_isIdentifier (by decide) (hu.hasIdentifiers_decl he).name⟩
  cases d with
  | block enums =>
    have hnone : e.decl.group = none := hu.grouped hd _ hdecl
    rw [hnone] at hm
    cases hm
  | module name access attributes enums =>
    have hgroup : e.decl.group = some name := hu.grouped hd _ hdecl
    obtain rfl := Option.some.inj (hgroup.symm.trans hm)
    exact Generated.not_mem_of_isIdentifier (by decide)
      ((hu.hasIdentifiers hd).scope name (List.mem_singleton_self name))

/-- The dotted names of the types are pairwise different. -/
theorem nodup_dotted : (u.types.map Surface.qualifiedName).Nodup := by
  rw [hu.types_eq, List.map_map]
  have hresolved := List.Nodup.of_map _ hu.nodup_resolved
  have hnodup := (List.nodup_map_iff_inj_on hresolved).mp hu.nodup_resolved
  rw [List.nodup_map_iff_inj_on hresolved]
  intro e he e' he' heq
  obtain ⟨hgroup, hname⟩ := hu.isIdentifier_qualifiedName he
  obtain ⟨-, hname'⟩ := hu.isIdentifier_qualifiedName he'
  exact hnodup e he e' he' (QualifiedName.dotted_inj hgroup hname hname' heq)

/-- **Look-up.** A type is found by its full name. -/
theorem type?_eq {t : Surface} (ht : t ∈ u.types) : u.type? t.qualifiedName = .ok t := by
  have hfind : u.types.find? (·.qualifiedName == t.qualifiedName) = some t :=
    find?_eq_some_of_nodup hu.nodup_dotted ht
  rw [type?, hfind]

/-- **Exports.** The exported names are those in the block scope that are not private. -/
theorem exports_eq :
    u.module.exports =
      ((u.declarations.flatMap Declaration.scopeEntries).filter (·.2 ≠ .own)).map Prod.fst := by
  obtain ⟨items, -, hmodule⟩ := hu.module_eq
  rw [hmodule, List.filter_flatMap, List.map_flatMap]
  refine List.flatMap_congr fun d _ => ?_
  cases d with
  | block enums =>
    rw [Generated.exportsOf, Declaration.scopeEntries, List.filter_map, List.map_map]
    rfl
  | module name access attributes enums =>
    rw [Generated.exportsOf, Declaration.scopeEntries]
    by_cases h : access = .own <;> simp [h]

/-- No name is exported twice. -/
theorem nodup_exports : u.module.exports.Nodup := by
  have hscope : (u.declarations.flatMap Declaration.scopeEntries).map Prod.fst =
      u.declarations.flatMap Declaration.scopeNames := by
    rw [List.map_flatMap]
    refine List.flatMap_congr fun d _ => ?_
    cases d with
    | block enums => exact List.map_map
    | module name access attributes enums => rfl
  rw [hu.exports_eq]
  refine (List.filter_sublist.map Prod.fst).nodup ?_
  rw [hscope]
  exact (Collisions.declarations_ok hu.collisions).1

/-! ## Loaded classes -/

variable {l : Loaded} {supplied : Table String Int}

/-- The names of the variants of an enumeration are pairwise different. -/
theorem nodup_variants {e : ResolvedEnum} (he : e ∈ u.resolved) :
    (e.variants.map ResolvedVariant.name).Nodup := by
  rw [(hu.inPlace he).names]
  exact (hu.admitted_decl he).nodup

/-- A constant of a loaded class can be read as a new value. -/
theorem readVariant_eq {e : ResolvedEnum} (he : e ∈ u.resolved) {c : LoadedClass}
    (h : c.Realizes supplied e) {entry : String × Int} (hentry : entry ∈ c.values) :
    Machine.readVariant c entry.1 = .ok ⟨c, entry.2⟩ := by
  rw [Machine.readVariant, h.constant?_eq (hu.nodup_variants he) hentry]
  show Object.create c entry.2 = _
  rw [Object.create, if_pos (h.contains (hu.fits he) hentry)]

/-- The numbers of the variants of a fieldless enumeration are their places. -/
theorem loaded_ordinals {e : ResolvedEnum} (he : e ∈ u.resolved) {c : LoadedClass}
    (h : c.Realizes supplied e) (hfieldless : e.decl.isFieldless = true) (v : ResolvedVariant)
    (index : Nat) (hv : (v, index) ∈ e.variants.zipIdx) :
    v.ordinal = some index ∧ v.value = .known index ∧
      c.values[index]? = some (v.name, (index : Int)) := by
  obtain ⟨hordinal, hvalue⟩ := (hu.inPlace he).ordinals hfieldless hv
  have hloaded := h.loaded
  obtain ⟨hindex, rfl⟩ := List.getElem?_eq_some_iff.mp (List.mk_mem_zipIdx_iff_getElem?.mp hv)
  have hbound : index < c.values.length := hloaded.length_eq ▸ hindex
  obtain ⟨hname, -, hknown⟩ := hloaded.get hindex hbound
  refine ⟨hordinal, hvalue, ?_⟩
  rw [List.getElem?_eq_getElem hbound]
  exact congrArg some (Prod.ext hname (hknown _ hvalue))

/-- The table of ordinals answers with the positions of the variants. -/
theorem ask_members_eq {m : Machine} (hmodule : m.module.module = u.module) {e : ResolvedEnum}
    (he : e ∈ u.resolved) {c : LoadedClass} (h : c.Realizes supplied e)
    (hfieldless : e.decl.isFieldless = true) {group : String} (hgroup : e.decl.group = some group) :
    m.ask (.members [companionName group, e.decl.name]) =
      .ok (.members (e.variants.map ResolvedVariant.name).zipIdx) := by
  have hcompanion : e.companion?.isSome = true := by
    rw [ResolvedEnum.companion?, if_pos hfieldless, hgroup]
    rfl
  rw [Machine.ask, hu.find_table_eq hmodule he hfieldless hgroup]
  show Except.ok (Answer.members (Generated.tableOf e).ordinals) = _
  rw [h.ordinals_tableOf hcompanion]

/-- **Classes.** Every loaded class is what the type in its place describes. -/
theorem shows (hload : u.module.load supplied = .ok l) :
    List.Forall₂ (fun t c => ∃ e ∈ u.resolved, l.Shows supplied t e c) u.types l.classes := by
  obtain ⟨-, -, hmodule, -, -⟩ := Generated.Module.load_eq_ok.mp hload
  have hrealizes := hu.realizes hload
  rw [hu.types_eq, List.forall₂_map_left_iff]
  refine (forall₂_and_mem hrealizes).imp ?_
  rintro e c ⟨he, hc, hreal⟩
  have htype : l.type e.decl.qualifiedName.path.segments = .ok c :=
    hu.type_eq hmodule hrealizes he hc hreal
  have hnames : (e.variants.map fun v => (v.name, v.value.known?)).map Prod.fst =
      e.variants.map ResolvedVariant.name := List.map_map
  refine ⟨e, he, rfl, hnames.trans (hu.inPlace he).names, rfl, ?_, ?_, hreal.loaded, ?_,
    fun hfieldless => ?_⟩
  · rintro m rfl
    rw [Machine.ask, htype]
    rfl
  · rintro m rfl count
    rw [Machine.ask, htype]
    rfl
  · rintro m rfl entry hentry
    rw [Machine.made, htype]
    exact hu.readVariant_eq he hreal hentry
  · obtain ⟨d, hd, -, hdecl⟩ := hu.exists_declaration he
    obtain ⟨used, hused⟩ := hu.spells hd
    obtain ⟨group, hgroup⟩ := hused.exists_group hdecl hfieldless
    refine ⟨group, hgroup, ?_, ?_, hu.loaded_ordinals he hreal hfieldless⟩
    · show e.companion?.map _ = _
      rw [ResolvedEnum.companion?, if_pos hfieldless, hgroup]
      rfl
    · rintro m rfl
      refine (hu.ask_members_eq hmodule he hreal hfieldless hgroup).trans ?_
      exact congrArg (fun names => Except.ok (Answer.members (List.zipIdx names))) hnames.symm

end CompiledUnit.Of

/-- **Agreement.** A loaded module shows the types of its unit in order, exports the names at module
level that are not private, in order and each once, and the unit finds each type by its full
name. -/
theorem CompiledUnit.loaded_shows {text : String} {options : Options} {u : CompiledUnit}
    {supplied : Table String Int} {l : Loaded} (h : compile text options = .ok u)
    (hload : u.module.load supplied = .ok l) :
    List.Forall₂ (fun t c => ∃ e ∈ u.resolved, l.Shows supplied t e c) u.types l.classes ∧
      l.module.exports =
        ((u.declarations.flatMap Declaration.scopeEntries).filter (·.2 ≠ .own)).map Prod.fst ∧
      l.module.exports.Nodup ∧
      ∀ t ∈ u.types, u.type? t.qualifiedName = .ok t := by
  have hu := compile_of h
  obtain ⟨-, -, hmodule, -, -⟩ := Generated.Module.load_eq_ok.mp hload
  rw [hmodule]
  exact ⟨hu.shows hload, hu.exports_eq, hu.nodup_exports, fun t ht => hu.type?_eq ht⟩

/-- A unit with a table of ordinals and a symbol agrees with what is loaded for it. -/
theorem CompiledUnit.loaded_shows_ordinals :
    ∃ u l, compile ("encap_enum! { pub mod m { pub enum Kind { A, B } } } " ++
        "encap_enum! { enum Mask: u8 { LOW = (u8) LIMIT + 1 } }") {} = .ok u ∧
      u.module.load (.ofList [("LIMIT", 3)]) = .ok l ∧
      List.Forall₂ (fun t c => ∃ e ∈ u.resolved, l.Shows (.ofList [("LIMIT", 3)]) t e c) u.types
        l.classes ∧
      l.module.exports = ["m"] := by
  obtain ⟨u, l, h, hload, hexports⟩ := exists_loaded
    ("encap_enum! { pub mod m { pub enum Kind { A, B } } } " ++
      "encap_enum! { enum Mask: u8 { LOW = (u8) LIMIT + 1 } }") {} (.ofList [("LIMIT", 3)]) rfl
    (p := fun u =>
      ((u.declarations.flatMap Declaration.scopeEntries).filter (·.2 ≠ .own)).map Prod.fst = ["m"])
    (by decide +kernel)
  obtain ⟨hshows, hl, -, -⟩ := loaded_shows h hload
  exact ⟨u, l, h, hload, hshows, hl.trans hexports⟩

end MaskEnum
