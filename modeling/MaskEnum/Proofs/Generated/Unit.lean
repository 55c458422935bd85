import MaskEnum.Compile
import MaskEnum.Proofs.Declaration.Admission
import MaskEnum.Proofs.Declaration.Identifiers
import MaskEnum.Proofs.Resolution.FixedPoint
import MaskEnum.Proofs.Resolution.Ordinals
import MaskEnum.Proofs.Resolution.Range
import MaskEnum.Proofs.Resolution.Symbols
set_option autoImplicit false

/-!
# Compiled units

A compiled unit holds its declarations, the enumerations that they are resolved to, and the module
that is generated for these. All three are in the same order. The members of a declaration are
looked up by their full names, which are unique, so each is found.

## Main definitions

* `MaskEnum.Checked` — declarations that pass the check for collisions.
* `MaskEnum.CompiledUnit.Of` — the unit of a text, step by step.
* `MaskEnum.CompiledUnit.members` — the resolved enumerations of a declaration.
* `MaskEnum.Generated.ItemsOf` — the items that are generated for a declaration.

## Main results

* `MaskEnum.compile_of`, `MaskEnum.CompiledUnit.Of.compile_eq` — a text that compiles has its unit,
  and the other way round.
* `MaskEnum.CompiledUnit.Of.flatMap_members`, `MaskEnum.CompiledUnit.Of.map_decl_members` — the
  members of the declarations are the resolved enumerations.
* `MaskEnum.CompiledUnit.Of.items` — the items of the module are those of the declarations.
-/

namespace MaskEnum

/-- Declarations that pass the check for collisions, as a text has them: enumerations know their
modules, and names are identifiers. -/
structure Checked (ds : List Declaration) : Prop where
  grouped : ∀ d ∈ ds, d.Grouped
  hasIdentifiers : ∀ d ∈ ds, d.HasIdentifiers
  collisions : Collisions.declarations ds = .ok ()

/-- Full names are unique in them. -/
theorem Checked.nodup_qualifiedName {ds : List Declaration} (h : Checked ds) :
    ((ds.flatMap Declaration.enums).map EnumDecl.qualifiedName).Nodup :=
  Collisions.nodup_qualifiedName h.collisions h.grouped

/-- Declarations of a text that pass the check. -/
theorem checked_of_declarationsOf {text : String} {ds : List Declaration}
    (h : declarationsOf text = .ok ds) (hcollisions : Collisions.declarations ds = .ok ()) :
    Checked ds where
  grouped d hd := by
    obtain ⟨⟨used, hused⟩, -⟩ := declarationsOf_spec h d hd
    exact hused.grouped
  hasIdentifiers d hd := (declarationsOf_spec h d hd).2
  collisions := hcollisions

/-- The steps that lead from a text to its unit. -/
structure CompiledUnit.Of (text : String) (options : Options) (u : CompiledUnit) : Prop where
  declarationsOf : declarationsOf text = .ok u.declarations
  collisions : Collisions.declarations u.declarations = .ok ()
  resolveUnit :
    resolveUnit (u.declarations.flatMap Declaration.enums) options.environment = .ok u.resolved
  symbols : Collisions.symbols u.declarations u.resolved = .ok ()
  ofUnit : Generated.ofUnit options.read u.declarations u.resolved options.source
    options.preamble = .ok u.module
  types : u.types = u.declarations.flatMap (Surface.ofDeclaration (Generated.byName u.resolved))

/-- A text that compiles has its unit. -/
theorem compile_of {text : String} {options : Options} {u : CompiledUnit}
    (h : compile text options = .ok u) : u.Of text options := by
  obtain ⟨declarations, hdeclarations, h⟩ := bind_eq_ok.mp h
  obtain ⟨⟨⟩, hcollisions, h⟩ := bind_eq_ok.mp h
  obtain ⟨resolved, hresolved, h⟩ := bind_eq_ok.mp h
  obtain ⟨⟨⟩, hsymbols, h⟩ := bind_eq_ok.mp h
  obtain ⟨module, hmodule, h⟩ := bind_eq_ok.mp h
  obtain rfl := Except.ok.inj h
  exact ⟨hdeclarations, hcollisions, hresolved, hsymbols, mapError_eq_ok.mp hmodule, rfl⟩

/-- A text whose steps lead to a unit compiles. -/
theorem CompiledUnit.Of.compile_eq {text : String} {options : Options} {u : CompiledUnit}
    (hu : u.Of text options) : compile text options = .ok u := by
  obtain ⟨ds, rs, types, module⟩ := u
  obtain ⟨hds, hcollisions, hrs, hsymbols, hmodule, htypes⟩ := hu
  obtain rfl : types = ds.flatMap (Surface.ofDeclaration (Generated.byName rs)) := htypes
  refine bind_eq_ok.mpr ⟨ds, hds, bind_eq_ok.mpr ⟨(), hcollisions, ?_⟩⟩
  refine bind_eq_ok.mpr ⟨rs, hrs, bind_eq_ok.mpr ⟨(), hsymbols, ?_⟩⟩
  exact bind_eq_ok.mpr ⟨module, mapError_eq_ok.mpr hmodule, rfl⟩

/-- What a computation says of the unit of a text that compiles. -/
theorem exists_compile (text : String) (options : Options) {p : CompiledUnit → Prop}
    [DecidablePred p]
    (h : (match compile text options with
      | .ok u => decide (p u)
      | .error _ => false) = true) : ∃ u, compile text options = .ok u ∧ p u := by
  split at h
  · next u hu => exact ⟨u, hu, of_decide_eq_true h⟩
  · cases h

/-! ## Generated items -/

namespace Generated

variable {read : Docs.Reader} {companion : Option String} {e : ResolvedEnum}

/-- The constant of a variant. -/
theorem constantOf_eq_ok {v : ResolvedVariant} {k : Constant} :
    constantOf read companion e v = .ok k ↔
      ∃ notes, Notes.ofAttributes read v.attributes = .ok notes ∧
        k = ⟨v.name, sourceOf companion e v, notes⟩ := by
  simp only [constantOf, bind_eq_ok, Except.ok.injEq]
  exact exists_congr fun notes => and_congr_right fun _ => eq_comm

/-- The class of an enumeration has a constant for each variant. -/
theorem classOf_eq_ok {c : Class} :
    classOf read companion e = .ok c ↔
      ∃ notes constants, Notes.ofAttributes read e.decl.attributes = .ok notes ∧
        List.Forall₂ (fun v k => constantOf read companion e v = .ok k) e.variants constants ∧
        c = ⟨e.decl.name, e.decl.group, e.decl.type, e.decl.access, e.decl.fieldAccess, notes,
          constants⟩ := by
  simp only [classOf, bind_eq_ok, mapM_eq_ok, Except.ok.injEq]
  constructor
  · rintro ⟨notes, hnotes, constants, hconstants, rfl⟩
    exact ⟨notes, constants, hnotes, hconstants, rfl⟩
  · rintro ⟨notes, constants, hnotes, hconstants, rfl⟩
    exact ⟨notes, hnotes, constants, hconstants, rfl⟩

/-- Classes have the names of their enumerations. -/
theorem map_name_of_classes {companion : ResolvedEnum → Option String}
    {members : List ResolvedEnum} {classes : List Class}
    (h : List.Forall₂ (fun e c => classOf read (companion e) e = .ok c) members classes) :
    classes.map Class.name = members.map fun e => e.decl.name := by
  refine (map_eq_of_forall₂ (h.imp fun e c hc => ?_)).symm
  obtain ⟨_, _, -, -, rfl⟩ := classOf_eq_ok.mp hc
  rfl

/-- The items for a declaration with these members, whose documentation is read by `read`. -/
inductive ItemsOf (read : Docs.Reader) : Declaration → List ResolvedEnum → List Item → Prop
  | block {enums : List EnumDecl} {members : List ResolvedEnum} {classes : List Class} :
      List.Forall₂ (fun e c => classOf read none e = .ok c) members classes →
        ItemsOf read (.block enums) members (classes.map .single)
  | module {name : String} {access : Access} {attributes : List String} {enums : List EnumDecl}
      {members : List ResolvedEnum} {notes : Notes} {classes : List Class} :
      Notes.ofAttributes read attributes = .ok notes →
      List.Forall₂ (fun e c => classOf read (companionOf name e) e = .ok c) members classes →
        ItemsOf read (.module name access attributes enums) members
          [.group name notes (tablesOf members) classes]

/-- Items that stand for themselves. -/
theorem mapM_single (classes : List Class) :
    (classes.mapM fun c => (Except.ok (.single c) : Except Fault Item)) =
      .ok (classes.map .single) :=
  mapM_eq_ok.mpr (List.forall₂_map_right_iff.mpr (List.forall₂_same.mpr fun _ _ => rfl))

/-- The items that are generated for a declaration. -/
theorem itemsOf_spec {resolved : Table QualifiedName ResolvedEnum} {d : Declaration}
    {items : List Item} (h : itemsOf read resolved d = .ok items) :
    ItemsOf read d (membersOf resolved d) items := by
  cases d with
  | block enums =>
    obtain ⟨classes, hclasses, h⟩ := bind_eq_ok.mp h
    rw [mapM_single] at h
    obtain rfl := Except.ok.inj h
    exact .block (mapM_eq_ok.mp hclasses)
  | module name access attributes enums =>
    obtain ⟨notes, hnotes, h⟩ := bind_eq_ok.mp h
    obtain ⟨classes, hclasses, h⟩ := bind_eq_ok.mp h
    obtain rfl := Except.ok.inj h
    exact .module hnotes (mapM_eq_ok.mp hclasses)

/-- Each resolved enumeration is found by its name. -/
theorem get?_byName {rs : List ResolvedEnum}
    (hrs : (rs.map fun r => r.decl.qualifiedName).Nodup) {r : ResolvedEnum} (hr : r ∈ rs) :
    (byName rs).get? r.decl.qualifiedName = some r := by
  refine Table.get?_insertAll_of_mem ?_ (List.mem_map_of_mem hr)
  rwa [List.map_map]

/-- What is found by a name is a resolved enumeration of that name. -/
theorem mem_of_get?_byName {rs : List ResolvedEnum} {q : QualifiedName} {r : ResolvedEnum}
    (hr : (byName rs).get? q = some r) : r ∈ rs ∧ r.decl.qualifiedName = q := by
  refine Table.forall_get?_insertAll (P := fun q r => r ∈ rs ∧ r.decl.qualifiedName = q)
    Table.forall_get?_empty ?_ q r hr
  exact List.forall_mem_map.mpr fun r hr => ⟨hr, rfl⟩

/-- The members of a declaration are resolved enumerations. -/
theorem mem_of_membersOf {rs : List ResolvedEnum} {d : Declaration} {r : ResolvedEnum}
    (hr : r ∈ membersOf (byName rs) d) : r ∈ rs := by
  obtain ⟨e, -, he⟩ := List.mem_filterMap.mp hr
  exact (mem_of_get?_byName he).1

/-- They have names of its enumerations, in order. -/
theorem sublist_name_membersOf (rs : List ResolvedEnum) (d : Declaration) :
    ((membersOf (byName rs) d).map fun r => r.decl.name).Sublist
      (d.enums.map EnumDecl.name) := by
  rw [membersOf, List.map_filterMap]
  refine filterMap_sublist_map (fun e name h => ?_) d.enums
  obtain ⟨r, hr, rfl⟩ := Option.map_eq_some_iff.mp h
  exact congrArg QualifiedName.name (mem_of_get?_byName hr).2

/-- A declaration is generated from its enumerations, each found by its name. -/
theorem map_decl_membersOf {rs : List ResolvedEnum}
    (hrs : (rs.map fun r => r.decl.qualifiedName).Nodup) {d : Declaration}
    (hd : ∀ e ∈ d.enums, e ∈ rs.map ResolvedEnum.decl) :
    (membersOf (byName rs) d).map ResolvedEnum.decl = d.enums := by
  have hsome : ∀ e ∈ d.enums,
      ((byName rs).get? e.qualifiedName).map ResolvedEnum.decl = some e := by
    intro e he
    obtain ⟨r, hr, rfl⟩ := List.mem_map.mp (hd e he)
    rw [get?_byName hrs hr, Option.map_some]
  rw [membersOf, List.map_filterMap, List.filterMap_congr hsome, List.filterMap_some]

section OfUnit

variable {read : Docs.Reader} {ds : List Declaration} {rs : List ResolvedEnum}
  {source : Option String} {preamble : List String} {m : Module}
  (h : ofUnit read ds rs source preamble = .ok m)
include h

/-- The parts of a generated module. -/
theorem exists_items_of_ofUnit :
    ∃ itemss,
      List.Forall₂ (fun d items => ItemsOf read d (membersOf (byName rs) d) items) ds itemss ∧
      m = ⟨source, read (headline source).toList, preamble, ds.flatMap exportsOf, itemss.flatten,
        (ds.flatMap Declaration.allAttributes).any (Docs.writesSurrogate read)⟩ := by
  obtain ⟨itemss, hitemss, h⟩ := bind_eq_ok.mp h
  exact ⟨itemss, (mapM_eq_ok.mp hitemss).imp fun _ _ => itemsOf_spec, (Except.ok.inj h).symm⟩

/-- Every item of a generated module belongs to a declaration. -/
theorem exists_declaration_of_ofUnit {item : Item} (hitem : item ∈ m.items) :
    ∃ d ∈ ds, ∃ items, ItemsOf read d (membersOf (byName rs) d) items ∧ item ∈ items := by
  obtain ⟨itemss, hitemss, rfl⟩ := exists_items_of_ofUnit h
  obtain ⟨items, hitems, hitem⟩ := List.mem_flatten.mp hitem
  obtain ⟨d, hd, hof⟩ := exists_left_of_forall₂ hitemss hitems
  exact ⟨d, hd, items, hof, hitem⟩

end OfUnit

end Generated

/-! ## Members -/

namespace CompiledUnit

/-- The resolved enumerations of a declaration. -/
def members (u : CompiledUnit) (d : Declaration) : List ResolvedEnum :=
  Generated.membersOf (Generated.byName u.resolved) d

namespace Of

variable {text : String} {options : Options} {u : CompiledUnit} (hu : u.Of text options)
include hu

/-- The declarations follow the grammar. -/
theorem spells {d : Declaration} (hd : d ∈ u.declarations) :
    ∃ used, Declaration.Spells used d :=
  (declarationsOf_spec hu.declarationsOf d hd).1

/-- Every name in a declaration is an identifier. -/
theorem hasIdentifiers {d : Declaration} (hd : d ∈ u.declarations) : d.HasIdentifiers :=
  (declarationsOf_spec hu.declarationsOf d hd).2

/-- Every name in a declaration is admitted. -/
theorem admitted {d : Declaration} (hd : d ∈ u.declarations) : d.Admitted :=
  Collisions.admitted hu.collisions d hd

/-- The enumerations of a declaration know its module. -/
theorem grouped {d : Declaration} (hd : d ∈ u.declarations) : d.Grouped := by
  obtain ⟨used, hused⟩ := hu.spells hd
  exact hused.grouped

/-- Full names are unique. -/
theorem nodup_enums :
    ((u.declarations.flatMap Declaration.enums).map EnumDecl.qualifiedName).Nodup :=
  Collisions.nodup_qualifiedName hu.collisions fun _ hd => hu.grouped hd

/-- The resolved enumerations are those declared, in the order of the text. -/
theorem map_decl_resolved :
    u.resolved.map ResolvedEnum.decl = u.declarations.flatMap Declaration.enums :=
  resolveUnit_decl hu.nodup_enums hu.resolveUnit

/-- The full names of resolved enumerations are unique. -/
theorem nodup_resolved : (u.resolved.map fun e => e.decl.qualifiedName).Nodup := by
  have h := hu.nodup_enums
  rwa [← hu.map_decl_resolved, List.map_map] at h

/-- The members of a declaration are its enumerations. -/
theorem map_decl_members {d : Declaration} (hd : d ∈ u.declarations) :
    (u.members d).map ResolvedEnum.decl = d.enums :=
  Generated.map_decl_membersOf hu.nodup_resolved fun _ he =>
    hu.map_decl_resolved ▸ List.mem_flatMap.mpr ⟨d, hd, he⟩

/-- The members of a declaration are among its enumerations and have pairwise different names. -/
theorem decl_mem_of_members {d : Declaration} (hd : d ∈ u.declarations) :
    (∀ e ∈ u.members d, e.decl ∈ d.enums) ∧
      ((u.members d).map fun e => e.decl.name).Nodup := by
  have hmap := hu.map_decl_members hd
  refine ⟨fun e he => hmap ▸ List.mem_map_of_mem he, ?_⟩
  have hnodup := (Collisions.declarations_ok hu.collisions).2 d hd
  rwa [← hmap, List.map_map] at hnodup

/-- All members in turn are the resolved enumerations. -/
theorem flatMap_members : u.declarations.flatMap u.members = u.resolved := by
  have hsome : ∀ r ∈ u.resolved,
      (Generated.byName u.resolved).get? r.decl.qualifiedName = some r :=
    fun r hr => Generated.get?_byName hu.nodup_resolved hr
  calc u.declarations.flatMap u.members
      = (u.declarations.flatMap Declaration.enums).filterMap fun e =>
          (Generated.byName u.resolved).get? e.qualifiedName := List.filterMap_flatMap.symm
    _ = u.resolved.filterMap fun r =>
          (Generated.byName u.resolved).get? r.decl.qualifiedName := by
        rw [← hu.map_decl_resolved, List.filterMap_map]
        rfl
    _ = u.resolved := by
        rw [List.filterMap_congr hsome, List.filterMap_some]

/-- The members of a declaration are resolved enumerations. -/
theorem mem_resolved {d : Declaration} (hd : d ∈ u.declarations) {e : ResolvedEnum}
    (he : e ∈ u.members d) : e ∈ u.resolved :=
  hu.flatMap_members ▸ List.mem_flatMap.mpr ⟨d, hd, he⟩

/-- The declaration of a resolved enumeration. -/
theorem exists_declaration {e : ResolvedEnum} (he : e ∈ u.resolved) :
    ∃ d ∈ u.declarations, e ∈ u.members d ∧ e.decl ∈ d.enums := by
  rw [← hu.flatMap_members] at he
  obtain ⟨d, hd, he⟩ := List.mem_flatMap.mp he
  exact ⟨d, hd, he, hu.map_decl_members hd ▸ List.mem_map_of_mem he⟩

/-- Every resolved enumeration has admitted names. -/
theorem admitted_decl {e : ResolvedEnum} (he : e ∈ u.resolved) : e.decl.Admitted := by
  obtain ⟨d, hd, -, hdecl⟩ := hu.exists_declaration he
  exact (hu.admitted hd).enums _ hdecl

/-- Every resolved enumeration has identifiers for names. -/
theorem hasIdentifiers_decl {e : ResolvedEnum} (he : e ∈ u.resolved) :
    e.decl.HasIdentifiers := by
  obtain ⟨d, hd, -, hdecl⟩ := hu.exists_declaration he
  exact (hu.hasIdentifiers hd).enums _ hdecl

/-- The variants are those declared. -/
theorem inPlace {e : ResolvedEnum} (he : e ∈ u.resolved) : e.InPlace :=
  resolveUnit_inPlace hu.resolveUnit e he

/-- Values lie in their types. -/
theorem fits {e : ResolvedEnum} (he : e ∈ u.resolved) : e.Fits :=
  resolveUnit_fits hu.resolveUnit e he

/-- The names in symbolic values can be used by a program. -/
theorem readable {e : ResolvedEnum} (he : e ∈ u.resolved) {v : ResolvedVariant}
    (hv : v ∈ e.variants) : v.value.Readable := by
  refine resolveUnit_readable (fun e he => ?_) hu.resolveUnit e he v hv
  obtain ⟨d, hd, he⟩ := List.mem_flatMap.mp he
  exact ((hu.hasIdentifiers hd).enums e he).constants

/-! ## The generated module -/

/-- The parts of the module. -/
theorem module_eq :
    ∃ items,
      List.Forall₂ (fun d is => Generated.ItemsOf options.read d (u.members d) is)
        u.declarations items ∧
      u.module = ⟨options.source, options.read (Generated.headline options.source).toList,
        options.preamble, u.declarations.flatMap Generated.exportsOf, items.flatten,
        (u.declarations.flatMap Declaration.allAttributes).any
          (Docs.writesSurrogate options.read)⟩ :=
  Generated.exists_items_of_ofUnit hu.ofUnit

/-- Every item of the module belongs to a declaration. -/
theorem exists_declaration_of_mem_items {item : Generated.Item} (h : item ∈ u.module.items) :
    ∃ d ∈ u.declarations, ∃ items,
      Generated.ItemsOf options.read d (u.members d) items ∧ item ∈ items :=
  Generated.exists_declaration_of_ofUnit hu.ofUnit h

/-- Every declaration has its items in the module. -/
theorem exists_items_of_mem_declarations {d : Declaration} (hd : d ∈ u.declarations) :
    ∃ items, Generated.ItemsOf options.read d (u.members d) items ∧
      ∀ item ∈ items, item ∈ u.module.items := by
  obtain ⟨itemss, hitemss, hmodule⟩ := hu.module_eq
  obtain ⟨items, hitems, hof⟩ := exists_right_of_forall₂ hitemss hd
  rw [hmodule]
  exact ⟨items, hof, fun item hitem => List.mem_flatten.mpr ⟨items, hitems, hitem⟩⟩

end Of

end CompiledUnit

end MaskEnum
