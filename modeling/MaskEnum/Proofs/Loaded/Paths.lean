import MaskEnum.Proofs.Loaded.Values
set_option autoImplicit false

/-!
# Names of a loaded module

Every type of a loaded module is found by its full name, and every table of ordinals by its name in
the companion of its module. Nothing else has such a name, because the check for collisions keeps
the names at module level apart and those of companions free.

## Main results

* `MaskEnum.CompiledUnit.Of.place?_eq` — a name at module level has one meaning.
* `MaskEnum.CompiledUnit.Of.type_eq` — a type is found by its full name.
* `MaskEnum.CompiledUnit.Of.find_table_eq` — a table of ordinals is found in its companion.
-/

namespace MaskEnum

/-- What all hits of a search agree on is what it finds, if there is a hit. -/
theorem findSome?_eq_some_of_forall {α β : Type} {f : α → Option β} {as : List α} {a : α} {b : β}
    (ha : a ∈ as) (hb : f a = some b) (hall : ∀ a ∈ as, ∀ b', f a = some b' → b' = b) :
    as.findSome? f = some b := by
  have hsome : (as.findSome? f).isSome = true :=
    List.findSome?_isSome_iff.mpr ⟨a, ha, by rw [hb]; rfl⟩
  obtain ⟨b', hb'⟩ := Option.isSome_iff_exists.mp hsome
  obtain ⟨a', ha', hfound⟩ := List.exists_of_findSome?_eq_some hb'
  rw [hb', hall a' ha' b' hfound]

/-- A name that stands for something in an item is a name of the item. -/
theorem Loaded.mem_names_of_placeOf? {l : Loaded} {name : String} {item : Generated.Item}
    {place : Place} (h : l.placeOf? name item = some place) : name ∈ item.names.2 := by
  cases item with
  | single c =>
    rw [placeOf?] at h
    split_ifs at h with hname
    exact List.mem_singleton.mpr hname.symm
  | group group notes tables classes =>
    rw [placeOf?] at h
    split_ifs at h with hname hcompanion
    · exact List.mem_cons.mpr (.inl hname.symm)
    · simp only [Bool.and_eq_true, decide_eq_true_eq, Bool.not_eq_true'] at hcompanion
      simp [Generated.Item.names, hcompanion.1, hcompanion.2]

namespace Generated

/-- In the items for one declaration, a name stands for one thing. -/
theorem ItemsOf.placeOf?_unique {read : Docs.Reader} {d : Declaration}
    {members : List ResolvedEnum} {items items' : List Item} (h : ItemsOf read d members items)
    (h' : ItemsOf read d members items')
    {l : Loaded} {name : String} {item item' : Item} {place place' : Place} (hitem : item ∈ items)
    (hitem' : item' ∈ items') (hplace : l.placeOf? name item = some place)
    (hplace' : l.placeOf? name item' = some place') : place' = place := by
  cases h with
  | block _ =>
    cases h' with
    | block _ =>
      obtain ⟨c, -, rfl⟩ := List.mem_map.mp hitem
      obtain ⟨c', -, rfl⟩ := List.mem_map.mp hitem'
      rw [Loaded.placeOf?] at hplace hplace'
      split_ifs at hplace hplace'
      exact Option.some.inj (hplace'.symm.trans hplace)
  | module hnotes _ =>
    cases h' with
    | module hnotes' _ =>
      obtain rfl := List.mem_singleton.mp hitem
      obtain rfl := List.mem_singleton.mp hitem'
      obtain rfl := Except.ok.inj (hnotes.symm.trans hnotes')
      exact Option.some.inj (hplace'.symm.trans hplace)

end Generated

namespace CompiledUnit.Of

open Generated

variable {text : String} {options : Options} {u : CompiledUnit} (hu : u.Of text options)
  {l : Loaded} (hl : l.module = u.module)
include hu hl

/-- **One meaning.** What a name stands for in an item of a declaration is what it stands for at
module level. -/
theorem place?_eq {d : Declaration} (hd : d ∈ u.declarations) {items : List Item}
    (hof : ItemsOf options.read d (u.members d) items) {item : Item} (hmem : item ∈ u.module.items)
    (hitem : item ∈ items) {name : String} {place : Place}
    (hplace : l.placeOf? name item = some place) : l.place? name = some place := by
  rw [Loaded.place?, hl]
  refine findSome?_eq_some_of_forall hmem hplace fun item' hmem' place' hplace' => ?_
  obtain ⟨d', hd', items', hof', hitem'⟩ := hu.exists_declaration_of_mem_items hmem'
  have hbound : name ∈ d.boundNames :=
    hof.boundNames (hu.decl_mem_of_members hd).1 item hitem name
      (Loaded.mem_names_of_placeOf? hplace)
  have hbound' : name ∈ d'.boundNames :=
    hof'.boundNames (hu.decl_mem_of_members hd').1 item' hitem' name
      (Loaded.mem_names_of_placeOf? hplace')
  obtain rfl := Collisions.eq_of_mem_boundNames hu.collisions hd hd' hbound hbound'
  exact hof.placeOf?_unique hof' hitem hitem' hplace hplace'

/-- The class of an enumeration outside modules is what its name stands for. -/
theorem place?_enum {enums : List EnumDecl} (hd : .block enums ∈ u.declarations)
    {e : ResolvedEnum} (he : e ∈ u.members (.block enums)) {c : LoadedClass}
    (hc : l.class? ⟨none, e.decl.name⟩ = some c) : l.place? e.decl.name = some (.type c) := by
  obtain ⟨items, hof, hitems⟩ := hu.exists_items_of_mem_declarations hd
  obtain ⟨k, hk, hname⟩ : ∃ k, .single k ∈ items ∧ k.name = e.decl.name := by
    cases hof with
    | block hclasses =>
      obtain ⟨k, hk, hclass⟩ := exists_right_of_forall₂ hclasses he
      obtain ⟨_, _, _, _, heq⟩ := classOf_eq_ok.mp hclass
      exact ⟨k, List.mem_map_of_mem hk, by rw [heq]⟩
  refine hu.place?_eq hl hd hof (hitems _ hk) hk ?_
  rw [Loaded.placeOf?, if_pos hname, hc]
  rfl

/-- The item of a module. -/
theorem exists_group {name : String} {access : Access} {attributes : List String}
    {enums : List EnumDecl} (hd : .module name access attributes enums ∈ u.declarations)
    {tables : List OrdinalTable}
    (htables : tablesOf (u.members (.module name access attributes enums)) = tables)
    (inner : String) (place : Notes → Place)
    (hplace : ∀ notes classes,
      l.placeOf? inner (.group name notes tables classes) = some (place notes)) :
    ∃ notes, l.place? inner = some (place notes) := by
  obtain ⟨items, hof, hitems⟩ := hu.exists_items_of_mem_declarations hd
  obtain ⟨notes, classes, hitem⟩ : ∃ notes classes, .group name notes tables classes ∈ items := by
    subst htables
    cases hof with
    | module _ _ => exact ⟨_, _, List.mem_singleton_self _⟩
  exact ⟨notes, hu.place?_eq hl hd hof (hitems _ hitem) hitem (hplace notes classes)⟩

omit hl in
/-- Loaded classes are found by the full names of their enumerations. -/
theorem class?_eq {supplied : Table String Int}
    (hclasses : List.Forall₂ (fun e c => LoadedClass.Realizes c supplied e) u.resolved l.classes)
    {e : ResolvedEnum} {c : LoadedClass} (hc : c ∈ l.classes) (he : c.Realizes supplied e) :
    l.class? e.decl.qualifiedName = some c := by
  have hnames : l.classes.map LoadedClass.name =
      u.resolved.map fun e => e.decl.qualifiedName :=
    (map_eq_of_forall₂ (hclasses.imp fun _ _ h => h.name_type.1.symm)).symm
  rw [← he.name_type.1]
  exact find?_eq_some_of_nodup (hnames ▸ hu.nodup_resolved) hc

/-- **Types.** Every loaded class is found by its full name. -/
theorem type_eq {supplied : Table String Int}
    (hclasses : List.Forall₂ (fun e c => LoadedClass.Realizes c supplied e) u.resolved l.classes)
    {e : ResolvedEnum} {c : LoadedClass} (he : e ∈ u.resolved) (hc : c ∈ l.classes)
    (hrealizes : c.Realizes supplied e) : l.type e.decl.qualifiedName.path.segments = .ok c := by
  have hclass := hu.class?_eq hclasses hc hrealizes
  obtain ⟨d, hd, hmember, hdecl⟩ := hu.exists_declaration he
  have hfind : l.find e.decl.qualifiedName.path.segments = .ok (.type c) := by
    cases d with
    | block enums =>
      have hgroup : e.decl.group = none := hu.grouped hd _ hdecl
      have hname : e.decl.qualifiedName = ⟨none, e.decl.name⟩ := by
        rw [EnumDecl.qualifiedName, hgroup]
      rw [hname] at hclass ⊢
      show l.find [e.decl.name] = _
      rw [Loaded.find, hu.place?_enum hl hd hmember hclass]
      rfl
    | module name access attributes enums =>
      have hgroup : e.decl.group = some name := hu.grouped hd _ hdecl
      have hname : e.decl.qualifiedName = ⟨some name, e.decl.name⟩ := by
        rw [EnumDecl.qualifiedName, hgroup]
      rw [hname] at hclass ⊢
      show l.find [name, e.decl.name] = _
      obtain ⟨notes, hplace⟩ := hu.exists_group hl hd rfl name
        (.group name) fun notes classes => by
          rw [Loaded.placeOf?, if_pos rfl]
      rw [Loaded.find, hplace]
      show l.follow (.group name notes) [e.decl.name] = _
      rw [Loaded.follow, Loaded.memberOf?, hclass]
      rfl
  rw [Loaded.type, hfind]
  rfl

/-- **Tables.** The table of ordinals of a fieldless enumeration is found in the companion of its
module. -/
theorem find_table_eq {e : ResolvedEnum} (he : e ∈ u.resolved)
    (hfieldless : e.decl.isFieldless = true) {name : String}
    (hgroup : e.decl.group = some name) :
    l.find [companionName name, e.decl.name] = .ok (.table (tableOf e)) := by
  obtain ⟨d, hd, hmember, hdecl⟩ := hu.exists_declaration he
  cases d with
  | block enums =>
    have hnone : e.decl.group = none := hu.grouped hd _ hdecl
    rw [hnone] at hgroup
    cases hgroup
  | module name' access attributes enums =>
    have hname : e.decl.group = some name' := hu.grouped hd _ hdecl
    obtain rfl := Option.some.inj (hname.symm.trans hgroup)
    have hadmissible : Admissible name' := (hu.admitted hd).scope _ (List.mem_singleton_self _)
    have htable := find?_tablesOf (hu.decl_mem_of_members hd).2 hmember hfieldless
    generalize htables : tablesOf (u.members (.module name' access attributes enums)) = tables
      at htable
    have hne : tables.isEmpty = false := by
      cases tables with
      | nil => cases htable
      | cons t ts => rfl
    obtain ⟨-, hplace⟩ := hu.exists_group hl hd htables (companionName name')
      (fun _ => .companion tables) fun notes classes => by
        rw [Loaded.placeOf?, if_neg (hadmissible.ne_companionName name').symm, hne]
        simp
    rw [Loaded.find, hplace]
    show l.follow (.companion tables) [e.decl.name] = _
    rw [Loaded.follow, Loaded.memberOf?, htable]
    rfl

end CompiledUnit.Of

end MaskEnum
