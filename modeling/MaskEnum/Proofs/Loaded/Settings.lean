import MaskEnum.Loaded
import MaskEnum.Proofs.Generated.Unit
set_option autoImplicit false

/-!
# Where constants are computed

The module of a unit runs one class for every resolved enumeration, in order, and every class
computes one constant for each variant, in order. Where it does so, no names stand for something
else but those of the variants, those that a class or a module has from the start, and those that
the check of constants knows.

## Main definitions

* `MaskEnum.ResolvedEnum.companion?` — the class in which ordinals are looked up.
* `MaskEnum.Generated.Setting.Hosts`, `MaskEnum.Generated.Site.Hosts` — where the class of an
  enumeration is run and the constant of a variant is computed.

## Main results

* `MaskEnum.Generated.Module.load_eq_ok`, `MaskEnum.Generated.Module.load_eq_error` — the outcomes
  of loading.
* `MaskEnum.CompiledUnit.Of.hosts`, `MaskEnum.Generated.Setting.Hosts.sites` — a setting for every
  enumeration, and a site for every variant.
* `MaskEnum.CompiledUnit.Of.defined` — the names that stand for something else.
-/

namespace MaskEnum

/-- The class in which the ordinals of an enumeration are looked up, if it has any. -/
def ResolvedEnum.companion? (e : ResolvedEnum) : Option String :=
  if e.decl.isFieldless then e.decl.group.map companionName else none

/-- Outside modules there are no ordinals to look up. -/
theorem ResolvedEnum.companion?_of_block {e : ResolvedEnum} (h : e.decl.group = none) :
    e.companion? = none := by
  rw [companion?, h]
  exact ite_self _

/-- In a module, the companion is that of the module. -/
theorem ResolvedEnum.companion?_of_module {e : ResolvedEnum} {name : String}
    (h : e.decl.group = some name) : e.companion? = Generated.companionOf name e := by
  rw [companion?, h]
  rfl

namespace Generated

/-! ## Outcomes of loading -/

variable {supplied : Table String Int}

/-- A class is loaded if each of its constants gets a value. -/
theorem Setting.load_eq_ok {s : Setting} {c : LoadedClass} :
    s.load supplied = .ok c ↔ c.definition = s.definition ∧
      List.Forall₂ (fun site entry => site.constant.name = entry.1 ∧
        site.eval supplied = .ok entry.2) s.sites c.values := by
  have hsite : ∀ (site : Site) (entry : String × Int),
      (site.eval supplied >>= fun value => (.ok (site.constant.name, value) :
        Except LoadFault (String × Int))) = .ok entry ↔
      site.constant.name = entry.1 ∧ site.eval supplied = .ok entry.2 := by
    intro site ⟨name, value⟩
    simp only [bind_eq_ok, Except.ok.injEq, Prod.mk.injEq]
    constructor
    · rintro ⟨a, ha, hname, rfl⟩
      exact ⟨hname, ha⟩
    · rintro ⟨hname, ha⟩
      exact ⟨value, ha, hname, rfl⟩
  obtain ⟨definition, values⟩ := c
  simp only [Setting.load, bind_eq_ok, mapM_eq_ok, hsite, Except.ok.injEq, LoadedClass.mk.injEq]
  constructor
  · rintro ⟨values', hvalues, rfl, rfl⟩
    exact ⟨rfl, hvalues⟩
  · rintro ⟨rfl, hvalues⟩
    exact ⟨values, hvalues, rfl, rfl⟩

/-- A module is loaded if its text is a program whose names do not collide, and its classes are
loaded. -/
theorem Module.load_eq_ok {m : Module} {l : Loaded} :
    m.load supplied = .ok l ↔ m.textFault? = none ∧ m.isFree = true ∧ l.module = m ∧
      l.supplied = supplied ∧
      List.Forall₂ (fun s c => s.load supplied = .ok c) m.settings l.classes := by
  unfold Module.load
  split
  · next fault htext => exact ⟨nofun, fun h => by rw [htext] at h; cases h.1⟩
  · next htext =>
    split_ifs with hfree
    · obtain ⟨module, classes, constants⟩ := l
      simp only [bind_eq_ok, mapM_eq_ok, Except.ok.injEq, Loaded.mk.injEq]
      constructor
      · rintro ⟨classes', hclasses, rfl, rfl, rfl⟩
        exact ⟨htext, hfree, rfl, rfl, hclasses⟩
      · rintro ⟨-, -, rfl, rfl, hclasses⟩
        exact ⟨classes, hclasses, rfl, rfl, rfl⟩
    · exact ⟨nofun, fun h => absurd h.2.1 hfree⟩

/-- A module whose text is a program and whose names do not collide loads if its classes do. -/
theorem Module.exists_load {m : Module} (htext : m.textFault? = none) (hfree : m.isFree = true)
    (h : (m.settings.mapM (Setting.load · supplied)).toBool = true) :
    ∃ l, m.load supplied = .ok l := by
  rw [Module.load, htext]
  simp only [hfree, if_true]
  cases hclasses : m.settings.mapM (Setting.load · supplied) with
  | ok classes => exact ⟨⟨m, classes, supplied⟩, rfl⟩
  | error fault =>
    rw [hclasses] at h
    cases h

/-- Such a module fails to load where one of its classes does. -/
theorem Module.load_of_settings_error {m : Module} {fault : LoadFault} (htext : m.textFault? = none)
    (hfree : m.isFree = true) (h : m.settings.mapM (Setting.load · supplied) = .error fault) :
    m.load supplied = .error fault := by
  rw [Module.load, htext]
  simp only [hfree, if_true, h]
  rfl

/-- It fails to load only because one of its constants has no value. -/
theorem Module.load_eq_error {m : Module} {fault : LoadFault} (htext : m.textFault? = none)
    (hfree : m.isFree = true) (h : m.load supplied = .error fault) :
    ∃ s ∈ m.settings, ∃ site ∈ s.sites, site.eval supplied = .error fault := by
  rw [Module.load, htext, if_pos hfree, bind_eq_error] at h
  rcases h with h | ⟨classes, -, h⟩
  · obtain ⟨s, hs, h⟩ := mapM_eq_error h
    rcases bind_eq_error.mp h with h | ⟨values, -, h⟩
    · obtain ⟨site, hsite, h⟩ := mapM_eq_error h
      rcases bind_eq_error.mp h with h | ⟨value, -, h⟩
      · exact ⟨s, hs, site, hsite, h⟩
      · cases h
    · cases h
  · cases h

/-! ## Settings and sites -/

/-- The names that an item has before its classes run are names of the item. -/
theorem Item.names_subset (item : Item) : ∀ name ∈ item.names.1, name ∈ item.names.2 := by
  cases item with
  | single c => exact List.forall_mem_nil _
  | group group notes tables classes => exact fun name h => List.mem_cons_of_mem _ h

/-- The settings are those of the classes, in order. -/
theorem map_settingsFrom (defined : List String) (items : List Item) :
    (settingsFrom defined items).map (fun s => (s.tables, s.definition)) =
      items.flatMap fun item => item.classes.map fun c => (item.tables, c) := by
  induction items generalizing defined with
  | nil => rfl
  | cons item items ih =>
    rw [settingsFrom, List.map_append, ih, List.map_map, List.flatMap_cons]
    rfl

/-- What is defined in a setting was defined before, or an item defines it. -/
theorem defined_of_mem_settingsFrom {defined : List String} {items : List Item} {s : Setting}
    (hs : s ∈ settingsFrom defined items) {name : String} (hname : name ∈ s.defined) :
    name ∈ defined ∨ ∃ item ∈ items, name ∈ item.names.2 := by
  induction items generalizing defined with
  | nil => cases hs
  | cons item items ih =>
    rcases List.mem_append.mp hs with hs | hs
    · obtain ⟨c, -, rfl⟩ := List.mem_map.mp hs
      rcases List.mem_append.mp hname with hname | hname
      · exact .inr ⟨item, List.mem_cons_self, item.names_subset name hname⟩
      · exact .inl hname
    · rcases ih hs with hold | ⟨item', hitem', hnew⟩
      · rcases List.mem_append.mp hold with hnew | hold
        · exact .inr ⟨item, List.mem_cons_self, hnew⟩
        · exact .inl hold
      · exact .inr ⟨item', List.mem_cons_of_mem item hitem', hnew⟩

/-- The sites of a class are those of its constants, in order. -/
theorem Setting.map_sitesFrom (s : Setting) (defined : List String) (cs : List Constant) :
    (s.sitesFrom defined cs).map Site.constant = cs := by
  induction cs generalizing defined with
  | nil => rfl
  | cons c cs ih => rw [sitesFrom, List.map_cons, ih]

/-- What is defined at a site was defined before, or a constant of the class defines it. -/
theorem Setting.of_mem_sitesFrom {s : Setting} {defined : List String} {cs : List Constant}
    {site : Site} (hsite : site ∈ s.sitesFrom defined cs) :
    site.className = s.definition.name ∧ site.tables = s.tables ∧
      ∀ name ∈ site.defined, name ∈ defined ∨ name ∈ cs.map Constant.name := by
  induction cs generalizing defined with
  | nil => cases hsite
  | cons c cs ih =>
    rcases List.mem_cons.mp hsite with rfl | hsite
    · exact ⟨rfl, rfl, fun name hname => .inl hname⟩
    · obtain ⟨hclass, htables, hdefined⟩ := ih hsite
      refine ⟨hclass, htables, fun name hname => ?_⟩
      rw [List.map_cons, List.mem_cons]
      rcases hdefined name hname with hname | hname
      · rcases List.mem_cons.mp hname with rfl | hname
        · exact .inr (.inl rfl)
        · exact .inl hname
      · exact .inr (.inr hname)

/-! ## Enumerations and variants -/

/-- The class of the enumeration, whoever has read its documentation, is run in this setting, with
its table of ordinals at hand. -/
structure Setting.Hosts (s : Setting) (e : ResolvedEnum) : Prop where
  definition : ∃ read, classOf read e.companion? e = .ok s.definition
  table : e.companion?.isSome = true →
    s.tables.find? (·.name == e.decl.name) = some (tableOf e)

/-- The value of the variant of the enumeration is computed at this site. -/
structure Site.Hosts (site : Site) (e : ResolvedEnum) (v : ResolvedVariant) : Prop where
  className : site.className = e.decl.name
  constant : ∃ read, constantOf read e.companion? e v = .ok site.constant
  table : e.companion?.isSome = true →
    site.tables.find? (·.name == e.decl.name) = some (tableOf e)

/-- The constant has the name of the variant and its source. -/
theorem Site.Hosts.name_source {site : Site} {e : ResolvedEnum} {v : ResolvedVariant}
    (h : site.Hosts e v) :
    site.constant.name = v.name ∧ site.constant.source = sourceOf e.companion? e v := by
  obtain ⟨read, hconstant⟩ := h.constant
  obtain ⟨notes, -, heq⟩ := constantOf_eq_ok.mp hconstant
  rw [heq]
  exact ⟨rfl, rfl⟩

/-- In the setting of an enumeration, there is a site for each variant. -/
theorem Setting.Hosts.sites {s : Setting} {e : ResolvedEnum} (h : s.Hosts e) :
    List.Forall₂ (fun v site => site.Hosts e v) e.variants s.sites := by
  obtain ⟨read, hclass⟩ := h.definition
  obtain ⟨notes, constants, -, hconstants, hdefinition⟩ := classOf_eq_ok.mp hclass
  have hmap : s.sites.map Site.constant = constants := by
    rw [Setting.sites, map_sitesFrom, hdefinition]
  rw [← hmap, List.forall₂_map_right_iff] at hconstants
  refine (forall₂_and_mem hconstants).imp ?_
  rintro v site ⟨-, hsite, hconstant⟩
  obtain ⟨hname, htables, -⟩ := Setting.of_mem_sitesFrom hsite
  refine ⟨hname.trans (by rw [hdefinition]), ⟨read, hconstant⟩, fun hc => ?_⟩
  rw [htables]
  exact h.table hc

/-- What is defined at a site of an enumeration: its variants, what its class has from the start,
and what is defined in its setting. -/
theorem Setting.Hosts.defined {s : Setting} {e : ResolvedEnum} (h : s.Hosts e) {site : Site}
    (hsite : site ∈ s.sites) {name : String} (hname : name ∈ site.defined) :
    name ∈ s.definition.bodyNames ∨ name ∈ s.defined ∨
      name ∈ e.variants.map ResolvedVariant.name := by
  obtain ⟨read, hclass⟩ := h.definition
  obtain ⟨notes, constants, -, hconstants, hdefinition⟩ := classOf_eq_ok.mp hclass
  rcases (Setting.of_mem_sitesFrom hsite).2.2 name hname with hname | hname
  · rcases List.mem_append.mp hname with hname | hname
    · exact .inl hname
    · exact .inr (.inl hname)
  · obtain ⟨k, hk, rfl⟩ := List.mem_map.mp hname
    rw [hdefinition] at hk
    obtain ⟨v, hv, hconstant⟩ := exists_left_of_forall₂ hconstants hk
    obtain ⟨-, -, rfl⟩ := constantOf_eq_ok.mp hconstant
    exact .inr (.inr (List.mem_map_of_mem hv))

/-! ## One declaration -/

/-- Among members with pairwise different names, the table of a fieldless one is found. -/
theorem find?_tablesOf {members : List ResolvedEnum}
    (hnames : (members.map fun e => e.decl.name).Nodup) {e : ResolvedEnum} (he : e ∈ members)
    (hfieldless : e.decl.isFieldless = true) :
    (tablesOf members).find? (·.name == e.decl.name) = some (tableOf e) := by
  have hnodup : ((tablesOf members).map OrdinalTable.name).Nodup := by
    rw [tablesOf, List.map_map]
    exact hnames.sublist (List.filter_sublist.map _)
  exact find?_eq_some_of_nodup hnodup (a := tableOf e)
    (List.mem_map_of_mem (List.mem_filter.mpr ⟨he, hfieldless⟩))

/-- The classes of the items for a declaration are those of its members, with their tables. -/
theorem ItemsOf.hosts {read : Docs.Reader} {d : Declaration} {members : List ResolvedEnum}
    {items : List Item} (h : ItemsOf read d members items)
    (hgrouped : ∀ e ∈ members, e.decl ∈ d.enums) (hd : d.Grouped)
    (hnames : (members.map fun e => e.decl.name).Nodup) :
    List.Forall₂ (fun e p => Setting.Hosts ⟨p.1, [], p.2⟩ e) members
      (items.flatMap fun item => item.classes.map fun c => (item.tables, c)) := by
  cases h with
  | block hclasses =>
    rw [List.flatMap_map]
    show List.Forall₂ _ _ (List.flatMap (fun c => [(([] : List OrdinalTable), c)]) _)
    rw [← List.map_eq_flatMap, List.forall₂_map_right_iff]
    refine (forall₂_and_mem hclasses).imp ?_
    rintro e c ⟨he, -, hclass⟩
    have hnone := ResolvedEnum.companion?_of_block (hd _ (hgrouped e he))
    exact ⟨⟨read, hnone ▸ hclass⟩, fun hc => by rw [hnone] at hc; cases hc⟩
  | module _ hclasses =>
    rw [List.flatMap_singleton, List.forall₂_map_right_iff]
    refine (forall₂_and_mem hclasses).imp ?_
    rintro e c ⟨he, -, hclass⟩
    have hcompanion := ResolvedEnum.companion?_of_module (hd _ (hgrouped e he))
    refine ⟨⟨read, hcompanion ▸ hclass⟩, fun hc => ?_⟩
    refine find?_tablesOf hnames he ?_
    unfold ResolvedEnum.companion? at hc
    split_ifs at hc with hfieldless
    · exact hfieldless
    · cases hc

/-- The names that the items for a declaration bind are those that the declaration binds. -/
theorem ItemsOf.boundNames {read : Docs.Reader} {d : Declaration} {members : List ResolvedEnum}
    {items : List Item} (h : ItemsOf read d members items)
    (hmembers : ∀ e ∈ members, e.decl ∈ d.enums) :
    ∀ item ∈ items, ∀ name ∈ item.names.2, name ∈ d.boundNames := by
  intro item hitem name hname
  cases h with
  | block hclasses =>
    obtain ⟨c, hc, rfl⟩ := List.mem_map.mp hitem
    obtain rfl := List.mem_singleton.mp hname
    obtain ⟨e, he, hclass⟩ := exists_left_of_forall₂ hclasses hc
    obtain ⟨-, -, -, -, rfl⟩ := classOf_eq_ok.mp hclass
    exact List.mem_map_of_mem (hmembers e he)
  | module _ _ =>
    obtain rfl := List.mem_singleton.mp hitem
    simp only [Item.names] at hname
    rcases List.mem_cons.mp hname with rfl | hname
    · exact List.mem_cons_self
    · split_ifs at hname
      · cases hname
      · exact List.mem_cons_of_mem _ hname

end Generated

/-! ## The whole module -/

namespace CompiledUnit.Of

open Generated

variable {text : String} {options : Options} {u : CompiledUnit} (hu : u.Of text options)
include hu

/-- **Settings.** Every resolved enumeration has the setting in which its class is run. -/
theorem hosts : List.Forall₂ (fun e s => s.Hosts e) u.resolved u.module.settings := by
  obtain ⟨itemss, hitemss, hmodule⟩ := hu.module_eq
  have hall : List.Forall₂ (fun e p => Setting.Hosts ⟨p.1, [], p.2⟩ e) u.resolved
      (u.module.settings.map fun s => (s.tables, s.definition)) := by
    rw [Module.settings, map_settingsFrom, hmodule, List.flatten_eq_flatMap, List.flatMap_assoc,
      ← hu.flatMap_members]
    refine List.rel_flatMap (forall₂_and_mem hitemss) ?_
    rintro d items ⟨hd, -, hitems⟩
    obtain ⟨hmembers, hnames⟩ := hu.decl_mem_of_members hd
    exact hitems.hosts hmembers (hu.grouped hd) hnames
  rw [List.forall₂_map_right_iff] at hall
  exact hall.imp fun e s h => ⟨h.definition, h.table⟩

/-- **Defined names.** What is defined in a setting is known to the check of constants, or it is one
of the names that start with two underscores. -/
theorem defined {s : Setting} (hs : s ∈ u.module.settings) :
    ∀ name ∈ s.defined,
      name ∈ Collisions.moduleNames u.declarations ∨ startsWith "__" name = true := by
  intro name hname
  obtain ⟨itemss, hitemss, hmodule⟩ := hu.module_eq
  rcases defined_of_mem_settingsFrom hs hname with hname | ⟨item, hitem, hname⟩
  · have hhead : ∀ name ∈ u.module.headNames,
        name ∈ scopeNames ∨ startsWith "__" name = true := by
      intro name hname
      have hcases : name ∈ ["_dc", arithmeticName, "__all__", "__doc__", "_enum"] := by
        rcases List.mem_append.mp hname with hname | hname
        · exact List.mem_append_left ["_enum"] hname
        · split_ifs at hname
          · exact List.mem_append_right ["_dc", arithmeticName, "__all__", "__doc__"] hname
          · cases hname
      have hall : ∀ name ∈ ["_dc", arithmeticName, "__all__", "__doc__", "_enum"],
          name ∈ scopeNames ∨ startsWith "__" name = true := by
        decide
      exact hall name hcases
    exact (hhead name hname).imp (List.mem_append_left _) id
  · rw [hmodule] at hitem
    obtain ⟨items, hitems, hitem⟩ := List.mem_flatten.mp hitem
    obtain ⟨d, hd, hof⟩ := exists_left_of_forall₂ hitemss hitems
    have hbound := hof.boundNames (hu.decl_mem_of_members hd).1 item hitem name hname
    exact .inl (List.mem_append_right _ (List.mem_flatMap.mpr ⟨d, hd, hbound⟩))

end CompiledUnit.Of

end MaskEnum
