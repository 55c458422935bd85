import MaskEnum.Generated.Program
import MaskEnum.Proofs.Generated.Unit
set_option autoImplicit false

/-!
# Names in generated items

The names in the items that are generated for an admitted declaration are admissible and, in each of
their scopes, pairwise different. So they are free: none of them takes the place of another, or of
one that generated code looks up.

## Main definitions

* `MaskEnum.Generated.Class.Distinct`, `MaskEnum.Generated.OrdinalTable.Distinct`,
  `MaskEnum.Generated.Item.Distinct` — classes, tables and items with such names.

## Main results

* `MaskEnum.Generated.ItemsOf.distinct` — the items for an admitted declaration are distinct.
* `MaskEnum.Generated.Item.Distinct.isFree` — distinct items are free.
-/

namespace MaskEnum

/-- An admitted name is free. -/
theorem Admissible.isFree {name : String} (h : Admissible name) :
    Generated.isFree name = true := by
  have hscope : scopeNames.contains name = false := by
    simpa using h.notScope
  rw [Generated.isFree, hscope, h.notPrivate]
  rfl

namespace Generated

/-- A class whose name and constants have admissible names, none of a member, and pairwise
different. -/
structure Class.Distinct (c : Class) : Prop where
  name : Admissible c.name
  constants : ∀ k ∈ c.constants, Admissible k.name ∧ k.name ∉ generatedMembers
  nodup : (c.constants.map Constant.name).Nodup

/-- A table whose name is admissible, with pairwise different members that a table can have. -/
structure OrdinalTable.Distinct (t : OrdinalTable) : Prop where
  name : Admissible t.name
  members : ∀ member ∈ t.members, isOrdinalReserved member = false
  nodup : t.members.Nodup

/-- An item whose names are admissible and pairwise different in each of its scopes. Values of
constants are taken from its own companion alone. -/
inductive Item.Distinct : Item → Prop
  | single {c : Class} : c.Distinct → (∀ k ∈ c.constants, ∃ f, k.source = .formula f) →
      Distinct (.single c)
  | group {name : String} {notes : Notes} {tables : List OrdinalTable} {classes : List Class} :
      Admissible name → (tables.map OrdinalTable.name).Nodup →
      (∀ t ∈ tables, t.Distinct) →
      (classes.map Class.name).Nodup → (∀ c ∈ classes, c.Distinct) →
      (∀ c ∈ classes, ∀ k ∈ c.constants, ∀ companion table member,
        k.source = .member companion table member →
          companion = companionName name ∧ tables ≠ []) →
      Distinct (.group name notes tables classes)

/-! ## Names that are free -/

/-- A distinct class is free. -/
theorem Class.Distinct.isFree {c : Class} (h : c.Distinct) : c.isFree = true := by
  simp only [Class.isFree, Bool.and_eq_true, decide_eq_true_eq, List.all_eq_true]
  refine ⟨⟨h.name.isFree, h.nodup⟩, fun k hk => ⟨(h.constants k hk).1.isFree, ?_⟩⟩
  simpa using (h.constants k hk).2

/-- A distinct table is free. -/
theorem OrdinalTable.Distinct.isFree {t : OrdinalTable} (h : t.Distinct) : t.isFree = true := by
  simp only [OrdinalTable.isFree, Bool.and_eq_true, decide_eq_true_eq, List.all_eq_true]
  refine ⟨⟨h.name.isFree, fun member hmember => ?_⟩, h.nodup⟩
  rw [h.members member hmember]
  rfl

/-- A distinct item is free. -/
theorem Item.Distinct.isFree {item : Item} (h : item.Distinct) : item.isFree = true := by
  cases h with
  | single hc _ => exact hc.isFree
  | group hname htableNames htables hclassNames hclasses _ =>
    simp only [Item.isFree, Bool.and_eq_true, decide_eq_true_eq, List.all_eq_true]
    exact ⟨⟨⟨⟨hname.isFree, hclassNames⟩, htableNames⟩, fun c hc => (hclasses c hc).isFree⟩,
      fun t ht => (htables t ht).isFree⟩

/-! ## From declarations -/

variable {read : Docs.Reader}

/-- The class of an admitted enumeration is distinct. -/
theorem distinct_class {companion : Option String} {e : ResolvedEnum} (hplace : e.InPlace)
    (hdecl : e.decl.Admitted) {c : Class} (hc : classOf read companion e = .ok c) : c.Distinct := by
  obtain ⟨notes, constants, -, hconstants, rfl⟩ := classOf_eq_ok.mp hc
  have hnames : constants.map Constant.name = e.decl.variants.map VariantDecl.name := by
    rw [← hplace.names]
    refine (map_eq_of_forall₂ (hconstants.imp fun v k hk => ?_)).symm
    obtain ⟨_, -, rfl⟩ := constantOf_eq_ok.mp hk
    rfl
  refine ⟨hdecl.name, fun k hk => ?_, hnames ▸ hdecl.nodup⟩
  obtain ⟨v, hv, hname⟩ := List.mem_map.mp (hnames ▸ List.mem_map_of_mem (f := Constant.name) hk)
  rw [← hname]
  exact ⟨(hdecl.variants v hv).name, (hdecl.variants v hv).notMember⟩

/-- The values of its constants are formulas, or are taken from its companion. -/
theorem source_of_classOf {companion : Option String} {e : ResolvedEnum} {c : Class}
    (hc : classOf read companion e = .ok c) : ∀ k ∈ c.constants, (∃ f, k.source = .formula f) ∨
      ∃ name table member, companion = some name ∧ k.source = .member name table member := by
  obtain ⟨notes, constants, -, hconstants, rfl⟩ := classOf_eq_ok.mp hc
  intro k hk
  obtain ⟨v, -, hconstant⟩ := exists_left_of_forall₂ hconstants hk
  obtain ⟨_, -, rfl⟩ := constantOf_eq_ok.mp hconstant
  unfold sourceOf
  split
  · exact .inr ⟨_, _, _, rfl, rfl⟩
  · exact .inl ⟨_, rfl⟩

/-- The table of an admitted fieldless enumeration is distinct. -/
theorem distinct_tableOf {e : ResolvedEnum} (hplace : e.InPlace) (hdecl : e.decl.Admitted)
    (hfieldless : e.decl.isFieldless = true) : (tableOf e).Distinct := by
  have hmembers : (tableOf e).members = e.decl.variants.map VariantDecl.name := hplace.names
  refine ⟨hdecl.name, ?_, hmembers ▸ hdecl.nodup⟩
  rw [hmembers]
  refine List.forall_mem_map.mpr fun v hv => ?_
  exact (hdecl.variants v hv).ordinal (List.all_eq_true.mp hfieldless v hv)

/-- **Items.** The items for an admitted declaration are distinct. -/
theorem ItemsOf.distinct {d : Declaration} {members : List ResolvedEnum} {items : List Item}
    (h : ItemsOf read d members items) (hadmitted : d.Admitted)
    (hdecl : ∀ e ∈ members, e.InPlace ∧ e.decl.Admitted)
    (hnames : (members.map fun e => e.decl.name).Nodup) : ∀ item ∈ items, item.Distinct := by
  cases h with
  | block hclasses =>
    refine List.forall_mem_map.mpr fun c hc => ?_
    obtain ⟨e, he, hclass⟩ := exists_left_of_forall₂ hclasses hc
    refine .single (distinct_class (hdecl e he).1 (hdecl e he).2 hclass) fun k hk => ?_
    rcases source_of_classOf hclass k hk with hformula | ⟨_, _, _, hnone, -⟩
    · exact hformula
    · cases hnone
  | @module name _ _ _ _ notes classes _ hclasses =>
    have htableNames : ((tablesOf members).map OrdinalTable.name).Nodup := by
      rw [tablesOf, List.map_map]
      exact hnames.sublist (List.filter_sublist.map _)
    have hname : Admissible name := hadmitted.scope name (List.mem_singleton_self name)
    refine List.forall_mem_singleton.mpr (.group hname
      htableNames (List.forall_mem_map.mpr fun e he => ?_) (map_name_of_classes hclasses ▸ hnames)
      (fun c hc => ?_) fun c hc k hk companion table member hsource => ?_)
    · obtain ⟨hmember, hfieldless⟩ := List.mem_filter.mp he
      exact distinct_tableOf (hdecl e hmember).1 (hdecl e hmember).2 hfieldless
    · obtain ⟨e, he, hclass⟩ := exists_left_of_forall₂ hclasses hc
      exact distinct_class (hdecl e he).1 (hdecl e he).2 hclass
    · obtain ⟨e, he, hclass⟩ := exists_left_of_forall₂ hclasses hc
      rcases source_of_classOf hclass k hk with ⟨f, hf⟩ | ⟨_, _, _, hcompanion, hmember⟩
      · cases hf.symm.trans hsource
      · obtain ⟨rfl, -, -⟩ := Source.member.inj (hmember.symm.trans hsource)
        unfold companionOf at hcompanion
        split at hcompanion
        · next hfieldless =>
          refine ⟨(Option.some.inj hcompanion).symm, fun hempty => ?_⟩
          have htable : tableOf e ∈ tablesOf members :=
            List.mem_map_of_mem (List.mem_filter.mpr ⟨he, hfieldless⟩)
          rw [hempty] at htable
          cases htable
        · cases hcompanion

end Generated

end MaskEnum
