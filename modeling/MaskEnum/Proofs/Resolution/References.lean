import MaskEnum.Proofs.Resolution.Steps
set_option autoImplicit false

/-!
# References between the enumerations of a unit

A path means at most one enumeration of the unit, and it means the enumeration that writes it
exactly if it is the bare or the full name of that one. The reference graph has an edge for every
reference to another enumeration, so a cycle of references is a cycle of the graph.

## Main definitions

* `MaskEnum.Refers` — one enumeration of a unit refers to another.

## Main results

* `MaskEnum.findEnum_eq_self_iff` — the paths by which an enumeration means itself.
* `MaskEnum.exists_referenceGraph_iff`, `MaskEnum.edge_referenceGraph` — the reference graph: when
  there is one, and its edges.
* `MaskEnum.exists_transGen_edge_iff` — cycles of the graph are cycles of references.
-/

namespace MaskEnum

variable {unit : List EnumDecl} {e t : EnumDecl} {m : Option String} {path : EnumPath}

/-- The enumeration `e` of the unit refers to the enumeration `t`, a different one. -/
def Refers (unit : List EnumDecl) (e t : EnumDecl) : Prop :=
  e ∈ unit ∧ t ≠ e ∧ ∃ path ∈ e.enumPaths, findEnum unit e.group path = .ok (some t)

/-! ## What a path means -/

/-- In a unit with unique full names, each names its own enumeration. -/
theorem enumNamed?_of_mem (hunit : (unit.map EnumDecl.qualifiedName).Nodup) (he : e ∈ unit) :
    enumNamed? unit e.qualifiedName = some e := by
  obtain ⟨e', he'⟩ := Option.isSome_iff_exists.mp (isSome_enumNamed? he)
  rw [he', List.inj_on_of_nodup_map hunit (mem_of_enumNamed? he') he
    (qualifiedName_of_enumNamed? he')]

/-- A name that is unique in the unit means an enumeration of that name. -/
theorem uniqueNamed?_eq_some {name : String} (h : uniqueNamed? unit name = .ok (some e)) :
    e ∈ unit ∧ e.name = name := by
  unfold uniqueNamed? at h
  split at h
  · cases h
  · next e' he' =>
    obtain rfl := Option.some.inj (Except.ok.inj h)
    have hmem : e' ∈ unit.filter (·.name == name) := by
      rw [he']
      exact List.mem_singleton_self e'
    simpa using List.mem_filter.mp hmem
  · cases h

/-- What a path means belongs to the unit, and the path ends with its name, behind at most the
module around it. -/
theorem findEnum_eq_some (h : findEnum unit m path = .ok (some t)) :
    t ∈ unit ∧ (path.segments = [t.name] ∨ path = t.qualifiedName.path) := by
  unfold findEnum at h
  split at h
  · next name hpath =>
    rw [hpath]
    split at h
    · next e he =>
      obtain rfl := Option.some.inj (Except.ok.inj h)
      rcases Option.or_eq_some_iff.mp he with hmod | ⟨-, htop⟩
      · obtain ⟨g, -, hg⟩ := Option.bind_eq_some_iff.mp hmod
        refine ⟨mem_of_enumNamed? hg, Or.inl ?_⟩
        rw [(QualifiedName.mk.inj (qualifiedName_of_enumNamed? hg)).2]
      · refine ⟨mem_of_enumNamed? htop, Or.inl ?_⟩
        rw [(QualifiedName.mk.inj (qualifiedName_of_enumNamed? htop)).2]
    · obtain ⟨hmem, rfl⟩ := uniqueNamed?_eq_some h
      exact ⟨hmem, Or.inl rfl⟩
  · next g name hpath =>
    have hnamed : enumNamed? unit ⟨some g, name⟩ = some t := Except.ok.inj h
    refine ⟨mem_of_enumNamed? hnamed, Or.inr ?_⟩
    rw [qualifiedName_of_enumNamed? hnamed]
    exact congrArg EnumPath.mk hpath
  · cases h

/-- An enumeration means itself by its bare and its full name, and by no other path. -/
theorem findEnum_eq_self_iff (hunit : (unit.map EnumDecl.qualifiedName).Nodup) (he : e ∈ unit) :
    findEnum unit e.group path = .ok (some e) ↔ Resolution.isOwn e path = true := by
  have hown : Resolution.isOwn e path = true ↔
      path.segments = [e.name] ∨ path = e.qualifiedName.path := by
    rw [Resolution.isOwn, Bool.or_eq_true, beq_iff_eq, beq_iff_eq]
  rw [hown]
  refine ⟨fun h => (findEnum_eq_some h).2, fun h => ?_⟩
  have hself := enumNamed?_of_mem hunit he
  cases hg : e.group with
  | none =>
    rw [EnumDecl.qualifiedName, hg] at hself
    have hpath : path.segments = [e.name] := by
      rcases h with h | h
      · exact h
      · rw [h, QualifiedName.path, EnumDecl.qualifiedName, hg]
    unfold findEnum
    rw [hpath]
    simp only [Option.bind_none, Option.none_or, hself]
  | some g =>
    rw [EnumDecl.qualifiedName, hg] at hself
    rcases h with h | h
    · unfold findEnum
      rw [h]
      simp only [Option.bind_some, hself, Option.some_or]
    · rw [EnumDecl.qualifiedName, hg] at h
      rw [h]
      exact congrArg Except.ok hself

/-! ## Edges -/

/-- The edge for the reference of `e` along a path, from another enumeration that is found. -/
def edgeAlong (unit : List EnumDecl) (e : EnumDecl) (path : EnumPath) :
    Option (QualifiedName × QualifiedName) :=
  match findEnum unit e.group path with
  | .ok (some t) => if t = e then none else some (t.qualifiedName, e.qualifiedName)
  | _ => none

/-- An edge along a path leads from the enumeration that the path means. -/
theorem edgeAlong_eq_some {a b : QualifiedName} :
    edgeAlong unit e path = some (a, b) ↔
      ∃ t, findEnum unit e.group path = .ok (some t) ∧ t ≠ e ∧ t.qualifiedName = a ∧
        e.qualifiedName = b := by
  unfold edgeAlong
  split
  · next t ht =>
    simp only [ht, Except.ok.injEq, Option.some.injEq, exists_eq_left']
    split_ifs with hte
    · simp [hte]
    · simp [hte]
  · next hnone =>
    refine ⟨nofun, ?_⟩
    rintro ⟨t, ht, -⟩
    exact absurd ht (hnone t)

/-- The edges of one enumeration, one for each path to another; no path may be ambiguous. -/
theorem edgesOf_eq_ok {paths : List EnumPath} {es : List (QualifiedName × QualifiedName)} :
    edgesOf unit e paths = .ok es ↔
      (∀ path ∈ paths, ∃ o, findEnum unit e.group path = .ok o) ∧
        es = paths.filterMap (edgeAlong unit e) := by
  induction paths generalizing es with
  | nil => simp [edgesOf, eq_comm]
  | cons path paths ih =>
    rw [edgesOf, List.forall_mem_cons, List.filterMap_cons, edgeAlong]
    cases findEnum unit e.group path with
    | error fault => simp
    | ok o =>
      simp only [bind_eq_ok, ih, Except.ok.injEq, exists_eq', true_and]
      constructor
      · rintro ⟨more, ⟨hpaths, rfl⟩, h⟩
        refine ⟨hpaths, ?_⟩
        cases o with
        | none => exact (Except.ok.inj h).symm
        | some t =>
          simp only at h ⊢
          split_ifs at h ⊢ <;> exact (Except.ok.inj h).symm
      · rintro ⟨hpaths, rfl⟩
        refine ⟨_, ⟨hpaths, rfl⟩, ?_⟩
        cases o with
        | none => rfl
        | some t =>
          simp only
          split_ifs <;> rfl

/-- The edges of several enumerations. -/
theorem edges_eq_ok {ds : List EnumDecl} {es : List (QualifiedName × QualifiedName)} :
    edges unit ds = .ok es ↔
      (∀ e ∈ ds, ∀ path ∈ e.enumPaths, ∃ o, findEnum unit e.group path = .ok o) ∧
        es = ds.flatMap fun e => e.enumPaths.filterMap (edgeAlong unit e) := by
  induction ds generalizing es with
  | nil => simp [edges, eq_comm]
  | cons e ds ih =>
    simp only [edges, bind_eq_ok, edgesOf_eq_ok, ih, List.forall_mem_cons, List.flatMap_cons,
      Except.ok.injEq]
    constructor
    · rintro ⟨first, ⟨hfirst, rfl⟩, rest, ⟨hrest, rfl⟩, rfl⟩
      exact ⟨⟨hfirst, hrest⟩, rfl⟩
    · rintro ⟨⟨hfirst, hrest⟩, rfl⟩
      exact ⟨_, ⟨hfirst, rfl⟩, _, ⟨hrest, rfl⟩, rfl⟩

/-- There is a reference graph unless a path is ambiguous. -/
theorem exists_referenceGraph_iff :
    (∃ g, referenceGraph unit = .ok g) ↔
      ∀ e ∈ unit, ∀ path ∈ e.enumPaths, ∃ o, findEnum unit e.group path = .ok o := by
  simp only [referenceGraph_eq_ok, edges_eq_ok]
  exact ⟨fun ⟨_, _, ⟨h, _⟩, _⟩ => h, fun h => ⟨_, _, ⟨h, rfl⟩, rfl⟩⟩

/-- The edges of the reference graph are the references, from the one referred to. -/
theorem edge_referenceGraph {g : Graph QualifiedName} (hg : referenceGraph unit = .ok g)
    {a b : QualifiedName} :
    g.Edge a b ↔ ∃ e t, Refers unit e t ∧ t.qualifiedName = a ∧ e.qualifiedName = b := by
  obtain ⟨es, hes, rfl⟩ := referenceGraph_eq_ok.mp hg
  obtain ⟨-, rfl⟩ := edges_eq_ok.mp hes
  simp only [Graph.edge_ofEdges, List.mem_flatMap, List.mem_filterMap, edgeAlong_eq_some]
  constructor
  · rintro ⟨e, he, path, hpath, t, ht, hne, ha, hb⟩
    exact ⟨e, t, ⟨he, hne, path, hpath, ht⟩, ha, hb⟩
  · rintro ⟨e, t, ⟨he, hne, path, hpath, ht⟩, ha, hb⟩
    exact ⟨e, he, path, hpath, t, ht, hne, ha, hb⟩

/-- What is referred to belongs to the unit. -/
theorem Refers.mem (h : Refers unit e t) : t ∈ unit := by
  obtain ⟨-, -, path, -, ht⟩ := h
  exact (findEnum_eq_some ht).1

/-- A cycle of the graph is a cycle of references. -/
theorem exists_transGen_edge_iff (hunit : (unit.map EnumDecl.qualifiedName).Nodup)
    {g : Graph QualifiedName} (hg : referenceGraph unit = .ok g) :
    (∃ q, Relation.TransGen g.Edge q q) ↔ ∃ e, Relation.TransGen (Refers unit) e e := by
  -- edges come from what is referred to, so a path of the graph goes against the references
  have hpath : ∀ {a b}, Relation.TransGen g.Edge a b → ∃ e ∈ unit, ∃ t ∈ unit,
      Relation.TransGen (Refers unit) e t ∧ t.qualifiedName = a ∧ e.qualifiedName = b := by
    intro a b h
    induction h with
    | single h =>
      obtain ⟨e, t, hr, ha, hb⟩ := (edge_referenceGraph hg).mp h
      exact ⟨e, hr.1, t, hr.mem, .single hr, ha, hb⟩
    | tail _ h ih =>
      obtain ⟨e, he, t, ht, hr, ha, rfl⟩ := ih
      obtain ⟨e', t', hr', heq, hb⟩ := (edge_referenceGraph hg).mp h
      obtain rfl : t' = e := List.inj_on_of_nodup_map hunit hr'.mem he heq
      exact ⟨e', hr'.1, t, ht, .head hr' hr, ha, hb⟩
  constructor
  · rintro ⟨q, hq⟩
    obtain ⟨e, he, t, ht, hr, ha, hb⟩ := hpath hq
    obtain rfl : t = e := List.inj_on_of_nodup_map hunit ht he (ha.trans hb.symm)
    exact ⟨t, hr⟩
  · rintro ⟨e, he⟩
    have hlift : ∀ {e t}, Relation.TransGen (Refers unit) e t →
        Relation.TransGen g.Edge t.qualifiedName e.qualifiedName := by
      intro e t h
      induction h with
      | single h => exact .single ((edge_referenceGraph hg).mpr ⟨_, _, h, rfl, rfl⟩)
      | tail _ h ih => exact .head ((edge_referenceGraph hg).mpr ⟨_, _, h, rfl, rfl⟩) ih
    exact ⟨e.qualifiedName, hlift he⟩

end MaskEnum
