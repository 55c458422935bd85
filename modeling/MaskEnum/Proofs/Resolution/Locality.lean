import MaskEnum.Proofs.Resolution.Steps
set_option autoImplicit false

/-!
# Resolution is local

The values of an enumeration depend on other enumerations only through the paths that its
initializers write, its own path excepted. Two ways to look up enumerations that agree on these
paths give the same resolution.

## Main results

* `MaskEnum.Resolution.variants_congr` — the values of the variants.
* `MaskEnum.resolveEnum_congr` — a whole enumeration.
-/

namespace MaskEnum

namespace Resolution

variable {decl : EnumDecl} {environment : Environment} {find find' : EnumPath → Option ResolvedEnum}
  {current : String} {bound : List (String × Value)}

/-- An operand asks only for the path that it writes. -/
theorem operand_congr {o : Operand}
    (h : ∀ path ∈ o.enumPath?, isOwn decl path = false → find path = find' path) :
    operand ⟨⟨decl, environment, find⟩, current, bound⟩ o =
      operand ⟨⟨decl, environment, find'⟩, current, bound⟩ o := by
  cases o with
  | literal l => rfl
  | variant name => rfl
  | negated name => rfl
  | external name source =>
    cases source with
    | typed source => rfl
    | bare => rfl
    | enumeration path =>
      simp only [operand]
      split_ifs with hown
      · rfl
      · simp only [foreign, h path rfl (Bool.not_eq_true _ ▸ hown), Scope.type]

/-- A group asks only for the paths that its operands write. -/
theorem group_congr {op : Operator} {os : List Operand}
    (h : ∀ path ∈ os.filterMap Operand.enumPath?, isOwn decl path = false →
      find path = find' path) (x : Value) :
    group ⟨⟨decl, environment, find⟩, current, bound⟩ op x os =
      group ⟨⟨decl, environment, find'⟩, current, bound⟩ op x os := by
  induction os generalizing x with
  | nil => rfl
  | cons o os ih =>
    have ho : ∀ path ∈ o.enumPath?, isOwn decl path = false → find path = find' path :=
      fun path hpath => h path (List.mem_filterMap.mpr ⟨o, List.mem_cons_self, hpath⟩)
    have hos := ih fun path hpath => h path (by
      obtain ⟨o', ho', hp⟩ := List.mem_filterMap.mp hpath
      exact List.mem_filterMap.mpr ⟨o', List.mem_cons_of_mem o ho', hp⟩)
    simp only [group, operand_congr ho, hos]
    rfl

/-- An initializer asks only for the paths that it writes. -/
theorem initializer_congr {init : Initializer}
    (h : ∀ path ∈ init.enumPaths, isOwn decl path = false → find path = find' path) :
    initializer ⟨⟨decl, environment, find⟩, current, bound⟩ init =
      initializer ⟨⟨decl, environment, find'⟩, current, bound⟩ init := by
  induction init with
  | operand o =>
    rw [initializer_operand, initializer_operand]
    refine operand_congr fun path hpath => h path ?_
    exact List.mem_filterMap.mpr ⟨o, List.mem_singleton_self o, hpath⟩
  | chain op first os ih =>
    have hsplit : (Initializer.chain op first os).enumPaths =
        first.enumPaths ++ os.filterMap Operand.enumPath? := by
      rw [Initializer.enumPaths, Initializer.operands, List.filterMap_append]
      rfl
    rw [hsplit] at h
    rw [initializer, initializer, ih fun path hpath => h path (List.mem_append_left _ hpath)]
    simp only [group_congr fun path hpath => h path (List.mem_append_right _ hpath)]

/-- A variant asks only for the paths of its initializer. -/
theorem value_congr {index : Nat} {v : VariantDecl}
    (h : ∀ init, v.value = some init →
      ∀ path ∈ init.enumPaths, isOwn decl path = false → find path = find' path) :
    value ⟨decl, environment, find⟩ bound index v =
      value ⟨decl, environment, find'⟩ bound index v := by
  unfold value
  split
  · rfl
  · next init hv => exact initializer_congr (h init hv)

/-- The variants ask only for the paths of their initializers. -/
theorem variants_congr {index : Nat} {vs : List VariantDecl}
    (h : ∀ v ∈ vs, ∀ init, v.value = some init →
      ∀ path ∈ init.enumPaths, isOwn decl path = false → find path = find' path) :
    variants ⟨decl, environment, find⟩ index bound vs =
      variants ⟨decl, environment, find'⟩ index bound vs := by
  induction vs generalizing index bound with
  | nil => rfl
  | cons v vs ih =>
    obtain ⟨hv, hvs⟩ := List.forall_mem_cons.mp h
    simp only [variants, value_congr hv, ih hvs]

end Resolution

/-- The paths of an enumeration are those of its initializers. -/
theorem EnumDecl.mem_enumPaths {e : EnumDecl} {path : EnumPath} :
    path ∈ e.enumPaths ↔ ∃ v ∈ e.variants, ∃ init, v.value = some init ∧ path ∈ init.enumPaths := by
  rw [enumPaths, List.mem_flatMap]
  refine exists_congr fun v => and_congr_right fun _ => ?_
  cases v.value with
  | none => simp
  | some init => simp

/-- An enumeration is resolved alike by two ways to look up the others that agree on the paths it
writes. -/
theorem resolveEnum_congr {decl : EnumDecl} {environment : Environment}
    {find find' : EnumPath → Option ResolvedEnum}
    (h : ∀ path ∈ decl.enumPaths, Resolution.isOwn decl path = false → find path = find' path) :
    resolveEnum decl environment find = resolveEnum decl environment find' := by
  have hvariants : Resolution.variants ⟨decl, environment, find⟩ 0 [] decl.variants =
      Resolution.variants ⟨decl, environment, find'⟩ 0 [] decl.variants :=
    Resolution.variants_congr fun v hv init hinit path hp =>
      h path (EnumDecl.mem_enumPaths.mpr ⟨v, hv, init, hinit, hp⟩)
  have hdependencies : Resolution.dependencies ⟨decl, environment, find⟩ =
      Resolution.dependencies ⟨decl, environment, find'⟩ := by
    have hpaths : ∀ path ∈ decl.enumPaths.filter fun path => ! Resolution.isOwn decl path,
        find path = find' path := by
      intro path hpath
      obtain ⟨hmem, hown⟩ := List.mem_filter.mp hpath
      exact h path hmem (by simpa using hown)
    show ((((decl.enumPaths.filter fun path => ! Resolution.isOwn decl path).filterMap find).map
        (·.decl.qualifiedName)).eraseDups) = _
    rw [List.filterMap_congr hpaths]
    rfl
  unfold resolveEnum
  simp only [hvariants, hdependencies]

end MaskEnum
