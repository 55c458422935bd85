import MaskEnum.Proofs.Declaration.Names
import MaskEnum.Proofs.Resolution.Locality
import MaskEnum.Proofs.Resolution.References
import MaskEnum.Proofs.Resolution.Reports
set_option autoImplicit false

/-!
# A resolved unit is a fixed point

The enumerations of a unit are resolved one after the other, and each sees only those before it.
Since every reference leads to one before, resolving an enumeration again with all results at hand
gives the same. If the references have no such order, they have a cycle, and that is reported.

## Main definitions

* `MaskEnum.finalTarget` — what a path means among the results of a unit.

## Main results

* `MaskEnum.resolveUnit_circular_iff` — cycles of references, and nothing else, are reported as
  circular.
* `MaskEnum.resolveUnit_decl` — every enumeration of the unit has one result, in order.
* `MaskEnum.resolveUnit_cyclic_or_fixedPoint` — both for units whose names do not collide.
-/

namespace MaskEnum

/-- The result that `path` means inside `module`. -/
def finalTarget (unit : List EnumDecl) (results : List ResolvedEnum) (module : Option String)
    (path : EnumPath) : Option ResolvedEnum :=
  match findEnum unit module path with
  | .ok (some target) => results.find? (·.decl.qualifiedName = target.qualifiedName)
  | _ => none

variable {unit : List EnumDecl} {environment : Environment}

/-! ## Circular references -/

/-- Circular references are reported exactly if the sort of the reference graph fails. -/
theorem resolveUnit_circular_iff_topologicalOrder {g : Graph QualifiedName}
    (hg : referenceGraph unit = .ok g) :
    (∃ members position,
        resolveUnit unit environment = .error ⟨.circular members, position⟩) ↔
      ∃ members, g.topologicalOrder = .error members := by
  constructor
  · rintro ⟨members, position, h⟩
    rcases resolveUnit_eq_error.mp h with h | ⟨g', hg', ⟨stuck, hstuck, -⟩ | ⟨order, -, h⟩⟩
    · rw [hg] at h
      cases h
    · obtain rfl := Except.ok.inj (hg.symm.trans hg')
      exact ⟨stuck, hstuck⟩
    · cases resolveInOrder_error Table.forall_get?_empty h
  · rintro ⟨stuck, hstuck⟩
    exact ⟨_, _, resolveUnit_eq_error.mpr (Or.inr ⟨g, hg, Or.inl ⟨stuck, hstuck, rfl⟩⟩)⟩

/-- **Circular references.** In a unit with unique full names and no ambiguous reference, circular
references are reported exactly if the references have a cycle. -/
theorem resolveUnit_circular_iff (hunit : (unit.map EnumDecl.qualifiedName).Nodup)
    (hfound : ∀ e ∈ unit, ∀ path ∈ e.enumPaths, ∃ o, findEnum unit e.group path = .ok o) :
    (∃ members position,
        resolveUnit unit environment = .error ⟨.circular members, position⟩) ↔
      ∃ e, Relation.TransGen (Refers unit) e e := by
  obtain ⟨g, hg⟩ := exists_referenceGraph_iff.mpr hfound
  rw [resolveUnit_circular_iff_topologicalOrder hg,
    Graph.topologicalOrder_error_iff (nodup_keys_referenceGraph hg),
    exists_transGen_edge_iff hunit hg]

/-! ## Results -/

/-- Among values with pairwise different names, each is found by its name. -/
theorem find?_eq_some_of_nodup {α β : Type} [DecidableEq β] {f : α → β} {l : List α}
    (hl : (l.map f).Nodup) {a : α} (ha : a ∈ l) : l.find? (fun b => f b = f a) = some a := by
  obtain ⟨b, hb⟩ := Option.isSome_iff_exists.mp
    (List.find?_isSome.mpr ⟨a, ha, decide_eq_true rfl⟩ :
      (l.find? fun b => f b = f a).isSome = true)
  have hname : f b = f a := by
    simpa using List.find?_some hb
  rw [hb, List.inj_on_of_nodup_map hl (List.mem_of_find?_eq_some hb) ha hname]

/-- An enumeration is resolved alike by two tables that agree on all that it refers to. -/
theorem resolveEnum_resolvedTarget_congr (hunit : (unit.map EnumDecl.qualifiedName).Nodup)
    {e : EnumDecl} (he : e ∈ unit) {t u : Table QualifiedName ResolvedEnum}
    (h : ∀ d, Refers unit e d → t.get? d.qualifiedName = u.get? d.qualifiedName) :
    resolveEnum e environment (resolvedTarget unit t e.group) =
      resolveEnum e environment (resolvedTarget unit u e.group) := by
  refine resolveEnum_congr fun path hpath hown => ?_
  unfold resolvedTarget
  cases hfind : findEnum unit e.group path with
  | error fault => rfl
  | ok o =>
    cases o with
    | none => rfl
    | some d =>
      -- what `e` says of itself is not looked up, so the path leads elsewhere
      have hne : d ≠ e := by
        rintro rfl
        rw [(findEnum_eq_self_iff hunit he).mp hfind] at hown
        cases hown
      exact h d ⟨he, hne, path, hpath, hfind⟩

section Results

variable (hunit : (unit.map EnumDecl.qualifiedName).Nodup) {rs : List ResolvedEnum}
  (h : resolveUnit unit environment = .ok rs)
include hunit h

/-- Every enumeration of the unit is resolved, by a table that answers like the final one for every
path to another enumeration of the unit. The results are the entries of the final table. -/
theorem exists_table_of_resolveUnit :
    ∃ u : Table QualifiedName ResolvedEnum,
      rs = unit.filterMap (fun e => u.get? e.qualifiedName) ∧
      ∀ e ∈ unit, ∃ r, u.get? e.qualifiedName = some r ∧ r.decl = e ∧
        resolveEnum e environment (resolvedTarget unit u e.group) = .ok r := by
  obtain ⟨g, order, u, hg, ho, hu, rfl⟩ := resolveUnit_eq_ok.mp h
  refine ⟨u, rfl, fun e he => ?_⟩
  obtain ⟨hnodup, hmem⟩ := nodup_and_mem_of_topologicalOrder hg ho
  obtain ⟨before, after, rfl⟩ := List.append_of_mem (hmem e he)
  obtain ⟨-, -, horders⟩ := Graph.topologicalOrder_ok (nodup_keys_referenceGraph hg) ho
  obtain ⟨mid, r, hr, hget, hbefore⟩ :=
    exists_resolveEnum_of_resolveInOrder hnodup (enumNamed?_of_mem hunit he) hu
  refine ⟨r, hget, decl_of_resolveEnum hr, ?_⟩
  rw [← hr]
  refine resolveEnum_resolvedTarget_congr hunit he fun d hd => hbefore _ ?_
  exact horders before _ after rfl _ ((edge_referenceGraph hg).mpr ⟨e, d, hd, rfl, rfl⟩)

/-- **One result for each.** The results are those of the enumerations of the unit, in order. -/
theorem resolveUnit_decl : rs.map ResolvedEnum.decl = unit := by
  obtain ⟨u, rfl, hall⟩ := exists_table_of_resolveUnit hunit h
  rw [List.map_filterMap]
  have hsome : ∀ e ∈ unit, (u.get? e.qualifiedName).map ResolvedEnum.decl = some e := by
    intro e he
    obtain ⟨r, hget, hdecl, -⟩ := hall e he
    rw [hget, Option.map_some, hdecl]
  rw [List.filterMap_congr hsome, List.filterMap_some]

/-- The results answer as the table does from which they come. -/
theorem exists_find?_of_resolveUnit :
    ∃ u : Table QualifiedName ResolvedEnum,
      (∀ m path, finalTarget unit rs m path = resolvedTarget unit u m path) ∧
      ∀ e ∈ unit, ∃ r ∈ rs, u.get? e.qualifiedName = some r ∧ r.decl = e ∧
        resolveEnum e environment (resolvedTarget unit u e.group) = .ok r := by
  have hdecl := resolveUnit_decl hunit h
  obtain ⟨u, hrs, hall⟩ := exists_table_of_resolveUnit hunit h
  have hmem : ∀ e ∈ unit, ∃ r ∈ rs, u.get? e.qualifiedName = some r ∧ r.decl = e ∧
      resolveEnum e environment (resolvedTarget unit u e.group) = .ok r := by
    intro e he
    obtain ⟨r, hget, hr⟩ := hall e he
    exact ⟨r, hrs ▸ List.mem_filterMap.mpr ⟨e, he, hget⟩, hget, hr⟩
  refine ⟨u, fun m path => ?_, hmem⟩
  unfold finalTarget resolvedTarget
  cases hfind : findEnum unit m path with
  | error fault => rfl
  | ok o =>
    cases o with
    | none => rfl
    | some t =>
      obtain ⟨r, hr, hget, hrt, -⟩ := hmem t (findEnum_eq_some hfind).1
      have hnodup : (rs.map fun r => r.decl.qualifiedName).Nodup := by
        rw [← hdecl, List.map_map] at hunit
        exact hunit
      show rs.find? (·.decl.qualifiedName = t.qualifiedName) = u.get? t.qualifiedName
      rw [hget, ← hrt]
      exact find?_eq_some_of_nodup hnodup hr

end Results

/-- **Cycles are reported, and results are final.** Let the names of the declarations not collide,
and let their enumerations know their modules, as in all that are read
(`Declaration.grouped_of_ofTokens`). If no reference is ambiguous, circular references are reported
exactly if the references between different enumerations have a cycle. Whenever resolution
succeeds, every enumeration has one result, and resolving it again with all results at hand gives
that same result; each path that means an enumeration of the unit is answered by the result of that
enumeration.

**Proof sketch.** In a topological order every reference to another enumeration leads to one before
(`edge_referenceGraph`), whose entry in the table is final when it is looked up
(`exists_resolveEnum_of_resolveInOrder`); and nothing else is looked up (`resolveEnum_congr`). -/
theorem resolveUnit_cyclic_or_fixedPoint {ds : List Declaration}
    (h : Collisions.declarations ds = .ok ()) (hgrouped : ∀ d ∈ ds, d.Grouped)
    (hds : ds.flatMap Declaration.enums = unit) (environment : Environment) :
    ((∀ e ∈ unit, ∀ path ∈ e.enumPaths, ∃ o, findEnum unit e.group path = .ok o) →
      ((∃ members position,
          resolveUnit unit environment = .error ⟨.circular members, position⟩) ↔
        ∃ e, Relation.TransGen (Refers unit) e e)) ∧
    ∀ rs, resolveUnit unit environment = .ok rs →
      rs.map ResolvedEnum.decl = unit ∧
      (∀ r ∈ rs, resolveEnum r.decl environment (finalTarget unit rs r.decl.group) = .ok r) ∧
      ∀ e ∈ unit, ∀ path ∈ e.enumPaths, ∀ t, findEnum unit e.group path = .ok (some t) →
        ∃ r ∈ rs, finalTarget unit rs e.group path = some r ∧ r.decl = t := by
  have hunit : (unit.map EnumDecl.qualifiedName).Nodup := by
    rw [← hds]
    exact Collisions.nodup_qualifiedName h hgrouped
  refine ⟨resolveUnit_circular_iff hunit, fun rs hrs => ?_⟩
  have hdecl := resolveUnit_decl hunit hrs
  obtain ⟨u, htarget, hall⟩ := exists_find?_of_resolveUnit hunit hrs
  refine ⟨hdecl, fun r hr => ?_, fun e he path hpath t ht => ?_⟩
  · obtain ⟨r', hr', -, heq, hresolve⟩ :=
      hall r.decl (hdecl ▸ List.mem_map_of_mem (f := ResolvedEnum.decl) hr)
    have hnodup : (rs.map ResolvedEnum.decl).Nodup := hdecl ▸ hunit.of_map _
    obtain rfl : r' = r := List.inj_on_of_nodup_map hnodup hr' hr heq
    have hsame : finalTarget unit rs r'.decl.group = resolvedTarget unit u r'.decl.group :=
      funext (htarget r'.decl.group)
    rw [hsame]
    exact hresolve
  · obtain ⟨r, hr, hget, heq, -⟩ := hall t (findEnum_eq_some ht).1
    refine ⟨r, hr, ?_, heq⟩
    rw [htarget, resolvedTarget, ht]
    exact hget

/-- Two enumerations of which the first refers to the second. -/
def forward : Declaration :=
  .block
    [⟨"Near", none, .own, .own, none,
        [⟨"SAME", some (.operand (.external "ONE" (.enumeration ⟨["Far"]⟩))), [], ⟨1, 1⟩⟩], [],
        ⟨1, 1⟩⟩,
      ⟨"Far", none, .own, .own, none, [⟨"ONE", some (.operand (.literal ⟨1, none⟩)), [], ⟨2, 1⟩⟩],
        [], ⟨2, 1⟩⟩]

/-- The results of `forward` are final, although `Near` stands before what it refers to. -/
theorem resolveUnit_cyclic_or_fixedPoint_forward :
    Collisions.declarations [forward] = .ok () ∧ (∀ d ∈ [forward], d.Grouped) ∧
      ∃ rs, resolveUnit forward.enums {} = .ok rs ∧ rs.map ResolvedEnum.decl = forward.enums ∧
        ∀ r ∈ rs, resolveEnum r.decl {} (finalTarget forward.enums rs r.decl.group) = .ok r := by
  have hnames : Collisions.declarations [forward] = .ok () := by
    decide +kernel
  have hgrouped : ∀ d ∈ [forward], d.Grouped := by
    intro d hd
    obtain rfl := List.mem_singleton.mp hd
    intro e he
    rcases List.mem_pair.mp he with rfl | rfl <;> rfl
  have hok : (resolveUnit forward.enums {}).toOption.isSome = true := by
    decide +kernel
  cases hrs : resolveUnit forward.enums {} with
  | error err =>
    rw [hrs] at hok
    cases hok
  | ok rs =>
    obtain ⟨hdecl, hfinal, -⟩ :=
      (resolveUnit_cyclic_or_fixedPoint hnames hgrouped (List.append_nil _) {}).2 rs hrs
    exact ⟨hnames, hgrouped, rs, rfl, hdecl, hfinal⟩

end MaskEnum
