import MaskEnum.Proofs.Resolution.FixedPoint
set_option autoImplicit false

/-!
# Tables that solve a unit

A table solves a unit if it holds, for every enumeration, what that enumeration is resolved to when
the table answers its references. Resolution finds such a table. In turn every table that solves a
unit is found, whatever the order: a unit is resolved exactly if no reference is ambiguous, the
references have no cycle, and some table solves it.

## Main definitions

* `MaskEnum.Solves` — a table answers its own questions about a unit.

## Main results

* `MaskEnum.Solves.exists_resolveInOrder` — resolving in order finds the entries of a solution.
* `MaskEnum.resolveUnit_eq_ok_iff_solves` — when a unit is resolved, and to what.
* `MaskEnum.wellFounded_refers` — the references of a resolved unit lead to an end.
-/

namespace MaskEnum

variable {unit : List EnumDecl} {environment : Environment}

/-- For every enumeration of the unit, the table holds the resolution by that table itself. -/
def Solves (unit : List EnumDecl) (environment : Environment)
    (u : Table QualifiedName ResolvedEnum) : Prop :=
  ∀ e ∈ unit, ∃ r, u.get? e.qualifiedName = some r ∧
    resolveEnum e environment (resolvedTarget unit u e.group) = .ok r

/-- Resolving in order, with the entries of a solution for all names before, finds the entries of
the solution for the names that follow. -/
theorem Solves.exists_resolveInOrder (hunit : (unit.map EnumDecl.qualifiedName).Nodup)
    {u : Table QualifiedName ResolvedEnum} (hu : Solves unit environment u)
    {g : Graph QualifiedName} (hg : referenceGraph unit = .ok g) {before after : List QualifiedName}
    (horders : g.Orders (before ++ after)) {t : Table QualifiedName ResolvedEnum}
    (ht : ∀ e ∈ unit, e.qualifiedName ∈ before →
      t.get? e.qualifiedName = u.get? e.qualifiedName) :
    ∃ t', resolveInOrder unit environment after t = .ok t' ∧
      ∀ e ∈ unit, e.qualifiedName ∈ before ++ after →
        t'.get? e.qualifiedName = u.get? e.qualifiedName := by
  induction after generalizing before t with
  | nil => exact ⟨t, rfl, fun e he hmem => ht e he (List.append_nil before ▸ hmem)⟩
  | cons q after ih =>
    have hsplit : before ++ q :: after = before ++ [q] ++ after := by
      rw [List.append_assoc, List.singleton_append]
    have hrest : ∀ {t : Table QualifiedName ResolvedEnum},
        (∀ e ∈ unit, e.qualifiedName ∈ before ++ [q] →
          t.get? e.qualifiedName = u.get? e.qualifiedName) →
        ∃ t', resolveInOrder unit environment after t = .ok t' ∧
          ∀ e ∈ unit, e.qualifiedName ∈ before ++ q :: after →
            t'.get? e.qualifiedName = u.get? e.qualifiedName := by
      intro t ht
      rw [hsplit]
      exact ih (hsplit ▸ horders) ht
    cases hq : enumNamed? unit q with
    | none =>
      rw [resolveInOrder_cons_of_none hq]
      refine hrest fun e he hmem => ht e he ?_
      refine (List.mem_append.mp hmem).resolve_right fun heq => ?_
      rw [← List.mem_singleton.mp heq, enumNamed?_of_mem hunit he] at hq
      cases hq
    | some e =>
      have he := mem_of_enumNamed? hq
      obtain rfl := qualifiedName_of_enumNamed? hq
      obtain ⟨r, hget, hr⟩ := hu e he
      -- all that `e` refers to stands before it, where the table has the entries of the solution
      have hsame : resolveEnum e environment (resolvedTarget unit t e.group) = .ok r := by
        rw [← hr]
        refine resolveEnum_resolvedTarget_congr hunit he fun d hd => ht d hd.mem ?_
        exact horders before _ after rfl _ ((edge_referenceGraph hg).mpr ⟨e, d, hd, rfl, rfl⟩)
      obtain ⟨t', ht', hall⟩ := hrest (t := t.insert e.qualifiedName r) fun d hd hmem => by
        rw [Table.get?_insert]
        split_ifs with hname
        · rw [← hname, hget]
        · refine ht d hd ((List.mem_append.mp hmem).resolve_right fun heq => hname ?_)
          exact (List.mem_singleton.mp heq).symm
      exact ⟨t', (resolveInOrder_cons_eq_ok hq).mpr ⟨r, hsame, ht'⟩, hall⟩

/-- **Resolved units.** In a unit with unique full names, resolution succeeds exactly if no
reference is ambiguous, the references have no cycle, and some table solves the unit. The results
are the entries of that table. -/
theorem resolveUnit_eq_ok_iff_solves (hunit : (unit.map EnumDecl.qualifiedName).Nodup)
    {rs : List ResolvedEnum} :
    resolveUnit unit environment = .ok rs ↔
      (∀ e ∈ unit, ∀ path ∈ e.enumPaths, ∃ o, findEnum unit e.group path = .ok o) ∧
        (∀ e, ¬ Relation.TransGen (Refers unit) e e) ∧
        ∃ u, Solves unit environment u ∧ rs = unit.filterMap fun e => u.get? e.qualifiedName := by
  constructor
  · intro h
    obtain ⟨g, -, -, hg, -⟩ := resolveUnit_eq_ok.mp h
    have hfound := exists_referenceGraph_iff.mp ⟨g, hg⟩
    refine ⟨hfound, fun e he => ?_, ?_⟩
    · have hcircular : ∃ members position,
          resolveUnit unit environment = .error ⟨.circular members, position⟩ :=
        (resolveUnit_circular_iff hunit hfound).mpr ⟨e, he⟩
      obtain ⟨members, position, herror⟩ := hcircular
      rw [h] at herror
      cases herror
    · obtain ⟨u, hrs, hall⟩ := exists_table_of_resolveUnit hunit h
      refine ⟨u, fun e he => ?_, hrs⟩
      obtain ⟨r, hget, -, hr⟩ := hall e he
      exact ⟨r, hget, hr⟩
  · rintro ⟨hfound, hacyclic, u, hu, rfl⟩
    obtain ⟨g, hg⟩ := exists_referenceGraph_iff.mpr hfound
    have hkeys := nodup_keys_referenceGraph hg
    cases ho : g.topologicalOrder with
    | error members =>
      obtain ⟨e, he⟩ := (exists_transGen_edge_iff hunit hg).mp
        ((Graph.topologicalOrder_error_iff hkeys).mp ⟨members, ho⟩)
      exact absurd he (hacyclic e)
    | ok order =>
      obtain ⟨-, -, horders⟩ := Graph.topologicalOrder_ok hkeys ho
      obtain ⟨-, hmem⟩ := nodup_and_mem_of_topologicalOrder hg ho
      have hstart : g.Orders ([] ++ order) := horders
      obtain ⟨t, ht, hall⟩ := hu.exists_resolveInOrder hunit hg hstart (t := .empty)
        fun e _ hnil => absurd hnil List.not_mem_nil
      refine resolveUnit_eq_ok.mpr ⟨g, order, t, hg, ho, ht, List.filterMap_congr fun e he => ?_⟩
      exact (hall e he (hmem e he)).symm

/-- The references of a resolved unit lead to an end: in the order of resolution, every one leads
to a place before. -/
theorem wellFounded_refers {rs : List ResolvedEnum} (h : resolveUnit unit environment = .ok rs) :
    WellFounded fun t e => Refers unit e t := by
  obtain ⟨g, order, -, hg, ho, -⟩ := resolveUnit_eq_ok.mp h
  obtain ⟨-, -, horders⟩ := Graph.topologicalOrder_ok (nodup_keys_referenceGraph hg) ho
  obtain ⟨-, hmem⟩ := nodup_and_mem_of_topologicalOrder hg ho
  refine Subrelation.wf (r := InvImage (· < ·) fun e : EnumDecl => order.idxOf e.qualifiedName)
    (fun {t e} hr => ?_) (InvImage.wf _ wellFounded_lt)
  obtain ⟨before, after, heq, hnot⟩ := List.eq_append_cons_of_mem (hmem e hr.1)
  have hbefore : t.qualifiedName ∈ before :=
    horders before _ after heq _ ((edge_referenceGraph hg).mpr ⟨e, t, hr, rfl, rfl⟩)
  show order.idxOf t.qualifiedName < order.idxOf e.qualifiedName
  rw [heq, List.idxOf_append_of_mem hbefore, List.idxOf_append_of_notMem hnot,
    List.idxOf_cons_self, Nat.add_zero]
  exact List.idxOf_lt_length_of_mem hbefore

end MaskEnum
