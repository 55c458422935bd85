import MaskEnum.Proofs.Resolution.Relabeling
set_option autoImplicit false

/-!
# Generated code for relabeled declarations

What is generated for declarations and for their resolved enumerations depends on places not at all,
and on attributes only in its comments and docstrings.

## Main results

* `MaskEnum.Generated.membersOf_relabel` — the members of a relabeled declaration.
* `MaskEnum.Surface.ofDeclaration_relabel` — the descriptions of relabeled enumerations.
-/

namespace MaskEnum

namespace Generated

variable (r : Relabeling)

/-- The table of relabeled enumerations. -/
theorem byName_relabel (rs : List ResolvedEnum) :
    byName (rs.map (·.relabel r)) = (byName rs).mapValues (·.relabel r) := by
  have hentries : (rs.map (·.relabel r)).map (fun e => (e.decl.qualifiedName, e)) =
      (rs.map fun e => (e.decl.qualifiedName, e)).map fun e => (e.1, e.2.relabel r) := by
    rw [List.map_map, List.map_map]
    rfl
  rw [byName, byName, hentries]
  exact Table.insertAll_mapValues (ResolvedEnum.relabel r) .empty _

/-- The members of a relabeled declaration. -/
theorem membersOf_relabel (resolved : Table QualifiedName ResolvedEnum) (d : Declaration) :
    membersOf (resolved.mapValues (·.relabel r)) (d.relabel r) =
      (membersOf resolved d).map (·.relabel r) := by
  rw [membersOf, membersOf, Declaration.enums_relabel, List.filterMap_map, List.map_filterMap]
  exact List.filterMap_congr fun e _ => Table.get?_mapValues _ _ _

/-- The names that a relabeled declaration exports. -/
theorem exportsOf_relabel (d : Declaration) : exportsOf (d.relabel r) = exportsOf d := by
  cases d with
  | block es =>
    simp only [Declaration.relabel, exportsOf, List.filter_map, List.map_map]
    rfl
  | module => rfl

/-- The companion of a relabeled enumeration. -/
theorem companionOf_relabel (module : String) (e : ResolvedEnum) :
    companionOf module (e.relabel r) = companionOf module e := by
  simp only [companionOf, ResolvedEnum.relabel, EnumDecl.isFieldless_relabel]

/-- The tables of ordinals of relabeled enumerations. -/
theorem tablesOf_relabel (members : List ResolvedEnum) :
    tablesOf (members.map (·.relabel r)) = tablesOf members := by
  have hfieldless : (fun e : ResolvedEnum => e.decl.isFieldless) ∘ ResolvedEnum.relabel r =
      fun e => e.decl.isFieldless := funext fun e => e.decl.isFieldless_relabel r
  rw [tablesOf, tablesOf, List.filter_map, hfieldless, List.map_map]
  refine List.map_congr_left fun e _ => ?_
  simp only [Function.comp_apply, tableOf, ResolvedEnum.relabel, List.map_map]
  rfl

end Generated

/-! ## Types -/

namespace Surface

variable (r : Relabeling)

/-- The description of a relabeled enumeration. -/
theorem ofEnum_relabel (companion : Option String) (e : ResolvedEnum) :
    ofEnum companion (e.relabel r) = ofEnum companion e := by
  simp only [ofEnum, ResolvedEnum.relabel, List.map_map]
  rfl

/-- **Types.** The descriptions of relabeled enumerations. -/
theorem ofDeclaration_relabel (rs : List ResolvedEnum) (d : Declaration) :
    ofDeclaration (Generated.byName (rs.map (·.relabel r))) (d.relabel r) =
      ofDeclaration (Generated.byName rs) d := by
  rw [ofDeclaration, ofDeclaration, Generated.byName_relabel, Generated.membersOf_relabel,
    List.map_map]
  refine List.map_congr_left fun e _ => ?_
  cases d with
  | block es => exact ofEnum_relabel r none e
  | module name access attributes es =>
    show ofEnum (Generated.companionOf name (e.relabel r)) (e.relabel r) = _
    rw [Generated.companionOf_relabel, ofEnum_relabel]

end Surface

end MaskEnum
