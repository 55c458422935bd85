import Mathlib.Data.List.Nodup
import MaskEnum.Declaration.Collisions
import MaskEnum.Proofs.Declaration.Soundness
set_option autoImplicit false

/-!
# Names that do not collide

Declarations that pass the check for collisions have pairwise different names in every scope. So no
two enumerations of a unit have the same full name, provided that each knows the module around it.

## Main definitions

* `MaskEnum.Declaration.Grouped` — every enumeration of a declaration knows its module.
* `MaskEnum.Declaration.scopeNames` — the names that a declaration binds in the block scope.

## Main results

* `MaskEnum.Declaration.Spells.grouped` — declarations that are spelled know their modules.
* `MaskEnum.Collisions.declarations_ok` — the names of the block scope and of each module are
  pairwise different.
* `MaskEnum.Collisions.nodup_qualifiedName` — so are the full names of a unit.
-/

namespace MaskEnum

/-- Every enumeration of a module names that module as its group, and no other enumeration has a
group. -/
def Declaration.Grouped : Declaration → Prop
  | .block enums => ∀ e ∈ enums, e.group = none
  | .module name _ _ enums => ∀ e ∈ enums, e.group = some name

/-- The names that a declaration binds in the block scope. -/
def Declaration.scopeNames : Declaration → List String
  | .block enums => enums.map EnumDecl.name
  | .module name _ _ _ => [name]

/-- The enumerations of a list belong to one group. -/
theorem EnumList.group_eq {group : Option String} {ts : List Token} {es : List EnumDecl}
    (h : EnumList group ts es) : ∀ e ∈ es, e.group = group := by
  induction h with
  | nil => exact List.forall_mem_nil _
  | cons he _ ih =>
    refine List.forall_mem_cons.mpr ⟨?_, ih⟩
    cases he
    rfl

/-- The enumerations of a declaration of the grammar know their module. -/
theorem Declaration.Spells.grouped {ts : List Token} {d : Declaration}
    (h : Declaration.Spells ts d) : d.Grouped := by
  cases h with
  | module _ _ hes _ _ => exact hes.group_eq
  | block hes _ _ => exact hes.group_eq

namespace Collisions

/-! ## One scope -/

/-- Only a new name is added to a scope. -/
theorem claim_ok {scope scope' : Names} {kind : NameKind} {name : String}
    {position : Option Position} (h : claim scope kind name position = .ok scope') :
    name ∉ scope.map Prod.fst ∧ scope' = (name, kind) :: scope := by
  unfold claim at h
  split at h
  · cases h
  · next hnone =>
    refine ⟨fun hmem => ?_, (Except.ok.inj h).symm⟩
    obtain ⟨p, hp, rfl⟩ := List.mem_map.mp hmem
    simpa using List.find?_eq_none.mp hnone p hp

/-- The scope after some enumerations holds their names besides those before, each once. -/
theorem enums_ok {es : List EnumDecl} {scope scope' : Names} (h : enums scope es = .ok scope')
    (hscope : (scope.map Prod.fst).Nodup) :
    scope'.map Prod.fst = (es.map EnumDecl.name).reverse ++ scope.map Prod.fst ∧
      (scope'.map Prod.fst).Nodup := by
  induction es generalizing scope with
  | nil =>
    obtain rfl := Except.ok.inj h
    exact ⟨rfl, hscope⟩
  | cons e es ih =>
    simp only [enums, bind_eq_ok] at h
    obtain ⟨-, -, -, -, -, -, mid, hclaim, -, -, hrest⟩ := h
    obtain ⟨hnew, rfl⟩ := claim_ok hclaim
    obtain ⟨hnames, hnodup⟩ := ih hrest (List.nodup_cons.mpr ⟨hnew, hscope⟩)
    refine ⟨?_, hnodup⟩
    rw [hnames]
    simp

/-- The enumerations of a scope that starts empty have pairwise different names. -/
theorem nodup_name_of_enums {es : List EnumDecl} {scope : Names} (h : enums [] es = .ok scope) :
    (es.map EnumDecl.name).Nodup := by
  obtain ⟨hnames, hnodup⟩ := enums_ok h List.nodup_nil
  rw [hnames, List.map_nil, List.append_nil] at hnodup
  exact List.nodup_reverse.mp hnodup

/-! ## All declarations -/

/-- The block scope after a declaration holds its names besides those before, each once. The
enumerations of a module have pairwise different names. -/
theorem declaration_ok {d : Declaration} {top top' : Names} (h : declaration top d = .ok top')
    (htop : (top.map Prod.fst).Nodup) :
    top'.map Prod.fst = d.scopeNames.reverse ++ top.map Prod.fst ∧ (top'.map Prod.fst).Nodup ∧
      (d.enums.map EnumDecl.name).Nodup := by
  cases d with
  | block es =>
    obtain ⟨hnames, hnodup⟩ := enums_ok h htop
    refine ⟨hnames, hnodup, ?_⟩
    rw [hnames, List.nodup_append'] at hnodup
    exact List.nodup_reverse.mp hnodup.1
  | module name access attributes es =>
    simp only [declaration, bind_eq_ok] at h
    obtain ⟨-, -, -, -, -, -, mid, hclaim, inner, hinner, hmid⟩ := h
    obtain rfl := Except.ok.inj hmid
    obtain ⟨hnew, rfl⟩ := claim_ok hclaim
    exact ⟨rfl, List.nodup_cons.mpr ⟨hnew, htop⟩, nodup_name_of_enums hinner⟩

/-- The names that the declarations bind in the block scope are new and pairwise different, and so
are the names of the enumerations inside each of them. -/
theorem declarationsFrom_ok {ds : List Declaration} {top : Names}
    (h : declarationsFrom top ds = .ok ()) (htop : (top.map Prod.fst).Nodup) :
    (top.map Prod.fst ++ ds.flatMap Declaration.scopeNames).Nodup ∧
      ∀ d ∈ ds, (d.enums.map EnumDecl.name).Nodup := by
  induction ds generalizing top with
  | nil =>
    rw [List.flatMap_nil, List.append_nil]
    exact ⟨htop, List.forall_mem_nil _⟩
  | cons d ds ih =>
    obtain ⟨top', hd, hrest⟩ := bind_eq_ok.mp h
    obtain ⟨hnames, hnodup, hinner⟩ := declaration_ok hd htop
    obtain ⟨hall, hds⟩ := ih hrest hnodup
    refine ⟨?_, List.forall_mem_cons.mpr ⟨hinner, hds⟩⟩
    have hperm : (top.map Prod.fst ++ (d :: ds).flatMap Declaration.scopeNames).Perm
        (top'.map Prod.fst ++ ds.flatMap Declaration.scopeNames) := by
      rw [hnames, List.flatMap_cons, ← List.append_assoc]
      refine List.Perm.append_right _ ?_
      exact List.perm_append_comm.trans (List.Perm.append_right _ (List.reverse_perm _).symm)
    exact hperm.nodup_iff.mpr hall

/-- **No collisions.** The names bound in the block scope are pairwise different, and so are the
names of the enumerations inside each declaration. -/
theorem declarations_ok {ds : List Declaration} (h : declarations ds = .ok ()) :
    (ds.flatMap Declaration.scopeNames).Nodup ∧
      ∀ d ∈ ds, (d.enums.map EnumDecl.name).Nodup :=
  declarationsFrom_ok h List.nodup_nil

/-- The full name of an enumeration starts from a name in the block scope. -/
theorem scopeName_of_qualifiedName {d d' : Declaration} (hd : d.Grouped) (hd' : d'.Grouped)
    {e e' : EnumDecl} (he : e ∈ d.enums) (he' : e' ∈ d'.enums)
    (h : e.qualifiedName = e'.qualifiedName) : ∃ name ∈ d.scopeNames, name ∈ d'.scopeNames := by
  obtain ⟨hgroup, hname⟩ := QualifiedName.mk.inj h
  cases d with
  | block es =>
    cases d' with
    | block es' =>
      exact ⟨e.name, List.mem_map_of_mem he, hname ▸ List.mem_map_of_mem he'⟩
    | module name' access' attributes' es' =>
      rw [hd e he, hd' e' he'] at hgroup
      cases hgroup
  | module name access attributes es =>
    cases d' with
    | block es' =>
      rw [hd e he, hd' e' he'] at hgroup
      cases hgroup
    | module name' access' attributes' es' =>
      rw [hd e he, hd' e' he'] at hgroup
      exact ⟨name, List.mem_singleton_self name, List.mem_singleton.mpr (Option.some.inj hgroup)⟩

/-- The full names inside one declaration are pairwise different. -/
theorem nodup_qualifiedName_enums {d : Declaration} (h : (d.enums.map EnumDecl.name).Nodup) :
    (d.enums.map EnumDecl.qualifiedName).Nodup := by
  refine List.Nodup.of_map QualifiedName.name ?_
  rw [List.map_map]
  exact h

/-- **Full names are unique.** No two enumerations of declarations that pass the check have the
same full name. -/
theorem nodup_qualifiedName {ds : List Declaration} (h : declarations ds = .ok ())
    (hgrouped : ∀ d ∈ ds, d.Grouped) :
    ((ds.flatMap Declaration.enums).map EnumDecl.qualifiedName).Nodup := by
  obtain ⟨htop, hinner⟩ := declarations_ok h
  rw [List.map_flatMap, List.nodup_flatMap]
  refine ⟨fun d hd => nodup_qualifiedName_enums (hinner d hd), ?_⟩
  refine (List.nodup_flatMap.mp htop).2.imp_of_mem fun {d d'} hd hd' hdisjoint => ?_
  intro q hq hq'
  obtain ⟨e, he, rfl⟩ := List.mem_map.mp hq
  obtain ⟨e', he', heq⟩ := List.mem_map.mp hq'
  obtain ⟨name, hn, hn'⟩ :=
    scopeName_of_qualifiedName (hgrouped d hd) (hgrouped d' hd') he he' heq.symm
  exact hdisjoint hn hn'

end Collisions

end MaskEnum
