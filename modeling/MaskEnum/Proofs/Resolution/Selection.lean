import Mathlib.Data.List.Flatten
import MaskEnum.Proofs.Resolution.Solution
set_option autoImplicit false

/-!
# Selections from a unit

Some enumerations of a unit, in any order, are a unit of their own if they refer to no others. Bare
names are looked for in the module of the reference, in the block scope, and then anywhere, so with
other enumerations around, a path might mean something else; but what it means in the whole unit
belongs to the selection, and there nothing else comes before it. So the selection is resolved as it
is inside the whole unit. In particular neither the order of a unit nor blocks that nothing refers
to change a result.

## Main definitions

* `MaskEnum.IsClosed` — a selection that refers to nothing outside.

## Main results

* `MaskEnum.findEnum_of_isClosed` — a path means the same inside the selection.
* `MaskEnum.IsClosed.resolveUnit_eq` — the results of the selection, from those of the unit.
* `MaskEnum.resolveUnit_selection` — selections, reordered units, and units with fewer blocks.
-/

namespace MaskEnum

variable {unit kept : List EnumDecl} {environment : Environment}

/-- What the enumerations of the selection `kept` refer to in the unit belongs to the selection. -/
def IsClosed (unit kept : List EnumDecl) : Prop :=
  ∀ e ∈ kept, ∀ path ∈ e.enumPaths, ∀ t, findEnum unit e.group path = .ok (some t) → t ∈ kept

/-! ## What a path means inside a selection -/

/-- A full name means the enumeration of that name. -/
theorem enumNamed?_eq_some (hunit : (unit.map EnumDecl.qualifiedName).Nodup) {q : QualifiedName}
    {e : EnumDecl} : enumNamed? unit q = some e ↔ e ∈ unit ∧ e.qualifiedName = q := by
  constructor
  · exact fun h => ⟨mem_of_enumNamed? h, qualifiedName_of_enumNamed? h⟩
  · rintro ⟨he, rfl⟩
    exact enumNamed?_of_mem hunit he

/-- Different enumerations of a unit keep different full names in a selection. -/
theorem nodup_qualifiedName_of_subset (hunit : (unit.map EnumDecl.qualifiedName).Nodup)
    (hkept : kept.Nodup) (hsub : kept ⊆ unit) : (kept.map EnumDecl.qualifiedName).Nodup :=
  hkept.map_on fun _ he _ he' heq => List.inj_on_of_nodup_map hunit (hsub he) (hsub he') heq

section Selection

variable (hunit : (unit.map EnumDecl.qualifiedName).Nodup) (hkept : kept.Nodup)
  (hsub : kept ⊆ unit)
include hunit hkept hsub

/-- In a selection, a full name means what it means in the unit, if that is selected. -/
theorem enumNamed?_of_subset (q : QualifiedName) :
    enumNamed? kept q = (enumNamed? unit q).filter (· ∈ kept) := by
  refine Option.ext fun e => ?_
  rw [enumNamed?_eq_some (nodup_qualifiedName_of_subset hunit hkept hsub),
    Option.filter_eq_some_iff, enumNamed?_eq_some hunit, decide_eq_true_eq]
  exact ⟨fun ⟨he, hq⟩ => ⟨⟨hsub he, hq⟩, he⟩, fun ⟨⟨_, hq⟩, he⟩ => ⟨he, hq⟩⟩

omit hunit in
/-- In a selection, a name that nothing or one thing has in the unit means the same. -/
theorem uniqueNamed?_of_subset {name : String} {o : Option EnumDecl}
    (h : uniqueNamed? unit name = .ok o) (ho : ∀ t, o = some t → t ∈ kept) :
    uniqueNamed? kept name = .ok o := by
  have hfilter : kept.filter (·.name == name) ⊆ unit.filter (·.name == name) :=
    fun e he => List.mem_filter.mpr ⟨hsub (List.mem_filter.mp he).1, (List.mem_filter.mp he).2⟩
  unfold uniqueNamed? at h
  split at h
  · next hnil =>
    obtain rfl := Except.ok.inj h
    rw [hnil] at hfilter
    rw [uniqueNamed?, List.subset_nil.mp hfilter]
  · next e hone =>
    obtain rfl := Except.ok.inj h
    have he : e ∈ kept.filter (·.name == name) := by
      have hmem : e ∈ unit.filter (·.name == name) := hone ▸ List.mem_singleton_self e
      exact List.mem_filter.mpr ⟨ho e rfl, (List.mem_filter.mp hmem).2⟩
    have hperm : (kept.filter (·.name == name)).Perm [e] := by
      refine (List.perm_ext_iff_of_nodup (hkept.filter _) (List.nodup_singleton e)).mpr fun d => ?_
      exact ⟨fun hd => hone ▸ hfilter hd, fun hd => List.mem_singleton.mp hd ▸ he⟩
    rw [uniqueNamed?, List.perm_singleton.mp hperm]
  · cases h

/-- **Paths in a selection.** A path that means something selected, or nothing, in the unit means
the same in the selection: what would come before it is missing in the unit already. -/
theorem findEnum_of_isClosed {m : Option String} {path : EnumPath} {o : Option EnumDecl}
    (h : findEnum unit m path = .ok o) (ho : ∀ t, o = some t → t ∈ kept) :
    findEnum kept m path = .ok o := by
  have hnamed := enumNamed?_of_subset hunit hkept hsub
  have hbind : ∀ name, (m.bind fun g => enumNamed? kept ⟨some g, name⟩) =
      (m.bind fun g => enumNamed? unit ⟨some g, name⟩).filter (· ∈ kept) := by
    intro name
    cases m with
    | none => rfl
    | some g => exact hnamed _
  unfold findEnum at h ⊢
  split at h
  · next name hpath =>
    rw [hbind, hnamed]
    split at h
    · next t ht =>
      obtain rfl := Except.ok.inj h
      have hkeep : (some t).filter (fun e => decide (e ∈ kept)) = some t :=
        Option.filter_some_pos (decide_eq_true (ho t rfl))
      rcases Option.or_eq_some_iff.mp ht with hmod | ⟨hmod, htop⟩
      · rw [hmod, hkeep, Option.some_or]
      · rw [hmod, htop, Option.filter_none, Option.none_or, hkeep]
    · next hnone =>
      obtain ⟨hmod, htop⟩ := Option.or_eq_none_iff.mp hnone
      rw [hmod, htop, Option.filter_none, Option.or_none]
      exact uniqueNamed?_of_subset hkept hsub h ho
  · next g name hpath =>
    simp only [hnamed]
    obtain rfl := Except.ok.inj h
    refine congrArg Except.ok ?_
    cases hq : enumNamed? unit ⟨some g, name⟩ with
    | none => rfl
    | some t => exact Option.filter_some_pos (decide_eq_true (ho t hq))
  · exact h

end Selection

/-! ## What a selection is resolved to -/

/-- **Selections.** A closed selection from a unit that is resolved by a table is resolved by the
same table. -/
theorem IsClosed.resolveUnit_eq (hunit : (unit.map EnumDecl.qualifiedName).Nodup)
    (hkept : kept.Nodup) (hsub : kept ⊆ unit) (hclosed : IsClosed unit kept)
    (hfound : ∀ e ∈ unit, ∀ path ∈ e.enumPaths, ∃ o, findEnum unit e.group path = .ok o)
    (hacyclic : ∀ e, ¬ Relation.TransGen (Refers unit) e e)
    {u : Table QualifiedName ResolvedEnum} (hu : Solves unit environment u) :
    resolveUnit kept environment = .ok (kept.filterMap fun e => u.get? e.qualifiedName) := by
  have hsame : ∀ e ∈ kept, ∀ path ∈ e.enumPaths,
      ∃ o, findEnum kept e.group path = .ok o ∧ findEnum unit e.group path = .ok o := by
    intro e he path hpath
    obtain ⟨o, ho⟩ := hfound e (hsub he) path hpath
    refine ⟨o, findEnum_of_isClosed hunit hkept hsub ho ?_, ho⟩
    rintro t rfl
    exact hclosed e he path hpath t ho
  refine (resolveUnit_eq_ok_iff_solves (nodup_qualifiedName_of_subset hunit hkept hsub)).mpr
    ⟨fun e he path hpath => ?_, fun e he => hacyclic e ?_, u, fun e he => ?_, rfl⟩
  · obtain ⟨o, ho, -⟩ := hsame e he path hpath
    exact ⟨o, ho⟩
  · refine Relation.TransGen.mono (fun e t hr => ?_) _ _ he
    obtain ⟨he, hne, path, hpath, ht⟩ := hr
    obtain ⟨o, ho, hwhole⟩ := hsame e he path hpath
    obtain rfl := Except.ok.inj (ht.symm.trans ho)
    exact ⟨hsub he, hne, path, hpath, hwhole⟩
  · obtain ⟨r, hget, hr⟩ := hu e (hsub he)
    refine ⟨r, hget, ?_⟩
    rw [← hr]
    refine resolveEnum_congr fun path hpath _ => ?_
    obtain ⟨o, ho, hwhole⟩ := hsame e he path hpath
    rw [resolvedTarget, resolvedTarget, ho, hwhole]

/-- **Resolution is local and independent of order.** Let the names of the declarations not
collide, and let their unit be resolved. Then every selection from the unit that refers to nothing
outside is resolved too, in whatever order it stands, and every enumeration in it has the very
result that it has in the whole unit. So declarations of the same enumerations in another order have
the same results in that order, and without blocks that nothing else refers to, the others keep
their results. -/
theorem resolveUnit_selection {ds : List Declaration} (h : Collisions.declarations ds = .ok ())
    (hgrouped : ∀ d ∈ ds, d.Grouped) {environment : Environment} {rs : List ResolvedEnum}
    (hrs : resolveUnit (ds.flatMap Declaration.enums) environment = .ok rs) :
    (∀ kept : List EnumDecl, kept.Nodup → kept ⊆ ds.flatMap Declaration.enums →
      IsClosed (ds.flatMap Declaration.enums) kept →
      ∃ results, resolveUnit kept environment = .ok results ∧
        results.map ResolvedEnum.decl = kept ∧ results ⊆ rs) ∧
    (∀ ds' : List Declaration,
      (ds'.flatMap Declaration.enums).Perm (ds.flatMap Declaration.enums) →
      ∃ results, resolveUnit (ds'.flatMap Declaration.enums) environment = .ok results ∧
        results.map ResolvedEnum.decl = ds'.flatMap Declaration.enums ∧ results.Perm rs) ∧
    ∀ blocks : List Declaration, blocks.Sublist ds →
      IsClosed (ds.flatMap Declaration.enums) (blocks.flatMap Declaration.enums) →
      ∃ results, resolveUnit (blocks.flatMap Declaration.enums) environment = .ok results ∧
        results.map ResolvedEnum.decl = blocks.flatMap Declaration.enums ∧
        results.Sublist rs := by
  have hunit := Collisions.nodup_qualifiedName h hgrouped
  generalize hds : ds.flatMap Declaration.enums = unit at hunit hrs
  obtain ⟨hfound, hacyclic, u, hu, rfl⟩ := (resolveUnit_eq_ok_iff_solves hunit).mp hrs
  have hselect : ∀ kept : List EnumDecl, kept.Nodup → kept ⊆ unit → IsClosed unit kept →
      resolveUnit kept environment = .ok (kept.filterMap fun e => u.get? e.qualifiedName) ∧
        (kept.filterMap fun e => u.get? e.qualifiedName).map ResolvedEnum.decl = kept := by
    intro kept hkept hsub hclosed
    have hok := hclosed.resolveUnit_eq hunit hkept hsub hfound hacyclic hu
    exact ⟨hok, resolveUnit_decl (nodup_qualifiedName_of_subset hunit hkept hsub) hok⟩
  refine ⟨fun kept hkept hsub hclosed => ?_, fun ds' hperm => ?_, fun blocks hblocks hclosed => ?_⟩
  · obtain ⟨hok, hdecl⟩ := hselect kept hkept hsub hclosed
    refine ⟨_, hok, hdecl, fun r hr => ?_⟩
    obtain ⟨e, he, hr⟩ := List.mem_filterMap.mp hr
    exact List.mem_filterMap.mpr ⟨e, hsub he, hr⟩
  · obtain ⟨hok, hdecl⟩ := hselect _ (hperm.nodup_iff.mpr (hunit.of_map _)) hperm.subset
      fun e _ path _ t ht => hperm.mem_iff.mpr (findEnum_eq_some ht).1
    exact ⟨_, hok, hdecl, hperm.filterMap _⟩
  · have hsublist : (blocks.flatMap Declaration.enums).Sublist unit := hds ▸ hblocks.flatMap _
    obtain ⟨hok, hdecl⟩ :=
      hselect _ ((hunit.of_map _).sublist hsublist) hsublist.subset hclosed
    exact ⟨_, hok, hdecl, hsublist.filterMap _⟩

/-- The enumerations of `forward` and, in a module that nothing refers to, another one of the same
name as the one referred to. -/
def shadowed : List Declaration :=
  [forward, .module "aside" .own []
    [⟨"Far", some "aside", .own, .own, none,
      [⟨"TWO", some (.operand (.literal ⟨2, none⟩)), [], ⟨4, 1⟩⟩], [], ⟨4, 1⟩⟩]]

/-- Without the module, and in the other order, the enumerations of `forward` keep their
results. -/
theorem resolveUnit_selection_shadowed :
    Collisions.declarations shadowed = .ok () ∧ (∀ d ∈ shadowed, d.Grouped) ∧
      ∃ rs, resolveUnit (shadowed.flatMap Declaration.enums) {} = .ok rs ∧
        IsClosed (shadowed.flatMap Declaration.enums) forward.enums.reverse ∧
        (∃ results, resolveUnit forward.enums.reverse {} = .ok results ∧
          results.map ResolvedEnum.decl = forward.enums.reverse ∧ results ⊆ rs) ∧
        ∃ results, resolveUnit (shadowed.reverse.flatMap Declaration.enums) {} = .ok results ∧
          results.Perm rs := by
  have hnames : Collisions.declarations shadowed = .ok () := by
    decide +kernel
  have hgrouped : ∀ d ∈ shadowed, d.Grouped := by
    intro d hd
    rcases List.mem_pair.mp hd with rfl | rfl
    · intro e he
      rcases List.mem_pair.mp he with rfl | rfl <;> rfl
    · intro e he
      obtain rfl := List.mem_singleton.mp he
      rfl
  have hclosed : IsClosed (shadowed.flatMap Declaration.enums) forward.enums.reverse := by
    have hall : ∀ e ∈ forward.enums.reverse, ∀ path ∈ e.enumPaths,
        ∃ t ∈ forward.enums.reverse,
          findEnum (shadowed.flatMap Declaration.enums) e.group path = .ok (some t) := by
      decide +kernel
    intro e he path hpath t ht
    obtain ⟨d, hd, hfind⟩ := hall e he path hpath
    obtain rfl := Option.some.inj (Except.ok.inj (ht.symm.trans hfind))
    exact hd
  have hok : (resolveUnit (shadowed.flatMap Declaration.enums) {}).toOption.isSome = true := by
    decide +kernel
  cases hrs : resolveUnit (shadowed.flatMap Declaration.enums) {} with
  | error err =>
    rw [hrs] at hok
    cases hok
  | ok rs =>
    obtain ⟨hselect, hreorder, -⟩ := resolveUnit_selection hnames hgrouped hrs
    obtain ⟨results, hresults, -, hperm⟩ :=
      hreorder shadowed.reverse (shadowed.reverse_perm.flatMap_right _)
    exact ⟨hnames, hgrouped, rs, rfl, hclosed,
      hselect _ (by decide +kernel) (by decide +kernel) hclosed, results, hresults, hperm⟩

end MaskEnum
