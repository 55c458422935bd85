import Mathlib.Data.List.Enum
import MaskEnum.Proofs.Lists
import MaskEnum.Proofs.Resolution.Steps
set_option autoImplicit false

/-!
# Variants keep their places

Resolving an enumeration keeps its variants in order, with their names and attributes. A variant
without initializer has its position as ordinal and as value.

## Main definitions

* `MaskEnum.ResolvedVariant.At` — a declared variant at a position, with some value.
* `MaskEnum.ResolvedEnum.InPlace` — an enumeration whose variants are those declared.

## Main results

* `MaskEnum.resolveUnit_inPlace` — the variants of a resolved unit are those declared.
* `MaskEnum.ResolvedEnum.InPlace.ordinals` — the ordinals of a fieldless enumeration.
-/

namespace MaskEnum

/-- The declared variant `v` at the position `index`, with some value. -/
structure ResolvedVariant.At (r : ResolvedVariant) (v : VariantDecl) (index : Nat) : Prop where
  name : r.name = v.name
  attributes : r.attributes = v.attributes
  ordinal : r.ordinal = if v.isFieldless then some index else none
  value : v.isFieldless = true → r.value = .known index

/-- The variants of the enumeration are those declared, in their order. -/
def ResolvedEnum.InPlace (r : ResolvedEnum) : Prop :=
  List.Forall₂ (fun p w => ResolvedVariant.At w p.1 p.2) r.decl.variants.zipIdx r.variants

namespace Resolution

/-- The value of a variant at its position. -/
theorem at_resolved {s : Scope} {bound : List (String × Value)} {index : Nat} {v : VariantDecl}
    {x : Value} (h : value s bound index v = .ok x) : (resolved index v x).At v index := by
  refine ⟨rfl, rfl, rfl, fun hv => ?_⟩
  have hnone : v.value = none := by
    simpa [VariantDecl.isFieldless] using hv
  rw [value, hnone] at h
  split_ifs at h
  exact (Except.ok.inj h).symm

/-- The variants from a position on. -/
theorem forall₂_at_of_variants {s : Scope} {bound : List (String × Value)} {index : Nat}
    {vs : List VariantDecl} {rs : List ResolvedVariant} (h : variants s index bound vs = .ok rs) :
    List.Forall₂ (fun p w => ResolvedVariant.At w p.1 p.2) (vs.zipIdx index) rs := by
  induction vs generalizing index bound rs with
  | nil =>
    obtain rfl := Except.ok.inj h
    exact List.Forall₂.nil
  | cons v vs ih =>
    obtain ⟨x, more, hx, hmore, rfl⟩ := variants_cons_eq_ok.mp h
    exact List.Forall₂.cons (at_resolved hx) (ih hmore)

end Resolution

/-- The variants of a resolved enumeration are those declared. -/
theorem resolveEnum_inPlace {decl : EnumDecl} {environment : Environment}
    {find : EnumPath → Option ResolvedEnum} {r : ResolvedEnum}
    (h : resolveEnum decl environment find = .ok r) : r.InPlace := by
  obtain ⟨vs, hvs, rfl⟩ := resolveEnum_eq_ok.mp h
  exact Resolution.forall₂_at_of_variants hvs

/-- **Places.** So are those of every enumeration of a resolved unit. -/
theorem resolveUnit_inPlace {unit : List EnumDecl} {environment : Environment}
    {rs : List ResolvedEnum} (h : resolveUnit unit environment = .ok rs) :
    ∀ r ∈ rs, r.InPlace := by
  obtain ⟨g, order, resolved, -, -, hr, rfl⟩ := resolveUnit_eq_ok.mp h
  have hall : ∀ q r, resolved.get? q = some r → r.InPlace :=
    resolveInOrder_invariant
      (P := fun t : Table QualifiedName ResolvedEnum => ∀ q r, t.get? q = some r → r.InPlace)
      (fun _ _ _ _ ht _ hr => Table.forall_get?_insert ht (resolveEnum_inPlace hr))
      Table.forall_get?_empty hr
  intro r hmem
  obtain ⟨e, -, he⟩ := List.mem_filterMap.mp hmem
  exact hall _ r he

namespace ResolvedEnum.InPlace

variable {r : ResolvedEnum} (h : r.InPlace)
include h

/-- What variants keep of those declared is the same in order. -/
theorem map_eq {α : Type} {f : ResolvedVariant → α} {g : VariantDecl → α}
    (hfg : ∀ {w : ResolvedVariant} {v : VariantDecl} {index : Nat}, w.At v index → f w = g v) :
    r.variants.map f = r.decl.variants.map g := by
  have hmap : r.variants.map f = r.decl.variants.zipIdx.map fun p => g p.1 :=
    map_eq_of_forall₂ (h.flip.imp fun _ _ hv => hfg hv)
  have hfst : (r.decl.variants.zipIdx.map fun p => g p.1) =
      (r.decl.variants.zipIdx.map Prod.fst).map g := List.map_map.symm
  rwa [hfst, List.zipIdx_map_fst] at hmap

/-- The names of the variants are those declared. -/
theorem names : r.variants.map ResolvedVariant.name = r.decl.variants.map VariantDecl.name :=
  h.map_eq fun hv => hv.name

/-- The attributes of the variants are those declared. -/
theorem attributes :
    r.variants.map ResolvedVariant.attributes = r.decl.variants.map VariantDecl.attributes :=
  h.map_eq fun hv => hv.attributes

/-- Every variant of a fieldless enumeration has its position as ordinal and as value. -/
theorem ordinals (hfieldless : r.decl.isFieldless = true) {w : ResolvedVariant} {index : Nat}
    (hw : (w, index) ∈ r.variants.zipIdx) : w.ordinal = some index ∧ w.value = .known index := by
  obtain ⟨hindex, rfl⟩ := List.getElem?_eq_some_iff.mp (List.mk_mem_zipIdx_iff_getElem?.mp hw)
  have hlength := List.Forall₂.length_eq h
  have hdecl : index < r.decl.variants.length := by
    rwa [← List.length_zipIdx, hlength]
  have hat := List.Forall₂.get h (hlength ▸ hindex) hindex
  simp only [List.get_eq_getElem, List.getElem_zipIdx, Nat.zero_add] at hat
  have hv := List.all_eq_true.mp hfieldless _ (List.getElem_mem hdecl)
  exact ⟨hat.ordinal.trans (if_pos hv), hat.value hv⟩

end ResolvedEnum.InPlace

end MaskEnum
