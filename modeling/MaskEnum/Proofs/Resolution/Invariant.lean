import MaskEnum.Proofs.Declaration.Identifiers
import MaskEnum.Proofs.Formula
import MaskEnum.Proofs.Resolution.Steps
set_option autoImplicit false

/-!
# Invariants of resolution

A property of values that integers in range have, and that operators, casts and external constants
preserve, holds of every value that a unit resolves to: each value is built from those by the steps
of its initializer, in the order of the variants and of the enumerations.

## Main definitions

* `MaskEnum.Resolution.Invariant` — a property that every step of resolution preserves.
* `MaskEnum.ResolvedEnum.All` — an enumeration all of whose values have a property.

## Main results

* `MaskEnum.resolveEnum_all`, `MaskEnum.resolveUnit_all` — the property holds of resolved values.
-/

namespace MaskEnum

/-- Zero is a value of every type. -/
theorem IntType.contains_zero (t : IntType) : t.contains 0 = true := by
  cases t <;> decide

/-- All values of the enumeration have a property of the values of its type. -/
def ResolvedEnum.All (P : IntType → Value → Prop) (r : ResolvedEnum) : Prop :=
  ∀ v ∈ r.variants, P r.decl.type v.value

/-- All external constants in initializers of the enumeration have a property. -/
def EnumDecl.AllConstants (Q : String → Prop) (e : EnumDecl) : Prop :=
  ∀ v ∈ e.variants, ∀ init, v.value = some init → ∀ name ∈ init.constants, Q name

namespace Resolution

/-- A property of the values of an integer type that every step of resolution preserves, as long as
the external constants have the property `Q`. -/
structure Invariant (environment : Environment) (Q : String → Prop)
    (P : IntType → Value → Prop) : Prop where
  known : ∀ {t n}, t.contains n = true → P t (.known n)
  apply : ∀ {op x y z t}, P t x → P t y → Resolution.apply op x y t = .ok z → P t z
  cast : ∀ {x y source target}, P source x → Resolution.cast x source target = .ok y → P target y
  constant : ∀ {name y source target}, environment.constants.get? name = none →
    isKeyword name = false → Q name →
    Resolution.cast (.symbolic (.constant name)) source target = .ok y → P target y

/-- A cast leaves an integer as it is, and succeeds for those that fit both types. -/
theorem cast_known_eq_ok {n : Int} {source target : IntType} {w : Value} :
    cast (.known n) source target = .ok w ↔
      source.contains n = true ∧ target.contains n = true ∧ w = .known n := by
  simp only [cast]
  split
  · next m hm =>
    obtain ⟨hs, ht, -⟩ := checkedCast_eq_ok.mp hm
    simp only [hs, ht, true_and, Except.ok.injEq, eq_comm]
  · next fault hm =>
    constructor
    · intro h
      cases h
    · rintro ⟨hs, ht, -⟩
      rw [checkedCast_eq_ok.mpr ⟨hs, ht, rfl⟩] at hm
      cases hm

namespace Invariant

variable {environment : Environment} {Q : String → Prop} {P : IntType → Value → Prop}
  (inv : Invariant environment Q P)
include inv

/-! ## One value -/

/-- An integer taken as a value of a type. -/
theorem castKnown {n : Int} {source target : IntType} {y : Value}
    (h : Resolution.cast (.known n) source target = .ok y) : P target y := by
  obtain ⟨-, hn, rfl⟩ := cast_known_eq_ok.mp h
  exact inv.known hn

/-- A literal. -/
theorem literal {t : IntType} {l : Literal} {y : Value} (h : literal t l = .ok y) : P t y := by
  unfold Resolution.literal at h
  split at h
  · split_ifs at h with _ hc
    obtain rfl := Except.ok.inj h
    exact inv.known (by simpa using hc)
  · split_ifs at h with hc
    obtain rfl := Except.ok.inj h
    exact inv.known (by simpa using hc)

/-- An external constant, with a value or without. -/
theorem external {decl : EnumDecl} {find : EnumPath → Option ResolvedEnum} {name : String}
    {source : IntType} {y : Value} (hname : Q name)
    (h : Resolution.constant ⟨decl, environment, find⟩ name source = .ok y) : P decl.type y := by
  unfold Resolution.constant at h
  split at h
  · exact inv.castKnown h
  · next hnone =>
    split_ifs at h with _ hkeyword
    exact inv.constant hnone (Bool.eq_false_iff.mpr hkeyword) hname h

section Scope

variable {decl : EnumDecl} {find : EnumPath → Option ResolvedEnum}
  (hfind : ∀ path r, find path = some r → r.All P)
include hfind

/-- A variant of another enumeration. -/
theorem foreign {path : EnumPath} {name : String} {y : Value}
    (h : foreign ⟨decl, environment, find⟩ path name = .ok y) : P decl.type y := by
  unfold Resolution.foreign at h
  split at h
  · next r hr =>
    split at h
    · next v hv => exact inv.cast (hfind path r hr v (List.mem_of_find?_eq_some hv)) h
    · cases h
  · split at h
    · cases h
    · split at h
      · exact inv.castKnown h
      · cases h

variable {current : String} {bound : List (String × Value)} (hbound : ∀ b ∈ bound, P decl.type b.2)
include hbound

omit inv hfind in
/-- An earlier variant. -/
theorem variant {name : String} {y : Value}
    (h : variant ⟨⟨decl, environment, find⟩, current, bound⟩ name = .ok y) : P decl.type y := by
  unfold Resolution.variant at h
  split at h
  · next hf =>
    obtain rfl := Except.ok.inj h
    exact hbound _ (List.mem_of_find?_eq_some hf)
  · split_ifs at h

/-- An operand. -/
theorem operand {o : Operand} {y : Value} (ho : ∀ name, o.constant? = some name → Q name)
    (h : operand ⟨⟨decl, environment, find⟩, current, bound⟩ o = .ok y) : P decl.type y := by
  cases o with
  | literal l => exact inv.literal h
  | variant name => exact variant hbound h
  | negated name =>
    obtain ⟨-, x, hx, hy⟩ := operand_negated_eq_ok.mp h
    exact inv.apply (inv.known (IntType.contains_zero _)) (variant hbound hx) hy
  | external name source =>
    cases source with
    | typed source => exact inv.external (ho name rfl) h
    | bare => exact inv.external (ho name rfl) h
    | enumeration path =>
      simp only [Resolution.operand] at h
      split_ifs at h
      · exact variant hbound h
      · exact inv.foreign hfind h

/-- Operands behind one operator, after a value. -/
theorem group {op : Operator} {os : List Operand} {x y : Value}
    (hos : ∀ o ∈ os, ∀ name, o.constant? = some name → Q name) (hx : P decl.type x)
    (h : group ⟨⟨decl, environment, find⟩, current, bound⟩ op x os = .ok y) : P decl.type y := by
  induction os generalizing x with
  | nil => exact Except.ok.inj h ▸ hx
  | cons o os ih =>
    obtain ⟨ho, hos⟩ := List.forall_mem_cons.mp hos
    obtain ⟨r, z, hr, hz, h⟩ := group_cons_eq_ok.mp h
    exact ih hos (inv.apply hx (inv.operand hfind hbound ho hr) hz) h

/-- An initializer. -/
theorem initializer {init : Initializer} {y : Value} (hinit : ∀ name ∈ init.constants, Q name)
    (h : initializer ⟨⟨decl, environment, find⟩, current, bound⟩ init = .ok y) :
    P decl.type y := by
  have hall : ∀ o ∈ init.operands, ∀ name, o.constant? = some name → Q name :=
    fun o ho name hname => hinit name (List.mem_filterMap.mpr ⟨o, ho, hname⟩)
  clear hinit
  induction init generalizing y with
  | operand o =>
    rw [initializer_operand] at h
    exact inv.operand hfind hbound (List.forall_mem_singleton.mp hall) h
  | chain op first os ih =>
    obtain ⟨hfirst, hos⟩ := List.forall_mem_append.mp hall
    obtain ⟨x, hx, h⟩ := initializer_chain_eq_ok.mp h
    exact inv.group hfind hbound hos (ih hx hfirst) h

/-- The value of a variant. -/
theorem value {index : Nat} {v : VariantDecl} {y : Value}
    (hv : ∀ init, v.value = some init → ∀ name ∈ init.constants, Q name)
    (h : value ⟨decl, environment, find⟩ bound index v = .ok y) : P decl.type y := by
  unfold Resolution.value at h
  split at h
  · split_ifs at h with hc
    obtain rfl := Except.ok.inj h
    exact inv.known hc
  · next init hinit => exact inv.initializer hfind hbound (hv init hinit) h

/-- The values of all variants. -/
theorem variants {index : Nat} {vs : List VariantDecl} {rs : List ResolvedVariant}
    (hvs : ∀ v ∈ vs, ∀ init, v.value = some init → ∀ name ∈ init.constants, Q name)
    (h : variants ⟨decl, environment, find⟩ index bound vs = .ok rs) :
    ∀ r ∈ rs, P decl.type r.value := by
  induction vs generalizing index bound rs with
  | nil =>
    obtain rfl := Except.ok.inj h
    exact List.forall_mem_nil _
  | cons v vs ih =>
    obtain ⟨hv, hvs⟩ := List.forall_mem_cons.mp hvs
    obtain ⟨x, more, hx, hmore, rfl⟩ := variants_cons_eq_ok.mp h
    have hp : P decl.type x := inv.value hfind hbound hv hx
    exact List.forall_mem_cons.mpr ⟨hp, ih (List.forall_mem_cons.mpr ⟨hp, hbound⟩) hvs hmore⟩

end Scope

end Invariant

end Resolution

/-! ## Enumerations and units -/

variable {environment : Environment} {Q : String → Prop} {P : IntType → Value → Prop}
  (inv : Resolution.Invariant environment Q P)

/-- A path finds what the table holds. -/
theorem exists_get?_of_resolvedTarget {unit : List EnumDecl}
    {t : Table QualifiedName ResolvedEnum} {m : Option String} {path : EnumPath}
    {r : ResolvedEnum} (h : resolvedTarget unit t m path = some r) :
    ∃ e, findEnum unit m path = .ok (some e) ∧ t.get? e.qualifiedName = some r := by
  unfold resolvedTarget at h
  split at h
  · next e he => exact ⟨e, he, h⟩
  · cases h

/-- What paths find has the property if all of the table has it. -/
theorem all_of_resolvedTarget {unit : List EnumDecl} {t : Table QualifiedName ResolvedEnum}
    {m : Option String} (ht : ∀ q r, t.get? q = some r → r.All P) :
    ∀ path r, resolvedTarget unit t m path = some r → r.All P := by
  intro path r h
  obtain ⟨e, -, he⟩ := exists_get?_of_resolvedTarget h
  exact ht _ _ he

include inv

/-- The values of a resolved enumeration have the property, if those of the others have it. -/
theorem resolveEnum_all {decl : EnumDecl} {find : EnumPath → Option ResolvedEnum}
    {r : ResolvedEnum} (hdecl : decl.AllConstants Q)
    (hfind : ∀ path r, find path = some r → r.All P)
    (h : resolveEnum decl environment find = .ok r) : r.All P := by
  obtain ⟨vs, hvs, rfl⟩ := resolveEnum_eq_ok.mp h
  exact inv.variants hfind (List.forall_mem_nil _) hdecl hvs

/-- **Invariants.** What every step of resolution preserves holds of all values of a unit. -/
theorem resolveUnit_all {unit : List EnumDecl} {rs : List ResolvedEnum}
    (hunit : ∀ e ∈ unit, e.AllConstants Q) (h : resolveUnit unit environment = .ok rs) :
    ∀ r ∈ rs, r.All P := by
  obtain ⟨g, order, resolved, -, -, hr, rfl⟩ := resolveUnit_eq_ok.mp h
  have hall : ∀ q r, resolved.get? q = some r → r.All P :=
    resolveInOrder_invariant
      (P := fun t : Table QualifiedName ResolvedEnum => ∀ q r, t.get? q = some r → r.All P)
      (fun _ e _ _ ht he hr => Table.forall_get?_insert ht
        (resolveEnum_all inv (hunit e (mem_of_enumNamed? he)) (all_of_resolvedTarget ht) hr))
      Table.forall_get?_empty hr
  intro r hmem
  obtain ⟨e, -, he⟩ := List.mem_filterMap.mp hmem
  exact hall _ r he

end MaskEnum
