import MaskEnum.Proofs.Lists
import MaskEnum.Proofs.Resolution.Solution
import MaskEnum.Proofs.Resolution.Symbols
set_option autoImplicit false

/-!
# Constants on which a variant depends

An initializer refers to constants, to variants of its own enumeration, and to variants of other
enumerations of its unit. Following the references to variants, step by step, leads to all the
initializers that a value comes from. Constants without a value that occur in one of them are those
on which the variant depends, and the formula of its value reads exactly these.

## Main definitions

* `MaskEnum.Variant` — a variant with the enumeration that declares it.
* `MaskEnum.Variant.RefersTo` — one variant names another in its initializer.
* `MaskEnum.Variant.DependsOn` — a constant without a value is used, directly or through others.
* `MaskEnum.Variant.Reads` — the value of a variant reads what the variant depends on.

## Main results

* `MaskEnum.Variant.dependsOn_iff` — what a variant depends on, from its operands.
* `MaskEnum.resolveUnit_reads` — the values of a resolved unit read what their variants depend on.
-/

namespace MaskEnum

/-- The operands of the initializer, of which a variant without one has none. -/
def VariantDecl.operands (v : VariantDecl) : List Operand :=
  match v.value with
  | none => []
  | some init => init.operands

/-- A variant with an initializer has its operands. -/
theorem VariantDecl.operands_of_some {v : VariantDecl} {init : Initializer}
    (h : v.value = some init) : v.operands = init.operands := by
  rw [operands, h]

/-- A variant without initializer has no operands. -/
theorem VariantDecl.operands_of_none {v : VariantDecl} (h : v.value = none) : v.operands = [] := by
  rw [operands, h]

/-- The enumeration of the unit to which an operand of `e` refers, with the name of a variant. -/
def Operand.target? (unit : List EnumDecl) (e : EnumDecl) : Operand → Option (EnumDecl × String)
  | .variant name | .negated name => some (e, name)
  | .external name (.enumeration path) =>
    match findEnum unit e.group path with
    | .ok (some t) => some (t, name)
    | _ => none
  | .literal _ | .external _ (.typed _) | .external _ .bare => none

/-- The operand is the external constant `name`, which has no value. -/
def Operand.Lacks (constants : Table String Int) (o : Operand) (name : String) : Prop :=
  o.constant? = some name ∧ constants.get? name = none

/-- A variant as declared, with the enumeration that declares it. -/
structure Variant where
  enum : EnumDecl
  decl : VariantDecl

namespace Variant

variable (unit : List EnumDecl) (constants : Table String Int)

/-- The initializer of `a` names the variant `b`: as an earlier one of the same enumeration,
negated or not, or as one of an enumeration of the unit. -/
def RefersTo (a b : Variant) : Prop :=
  b.decl ∈ b.enum.variants ∧
    ∃ o ∈ a.decl.operands, o.target? unit a.enum = some (b.enum, b.decl.name)

/-- The constant `name` has no value, and it occurs in the initializer of `a` or of a variant that
is reached from `a` by references. -/
def DependsOn (a : Variant) (name : String) : Prop :=
  ∃ b, Relation.ReflTransGen (RefersTo unit) a b ∧ ∃ o ∈ b.decl.operands, o.Lacks constants name

/-- The value `x` reads exactly the constants on which the variant depends. -/
def Reads (a : Variant) (x : Value) : Prop :=
  ∀ name, name ∈ x.formula.names ↔ a.DependsOn unit constants name

end Variant

/-- An operand of `e` depends on the constant `name`: it lacks that constant itself, or it refers to
a variant that depends on it. -/
def Operand.DependsOn (unit : List EnumDecl) (constants : Table String Int) (e : EnumDecl)
    (o : Operand) (name : String) : Prop :=
  o.Lacks constants name ∨ ∃ b : Variant, b.decl ∈ b.enum.variants ∧
    o.target? unit e = some (b.enum, b.decl.name) ∧ b.DependsOn unit constants name

/-- The values of an enumeration are those of its variants in order, and each reads what its
variant depends on. -/
def ResolvedEnum.Reads (unit : List EnumDecl) (constants : Table String Int)
    (r : ResolvedEnum) : Prop :=
  List.Forall₂ (fun v w => w.name = v.name ∧ Variant.Reads unit constants ⟨r.decl, v⟩ w.value)
    r.decl.variants r.variants

variable {unit : List EnumDecl} {constants : Table String Int}

/-- A variant depends on what its operands depend on. -/
theorem Variant.dependsOn_iff {a : Variant} {name : String} :
    a.DependsOn unit constants name ↔
      ∃ o ∈ a.decl.operands, o.DependsOn unit constants a.enum name := by
  constructor
  · rintro ⟨b, hreach, o, ho, hlacks⟩
    rcases hreach.cases_head with rfl | ⟨c, ⟨hmem, o', ho', htarget⟩, hrest⟩
    · exact ⟨o, ho, .inl hlacks⟩
    · exact ⟨o', ho', .inr ⟨c, hmem, htarget, b, hrest, o, ho, hlacks⟩⟩
  · rintro ⟨o, ho, hlacks | ⟨b, hmem, htarget, c, hreach, o', ho', hlacks⟩⟩
    · exact ⟨a, .refl, o, ho, hlacks⟩
    · exact ⟨c, .head ⟨hmem, o, ho, htarget⟩ hreach, o', ho', hlacks⟩

/-! ## Names that a value reads -/

namespace Resolution

/-- An operator reads what its operands read. -/
theorem mem_names_of_apply {op : Operator} {x y z : Value} {t : IntType}
    (h : apply op x y t = .ok z) (name : String) :
    name ∈ z.formula.names ↔ name ∈ x.formula.names ∨ name ∈ y.formula.names := by
  unfold apply at h
  split at h
  · split at h
    · obtain rfl := Except.ok.inj h
      simp [Value.formula, Formula.names]
    · cases h
  · obtain rfl := Except.ok.inj h
    exact List.mem_append

/-- A cast reads what its operand reads. -/
theorem names_eq_of_cast {x y : Value} {source target : IntType}
    (h : cast x source target = .ok y) : y.formula.names = x.formula.names := by
  cases x with
  | known n =>
    obtain ⟨-, -, rfl⟩ := cast_known_eq_ok.mp h
    rfl
  | symbolic f => exact names_of_cast h

/-- A literal reads nothing. -/
theorem names_of_literal {t : IntType} {l : Literal} {y : Value} (h : literal t l = .ok y) :
    y.formula.names = [] := by
  unfold literal at h
  split at h <;> split_ifs at h <;> exact Except.ok.inj h ▸ rfl

/-- An external constant is read if it has no value. -/
theorem mem_names_of_constant {s : Scope} {constant : String} {source : IntType} {y : Value}
    (h : Resolution.constant s constant source = .ok y) (name : String) :
    name ∈ y.formula.names ↔ constant = name ∧ s.environment.constants.get? name = none := by
  unfold Resolution.constant at h
  split at h
  · next n hn =>
    rw [names_eq_of_cast h]
    refine iff_of_false List.not_mem_nil ?_
    rintro ⟨rfl, hnone⟩
    rw [hnone] at hn
    cases hn
  · next hnone =>
    split_ifs at h
    rw [names_eq_of_cast h]
    constructor
    · intro hname
      obtain rfl := List.mem_singleton.mp hname
      exact ⟨rfl, hnone⟩
    · rintro ⟨rfl, -⟩
      exact List.mem_singleton_self _

section Initializer

variable {c : Context} {P : Operand → String → Prop}

/-- A group reads what the value before it and its operands read. -/
theorem mem_names_of_group {op : Operator} {os : List Operand} {x y : Value}
    (hos : ∀ o ∈ os, ∀ r, operand c o = .ok r → ∀ name, name ∈ r.formula.names ↔ P o name)
    (h : group c op x os = .ok y) (name : String) :
    name ∈ y.formula.names ↔ name ∈ x.formula.names ∨ ∃ o ∈ os, P o name := by
  induction os generalizing x with
  | nil =>
    obtain rfl := Except.ok.inj h
    simp
  | cons o os ih =>
    obtain ⟨ho, hos⟩ := List.forall_mem_cons.mp hos
    obtain ⟨r, z, hr, hz, h⟩ := group_cons_eq_ok.mp h
    rw [ih hos h, mem_names_of_apply hz, ho r hr, List.exists_mem_cons_iff, or_assoc]

/-- An initializer reads what its operands read. -/
theorem mem_names_of_initializer {init : Initializer} {y : Value}
    (hinit : ∀ o ∈ init.operands, ∀ r, operand c o = .ok r →
      ∀ name, name ∈ r.formula.names ↔ P o name)
    (h : initializer c init = .ok y) (name : String) :
    name ∈ y.formula.names ↔ ∃ o ∈ init.operands, P o name := by
  induction init generalizing y with
  | operand o =>
    rw [initializer_operand] at h
    rw [hinit o (List.mem_singleton_self o) y h, Initializer.operands]
    simp
  | chain op first os ih =>
    obtain ⟨hfirst, hos⟩ := List.forall_mem_append.mp hinit
    obtain ⟨x, hx, h⟩ := initializer_chain_eq_ok.mp h
    rw [mem_names_of_group hos h, ih hfirst hx, Initializer.operands]
    simp only [List.mem_append, or_and_right, exists_or]

end Initializer

/-- A variant reads what the operands of its initializer read. -/
theorem mem_names_of_value {s : Scope} {bound : List (String × Value)} {index : Nat}
    {v : VariantDecl} {P : Operand → String → Prop} {y : Value}
    (hv : ∀ o ∈ v.operands, ∀ r, operand ⟨s, v.name, bound⟩ o = .ok r →
      ∀ name, name ∈ r.formula.names ↔ P o name)
    (h : value s bound index v = .ok y) (name : String) :
    name ∈ y.formula.names ↔ ∃ o ∈ v.operands, P o name := by
  unfold value at h
  split at h
  · next hnone =>
    split_ifs at h
    obtain rfl := Except.ok.inj h
    rw [VariantDecl.operands_of_none hnone]
    simp [Value.formula, Formula.names]
  · next init hinit =>
    rw [VariantDecl.operands_of_some hinit] at hv ⊢
    exact mem_names_of_initializer hv h name

end Resolution

/-! ## Variants of one enumeration -/

/-- Among variants with different names, an operand that refers to `v` depends on what `v` depends
on. -/
theorem Operand.dependsOn_iff_of_target {e t : EnumDecl} {o : Operand} {v : VariantDecl}
    (hnodup : (t.variants.map VariantDecl.name).Nodup) (hv : v ∈ t.variants)
    (htarget : o.target? unit e = some (t, v.name)) (hconstant : o.constant? = none)
    (name : String) :
    o.DependsOn unit constants e name ↔ Variant.DependsOn unit constants ⟨t, v⟩ name := by
  constructor
  · rintro (⟨hsome, -⟩ | ⟨b, hmem, hb, hdepends⟩)
    · rw [hconstant] at hsome
      cases hsome
    · obtain ⟨ht, hname⟩ := Prod.mk.inj (Option.some.inj (htarget.symm.trans hb))
      obtain ⟨enum, decl⟩ := b
      obtain rfl : t = enum := ht
      obtain rfl : v = decl := List.inj_on_of_nodup_map hnodup hv hmem hname
      exact hdepends
  · exact fun h => .inr ⟨⟨t, v⟩, hv, htarget, h⟩

/-- An operand with a path refers to what the path means. -/
theorem Operand.target?_of_findEnum {e t : EnumDecl} {path : EnumPath} {name : String}
    (h : findEnum unit e.group path = .ok (some t)) :
    (external name (.enumeration path)).target? unit e = some (t, name) := by
  simp only [target?, h]

/-- An operand with a path that means nothing in the unit refers to nothing there. -/
theorem Operand.target?_eq_none {e : EnumDecl} {path : EnumPath} {name : String}
    (h : ∀ t, findEnum unit e.group path ≠ .ok (some t)) :
    (external name (.enumeration path)).target? unit e = none := by
  cases hfind : findEnum unit e.group path with
  | error fault => simp only [target?, hfind]
  | ok o =>
    cases o with
    | none => simp only [target?, hfind]
    | some t => exact absurd hfind (h t)

/-- An operand without target that is no constant depends on nothing. -/
theorem Operand.not_dependsOn {e : EnumDecl} {o : Operand} (htarget : o.target? unit e = none)
    (hconstant : o.constant? = none) (name : String) : ¬ o.DependsOn unit constants e name := by
  rintro (⟨hsome, -⟩ | ⟨b, -, hb, -⟩)
  · rw [hconstant] at hsome
    cases hsome
  · rw [htarget] at hb
    cases hb

namespace Resolution

section Enumeration

variable {environment : Environment} {e : EnumDecl} {u : Table QualifiedName ResolvedEnum}
  (hunit : (unit.map EnumDecl.qualifiedName).Nodup)
  (hnodup : ∀ d ∈ unit, (d.variants.map VariantDecl.name).Nodup) (he : e ∈ unit)
  (hothers : ∀ t, Refers unit e t → ∃ r, u.get? t.qualifiedName = some r ∧ r.decl = t ∧
    r.Reads unit environment.constants)
  {bound : List (String × Value)}
  (hbound : ∀ b ∈ bound, ∃ v ∈ e.variants, v.name = b.1 ∧
    Variant.Reads unit environment.constants ⟨e, v⟩ b.2)

include hbound in
/-- An earlier variant reads what it depends on. -/
theorem reads_of_variant {current name : String} {x : Value}
    (h : variant ⟨⟨e, environment, resolvedTarget unit u e.group⟩, current, bound⟩ name = .ok x) :
    ∃ v ∈ e.variants, v.name = name ∧ Variant.Reads unit environment.constants ⟨e, v⟩ x := by
  unfold variant at h
  split at h
  · next hfind =>
    obtain rfl := Except.ok.inj h
    obtain ⟨v, hv, hname, hreads⟩ := hbound _ (List.mem_of_find?_eq_some hfind)
    exact ⟨v, hv, hname.trans (by simpa using List.find?_some hfind), hreads⟩
  · split_ifs at h

include hunit he hothers in
/-- A variant of another enumeration of the unit reads what it depends on; one of an external
enumeration reads nothing. -/
theorem reads_of_foreign {path : EnumPath} {name : String} {y : Value}
    (hown : isOwn e path = false) (hpath : path ∈ e.enumPaths)
    (h : foreign ⟨e, environment, resolvedTarget unit u e.group⟩ path name = .ok y) :
    (∃ t ∈ unit, findEnum unit e.group path = .ok (some t) ∧ ∃ v ∈ t.variants, v.name = name ∧
        Variant.Reads unit environment.constants ⟨t, v⟩ y) ∨
      (∀ t, findEnum unit e.group path ≠ .ok (some t)) ∧ y.formula.names = [] := by
  -- what the path means is another enumeration, and that one is resolved already
  have hrefers : ∀ t, findEnum unit e.group path = .ok (some t) → Refers unit e t := by
    intro t ht
    refine ⟨he, ?_, path, hpath, ht⟩
    rintro rfl
    rw [(findEnum_eq_self_iff hunit he).mp ht] at hown
    cases hown
  unfold foreign at h
  split at h
  · next r hr =>
    obtain ⟨t, ht, hget⟩ := exists_get?_of_resolvedTarget hr
    obtain ⟨r', hget', hdecl, hreads⟩ := hothers t (hrefers t ht)
    obtain rfl := Option.some.inj (hget.symm.trans hget')
    subst hdecl
    split at h
    · next w hw =>
      obtain ⟨v, hv, hname, hvalue⟩ :=
        exists_left_of_forall₂ hreads (List.mem_of_find?_eq_some hw)
      refine .inl ⟨r.decl, (findEnum_eq_some ht).1, ht, v, hv, ?_, fun constant => ?_⟩
      · exact hname.symm.trans (by simpa using List.find?_some hw)
      · rw [names_eq_of_cast h]
        exact hvalue constant
    · cases h
  · next hnone =>
    refine .inr ⟨fun t ht => ?_, ?_⟩
    · obtain ⟨r, hget, -⟩ := hothers t (hrefers t ht)
      simp only [resolvedTarget, ht, hget] at hnone
      cases hnone
    · split at h
      · cases h
      · split at h
        · exact names_eq_of_cast h
        · cases h

include hunit hnodup he hothers hbound

/-- An operand reads what it depends on. -/
theorem mem_names_of_operand {current : String} {o : Operand} {y : Value}
    (hpath : ∀ path ∈ o.enumPath?, path ∈ e.enumPaths)
    (h : operand ⟨⟨e, environment, resolvedTarget unit u e.group⟩, current, bound⟩ o = .ok y)
    (name : String) :
    name ∈ y.formula.names ↔ o.DependsOn unit environment.constants e name := by
  cases o with
  | literal l =>
    rw [names_of_literal h]
    exact iff_of_false List.not_mem_nil (Operand.not_dependsOn rfl rfl name)
  | variant n =>
    obtain ⟨v, hv, rfl, hreads⟩ := reads_of_variant hbound h
    rw [hreads name, Operand.dependsOn_iff_of_target (hnodup e he) hv rfl rfl]
  | negated n =>
    obtain ⟨-, x, hx, hy⟩ := operand_negated_eq_ok.mp h
    obtain ⟨v, hv, rfl, hreads⟩ := reads_of_variant hbound hx
    rw [Operand.dependsOn_iff_of_target (hnodup e he) hv rfl rfl, ← hreads name,
      mem_names_of_apply hy]
    exact or_iff_right List.not_mem_nil
  | external n source =>
    have hconstant : ∀ t, Resolution.constant ⟨e, environment, resolvedTarget unit u e.group⟩ n t
        = .ok y → ∀ o : Operand, o.constant? = some n → o.target? unit e = none →
        (name ∈ y.formula.names ↔ o.DependsOn unit environment.constants e name) := by
      intro t ht o hsome hnone
      rw [mem_names_of_constant ht, Operand.DependsOn, Operand.Lacks, hsome, hnone,
        Option.some.injEq]
      simp
    cases source with
    | typed t => exact hconstant t h _ rfl rfl
    | bare => exact hconstant e.type h _ rfl rfl
    | enumeration path =>
      simp only [operand] at h
      split_ifs at h with hown
      · obtain ⟨v, hv, rfl, hreads⟩ := reads_of_variant hbound h
        have htarget := (findEnum_eq_self_iff hunit he).mpr hown
        rw [hreads name, Operand.dependsOn_iff_of_target (hnodup e he) hv
          (Operand.target?_of_findEnum htarget) rfl]
      · rcases reads_of_foreign hunit he hothers (Bool.not_eq_true _ ▸ hown) (hpath path rfl) h with
          ⟨t, ht, hfind, v, hv, rfl, hreads⟩ | ⟨hnone, hnames⟩
        · rw [hreads name, Operand.dependsOn_iff_of_target (hnodup t ht) hv
            (Operand.target?_of_findEnum hfind) rfl]
        · rw [hnames]
          exact iff_of_false List.not_mem_nil
            (Operand.not_dependsOn (Operand.target?_eq_none hnone) rfl name)

/-- The value of a variant reads what the variant depends on. -/
theorem reads_of_value {index : Nat} {v : VariantDecl} {y : Value} (hv : v ∈ e.variants)
    (h : value ⟨e, environment, resolvedTarget unit u e.group⟩ bound index v = .ok y) :
    Variant.Reads unit environment.constants ⟨e, v⟩ y := by
  intro name
  rw [Variant.dependsOn_iff]
  refine mem_names_of_value (fun o ho r hr => mem_names_of_operand hunit hnodup he hothers hbound
    (fun path hpath => ?_) hr) h name
  cases hinit : v.value with
  | none =>
    rw [VariantDecl.operands_of_none hinit] at ho
    cases ho
  | some init =>
    rw [VariantDecl.operands_of_some hinit] at ho
    exact EnumDecl.mem_enumPaths.mpr ⟨v, hv, init, hinit, List.mem_filterMap.mpr ⟨o, ho, hpath⟩⟩

/-- The values of variants read what their variants depend on, one after the other. -/
theorem reads_of_variants {index : Nat} {vs : List VariantDecl} {ws : List ResolvedVariant}
    (hvs : vs ⊆ e.variants)
    (h : variants ⟨e, environment, resolvedTarget unit u e.group⟩ index bound vs = .ok ws) :
    List.Forall₂ (fun v w => w.name = v.name ∧
      Variant.Reads unit environment.constants ⟨e, v⟩ w.value) vs ws := by
  induction vs generalizing index bound ws with
  | nil =>
    obtain rfl := Except.ok.inj h
    exact .nil
  | cons v vs ih =>
    obtain ⟨hv, hvs⟩ := List.cons_subset.mp hvs
    obtain ⟨x, more, hx, hmore, rfl⟩ := variants_cons_eq_ok.mp h
    have hreads := reads_of_value hunit hnodup he hothers hbound hv hx
    exact .cons ⟨rfl, hreads⟩
      (ih (List.forall_mem_cons.mpr ⟨⟨v, hv, rfl, hreads⟩, hbound⟩) hvs hmore)

end Enumeration

end Resolution

/-! ## Units -/

/-- **Exact dependence.** In a unit whose enumerations have different names, with different names of
variants in each, every value reads exactly the constants on which its variant depends.

**Proof sketch.** By induction along the references between enumerations, which lead to an end
(`wellFounded_refers`), and in each enumeration along its variants. -/
theorem resolveUnit_reads {environment : Environment}
    (hunit : (unit.map EnumDecl.qualifiedName).Nodup)
    (hnodup : ∀ e ∈ unit, (e.variants.map VariantDecl.name).Nodup) {rs : List ResolvedEnum}
    (h : resolveUnit unit environment = .ok rs) :
    ∀ r ∈ rs, r.Reads unit environment.constants := by
  obtain ⟨u, hrs, hall⟩ := exists_table_of_resolveUnit hunit h
  have hreads : ∀ e, e ∈ unit → ∃ r, u.get? e.qualifiedName = some r ∧ r.decl = e ∧
      r.Reads unit environment.constants := by
    intro e
    induction e using (wellFounded_refers h).induction with
    | _ e ih =>
      intro he
      obtain ⟨r, hget, hdecl, hr⟩ := hall e he
      obtain ⟨ws, hws, rfl⟩ := resolveEnum_eq_ok.mp hr
      exact ⟨_, hget, rfl, Resolution.reads_of_variants hunit hnodup he
        (fun t ht => ih t ht ht.mem) (List.forall_mem_nil _) (List.Subset.refl _) hws⟩
  intro r hr
  obtain ⟨e, he, hget⟩ := List.mem_filterMap.mp (hrs ▸ hr)
  obtain ⟨r', hget', -, hr'⟩ := hreads e he
  obtain rfl := Option.some.inj (hget.symm.trans hget')
  exact hr'

end MaskEnum
