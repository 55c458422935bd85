import MaskEnum.Proofs.Declaration.Admission
import MaskEnum.Proofs.Generated.BareNames
import MaskEnum.Proofs.Resolution.Dependence
set_option autoImplicit false

/-!
# Symbols are exact, and strictness only forbids them

The symbols of a resolved variant are the constants without a value on which the variant depends,
and they are the bare names of its expression. Strict resolution refuses such constants and changes
nothing else, so it succeeds exactly on the units that resolve without symbols.

## Main definitions

* `MaskEnum.EnumDecl.Supplied` — an enumeration whose initializers lack no constant.

## Main results

* `MaskEnum.resolveUnit_strict_eq_ok` — strict resolution succeeds where no constant is missing.
* `MaskEnum.resolveUnit_symbols` — symbols, unknown values, bare names, and strict resolution.
-/

namespace MaskEnum

/-- Every constant in the initializers of the enumeration has a value. -/
def EnumDecl.Supplied (constants : Table String Int) (e : EnumDecl) : Prop :=
  ∀ v ∈ e.variants, ∀ o ∈ v.operands, ∀ name, ¬ o.Lacks constants name

/-! ## Strict resolution -/

namespace Resolution

section Strict

variable {environment : Environment} {decl : EnumDecl} {find : EnumPath → Option ResolvedEnum}

/-- Strictly, an external constant must have a value. -/
theorem constant_strict_eq_ok {name : String} {source : IntType} {y : Value} :
    constant ⟨decl, { environment with strict := true }, find⟩ name source = .ok y ↔
      constant ⟨decl, { environment with strict := false }, find⟩ name source = .ok y ∧
        environment.constants.get? name ≠ none := by
  unfold constant
  cases environment.constants.get? name with
  | none => simp
  | some n => exact ⟨fun h => ⟨h, nofun⟩, And.left⟩

variable {current : String} {bound : List (String × Value)}

/-- Strictly, an operand must not be a constant without a value. -/
theorem operand_strict_eq_ok {o : Operand} {y : Value} :
    operand ⟨⟨decl, { environment with strict := true }, find⟩, current, bound⟩ o = .ok y ↔
      operand ⟨⟨decl, { environment with strict := false }, find⟩, current, bound⟩ o = .ok y ∧
        ∀ name, ¬ o.Lacks environment.constants name := by
  have hother : o.constant? = none → ∀ name, ¬ o.Lacks environment.constants name := by
    rintro hnone name ⟨hsome, -⟩
    rw [hnone] at hsome
    cases hsome
  have hconstant : ∀ {n : String} {source : IntType}, o.constant? = some n →
      (constant ⟨decl, { environment with strict := true }, find⟩ n source = .ok y ↔
        constant ⟨decl, { environment with strict := false }, find⟩ n source = .ok y ∧
          ∀ name, ¬ o.Lacks environment.constants name) := by
    intro n source hn
    rw [constant_strict_eq_ok]
    refine and_congr_right fun _ => ?_
    simp only [Operand.Lacks, hn, Option.some.injEq, not_and, forall_eq', ne_eq]
  cases o with
  | literal l => exact (and_iff_left (hother rfl)).symm
  | variant n => exact (and_iff_left (hother rfl)).symm
  | negated n => exact (and_iff_left (hother rfl)).symm
  | external n source =>
    cases source with
    | typed t => exact hconstant rfl
    | bare => exact hconstant rfl
    | enumeration path => exact (and_iff_left (hother rfl)).symm

/-- Strictly, so must no operand of a group. -/
theorem group_strict_eq_ok {op : Operator} {os : List Operand} {x y : Value} :
    group ⟨⟨decl, { environment with strict := true }, find⟩, current, bound⟩ op x os = .ok y ↔
      group ⟨⟨decl, { environment with strict := false }, find⟩, current, bound⟩ op x os = .ok y ∧
        ∀ o ∈ os, ∀ name, ¬ o.Lacks environment.constants name := by
  induction os generalizing x with
  | nil => exact (and_iff_left (List.forall_mem_nil _)).symm
  | cons o os ih =>
    simp only [group_cons_eq_ok, operand_strict_eq_ok, ih, List.forall_mem_cons]
    constructor
    · rintro ⟨r, z, ⟨hr, ho⟩, hz, h, hos⟩
      exact ⟨⟨r, z, hr, hz, h⟩, ho, hos⟩
    · rintro ⟨⟨r, z, hr, hz, h⟩, ho, hos⟩
      exact ⟨r, z, ⟨hr, ho⟩, hz, h, hos⟩

/-- Strictly, so must no operand of an initializer. -/
theorem initializer_strict_eq_ok {init : Initializer} {y : Value} :
    initializer ⟨⟨decl, { environment with strict := true }, find⟩, current, bound⟩ init = .ok y ↔
      initializer ⟨⟨decl, { environment with strict := false }, find⟩, current, bound⟩ init
          = .ok y ∧
        ∀ o ∈ init.operands, ∀ name, ¬ o.Lacks environment.constants name := by
  induction init generalizing y with
  | operand o =>
    rw [initializer_operand, initializer_operand, operand_strict_eq_ok, Initializer.operands,
      List.forall_mem_singleton]
  | chain op first os ih =>
    simp only [initializer_chain_eq_ok, ih, group_strict_eq_ok, Initializer.operands,
      List.forall_mem_append]
    constructor
    · rintro ⟨x, ⟨hx, hfirst⟩, h, hos⟩
      exact ⟨⟨x, hx, h⟩, hfirst, hos⟩
    · rintro ⟨⟨x, hx, h⟩, hfirst, hos⟩
      exact ⟨x, ⟨hx, hfirst⟩, h, hos⟩

/-- Strictly, so must no operand of a variant. -/
theorem value_strict_eq_ok {index : Nat} {v : VariantDecl} {y : Value} :
    value ⟨decl, { environment with strict := true }, find⟩ bound index v = .ok y ↔
      value ⟨decl, { environment with strict := false }, find⟩ bound index v = .ok y ∧
        ∀ o ∈ v.operands, ∀ name, ¬ o.Lacks environment.constants name := by
  cases hinit : v.value with
  | none =>
    rw [VariantDecl.operands_of_none hinit, value, value, hinit]
    exact (and_iff_left (List.forall_mem_nil _)).symm
  | some init =>
    rw [VariantDecl.operands_of_some hinit, value, value, hinit]
    exact initializer_strict_eq_ok

/-- Strictly, so must no operand of all variants. -/
theorem variants_strict_eq_ok {index : Nat} {vs : List VariantDecl} {ws : List ResolvedVariant} :
    variants ⟨decl, { environment with strict := true }, find⟩ index bound vs = .ok ws ↔
      variants ⟨decl, { environment with strict := false }, find⟩ index bound vs = .ok ws ∧
        ∀ v ∈ vs, ∀ o ∈ v.operands, ∀ name, ¬ o.Lacks environment.constants name := by
  induction vs generalizing index bound ws with
  | nil => exact (and_iff_left (List.forall_mem_nil _)).symm
  | cons v vs ih =>
    simp only [variants_cons_eq_ok, value_strict_eq_ok, ih, List.forall_mem_cons]
    constructor
    · rintro ⟨x, more, ⟨hx, hv⟩, ⟨hmore, hvs⟩, rfl⟩
      exact ⟨⟨x, more, hx, hmore, rfl⟩, hv, hvs⟩
    · rintro ⟨⟨x, more, hx, hmore, rfl⟩, hv, hvs⟩
      exact ⟨x, more, ⟨hx, hv⟩, ⟨hmore, hvs⟩, rfl⟩

end Strict

end Resolution

variable {unit : List EnumDecl} {environment : Environment}

/-- An enumeration is resolved strictly if it lacks no constant, and to the same result. -/
theorem resolveEnum_strict_eq_ok {e : EnumDecl} {find : EnumPath → Option ResolvedEnum}
    {r : ResolvedEnum} :
    resolveEnum e { environment with strict := true } find = .ok r ↔
      resolveEnum e { environment with strict := false } find = .ok r ∧
        e.Supplied environment.constants := by
  simp only [resolveEnum_eq_ok, Resolution.variants_strict_eq_ok, EnumDecl.Supplied]
  constructor
  · rintro ⟨ws, ⟨hws, hsupplied⟩, rfl⟩
    exact ⟨⟨ws, hws, rfl⟩, hsupplied⟩
  · rintro ⟨⟨ws, hws, rfl⟩, hsupplied⟩
    exact ⟨ws, ⟨hws, hsupplied⟩, rfl⟩

/-- **Strict resolution.** A unit is resolved strictly if no enumeration lacks a constant, and to
the same results. -/
theorem resolveUnit_strict_eq_ok (hunit : (unit.map EnumDecl.qualifiedName).Nodup)
    {rs : List ResolvedEnum} :
    resolveUnit unit { environment with strict := true } = .ok rs ↔
      resolveUnit unit { environment with strict := false } = .ok rs ∧
        ∀ e ∈ unit, e.Supplied environment.constants := by
  have hsolves : ∀ u, Solves unit { environment with strict := true } u ↔
      Solves unit { environment with strict := false } u ∧
        ∀ e ∈ unit, e.Supplied environment.constants := by
    intro u
    simp only [Solves, resolveEnum_strict_eq_ok]
    constructor
    · intro h
      refine ⟨fun e he => ?_, fun e he => ?_⟩
      · obtain ⟨r, hget, hr, -⟩ := h e he
        exact ⟨r, hget, hr⟩
      · obtain ⟨r, -, -, hsupplied⟩ := h e he
        exact hsupplied
    · rintro ⟨h, hsupplied⟩ e he
      obtain ⟨r, hget, hr⟩ := h e he
      exact ⟨r, hget, hr, hsupplied e he⟩
  rw [resolveUnit_eq_ok_iff_solves hunit, resolveUnit_eq_ok_iff_solves hunit]
  simp only [hsolves]
  constructor
  · rintro ⟨hfound, hacyclic, u, ⟨hu, hsupplied⟩, hrs⟩
    exact ⟨⟨hfound, hacyclic, u, hu, hrs⟩, hsupplied⟩
  · rintro ⟨⟨hfound, hacyclic, u, hu, hrs⟩, hsupplied⟩
    exact ⟨hfound, hacyclic, u, ⟨hu, hsupplied⟩, hrs⟩

/-! ## Symbols -/

/-- The symbols of a variant are the names that its value reads. -/
theorem ResolvedVariant.mem_symbols {w : ResolvedVariant} {name : String} :
    name ∈ w.symbols ↔ name ∈ w.value.formula.names :=
  mem_sortedNames

/-- A variant has no symbols if its value reads no names. -/
theorem ResolvedVariant.symbols_eq_nil_iff {w : ResolvedVariant} :
    w.symbols = [] ↔ w.value.formula.names = [] := by
  simp only [List.eq_nil_iff_forall_not_mem, mem_symbols]

/-- A value is unknown exactly if it reads names. -/
theorem Value.Readable.known?_eq_none_iff {x : Value} (h : x.Readable) :
    x.known? = none ↔ x.formula.names ≠ [] := by
  cases x with
  | known n => exact ⟨nofun, fun hnames => absurd rfl hnames⟩
  | symbolic f => exact ⟨fun _ => (h f rfl).1, fun _ => rfl⟩

/-- What a variant of the unit refers to belongs to the unit. -/
theorem Variant.RefersTo.mem {a b : Variant} (h : Variant.RefersTo unit a b) (ha : a.enum ∈ unit) :
    b.enum ∈ unit := by
  obtain ⟨-, o, -, htarget⟩ := h
  unfold Operand.target? at htarget
  split at htarget
  · exact (Prod.mk.inj (Option.some.inj htarget)).1 ▸ ha
  · exact (Prod.mk.inj (Option.some.inj htarget)).1 ▸ ha
  · split at htarget
    · next t ht =>
      exact (Prod.mk.inj (Option.some.inj htarget)).1 ▸ (findEnum_eq_some ht).1
    · cases htarget
  all_goals cases htarget

/-- Where no enumeration lacks a constant, no variant depends on one. -/
theorem Variant.not_dependsOn {constants : Table String Int}
    (hsupplied : ∀ e ∈ unit, e.Supplied constants) {e : EnumDecl} (he : e ∈ unit) {v : VariantDecl}
    (hv : v ∈ e.variants) (name : String) : ¬ Variant.DependsOn unit constants ⟨e, v⟩ name := by
  rintro ⟨b, hreach, o, ho, hlacks⟩
  have hmem : b.enum ∈ unit ∧ b.decl ∈ b.enum.variants := by
    clear ho hlacks
    induction hreach with
    | refl => exact ⟨he, hv⟩
    | tail _ hstep ih => exact ⟨hstep.mem ih.1, hstep.1⟩
  exact hsupplied _ hmem.1 _ hmem.2 o ho name hlacks

/-- A unit lacks no constants exactly if its results have no symbols. -/
theorem forall_supplied_iff {rs : List ResolvedEnum} (hdecl : rs.map ResolvedEnum.decl = unit)
    (hreads : ∀ r ∈ rs, r.Reads unit environment.constants) :
    (∀ e ∈ unit, e.Supplied environment.constants) ↔
      ∀ r ∈ rs, ∀ w ∈ r.variants, w.symbols = [] := by
  constructor
  · intro hsupplied r hr w hw
    obtain ⟨v, hv, -, hvalue⟩ := exists_left_of_forall₂ (hreads r hr) hw
    refine List.eq_nil_iff_forall_not_mem.mpr fun name hname => ?_
    exact Variant.not_dependsOn hsupplied (hdecl ▸ List.mem_map_of_mem hr) hv name
      ((hvalue name).mp (ResolvedVariant.mem_symbols.mp hname))
  · intro hsymbols e he v hv o ho name hlacks
    obtain ⟨r, hr, rfl⟩ := List.mem_map.mp (hdecl ▸ he)
    obtain ⟨w, hw, -, hvalue⟩ := exists_right_of_forall₂ (hreads r hr) hv
    have hname : name ∈ w.symbols :=
      ResolvedVariant.mem_symbols.mpr ((hvalue name).mpr ⟨_, .refl, o, ho, hlacks⟩)
    rw [hsymbols r hr w hw] at hname
    cases hname

/-- **Symbols are exact, and strictness only forbids.** Let the names of the declarations not
collide, let their enumerations know their modules, and let all names be identifiers, as in all
declarations that are read. If their unit is resolved leniently, every enumeration of it has one
result with its variants in order, and

* the symbols of a variant are the external constants without a value that occur in its initializer
  or in that of a variant reached from it by references;
* the value of a variant is unknown exactly if it has symbols;
* the bare names of its expression, as generated code writes it, are its symbols.

The unit is resolved strictly exactly if it is resolved leniently without symbols, and then both
give the same results. -/
theorem resolveUnit_symbols {ds : List Declaration} (h : Collisions.declarations ds = .ok ())
    (hgrouped : ∀ d ∈ ds, d.Grouped) (hnames : ∀ d ∈ ds, d.HasIdentifiers)
    (hds : ds.flatMap Declaration.enums = unit) (environment : Environment) :
    (∀ rs, resolveUnit unit { environment with strict := false } = .ok rs →
      rs.map ResolvedEnum.decl = unit ∧
      ∀ r ∈ rs, List.Forall₂ (fun v w => w.name = v.name ∧
          (∀ name, name ∈ w.symbols ↔
            Variant.DependsOn unit environment.constants ⟨r.decl, v⟩ name) ∧
          (w.value.known? = none ↔ w.symbols ≠ []) ∧
          ∀ name, name ∈ bareNames w.value.formula.text ↔ name ∈ w.symbols)
        r.decl.variants r.variants) ∧
    ∀ rs, resolveUnit unit { environment with strict := true } = .ok rs ↔
      resolveUnit unit { environment with strict := false } = .ok rs ∧
        ∀ r ∈ rs, ∀ w ∈ r.variants, w.symbols = [] := by
  have hunit : (unit.map EnumDecl.qualifiedName).Nodup := by
    rw [← hds]
    exact Collisions.nodup_qualifiedName h hgrouped
  have hmem : ∀ e ∈ unit, ∃ d ∈ ds, e ∈ d.enums := by
    intro e he
    rwa [← hds, List.mem_flatMap] at he
  have hvariants : ∀ e ∈ unit, (e.variants.map VariantDecl.name).Nodup := by
    intro e he
    obtain ⟨d, hd, he⟩ := hmem e he
    exact ((Collisions.admitted h d hd).enums e he).nodup
  have hconstants : ∀ e ∈ unit, e.AllConstants (Generated.isIdentifier · = true) := by
    intro e he
    obtain ⟨d, hd, he⟩ := hmem e he
    exact ((hnames d hd).enums e he).constants
  refine ⟨fun rs hrs => ⟨resolveUnit_decl hunit hrs, fun r hr => ?_⟩, fun rs => ?_⟩
  · refine (forall₂_and_mem (resolveUnit_reads hunit hvariants hrs r hr)).imp ?_
    rintro v w ⟨-, hw, hname, hvalue⟩
    have hreadable := resolveUnit_readable hconstants hrs r hr w hw
    refine ⟨hname, fun name => ResolvedVariant.mem_symbols.trans (hvalue name), ?_, fun name => ?_⟩
    · rw [hreadable.known?_eq_none_iff, ne_eq, ne_eq, ResolvedVariant.symbols_eq_nil_iff]
    · rw [Formula.bareNames_text fun name hname => ?_, ResolvedVariant.mem_symbols]
      exact (Bool.and_eq_true_iff.mp (hreadable.isUsable hname)).1
  · rw [resolveUnit_strict_eq_ok hunit]
    refine and_congr_right fun hrs => ?_
    have hreads := resolveUnit_reads hunit hvariants hrs
    exact forall_supplied_iff (resolveUnit_decl hunit hrs) hreads

/-- Two enumerations of which the first refers to the second, whose value is an external
constant. -/
def limited : Declaration :=
  .block
    [⟨"Near", none, .own, .own, none,
        [⟨"SAME", some (.operand (.external "TOP" (.enumeration ⟨["Far"]⟩))), [], ⟨1, 1⟩⟩], [],
        ⟨1, 1⟩⟩,
      ⟨"Far", none, .own, .own, none,
        [⟨"TOP", some (.operand (.external "LIMIT" (.typed .isize))), [], ⟨2, 1⟩⟩], [], ⟨2, 1⟩⟩]

/-- Every name in `limited` is an identifier. -/
theorem limited_hasIdentifiers : ∀ d ∈ [limited], d.HasIdentifiers := by
  have henums : ∀ e ∈ limited.enums, Generated.isIdentifier e.name = true ∧
      (∀ v ∈ e.variants, Generated.isIdentifier v.name = true) ∧
      ∀ v ∈ e.variants, ∀ init ∈ v.value, ∀ name ∈ init.constants,
        Generated.isIdentifier name = true := by
    decide +kernel
  intro d hd
  obtain rfl := List.mem_singleton.mp hd
  refine ⟨by decide +kernel, fun e he => ?_⟩
  obtain ⟨hname, hvariants, hconstants⟩ := henums e he
  exact ⟨hname, hvariants, hconstants⟩

/-- Both variants of `limited` depend on the constant, so it is not resolved strictly. -/
theorem resolveUnit_symbols_limited :
    Collisions.declarations [limited] = .ok () ∧ (∀ d ∈ [limited], d.Grouped) ∧
      (∀ d ∈ [limited], d.HasIdentifiers) ∧
      ∃ rs, resolveUnit limited.enums {} = .ok rs ∧
        (∀ r ∈ rs, ∀ w ∈ r.variants, w.symbols = ["LIMIT"]) ∧
        (∀ r ∈ rs, ∀ v ∈ r.decl.variants,
          Variant.DependsOn limited.enums .empty ⟨r.decl, v⟩ "LIMIT") ∧
        ∀ rs', resolveUnit limited.enums { strict := true } ≠ .ok rs' := by
  have hcollisions : Collisions.declarations [limited] = .ok () := by
    decide +kernel
  have hgrouped : ∀ d ∈ [limited], d.Grouped := by
    intro d hd
    obtain rfl := List.mem_singleton.mp hd
    intro e he
    rcases List.mem_pair.mp he with rfl | rfl <;> rfl
  have hok : (match resolveUnit limited.enums {} with
      | .ok rs => rs.all fun r => r.variants.all fun w => w.symbols == ["LIMIT"]
      | .error _ => false) = true := by
    decide +kernel
  cases hrs : resolveUnit limited.enums {} with
  | error err =>
    rw [hrs] at hok
    cases hok
  | ok rs =>
    have hsymbols : ∀ r ∈ rs, ∀ w ∈ r.variants, w.symbols = ["LIMIT"] := by
      simpa [hrs] using hok
    obtain ⟨hlenient, hstrict⟩ :=
      resolveUnit_symbols hcollisions hgrouped limited_hasIdentifiers
        (List.append_nil limited.enums) {}
    obtain ⟨hdecl, hexact⟩ := hlenient rs hrs
    refine ⟨hcollisions, hgrouped, limited_hasIdentifiers, rs, rfl, hsymbols, fun r hr v hv => ?_,
      fun rs' hrs' => ?_⟩
    · obtain ⟨w, hw, -, hdepends, -⟩ := exists_right_of_forall₂ (hexact r hr) hv
      refine (hdepends "LIMIT").mp ?_
      rw [hsymbols r hr w hw]
      exact List.mem_singleton_self _
    · obtain ⟨hrs', hnone⟩ := (hstrict rs').mp hrs'
      obtain rfl := Except.ok.inj (hrs.symm.trans hrs')
      -- the first enumeration has a variant with a symbol
      have hfirst : limited.enums.head (by decide) ∈ rs.map ResolvedEnum.decl := by
        rw [hdecl]
        exact List.head_mem _
      obtain ⟨r, hr, hnear⟩ := List.mem_map.mp hfirst
      have hvariants : r.decl.variants ≠ [] := by
        rw [hnear]
        decide
      obtain ⟨v, hv⟩ := List.exists_mem_of_ne_nil _ hvariants
      obtain ⟨w, hw, -⟩ := exists_right_of_forall₂ (hexact r hr) hv
      exact absurd ((hsymbols r hr w hw).symm.trans (hnone r hr w hw)) (List.cons_ne_nil _ _)

end MaskEnum
