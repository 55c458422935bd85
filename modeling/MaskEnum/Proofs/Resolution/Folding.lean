import MaskEnum.Proofs.Resolution.Settling
set_option autoImplicit false

/-!
# Folding early and evaluating late

A unit may be resolved before all of its constants are known. Values that depend on the missing
ones stay formulas, which generated code evaluates when it is loaded. Resolving with all constants
gives the same: each formula is replaced by its value, and resolution fails exactly if one of them
has none.

Two resolutions of the same unit are compared step by step, one with some of the constants and one
with all of them. Wherever the first has a value, the second has the integer that its formula
evaluates to, or fails if there is none.

## Main definitions

* `MaskEnum.Environment.hide` — an environment without some of its constants.
* `MaskEnum.Resolution.Below` — a context with some constants beside one with all of them.

## Main results

* `MaskEnum.Resolution.initializer_agrees`, `MaskEnum.resolveEnum_agrees` — the comparison for an
  initializer and for an enumeration.
* `MaskEnum.resolveUnit_settles` — the comparison for a unit.
-/

namespace MaskEnum

variable {constants : Table String Int}

/-! ## Fewer constants -/

/-- The environment without the constants that `hidden` picks; it does not insist on them. -/
def Environment.hide (environment : Environment) (hidden : String → Bool) : Environment :=
  { environment with
    constants := ⟨environment.constants.entries.filter fun e => ! hidden e.1⟩
    strict := false }

/-- The environments define the same, except that the second may have more constants. -/
structure Environment.Below (environment environment' : Environment) : Prop where
  enums : environment'.enums = environment.enums
  constants : ∀ name n, environment.constants.get? name = some n →
    environment'.constants.get? name = some n

/-- Hiding constants gives an environment below. -/
theorem Environment.hide_below (environment : Environment) (hidden : String → Bool) :
    (environment.hide hidden).Below environment where
  enums := rfl
  constants name n h := by
    have hget : (environment.hide hidden).constants.get? name =
        if ! hidden name then environment.constants.get? name else none :=
      Table.get?_filter _ (fun name => ! hidden name) name
    rw [hget] at h
    split_ifs at h
    exact h

namespace Resolution

open Value

/-- The second scope is the first with all constants: its environment has them, the enumerations
that it finds have settled with them, and so have the variants before. -/
structure Below (c c' : Context) : Prop where
  decl : c'.scope.decl = c.scope.decl
  current : c'.current = c.current
  environment : c.scope.environment.Below c'.scope.environment
  find : ∀ path, Option.Rel (ResolvedEnum.Settles c'.scope.environment.constants)
    (c.scope.find path) (c'.scope.find path)
  fits : ∀ path r, c.scope.find path = some r → r.Fits
  bound : List.Forall₂ (fun b b' => b'.1 = b.1 ∧ b.2.Settles c'.scope.environment.constants b'.2)
    c.bound c'.bound

/-- Variants that have settled are found by the names of those before. -/
theorem find?_bound {bound bound' : List (String × Value)}
    (h : List.Forall₂ (fun b b' => b'.1 = b.1 ∧ b.2.Settles constants b'.2) bound bound')
    (name : String) :
    Option.Rel (fun b b' => b'.1 = b.1 ∧ b.2.Settles constants b'.2)
      (bound.find? (·.1 == name)) (bound'.find? (·.1 == name)) := by
  induction h with
  | nil => exact Option.Rel.none
  | cons hb _ ih =>
    simp only [List.find?_cons, hb.1]
    split
    · exact Option.Rel.some hb
    · exact ih

section Below

variable {c c' : Context} (h : Below c c')
include h

/-- The two contexts wrap one type. -/
theorem Below.type_eq : c'.scope.type = c.scope.type := by
  rw [Scope.type, h.decl, Scope.type]

/-- An earlier variant of the same enumeration. -/
theorem variant_agrees (name : String) :
    Agrees c'.scope.environment.constants (variant c name) (variant c' name) := by
  have hfind := find?_bound h.bound name
  unfold variant
  cases hb : c.bound.find? (·.1 == name) with
  | none =>
    simp only
    split_ifs <;> exact agrees_error
  | some b =>
    rw [hb] at hfind
    obtain ⟨b', hb', -, hsettles⟩ := exists_of_rel_some hfind
    rw [hb']
    exact agrees_ok hsettles

/-- An external constant: without a value it is a name, which all constants supply. -/
theorem constant_agrees (name : String) (source : IntType) :
    Agrees c'.scope.environment.constants (constant c.scope name source)
      (constant c'.scope name source) := by
  unfold constant
  cases hc : c.scope.environment.constants.get? name with
  | some n =>
    rw [h.environment.constants name n hc, h.type_eq]
    refine cast_agrees (fun f t hf => ?_) (settles_known.mpr rfl)
    cases hf
  | none =>
    simp only
    by_cases hstrict : c.scope.environment.strict = true
    · rw [if_pos hstrict]
      exact agrees_error
    by_cases hword : isKeyword name = true
    · rw [if_neg hstrict, if_pos hword]
      exact agrees_error
    rw [if_neg hstrict, if_neg hword]
    intro v hv hsupplied
    have hkey : name ∈ c'.scope.environment.constants.keys :=
      hsupplied name (names_of_cast hv ▸ List.mem_singleton_self name)
    obtain ⟨n, hn⟩ := Option.isSome_iff_exists.mp (Table.isSome_get?_iff.mpr hkey)
    have hsettles : Settles c'.scope.environment.constants (.symbolic (.constant name))
        (.known n) := ⟨n, Formula.evalIn_constant_eq_ok.mpr hn, rfl⟩
    rw [hn, h.type_eq]
    refine cast_agrees (fun f t hf ht => ?_) hsettles v hv hsupplied
    obtain rfl := Value.symbolic.inj hf
    cases ht

/-- A variant of an enumeration of the unit, which has settled. -/
theorem foreign_agrees_of_some {path : EnumPath} {r r' : ResolvedEnum}
    (hc : c.scope.find path = some r) (hc' : c'.scope.find path = some r')
    (hr : r.Settles c'.scope.environment.constants r') (name : String) :
    Agrees c'.scope.environment.constants (foreign c.scope path name)
      (foreign c'.scope path name) := by
  obtain ⟨vs, hvs, rfl⟩ := hr
  have hvariant := find?_settles hvs name
  unfold foreign
  rw [hc, hc', h.type_eq]
  simp only [ResolvedEnum.variant?]
  cases hv : r.variants.find? (·.name == name) with
  | none => exact agrees_error
  | some v =>
    rw [hv] at hvariant
    obtain ⟨v', hv', w, hw, rfl⟩ := exists_of_rel_some hvariant
    rw [hv']
    exact cast_agrees (eq_of_fits (h.fits path r hc v (List.mem_of_find?_eq_some hv))) hw

/-- A variant of an external enumeration, which both environments define alike. -/
theorem foreign_agrees_of_none {path : EnumPath} (hc : c.scope.find path = none)
    (hc' : c'.scope.find path = none) (name : String) :
    Agrees c'.scope.environment.constants (foreign c.scope path name)
      (foreign c'.scope path name) := by
  unfold foreign
  rw [hc, hc', h.type_eq, h.environment.enums]
  simp only
  cases c.scope.environment.enums.get? path.text with
  | none => exact agrees_error
  | some table =>
    simp only
    cases table.get? name with
    | none => exact agrees_error
    | some n =>
      refine cast_agrees (fun f t hf => ?_) (settles_known.mpr rfl)
      cases hf

/-- A variant of another enumeration. -/
theorem foreign_agrees (path : EnumPath) (name : String) :
    Agrees c'.scope.environment.constants (foreign c.scope path name)
      (foreign c'.scope path name) := by
  have hfind := h.find path
  cases hc : c.scope.find path with
  | none =>
    rw [hc] at hfind
    exact foreign_agrees_of_none h hc (eq_none_of_rel_none hfind) name
  | some r =>
    rw [hc] at hfind
    obtain ⟨r', hc', hr⟩ := exists_of_rel_some hfind
    exact foreign_agrees_of_some h hc hc' hr name

omit h in
/-- A literal has its own value. -/
theorem eq_of_literal {t : IntType} {l : Literal} {y : Value} (hy : literal t l = .ok y) :
    y = .known l.value := by
  unfold literal at hy
  split at hy
  · split_ifs at hy
    exact (Except.ok.inj hy).symm
  · split_ifs at hy
    exact (Except.ok.inj hy).symm

/-- An operand. -/
theorem operand_agrees (o : Operand) :
    Agrees c'.scope.environment.constants (operand c o) (operand c' o) := by
  cases o with
  | literal l =>
    intro v hv
    have hlit : operand c' (.literal l) = operand c (.literal l) := by
      rw [operand, operand, h.type_eq]
    rw [hlit, hv]
    obtain rfl := eq_of_literal hv
    exact agrees_ok (settles_known.mpr rfl) _ rfl
  | variant name => exact variant_agrees h name
  | negated name =>
    simp only [operand, h.type_eq]
    split_ifs
    · exact agrees_error
    · exact (variant_agrees h name).bind (fun x y hy => (part_of_apply hy).2)
        fun x w hw => apply_agrees (settles_known.mpr rfl) hw
  | external name source =>
    cases source with
    | typed source => exact constant_agrees h name source
    | bare =>
      simp only [operand, h.type_eq]
      exact constant_agrees h name c.scope.type
    | enumeration path =>
      simp only [operand, h.decl]
      split_ifs
      · exact variant_agrees h name
      · exact foreign_agrees h path name

omit h in
/-- What stands before a group is a part of its value. -/
theorem part_of_group {op : Operator} {os : List Operand} {x y : Value}
    (hy : group c op x os = .ok y) : x.Part constants y := by
  induction os generalizing x with
  | nil => exact Except.ok.inj hy ▸ Part.refl x
  | cons o os ih =>
    obtain ⟨r, z, -, hz, hy⟩ := group_cons_eq_ok.mp hy
    exact (part_of_apply hz).1.trans (ih hy)

/-- A group, behind a value that has settled. -/
theorem group_agrees {op : Operator} {os : List Operand} {x w : Value}
    (hx : x.Settles c'.scope.environment.constants w) :
    Agrees c'.scope.environment.constants (group c op x os) (group c' op w os) := by
  induction os generalizing x w with
  | nil => exact agrees_ok hx
  | cons o os ih =>
    simp only [group, h.type_eq]
    refine (operand_agrees h o).bind (fun r y hy => ?_) fun r w' hr => ?_
    · obtain ⟨z, hz, hy⟩ := bind_eq_ok.mp hy
      exact (part_of_apply hz).2.trans (part_of_group hy)
    · exact (apply_agrees hx hr).bind (fun z y hy => part_of_group hy) fun z w'' hz => ih hz

/-- An initializer: its groups in turn. -/
theorem initializer_agrees (init : Initializer) :
    Agrees c'.scope.environment.constants (initializer c init) (initializer c' init) := by
  induction init with
  | operand o => exact operand_agrees h o
  | chain op first os ih =>
    simp only [initializer]
    exact ih.bind (fun x y hy => part_of_group hy) fun x w hx => group_agrees h hx

/-- The next variant may use one more that has settled. -/
theorem Below.cons {x w : Value} (hx : x.Settles c'.scope.environment.constants w)
    (current name : String) :
    Below ⟨c.scope, current, (name, x) :: c.bound⟩ ⟨c'.scope, current, (name, w) :: c'.bound⟩ :=
  { h with
    current := rfl
    bound := List.Forall₂.cons ⟨rfl, hx⟩ h.bound }

/-- A variant. -/
theorem value_agrees (index : Nat) (v : VariantDecl) :
    Agrees c'.scope.environment.constants (value c.scope c.bound index v)
      (value c'.scope c'.bound index v) := by
  unfold value
  rw [h.type_eq]
  cases v.value with
  | none =>
    simp only
    split_ifs
    · exact agrees_ok (settles_known.mpr rfl)
    · exact agrees_error
  | some init =>
    have hv : Below ⟨c.scope, v.name, c.bound⟩ ⟨c'.scope, v.name, c'.bound⟩ :=
      { h with current := rfl }
    exact initializer_agrees hv init

end Below

/-- All variants: the second resolution has values for them exactly if all of the first settle. -/
theorem variants_agree {c c' : Context} (h : Below c c') {index : Nat} {vs : List VariantDecl}
    {rs rs' : List ResolvedVariant} (hrs : variants c.scope index c.bound vs = .ok rs)
    (hsupplied : ∀ r ∈ rs, r.value.Supplied c'.scope.environment.constants) :
    variants c'.scope index c'.bound vs = .ok rs' ↔
      List.Forall₂ (ResolvedVariant.Settles c'.scope.environment.constants) rs rs' := by
  induction vs generalizing c c' index rs rs' with
  | nil =>
    obtain rfl := Except.ok.inj hrs
    rw [List.forall₂_nil_left_iff]
    exact ⟨fun h => (Except.ok.inj h).symm, fun h => h ▸ rfl⟩
  | cons v vs ih =>
    obtain ⟨x, more, hx, hmore, rfl⟩ := variants_cons_eq_ok.mp hrs
    obtain ⟨hsx, hsmore⟩ := List.forall_mem_cons.mp hsupplied
    have hvalue := value_agrees h index v x hx hsx
    rw [variants_cons_eq_ok]
    constructor
    · rintro ⟨w, more', hw, hmore', rfl⟩
      have hxw := (hvalue w).mp hw
      refine List.Forall₂.cons ⟨w, hxw, rfl⟩ ?_
      exact (ih (h.cons hxw c.current v.name) hmore hsmore).mp hmore'
    · rintro (_ | ⟨⟨w, hxw, rfl⟩, hrest⟩)
      refine ⟨w, _, (hvalue w).mpr hxw, ?_, rfl⟩
      exact (ih (h.cons hxw c.current v.name) hmore hsmore).mpr hrest

end Resolution

/-! ## Enumerations and units -/

section Unit

variable {environment environment' : Environment} (henv : environment.Below environment')
include henv

omit henv in
/-- Enumerations that settle are declared alike. -/
theorem map_decl_eq {o o' : Option ResolvedEnum}
    (h : Option.Rel (ResolvedEnum.Settles constants) o o') :
    o'.map (·.decl.qualifiedName) = o.map (·.decl.qualifiedName) := by
  cases h with
  | none => rfl
  | some hr =>
    obtain ⟨vs, -, rfl⟩ := hr
    rfl

/-- An enumeration: with all constants it is resolved exactly if all its values settle. -/
theorem resolveEnum_agrees {decl : EnumDecl} {find find' : EnumPath → Option ResolvedEnum}
    (hfind : ∀ path, Option.Rel (ResolvedEnum.Settles environment'.constants)
      (find path) (find' path))
    (hfits : ∀ path r, find path = some r → r.Fits) {r r' : ResolvedEnum}
    (hr : resolveEnum decl environment find = .ok r)
    (hsupplied : r.Supplied environment'.constants) :
    resolveEnum decl environment' find' = .ok r' ↔ r.Settles environment'.constants r' := by
  have hbelow : Resolution.Below ⟨⟨decl, environment, find⟩, "", []⟩
      ⟨⟨decl, environment', find'⟩, "", []⟩ :=
    ⟨rfl, rfl, henv, hfind, hfits, List.Forall₂.nil⟩
  have hdependencies : Resolution.dependencies ⟨decl, environment', find'⟩ =
      Resolution.dependencies ⟨decl, environment, find⟩ := by
    simp only [Resolution.dependencies, List.map_filterMap, map_decl_eq (hfind _)]
  obtain ⟨vs, hvs, rfl⟩ := resolveEnum_eq_ok.mp hr
  rw [resolveEnum_eq_ok, hdependencies]
  refine exists_congr fun vs' => and_congr_left fun _ => ?_
  exact Resolution.variants_agree hbelow hvs hsupplied

variable {unit : List EnumDecl}

omit henv in
/-- Tables whose enumerations correspond answer alike. -/
theorem resolvedTarget_rel {R : ResolvedEnum → ResolvedEnum → Prop}
    {t t' : Table QualifiedName ResolvedEnum} (ht : ∀ q, Option.Rel R (t.get? q) (t'.get? q))
    (m : Option String) (path : EnumPath) :
    Option.Rel R (resolvedTarget unit t m path) (resolvedTarget unit t' m path) := by
  unfold resolvedTarget
  split
  · exact ht _
  · exact Option.Rel.none

/-- One enumeration after the other, none twice: if all of them settle, they are resolved with all
constants too, and they have settled in every such resolution. -/
theorem resolveInOrder_agrees {order : List QualifiedName}
    {t t' u : Table QualifiedName ResolvedEnum}
    (ht : ∀ q, Option.Rel (ResolvedEnum.Settles environment'.constants) (t.get? q) (t'.get? q))
    (hfits : ∀ q r, t.get? q = some r → r.Fits) (horder : order.Nodup)
    (h : resolveInOrder unit environment order t = .ok u)
    (hsupplied : ∀ q r, u.get? q = some r → r.Supplied environment'.constants) :
    (∀ u', resolveInOrder unit environment' order t' = .ok u' →
      ∀ q, Option.Rel (ResolvedEnum.Settles environment'.constants) (u.get? q) (u'.get? q)) ∧
    ((∀ q r, u.get? q = some r → ∃ r', r.Settles environment'.constants r') →
      ∃ u', resolveInOrder unit environment' order t' = .ok u') := by
  induction order generalizing t t' with
  | nil =>
    obtain rfl := Except.ok.inj h
    exact ⟨fun u' hu' => Except.ok.inj hu' ▸ ht, fun _ => ⟨t', rfl⟩⟩
  | cons q order ih =>
    obtain ⟨hq, horder⟩ := List.nodup_cons.mp horder
    cases hm : enumNamed? unit q with
    | none =>
      rw [resolveInOrder_cons_of_none hm] at h ⊢
      exact ih ht hfits horder h
    | some e =>
      obtain ⟨r, hr, hrest⟩ := (resolveInOrder_cons_eq_ok hm).mp h
      -- `q` is not resolved again, so this result is the final one
      have hget : u.get? q = some r := by
        rw [get?_resolveInOrder_of_notMem hq hrest, Table.get?_insert, if_pos rfl]
      have hfound : ∀ path r, resolvedTarget unit t e.group path = some r → r.Fits :=
        fits_of_resolvedTarget hfits
      have hsettles : ∀ r', resolveEnum e environment' (resolvedTarget unit t' e.group) = .ok r' ↔
          r.Settles environment'.constants r' := fun r' =>
        resolveEnum_agrees henv (resolvedTarget_rel ht e.group) hfound hr (hsupplied q r hget)
      have hfits' : ∀ p r', (t.insert q r).get? p = some r' → r'.Fits :=
        Table.forall_get?_insert hfits (resolveEnum_fits hfound hr)
      constructor
      · intro u' hu'
        obtain ⟨r', hr', hrest'⟩ := (resolveInOrder_cons_eq_ok hm).mp hu'
        have hnext := Table.rel_get?_insert ht q ((hsettles r').mp hr')
        exact (ih hnext hfits' horder hrest).1 u' hrest'
      · intro hall
        obtain ⟨r', hr'⟩ := hall q r hget
        obtain ⟨u', hu'⟩ := (ih (Table.rel_get?_insert ht q hr') hfits' horder hrest).2 hall
        exact ⟨u', (resolveInOrder_cons_eq_ok hm).mpr ⟨r', (hsettles r').mpr hr', hu'⟩⟩

end Unit

/-- **Folding agrees with loading.** A unit that resolves without the constants that `hidden` picks
resolves with all of them exactly if the formula of each of its values has a value, and then every
variant gets just that value. All constants that the formulas name must be supplied.

**Proof sketch.** The reference graph does not depend on constants, so both resolutions follow the
same order. Each enumeration is compared with `resolveEnum_agrees`; the tables of resolved
enumerations correspond throughout (`resolveInOrder_agrees`). -/
theorem resolveUnit_settles {unit : List EnumDecl} {environment : Environment}
    {hidden : String → Bool} {folded : List ResolvedEnum}
    (h : resolveUnit unit (environment.hide hidden) = .ok folded)
    (hsymbols : ∀ e ∈ folded, ∀ name ∈ e.symbols, environment.constants.contains name = true) :
    ((∃ full, resolveUnit unit environment = .ok full) ↔
      ∀ e ∈ folded, ∀ v ∈ e.variants,
        ∃ n, v.value.formula.evalIn environment.constants = .ok n) ∧
    ∀ full, resolveUnit unit environment = .ok full →
      List.Forall₂ (ResolvedEnum.Settles environment.constants) folded full := by
  obtain ⟨g, order, resolved, hg, ho, hr, rfl⟩ := resolveUnit_eq_ok.mp h
  have hmem : ∀ q r, resolved.get? q = some r →
      r ∈ unit.filterMap fun e => resolved.get? e.qualifiedName := by
    intro q r hq
    have hm := enumNamed?_of_get?_resolveInOrder hr hq
    refine List.mem_filterMap.mpr ⟨r.decl, mem_of_enumNamed? hm, ?_⟩
    rw [qualifiedName_of_enumNamed? hm, hq]
  have hstart : ∀ q, Option.Rel (ResolvedEnum.Settles environment.constants)
      ((Table.empty : Table QualifiedName ResolvedEnum).get? q)
      ((Table.empty : Table QualifiedName ResolvedEnum).get? q) := fun _ => Option.Rel.none
  have hagree := resolveInOrder_agrees (environment.hide_below hidden) hstart
    Table.forall_get?_empty (nodup_and_mem_of_topologicalOrder hg ho).1 hr
    fun q r hq => ResolvedEnum.supplied_of_symbols (hsymbols r (hmem q r hq))
  -- the graph does not mention constants, so both resolutions follow the same order
  have hrel : ∀ full, resolveUnit unit environment = .ok full →
      ∃ resolved' : Table QualifiedName ResolvedEnum,
        full = unit.filterMap (fun e => resolved'.get? e.qualifiedName) ∧
        ∀ q, Option.Rel (ResolvedEnum.Settles environment.constants)
          (resolved.get? q) (resolved'.get? q) := by
    intro full hfull
    obtain ⟨g', order', resolved', hg', ho', hr', rfl⟩ := resolveUnit_eq_ok.mp hfull
    obtain rfl := Except.ok.inj (hg.symm.trans hg')
    obtain rfl := Except.ok.inj (ho.symm.trans ho')
    exact ⟨resolved', rfl, hagree.1 resolved' hr'⟩
  refine ⟨⟨?_, fun hall => ?_⟩, fun full hfull => ?_⟩
  · rintro ⟨full, hfull⟩ e he
    obtain ⟨resolved', -, hq⟩ := hrel full hfull
    obtain ⟨d, -, hd⟩ := List.mem_filterMap.mp he
    obtain ⟨e', -, he'⟩ := exists_of_rel_some (hd ▸ hq d.qualifiedName)
    exact ResolvedEnum.exists_settles_iff.mp ⟨e', he'⟩
  · obtain ⟨u, hu⟩ := hagree.2 fun q r hq =>
      ResolvedEnum.exists_settles_iff.mpr (hall r (hmem q r hq))
    exact ⟨_, resolveUnit_eq_ok.mpr ⟨g, order, u, hg, ho, hu, rfl⟩⟩
  · obtain ⟨resolved', rfl, hq⟩ := hrel full hfull
    refine List.rel_filterMap (R := Eq) (fun e e' he => he ▸ hq e.qualifiedName) ?_
    rw [List.forall₂_eq_eq_eq]

/-- An enumeration of a constant and the integer after it. -/
def successors : EnumDecl where
  name := "Successors"
  group := none
  access := .own
  fieldAccess := .own
  writtenType := some .i8
  variants :=
    [⟨"FIRST", some (.operand (.external "BASE" (.typed .u8))), [], ⟨1, 1⟩⟩,
      ⟨"NEXT", some (.chain .add (.operand (.variant "FIRST")) [.literal ⟨1, none⟩]), [], ⟨2, 1⟩⟩]
  attributes := []
  position := ⟨1, 1⟩

/-- The constant of `successors`. -/
def base : Environment := { constants := ⟨[("BASE", 126)]⟩ }

/-- `successors` before its constant is known. -/
def successorsFolded : ResolvedEnum where
  decl := successors
  variants :=
    [⟨"FIRST", .symbolic (.cast (.constant "BASE") .u8 .i8), none, []⟩,
      ⟨"NEXT", .symbolic (.apply .add (.cast (.constant "BASE") .u8 .i8) (.int 1) .i8), none, []⟩]
  dependencies := []

/-- With the constant 126, both formulas of `successors` have values, so it resolves. -/
theorem resolveUnit_settles_successors :
    resolveUnit [successors] (base.hide fun _ => true) = .ok [successorsFolded] ∧
      (∀ e ∈ [successorsFolded], ∀ name ∈ e.symbols, base.constants.contains name = true) ∧
      (∃ full, resolveUnit [successors] base = .ok full) ∧
      ∀ full, resolveUnit [successors] base = .ok full →
        List.Forall₂ (ResolvedEnum.Settles base.constants) [successorsFolded] full := by
  have h : resolveUnit [successors] (base.hide fun _ => true) = .ok [successorsFolded] := by
    decide +kernel
  have hsymbols : ∀ e ∈ [successorsFolded], ∀ name ∈ e.symbols,
      base.constants.contains name = true := by
    decide +kernel
  obtain ⟨hiff, hfull⟩ := resolveUnit_settles h hsymbols
  refine ⟨h, hsymbols, hiff.mpr ?_, hfull⟩
  intro e he v hv
  obtain rfl := List.mem_singleton.mp he
  rcases List.mem_pair.mp hv with rfl | rfl
  · exact ⟨126, by decide +kernel⟩
  · exact ⟨127, by decide +kernel⟩

end MaskEnum
