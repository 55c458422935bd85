import MaskEnum.Proofs.Initializer.Written
import MaskEnum.Proofs.Operator.Exact
import MaskEnum.Proofs.Resolution.Settling
set_option autoImplicit false

/-!
# Values by exact arithmetic

What the values of an enumeration have to be can be said without trees and without formulas, on the
tokens of the initializers: from left to right, each operator is applied over unbounded integers to
the result so far and the next operand, and each result must be in the range of the type. If all
constants are defined, resolution computes these values, and it fails if there are none.

The tree of an initializer is the chain as it is written, and the values known so far are the
results of the chain up to there. So the comparison goes operand by operand, then along a chain,
then along the variants.

## Main definitions

* `MaskEnum.Operand.Denotes` — the integer that an operand stands for.
* `MaskEnum.Resolution.Folds` — operands behind operators, applied in turn.
* `MaskEnum.Resolution.Assigns`, `MaskEnum.Resolution.Computes` — the value of a variant, and the
  values of variants one after the other.
* `MaskEnum.Resolution.Closed` — a variant that needs nothing but earlier ones and known constants.

## Main results

* `MaskEnum.Resolution.operand_eq_ok_iff`, `MaskEnum.Resolution.initializer_eq_ok_iff`,
  `MaskEnum.Resolution.variants_eq_ok_iff` — the value of an operand, of an initializer, and of all
  variants.
* `MaskEnum.resolveEnum_iff_computes` — the values of an enumeration.
-/

namespace MaskEnum

variable {constants : Table String Int} {t : IntType} {earlier : List (String × Int)}

/-! ## Exact values -/

/-- The integer that an operand stands for in an enumeration of type `t`, behind the variants in
`earlier` with their values. -/
inductive Operand.Denotes (constants : Table String Int) (t : IntType)
    (earlier : List (String × Int)) : Operand → Int → Prop
  /-- A literal in the range of the type at its end, if there is one, and of `t`. -/
  | literal {l : Literal} : (∀ type, l.suffix = some type → type.contains l.value = true) →
      t.contains l.value = true → Denotes constants t earlier (.literal l) l.value
  /-- An earlier variant. -/
  | variant {name : String} {n : Int} : (name, n) ∈ earlier →
      Denotes constants t earlier (.variant name) n
  /-- The negative of an earlier variant, for a signed type and in its range. -/
  | negated {name : String} {n : Int} : t.signed = true → (name, n) ∈ earlier →
      t.contains (0 - n) = true → Denotes constants t earlier (.negated name) (0 - n)
  /-- A constant in the range of the type that is written in front of it, and of `t`. -/
  | typed {name : String} {type : IntType} {n : Int} : constants.get? name = some n →
      type.contains n = true → t.contains n = true →
        Denotes constants t earlier (.external name (.typed type)) n
  /-- A constant in the range of `t`. -/
  | bare {name : String} {n : Int} : constants.get? name = some n → t.contains n = true →
      Denotes constants t earlier (.external name .bare) n

namespace Resolution

/-- Operators applied in turn to the integer so far and the operand behind each, over unbounded
integers, with every result in the range of `t`. -/
inductive Folds (constants : Table String Int) (t : IntType) (earlier : List (String × Int)) :
    Int → List (Operator × Operand) → Int → Prop
  | nil {a : Int} : Folds constants t earlier a [] a
  | cons {a b m n : Int} {op : Operator} {o : Operand} {terms : List (Operator × Operand)} :
      o.Denotes constants t earlier b → op.Gives t a b m → t.contains m = true →
        Folds constants t earlier m terms n → Folds constants t earlier a ((op, o) :: terms) n

/-- The value of the variant at position `index` behind those in `earlier`. The function `tokens`
gives the tokens of the initializers. -/
inductive Assigns (constants : Table String Int) (t : IntType) (tokens : VariantDecl → List Token)
    (index : Nat) (earlier : List (String × Int)) (v : VariantDecl) : Int → Prop
  /-- A variant without initializer has its position as value. -/
  | fieldless : v.value = none → t.contains index = true →
      Assigns constants t tokens index earlier v index
  /-- An initializer is an operand and further operands behind operators, from left to right. -/
  | valued {o : Operand} {terms : List (Operator × Operand)} {a n : Int} :
      v.value ≠ none → Initializer.Flat (tokens v) o terms → o.Denotes constants t earlier a →
        Folds constants t earlier a terms n → Assigns constants t tokens index earlier v n

/-- The values of variants from position `index` on, behind those in `earlier`, the latest of which
comes first. -/
inductive Computes (constants : Table String Int) (t : IntType)
    (tokens : VariantDecl → List Token) :
    Nat → List (String × Int) → List VariantDecl → List Int → Prop
  | nil {index : Nat} {earlier : List (String × Int)} :
      Computes constants t tokens index earlier [] []
  | cons {index : Nat} {earlier : List (String × Int)} {v : VariantDecl} {vs : List VariantDecl}
      {n : Int} {ns : List Int} : Assigns constants t tokens index earlier v n →
        Computes constants t tokens (index + 1) ((v.name, n) :: earlier) vs ns →
          Computes constants t tokens index earlier (v :: vs) (n :: ns)

/-- Operands one after the other are applied in turn. -/
theorem folds_append {a n : Int} {as bs : List (Operator × Operand)} :
    Folds constants t earlier a (as ++ bs) n ↔
      ∃ m, Folds constants t earlier a as m ∧ Folds constants t earlier m bs n := by
  constructor
  · intro h
    induction as generalizing a with
    | nil => exact ⟨a, .nil, h⟩
    | cons term as ih =>
      cases h with
      | cons ho hgives hrange hrest =>
        obtain ⟨m, has, hbs⟩ := ih hrest
        exact ⟨m, .cons ho hgives hrange has, hbs⟩
  · rintro ⟨m, has, hbs⟩
    induction has with
    | nil => exact hbs
    | cons ho hgives hrange _ ih => exact .cons ho hgives hrange (ih hbs)

/-! ## Operands -/

/-- The variants before, with the values that they are known to have. -/
def knownValues (earlier : List (String × Int)) : List (String × Value) :=
  earlier.map fun b => (b.1, .known b.2)

/-- A literal has a value if it is in both ranges. -/
theorem literal_eq_ok {l : Literal} {x : Value} :
    literal t l = .ok x ↔ (∀ type, l.suffix = some type → type.contains l.value = true) ∧
      t.contains l.value = true ∧ x = .known l.value := by
  have hcomm : Value.known l.value = x ↔ x = .known l.value := eq_comm
  unfold literal
  cases l.suffix with
  | none => cases t.contains l.value <;> simp [hcomm]
  | some type =>
    simp only [Option.some.injEq, forall_eq']
    cases type.contains l.value <;> cases t.contains l.value <;> simp [hcomm]

/-- An operator on known values has a value if its exact result is in range. -/
theorem apply_known_iff_gives {op : Operator} {a b : Int} {x : Value} :
    apply op (.known a) (.known b) t = .ok x ↔
      ∃ n, op.Gives t a b n ∧ t.contains n = true ∧ x = .known n := by
  simp only [apply_known_eq_ok, Operator.checked_eq_ok, and_assoc]

section Operand

variable {c : Context} (hbound : c.bound = knownValues earlier)
  (hnames : (earlier.map Prod.fst).Nodup)
include hbound hnames

/-- A name has the value of the earlier variant with this name. -/
theorem variant_eq_ok {name : String} {x : Value} :
    variant c name = .ok x ↔ ∃ n, (name, n) ∈ earlier ∧ x = .known n := by
  unfold variant
  rw [hbound, knownValues, List.find?_map]
  cases hfind : earlier.find? ((fun b => b.1 == name) ∘ fun b => (b.1, Value.known b.2)) with
  | none =>
    have hnone : ∀ n, (name, n) ∉ earlier := by
      intro n hn
      exact List.find?_eq_none.mp hfind (name, n) hn (beq_self_eq_true name)
    simp only [Option.map_none]
    refine ⟨fun h => ?_, fun ⟨n, hn, _⟩ => absurd hn (hnone n)⟩
    split_ifs at h
  | some b =>
    have hmem : b ∈ earlier := List.mem_of_find?_eq_some hfind
    have hname : b.1 = name := by
      simpa using List.find?_some hfind
    simp only [Option.map_some, Except.ok.injEq]
    constructor
    · rintro rfl
      exact ⟨b.2, hname ▸ hmem, rfl⟩
    · rintro ⟨n, hn, rfl⟩
      rw [List.inj_on_of_nodup_map hnames hmem hn hname]

omit hbound hnames in
/-- A constant that is defined has its value, if it is in both ranges. -/
theorem constant_eq_ok {name : String} {source : IntType} {k : Int} {x : Value}
    (hk : c.scope.environment.constants.get? name = some k) :
    constant c.scope name source = .ok x ↔
      source.contains k = true ∧ c.scope.type.contains k = true ∧ x = .known k := by
  rw [constant, hk]
  exact cast_known_eq_ok

/-- An operand without reference to an enumeration, whose constant is defined, has as value the
integer that it stands for. -/
theorem operand_eq_ok_iff {o : Operand} {x : Value} (hpath : o.enumPath? = none)
    (hconstant : ∀ name, o.constant? = some name →
      ∃ k, c.scope.environment.constants.get? name = some k) :
    operand c o = .ok x ↔
      ∃ n, o.Denotes c.scope.environment.constants c.scope.type earlier n ∧ x = .known n := by
  cases o with
  | literal l =>
    rw [operand, literal_eq_ok]
    constructor
    · rintro ⟨hsuffix, hrange, rfl⟩
      exact ⟨l.value, .literal hsuffix hrange, rfl⟩
    · rintro ⟨n, hn, rfl⟩
      cases hn with
      | literal hsuffix hrange => exact ⟨hsuffix, hrange, rfl⟩
  | variant name =>
    rw [operand, variant_eq_ok hbound hnames]
    constructor
    · rintro ⟨n, hn, rfl⟩
      exact ⟨n, .variant hn, rfl⟩
    · rintro ⟨n, hn, rfl⟩
      cases hn with
      | variant hn => exact ⟨n, hn, rfl⟩
  | negated name =>
    rw [operand_negated_eq_ok]
    simp only [variant_eq_ok hbound hnames]
    constructor
    · rintro ⟨hsigned, -, ⟨n, hn, rfl⟩, happly⟩
      obtain ⟨m, hgives, hrange, rfl⟩ := apply_known_iff_gives.mp happly
      cases hgives
      exact ⟨0 - n, .negated hsigned hn hrange, rfl⟩
    · rintro ⟨m, hm, rfl⟩
      cases hm with
      | negated hsigned hn hrange =>
        exact ⟨hsigned, _, ⟨_, hn, rfl⟩, apply_known_iff_gives.mpr ⟨_, .sub, hrange, rfl⟩⟩
  | external name source =>
    obtain ⟨k, hk⟩ : ∃ k, c.scope.environment.constants.get? name = some k := by
      cases source with
      | enumeration path => cases hpath
      | typed | bare => exact hconstant name rfl
    cases source with
    | enumeration path => cases hpath
    | typed type =>
      rw [operand, constant_eq_ok hk]
      constructor
      · rintro ⟨htype, hrange, rfl⟩
        exact ⟨k, .typed hk htype hrange, rfl⟩
      · rintro ⟨n, hn, rfl⟩
        cases hn with
        | typed hn htype hrange =>
          obtain rfl := Option.some.inj (hk.symm.trans hn)
          exact ⟨htype, hrange, rfl⟩
    | bare =>
      rw [operand, constant_eq_ok hk]
      constructor
      · rintro ⟨-, hrange, rfl⟩
        exact ⟨k, .bare hk hrange, rfl⟩
      · rintro ⟨n, hn, rfl⟩
        cases hn with
        | bare hn hrange =>
          obtain rfl := Option.some.inj (hk.symm.trans hn)
          exact ⟨hrange, hrange, rfl⟩

/-! ## Chains -/

/-- The operands of a group are applied in turn, each behind the operator of the group. -/
theorem group_eq_ok_iff {op : Operator} {os : List Operand} {a : Int} {x : Value}
    (hpaths : ∀ o ∈ os, o.enumPath? = none)
    (hconstants : ∀ o ∈ os, ∀ name, o.constant? = some name →
      ∃ k, c.scope.environment.constants.get? name = some k) :
    group c op (.known a) os = .ok x ↔
      ∃ n, Folds c.scope.environment.constants c.scope.type earlier a
        (os.map fun o => (op, o)) n ∧ x = .known n := by
  induction os generalizing a with
  | nil =>
    rw [group]
    constructor
    · intro h
      exact ⟨a, .nil, (Except.ok.inj h).symm⟩
    · rintro ⟨n, hn, rfl⟩
      cases hn
      rfl
  | cons o os ih =>
    obtain ⟨hpath, hpaths⟩ := List.forall_mem_cons.mp hpaths
    obtain ⟨hconstant, hconstants⟩ := List.forall_mem_cons.mp hconstants
    rw [group_cons_eq_ok]
    simp only [operand_eq_ok_iff hbound hnames hpath hconstant]
    constructor
    · rintro ⟨-, z, ⟨b, hb, rfl⟩, hz, hx⟩
      obtain ⟨m, hgives, hrange, rfl⟩ := apply_known_iff_gives.mp hz
      obtain ⟨n, hn, rfl⟩ := (ih hpaths hconstants).mp hx
      exact ⟨n, .cons hb hgives hrange hn, rfl⟩
    · rintro ⟨n, hn, rfl⟩
      cases hn with
      | cons hb hgives hrange hn =>
        exact ⟨_, _, ⟨_, hb, rfl⟩, apply_known_iff_gives.mpr ⟨_, hgives, hrange, rfl⟩,
          (ih hpaths hconstants).mpr ⟨n, hn, rfl⟩⟩

/-- **Chains.** The value of an initializer is what its operands give from left to right. -/
theorem initializer_eq_ok_iff {init : Initializer} {x : Value} (hpaths : init.enumPaths = [])
    (hconstants : ∀ name ∈ init.constants,
      ∃ k, c.scope.environment.constants.get? name = some k) :
    initializer c init = .ok x ↔
      ∃ a n, init.first.Denotes c.scope.environment.constants c.scope.type earlier a ∧
        Folds c.scope.environment.constants c.scope.type earlier a init.terms n ∧
        x = .known n := by
  have hpath : ∀ o ∈ init.operands, o.enumPath? = none :=
    List.filterMap_eq_nil_iff.mp hpaths
  have hconstant : ∀ o ∈ init.operands, ∀ name, o.constant? = some name →
      ∃ k, c.scope.environment.constants.get? name = some k := fun o ho name hname =>
    hconstants name (List.mem_filterMap.mpr ⟨o, ho, hname⟩)
  clear hpaths hconstants
  induction init generalizing x with
  | operand o =>
    rw [Initializer.operands, List.forall_mem_singleton] at hpath hconstant
    rw [initializer_operand, operand_eq_ok_iff hbound hnames hpath hconstant]
    constructor
    · rintro ⟨n, hn, rfl⟩
      exact ⟨n, n, hn, .nil, rfl⟩
    · rintro ⟨a, n, ha, hn, rfl⟩
      cases hn
      exact ⟨a, ha, rfl⟩
  | chain op init os ih =>
    rw [Initializer.operands, List.forall_mem_append] at hpath hconstant
    rw [initializer_chain_eq_ok]
    simp only [ih hpath.1 hconstant.1, Initializer.first, Initializer.terms, folds_append]
    constructor
    · rintro ⟨-, ⟨a, m, ha, hm, rfl⟩, hx⟩
      obtain ⟨n, hn, rfl⟩ :=
        (group_eq_ok_iff hbound hnames hpath.2 hconstant.2).mp hx
      exact ⟨a, n, ha, ⟨m, hm, hn⟩, rfl⟩
    · rintro ⟨a, n, ha, ⟨m, hm, hn⟩, rfl⟩
      exact ⟨_, ⟨a, m, ha, hm, rfl⟩,
        (group_eq_ok_iff hbound hnames hpath.2 hconstant.2).mpr ⟨n, hn, rfl⟩⟩

end Operand

/-! ## Variants -/

section Variants

variable {s : Scope} {tokens : VariantDecl → List Token} {index : Nat}

/-- What is asked of a variant: its initializer, if it has one, is read from its tokens, refers to
no enumeration by path, and its constants are defined. -/
structure Closed (constants : Table String Int) (tokens : VariantDecl → List Token)
    (v : VariantDecl) : Prop where
  read : ∀ init, v.value = some init → Initializer.ofTokens v.name (tokens v) = .ok init
  paths : ∀ init, v.value = some init → init.enumPaths = []
  constants : ∀ init, v.value = some init → ∀ name ∈ init.constants,
    ∃ k, constants.get? name = some k

/-- A variant is resolved to the value that it is assigned. -/
theorem value_eq_ok_iff {v : VariantDecl} {x : Value} (hnames : (earlier.map Prod.fst).Nodup)
    (hv : Closed s.environment.constants tokens v) :
    value s (knownValues earlier) index v = .ok x ↔
      ∃ n, Assigns s.environment.constants s.type tokens index earlier v n ∧ x = .known n := by
  unfold value
  cases hvalue : v.value with
  | none =>
    dsimp only
    constructor
    · intro h
      split_ifs at h with hrange
      exact ⟨index, .fieldless hvalue hrange, (Except.ok.inj h).symm⟩
    · rintro ⟨n, hn, rfl⟩
      cases hn with
      | fieldless _ hrange => exact if_pos hrange
      | valued hne => exact absurd hvalue hne
  | some init =>
    -- the tree holds the chain as written, and the tokens are no other chain
    have hread := Initializer.ofTokens_sound (hv.read init hvalue)
    have hflat := (Initializer.spells_iff_written.mp hread).flat
    dsimp only
    rw [initializer_eq_ok_iff (c := ⟨s, v.name, knownValues earlier⟩) rfl hnames
      (hv.paths init hvalue) (hv.constants init hvalue)]
    constructor
    · rintro ⟨a, n, ha, hn, rfl⟩
      exact ⟨n, .valued (by simp [hvalue]) hflat ha hn, rfl⟩
    · rintro ⟨n, hn, rfl⟩
      cases hn with
      | fieldless hnone => cases hnone.symm.trans hvalue
      | valued _ hflat' ha hn =>
        obtain ⟨rfl, rfl⟩ := hflat.unique hflat'
        exact ⟨_, n, ha, hn, rfl⟩

/-- **Variants.** The variants are resolved to the values that are computed for them. -/
theorem variants_eq_ok_iff {vs : List VariantDecl} {xs : List Value}
    (hnames : (earlier.map Prod.fst ++ vs.map (·.name)).Nodup)
    (hvs : ∀ v ∈ vs, Closed s.environment.constants tokens v) :
    (∃ rs, variants s index (knownValues earlier) vs = .ok rs ∧ rs.map (·.value) = xs) ↔
      ∃ ns, Computes s.environment.constants s.type tokens index earlier vs ns ∧
        xs = ns.map .known := by
  induction vs generalizing index earlier xs with
  | nil =>
    rw [variants]
    constructor
    · rintro ⟨rs, hrs, rfl⟩
      obtain rfl := Except.ok.inj hrs
      exact ⟨[], .nil, rfl⟩
    · rintro ⟨ns, hns, rfl⟩
      cases hns
      exact ⟨[], rfl, rfl⟩
  | cons v vs ih =>
    obtain ⟨hv, hvs⟩ := List.forall_mem_cons.mp hvs
    -- the names of the variants before and after stay pairwise different
    have hearlier : (earlier.map Prod.fst).Nodup := (List.nodup_append'.mp hnames).1
    have hnext : ∀ n : Int, (((v.name, n) :: earlier).map Prod.fst ++ vs.map (·.name)).Nodup :=
      fun n => List.perm_middle.nodup_iff.mp hnames
    simp only [variants_cons_eq_ok, value_eq_ok_iff hearlier hv]
    constructor
    · rintro ⟨-, ⟨-, more, ⟨n, hn, rfl⟩, hmore, rfl⟩, rfl⟩
      obtain ⟨ns, hns, heq⟩ := (ih (hnext n) hvs).mp ⟨more, hmore, rfl⟩
      exact ⟨n :: ns, .cons hn hns, congrArg _ heq⟩
    · rintro ⟨ns, hns, rfl⟩
      cases hns with
      | @cons _ _ _ _ n ns hn hns =>
        obtain ⟨more, hmore, heq⟩ := (ih (hnext n) hvs).mpr ⟨ns, hns, rfl⟩
        exact ⟨_, ⟨_, more, ⟨n, hn, rfl⟩, hmore, rfl⟩, congrArg _ heq⟩

end Variants

end Resolution

/-- **Exact values.** Let the names of the variants be pairwise different, and let the initializers
be read from tokens, refer to no enumeration by path, and mention defined constants only. Then the
enumeration is resolved just if exact arithmetic on the tokens gives every variant a value, and it
is resolved to these values. -/
theorem resolveEnum_iff_computes (decl : EnumDecl) (environment : Environment)
    (find : EnumPath → Option ResolvedEnum) (tokens : VariantDecl → List Token)
    (hnames : (decl.variants.map (·.name)).Nodup)
    (hread : ∀ v ∈ decl.variants, ∀ init, v.value = some init →
      Initializer.ofTokens v.name (tokens v) = .ok init)
    (hpaths : ∀ v ∈ decl.variants, ∀ init, v.value = some init → init.enumPaths = [])
    (hconstants : ∀ v ∈ decl.variants, ∀ init, v.value = some init → ∀ name ∈ init.constants,
      ∃ k, environment.constants.get? name = some k) :
    ∀ xs : List Value,
      (∃ r, resolveEnum decl environment find = .ok r ∧ r.variants.map (·.value) = xs) ↔
        ∃ ns : List Int,
          Resolution.Computes environment.constants decl.type tokens 0 [] decl.variants ns ∧
          xs = ns.map .known := by
  intro xs
  have hvariants : (∃ rs, Resolution.variants ⟨decl, environment, find⟩ 0
      (Resolution.knownValues []) decl.variants = .ok rs ∧ rs.map (·.value) = xs) ↔ _ :=
    Resolution.variants_eq_ok_iff hnames fun v hv => ⟨hread v hv, hpaths v hv, hconstants v hv⟩
  refine Iff.trans ?_ hvariants
  simp only [resolveEnum_eq_ok]
  constructor
  · rintro ⟨-, ⟨rs, hrs, rfl⟩, hxs⟩
    exact ⟨rs, hrs, hxs⟩
  · rintro ⟨rs, hrs, hxs⟩
    exact ⟨_, ⟨rs, hrs, rfl⟩, hxs⟩

/-- An enumeration of a chain that starts with a constant, and of its negative. -/
def opposites : EnumDecl where
  name := "Opposites"
  group := none
  access := .own
  fieldAccess := .own
  writtenType := some .i8
  variants :=
    [⟨"UPPER", some (.chain .or (.chain .sub (.operand (.external "BASE" (.typed .u8)))
        [.literal ⟨2, none⟩]) [.literal ⟨1, none⟩]), [], ⟨1, 1⟩⟩,
      ⟨"LOWER", some (.operand (.negated "UPPER")), [], ⟨2, 1⟩⟩]
  attributes := []
  position := ⟨1, 1⟩

/-- The initializers of `opposites` as written. -/
def oppositesTokens (v : VariantDecl) : List Token :=
  if v.name = "UPPER" then
    [⟨.mark .lparen, ⟨1, 9⟩⟩, ⟨.ident "u8", ⟨1, 10⟩⟩, ⟨.mark .rparen, ⟨1, 12⟩⟩,
      ⟨.ident "BASE", ⟨1, 14⟩⟩, ⟨.mark .minus, ⟨1, 19⟩⟩, ⟨.int "2", ⟨1, 21⟩⟩,
      ⟨.mark .pipe, ⟨1, 23⟩⟩, ⟨.int "1", ⟨1, 25⟩⟩]
  else
    [⟨.mark .lparen, ⟨2, 9⟩⟩, ⟨.mark .minus, ⟨2, 10⟩⟩, ⟨.ident "UPPER", ⟨2, 11⟩⟩,
      ⟨.mark .rparen, ⟨2, 16⟩⟩]

/-- With the constant 126, the values of `opposites` are 125 and its negative. -/
theorem resolveEnum_iff_computes_opposites :
    let environment : Environment := { constants := ⟨[("BASE", 126)]⟩ }
    (opposites.variants.map (·.name)).Nodup ∧
      (∀ v ∈ opposites.variants, ∀ init, v.value = some init →
        Initializer.ofTokens v.name (oppositesTokens v) = .ok init) ∧
      (∀ v ∈ opposites.variants, ∀ init, v.value = some init → init.enumPaths = []) ∧
      (∀ v ∈ opposites.variants, ∀ init, v.value = some init → ∀ name ∈ init.constants,
        ∃ k, environment.constants.get? name = some k) ∧
      (∃ r, resolveEnum opposites environment (fun _ => none) = .ok r ∧
        r.variants.map (·.value) = [.known 125, .known (-125)]) ∧
      Resolution.Computes environment.constants .i8 oppositesTokens 0 [] opposites.variants
        [125, -125] := by
  intro environment
  have hnames : (opposites.variants.map (·.name)).Nodup := by
    decide
  have hread : ∀ v ∈ opposites.variants, ∀ init, v.value = some init →
      Initializer.ofTokens v.name (oppositesTokens v) = .ok init := by
    have hall : ∀ v ∈ opposites.variants,
        (Initializer.ofTokens v.name (oppositesTokens v)).toOption = v.value := by
      decide +kernel
    intro v hv init hinit
    have h := (hall v hv).trans hinit
    cases hread : Initializer.ofTokens v.name (oppositesTokens v) with
    | ok init' =>
      rw [hread] at h
      exact congrArg _ (Option.some.inj h)
    | error err =>
      rw [hread] at h
      cases h
  have hpaths : ∀ v ∈ opposites.variants, ∀ init, v.value = some init → init.enumPaths = [] := by
    simp [opposites, Initializer.enumPaths, Initializer.operands, Operand.enumPath?]
  have hconstants : ∀ v ∈ opposites.variants, ∀ init, v.value = some init →
      ∀ name ∈ init.constants, ∃ k, environment.constants.get? name = some k := by
    have hget : environment.constants.get? "BASE" = some 126 := by
      decide
    simp [opposites, Initializer.constants, Initializer.operands, Operand.constant?, hget]
  have hvalues : (resolveEnum opposites environment fun _ => none).toOption.map
      (fun r => r.variants.map (·.value)) = some [.known 125, .known (-125)] := by
    decide +kernel
  have hresolved : ∃ r, resolveEnum opposites environment (fun _ => none) = .ok r ∧
      r.variants.map (·.value) = [.known 125, .known (-125)] := by
    cases hr : resolveEnum opposites environment (fun _ => none) with
    | ok r =>
      rw [hr] at hvalues
      exact ⟨r, rfl, Option.some.inj hvalues⟩
    | error err =>
      rw [hr] at hvalues
      cases hvalues
  obtain ⟨ns, hns, heq⟩ := (resolveEnum_iff_computes opposites environment (fun _ => none)
    oppositesTokens hnames hread hpaths hconstants _).mp hresolved
  have hvalue : ns = [125, -125] := by
    have hinj : Function.Injective Value.known := fun _ _ => Value.known.inj
    exact List.map_injective_iff.mpr hinj heq.symm
  exact ⟨hnames, hread, hpaths, hconstants, hresolved, hvalue ▸ hns⟩

end MaskEnum
