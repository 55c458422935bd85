import MaskEnum.Compile
import MaskEnum.Proofs.Declaration.Names
import MaskEnum.Proofs.Lists
import MaskEnum.Proofs.Token.Identifier
set_option autoImplicit false

/-!
# Declared names are identifiers

Names and constants of a declaration are written by tokens of a text, so they are identifiers. The
tree of an initializer has no operands but those that its tokens spell.

## Main definitions

* `MaskEnum.Initializer.constants` — the external constants that an initializer refers to.
* `MaskEnum.EnumDecl.HasIdentifiers`, `MaskEnum.Declaration.HasIdentifiers` — all names and
  constants are identifiers.

## Main results

* `MaskEnum.Declaration.Spells.hasIdentifiers` — so they are where the tokens have identifiers.
* `MaskEnum.declarationsOf_spec` — the declarations of a text follow the grammar, know their
  modules and have identifiers.
-/

namespace MaskEnum

/-- The external constant that an operand is. -/
def Operand.constant? : Operand → Option String
  | external name (.typed _) | external name .bare => some name
  | literal _ | variant _ | negated _ | external _ (.enumeration _) => none

/-- The external constants that an initializer refers to, in writing order. -/
def Initializer.constants (init : Initializer) : List String :=
  init.operands.filterMap Operand.constant?

/-- If the operand is an external constant, its name is an identifier. -/
def Operand.HasIdentifier (o : Operand) : Prop :=
  ∀ name, o.constant? = some name → Generated.isIdentifier name = true

/-- The name of the enumeration, those of its variants and those of the external constants in its
initializers are identifiers. -/
structure EnumDecl.HasIdentifiers (e : EnumDecl) : Prop where
  name : Generated.isIdentifier e.name = true
  variants : ∀ v ∈ e.variants, Generated.isIdentifier v.name = true
  constants : ∀ v ∈ e.variants, ∀ init, v.value = some init →
    ∀ name ∈ init.constants, Generated.isIdentifier name = true

/-- The names that the declaration binds in the block scope and all names of its enumerations are
identifiers. -/
structure Declaration.HasIdentifiers (d : Declaration) : Prop where
  scope : ∀ name ∈ d.scopeNames, Generated.isIdentifier name = true
  enums : ∀ e ∈ d.enums, e.HasIdentifiers

/-! ## Initializers -/

/-- A token that is spelled as a name. -/
theorem Token.IsNamed.isIdentifier {name : String} {p : Position}
    (h : Token.IsNamed ⟨.ident name, p⟩) : Generated.isIdentifier name = true :=
  h name rfl

variable {ts : List Token}

/-- The constant that tokens spell is one of their names. -/
theorem Operand.Spells.hasIdentifier {o : Operand} (h : Operand.Spells ts o)
    (hts : ∀ t ∈ ts, t.IsNamed) : o.HasIdentifier := by
  cases h with
  | literal _ => exact nofun
  | negative _ => exact nofun
  | variant => exact nofun
  | negated => exact nofun
  | enumeration _ => exact nofun
  | typed _ =>
    simp only [List.forall_mem_cons] at hts
    obtain ⟨-, -, -, hconstant, -⟩ := hts
    intro name hname
    obtain rfl := Option.some.inj hname
    exact hconstant.isIdentifier

namespace Initializer

/-- Operands behind one operator. -/
theorem Terms.hasIdentifier {op : Operator} {os : List Operand} (h : Terms op ts os)
    (hts : ∀ t ∈ ts, t.IsNamed) : ∀ o ∈ os, o.HasIdentifier := by
  induction h with
  | nil => exact List.forall_mem_nil _
  | cons _ ho _ ih =>
    obtain ⟨-, hrest⟩ := List.forall_mem_cons.mp hts
    obtain ⟨hused, hmore⟩ := List.forall_mem_append.mp hrest
    exact List.forall_mem_cons.mpr ⟨ho.hasIdentifier hused, ih hmore⟩

/-- A chain has the operands of what it starts from and those that follow. -/
theorem operands_chained (op : Operator) (first : Initializer) (os : List Operand) :
    (chained op first os).operands = first.operands ++ os := by
  cases os with
  | nil => exact (List.append_nil _).symm
  | cons o os => rfl

/-- Groups of different operators. -/
theorem Groups.hasIdentifier {order : List Operator} {first init : Initializer}
    (h : Groups order first ts init) (hts : ∀ t ∈ ts, t.IsNamed)
    (hfirst : ∀ o ∈ first.operands, o.HasIdentifier) :
    ∀ o ∈ init.operands, o.HasIdentifier := by
  induction h with
  | nil => exact hfirst
  | cons hos _ ih =>
    obtain ⟨hused, hmore⟩ := List.forall_mem_append.mp hts
    refine ih hmore ?_
    rw [operands_chained]
    exact List.forall_mem_append.mpr ⟨hfirst, hos.hasIdentifier hused⟩

/-- The operands of an initializer are those that its tokens spell. -/
theorem Spells.hasIdentifier {init : Initializer} (h : Spells ts init)
    (hts : ∀ t ∈ ts, t.IsNamed) : ∀ o ∈ init.operands, o.HasIdentifier := by
  cases h with
  | bare =>
    obtain ⟨-, hrest⟩ := List.forall_mem_cons.mp hts
    refine List.forall_mem_singleton.mpr fun name hname => ?_
    obtain rfl := Option.some.inj hname
    exact (List.forall_mem_singleton.mp hrest).isIdentifier
  | chain ho hos hinit =>
    obtain ⟨hused, hmore⟩ := List.forall_mem_append.mp hts
    obtain ⟨hterms, hgroups⟩ := List.forall_mem_append.mp hmore
    refine hinit.hasIdentifier hgroups ?_
    rw [operands_chained]
    exact List.forall_mem_cons.mpr ⟨ho.hasIdentifier hused, hos.hasIdentifier hterms⟩

end Initializer

/-! ## Variants and enumerations -/

/-- The name of the variant and the external constants of its initializer are identifiers. -/
structure VariantDecl.HasIdentifiers (v : VariantDecl) : Prop where
  name : Generated.isIdentifier v.name = true
  constants : ∀ init, v.value = some init →
    ∀ name ∈ init.constants, Generated.isIdentifier name = true

/-- One variant, with attributes that may be read later. -/
theorem VariantHead.hasIdentifiers {name : String} {value : Option Initializer} {p : Position}
    (h : VariantHead ts name value p) (hts : ∀ t ∈ ts, t.IsNamed) (attributes : List String) :
    VariantDecl.HasIdentifiers ⟨name, value, attributes, p⟩ := by
  cases h with
  | bare => exact ⟨(List.forall_mem_singleton.mp hts).isIdentifier, nofun⟩
  | valued hinit =>
    obtain ⟨hname, hrest⟩ := List.forall_mem_cons.mp hts
    obtain ⟨-, hused⟩ := List.forall_mem_cons.mp hrest
    refine ⟨hname.isIdentifier, fun init heq constant hc => ?_⟩
    obtain rfl := Option.some.inj heq
    obtain ⟨o, ho, hconstant⟩ := List.mem_filterMap.mp hc
    exact (Initializer.ofTokens_sound hinit).hasIdentifier hused o ho constant hconstant

/-- All variants of a list. -/
theorem VariantList.hasIdentifiers {vs : List VariantDecl} (h : VariantList ts vs)
    (hts : ∀ t ∈ ts, t.IsNamed) : ∀ v ∈ vs, v.HasIdentifiers := by
  induction h with
  | last hv => exact List.forall_mem_singleton.mpr (hv.hasIdentifiers hts [])
  | closed hv _ =>
    exact List.forall_mem_singleton.mpr (hv.hasIdentifiers (List.forall_mem_append.mp hts).1 _)
  | cons hv _ _ ih =>
    obtain ⟨hhead, hrest⟩ := List.forall_mem_append.mp hts
    obtain ⟨-, hrest⟩ := List.forall_mem_cons.mp hrest
    obtain ⟨-, hmore⟩ := List.forall_mem_append.mp hrest
    exact List.forall_mem_cons.mpr ⟨hv.hasIdentifiers hhead _, ih hmore⟩

/-- One enumeration. -/
theorem EnumDecl.Spells.hasIdentifiers {group : Option String} {e : EnumDecl}
    (h : EnumDecl.Spells group ts e) (hts : ∀ t ∈ ts, t.IsNamed) : e.HasIdentifiers := by
  cases h with
  | mk _ _ _ hvs _ =>
    simp only [List.forall_mem_append, List.forall_mem_cons] at hts
    obtain ⟨-, -, -, hname, -, -, htokens, -⟩ := hts
    have hvariants := hvs.hasIdentifiers htokens
    exact ⟨hname.isIdentifier, fun v hv => (hvariants v hv).name,
      fun v hv => (hvariants v hv).constants⟩

/-- All enumerations of a list. -/
theorem EnumList.hasIdentifiers {group : Option String} {es : List EnumDecl}
    (h : EnumList group ts es) (hts : ∀ t ∈ ts, t.IsNamed) : ∀ e ∈ es, e.HasIdentifiers := by
  induction h with
  | nil => exact List.forall_mem_nil _
  | cons he _ ih =>
    obtain ⟨hused, hmore⟩ := List.forall_mem_append.mp hts
    exact List.forall_mem_cons.mpr ⟨he.hasIdentifiers hused, ih hmore⟩

/-- **Declared names.** The names of a declaration are names among its tokens. -/
theorem Declaration.Spells.hasIdentifiers {d : Declaration} (h : Declaration.Spells ts d)
    (hts : ∀ t ∈ ts, t.IsNamed) : d.HasIdentifiers := by
  cases h with
  | module _ _ hes _ _ =>
    simp only [List.forall_mem_append, List.forall_mem_cons] at hts
    obtain ⟨-, -, -, hname, -, htokens, -⟩ := hts
    exact ⟨List.forall_mem_singleton.mpr hname.isIdentifier, hes.hasIdentifiers htokens⟩
  | block hes _ _ =>
    have henums := hes.hasIdentifiers hts
    refine ⟨fun name hname => ?_, henums⟩
    obtain ⟨e, he, rfl⟩ := List.mem_map.mp hname
    exact (henums e he).name

/-! ## The declarations of a text -/

/-- **Declarations of a text.** They follow the grammar, and every name in them is an
identifier. -/
theorem declarationsOf_spec {text : String} {ds : List Declaration}
    (h : declarationsOf text = .ok ds) :
    ∀ d ∈ ds, (∃ used, Declaration.Spells used d) ∧ d.HasIdentifiers := by
  obtain ⟨list, hlist, h⟩ := bind_eq_ok.mp h
  obtain ⟨blocks, hblocks, h⟩ := bind_eq_ok.mp h
  intro d hd
  obtain ⟨b, hb, hread⟩ := exists_left_of_forall₂ (mapM_eq_ok.mp h) hd
  have hspells := Declaration.ofTokens_sound hread
  refine ⟨⟨b.tokens, hspells⟩, hspells.hasIdentifiers fun t ht => ?_⟩
  exact tokenize_isNamed hlist t (mem_of_splitBlocks hblocks b hb t ht)

end MaskEnum
