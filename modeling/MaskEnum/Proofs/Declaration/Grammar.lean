import MaskEnum.Declaration.Parser
import MaskEnum.Proofs.Initializer.Grammar
set_option autoImplicit false

/-!
# The grammar of declarations

Which tokens spell a declaration is said by relations, one for each rule, and independently of the
reader:

    block    := meta access "mod" NAME "{" enum+ "}" [";"]  |  enum+
    enum     := meta access "enum" NAME [":" access TYPE] "{" variants "}"
    variants := variant ("," meta variant)* ["," meta]
    variant  := NAME "=" initializer  |  NAME
    access   := nothing  |  "crate"  |  "pub"  |  "pub" "(" scope ")"
    scope    := "crate"  |  "super"  |  "self"  |  "in" NAME ("::" NAME)*
    meta     := (ATTRIBUTE | DOC)*

The attributes behind a comma belong to the variant before it. An enumeration has an initializer
for all of its variants or for none, and those of a block without a module have them. What follows
a name is the lexeme of a token; its place is kept where the tree keeps it.

## Main definitions

* `MaskEnum.Metadata`, `MaskEnum.Access.Spells`, `MaskEnum.Underlying` — the parts of a head.
* `MaskEnum.VariantHead`, `MaskEnum.VariantList` — variants.
* `MaskEnum.EnumDecl.Spells`, `MaskEnum.EnumList` — enumerations.
* `MaskEnum.Declaration.Spells` — blocks.
-/

namespace MaskEnum

/-- The tokens of attributes and doc comments. -/
inductive Metadata : List Token → List String → Prop
  | nil : Metadata [] []
  | attr {p : Position} {text : String} {ts : List Token} {more : List String} :
      Metadata ts more → Metadata (⟨.attr text, p⟩ :: ts) (text :: more)
  | doc {p : Position} {text : String} {ts : List Token} {more : List String} :
      Metadata ts more →
        Metadata (⟨.doc text, p⟩ :: ts) (Declaration.docAttribute text :: more)

/-- The tokens of the scope inside the parentheses of an access. -/
inductive Access.Scope : List Token → Access → Prop
  | crate {p : Position} : Access.Scope [⟨.ident "crate", p⟩] .crate
  | super {p : Position} : Access.Scope [⟨.ident "super", p⟩] .super
  | own {p : Position} : Access.Scope [⟨.ident "self", p⟩] .own
  | within {p q : Position} {first : String} {ts : List Token} {names : List String} :
      PathTail ts names →
        Access.Scope (⟨.ident "in", p⟩ :: ⟨.ident first, q⟩ :: ts) (.within ⟨first :: names⟩)

/-- The tokens of an access; without any, access is private. -/
inductive Access.Spells : List Token → Access → Prop
  | own : Access.Spells [] .own
  | crate {p : Position} : Access.Spells [⟨.ident "crate", p⟩] .crate
  | everywhere {p : Position} : Access.Spells [⟨.ident "pub", p⟩] .everywhere
  | limited {p q r : Position} {ts : List Token} {access : Access} :
      Access.Scope ts access →
        Access.Spells (⟨.ident "pub", p⟩ :: ⟨.mark .lparen, q⟩ :: (ts ++ [⟨.mark .rparen, r⟩]))
          access

/-- The tokens that give an enumeration its wrapped type, if it is written, and the access of the
field. -/
inductive Underlying : List Token → Access → Option IntType → Prop
  | absent : Underlying [] .own none
  | written {p q : Position} {ts : List Token} {access : Access} {name : String}
      {type : IntType} :
      Access.Spells ts access → IntType.ofName? name = some type →
        Underlying (⟨.mark .colon, p⟩ :: (ts ++ [⟨.ident name, q⟩])) access (some type)

/-- The tokens of a variant at a place: its name and its initializer, if it has one. -/
inductive VariantHead : List Token → String → Option Initializer → Position → Prop
  | bare {name : String} {p : Position} : VariantHead [⟨.ident name, p⟩] name none p
  | valued {name : String} {p q : Position} {ts : List Token} {init : Initializer} :
      Initializer.ofTokens name ts = .ok init →
        VariantHead (⟨.ident name, p⟩ :: ⟨.mark .eq, q⟩ :: ts) name (some init) p

/-- The tokens of one variant or more with commas between them, and attributes behind the commas.
A comma may stand behind the last variant. -/
inductive VariantList : List Token → List VariantDecl → Prop
  | last {ts : List Token} {name : String} {value : Option Initializer} {p : Position} :
      VariantHead ts name value p → VariantList ts [⟨name, value, [], p⟩]
  | closed {ts ms : List Token} {name : String} {value : Option Initializer} {p q : Position}
      {attributes : List String} :
      VariantHead ts name value p → Metadata ms attributes →
        VariantList (ts ++ ⟨.mark .comma, q⟩ :: ms) [⟨name, value, attributes, p⟩]
  | cons {ts ms rest : List Token} {name : String} {value : Option Initializer} {p q : Position}
      {attributes : List String} {vs : List VariantDecl} :
      VariantHead ts name value p → Metadata ms attributes → VariantList rest vs →
        VariantList (ts ++ ⟨.mark .comma, q⟩ :: (ms ++ rest)) (⟨name, value, attributes, p⟩ :: vs)

/-- Either every variant has an initializer, or none has. -/
def Uniform (variants : List VariantDecl) : Prop :=
  (∀ v ∈ variants, v.value.isSome = true) ∨ ∀ v ∈ variants, v.value = none

/-- The tokens of an enumeration of the module `group`, or of none. -/
inductive EnumDecl.Spells (group : Option String) : List Token → EnumDecl → Prop
  | mk {ms as us vs : List Token} {attributes : List String} {access fieldAccess : Access}
      {writtenType : Option IntType} {variants : List VariantDecl} {name : String}
      {p q r s : Position} :
      Metadata ms attributes → Access.Spells as access → Underlying us fieldAccess writtenType →
        VariantList vs variants → Uniform variants →
          EnumDecl.Spells group
            (ms ++ (as ++ ⟨.ident "enum", p⟩ :: ⟨.ident name, q⟩ ::
              (us ++ ⟨.mark .lbrace, r⟩ :: (vs ++ [⟨.mark .rbrace, s⟩]))))
            ⟨name, group, access, fieldAccess, writtenType, variants, attributes, p⟩

/-- The tokens of enumerations one after the other. -/
inductive EnumList (group : Option String) : List Token → List EnumDecl → Prop
  | nil : EnumList group [] []
  | cons {ts rest : List Token} {e : EnumDecl} {es : List EnumDecl} :
      EnumDecl.Spells group ts e → EnumList group rest es → EnumList group (ts ++ rest) (e :: es)

/-- The tokens of a block: a module of enumerations, or enumerations all of whose variants have
initializers. -/
inductive Declaration.Spells : List Token → Declaration → Prop
  | module {ms as es semi : List Token} {attributes : List String} {access : Access}
      {name : String} {enums : List EnumDecl} {p q r s : Position} :
      Metadata ms attributes → Access.Spells as access → EnumList (some name) es enums →
        enums ≠ [] → (semi = [] ∨ ∃ t, semi = [⟨.mark .semi, t⟩]) →
          Declaration.Spells
            (ms ++ (as ++ ⟨.ident "mod", p⟩ :: ⟨.ident name, q⟩ :: ⟨.mark .lbrace, r⟩ ::
              (es ++ ⟨.mark .rbrace, s⟩ :: semi)))
            (.module name access attributes enums)
  | block {ts : List Token} {enums : List EnumDecl} :
      EnumList none ts enums → enums ≠ [] →
        (∀ e ∈ enums, ∀ v ∈ e.variants, v.value.isSome = true) →
          Declaration.Spells ts (.block enums)

/-! ## Trees of the grammar -/

/-- A list of variants is not empty. -/
theorem VariantList.ne_nil {ts : List Token} {vs : List VariantDecl} (h : VariantList ts vs) :
    vs ≠ [] := by
  cases h <;> exact List.cons_ne_nil _ _

/-- What is spelled as an enumeration has variants, either all with initializers or all without. -/
theorem EnumDecl.Spells.uniform {group : Option String} {ts : List Token} {e : EnumDecl}
    (h : EnumDecl.Spells group ts e) : e.variants ≠ [] ∧ Uniform e.variants := by
  cases h with
  | mk _ _ _ hvs huniform => exact ⟨hvs.ne_nil, huniform⟩

/-- An enumeration is not fieldless exactly if all its variants have initializers. -/
theorem EnumDecl.Spells.isFieldless_eq_false_iff {group : Option String} {ts : List Token}
    {e : EnumDecl} (h : EnumDecl.Spells group ts e) :
    e.isFieldless = false ↔ ∀ v ∈ e.variants, v.value.isSome = true := by
  obtain ⟨hne, huniform⟩ := h.uniform
  obtain ⟨v, hv⟩ := List.exists_mem_of_ne_nil _ hne
  constructor
  · intro hfalse
    rcases huniform with hall | hnone
    · exact hall
    · have htrue : e.isFieldless = true := by
        simpa [EnumDecl.isFieldless, VariantDecl.isFieldless] using hnone
      rw [htrue] at hfalse
      cases hfalse
  · intro hall
    rw [EnumDecl.isFieldless, List.all_eq_false]
    exact ⟨v, hv, by simpa [VariantDecl.isFieldless, Option.isSome_iff_ne_none] using hall v hv⟩

/-- Every enumeration of a list is spelled by some tokens. -/
theorem EnumList.exists_spells {group : Option String} {ts : List Token} {es : List EnumDecl}
    (h : EnumList group ts es) : ∀ e ∈ es, ∃ used, EnumDecl.Spells group used e := by
  induction h with
  | nil => exact List.forall_mem_nil _
  | cons he _ ih => exact List.forall_mem_cons.mpr ⟨⟨_, he⟩, ih⟩

/-! ## Shapes -/

/-- The form of its own that some modules have. -/
def Declaration.IsTypedFieldless (d : Declaration) : Prop :=
  ∃ name access attributes e, d = .module name access attributes [e] ∧
    (∀ v ∈ e.variants, v.value = none) ∧ e.writtenType.isSome = true

/-- A module of a single fieldless enumeration whose type is written has a form of its own. -/
theorem Declaration.shape_eq_typedFieldless_iff {d : Declaration} :
    d.shape = .typedFieldless ↔ d.IsTypedFieldless := by
  unfold shape IsTypedFieldless
  split
  · constructor
    · intro h; cases h
    · rintro ⟨_, _, _, _, h, -⟩; cases h
  · next name access attributes e =>
    have hfieldless : (e.isFieldless && e.writtenType.isSome) = true ↔
        (∀ v ∈ e.variants, v.value = none) ∧ e.writtenType.isSome = true := by
      simp [EnumDecl.isFieldless, VariantDecl.isFieldless]
    split_ifs with h
    · exact ⟨fun _ => ⟨name, access, attributes, e, rfl, hfieldless.mp h⟩, fun _ => rfl⟩
    · constructor
      · intro h'; cases h'
      · rintro ⟨_, _, _, e', he, he'⟩
        obtain ⟨-, -, -, hlist⟩ := Declaration.module.inj he
        obtain rfl := (List.cons.inj hlist).1
        exact absurd (hfieldless.mpr he') h
  · next hsingle =>
    constructor
    · intro h; cases h
    · rintro ⟨_, _, _, e, he, -⟩
      obtain ⟨-, -, -, hlist⟩ := Declaration.module.inj he
      exact absurd hlist (hsingle e)

/-- Blocks without a module, and no others, are valued. -/
theorem Declaration.shape_eq_valued_iff {d : Declaration} :
    d.shape = .valued ↔ ∃ enums, d = .block enums := by
  cases d with
  | block enums => exact ⟨fun _ => ⟨enums, rfl⟩, fun _ => rfl⟩
  | module name access attributes enums =>
    constructor
    · intro h
      unfold shape at h
      split at h
      · next heq => cases heq
      · split_ifs at h
      · cases h
    · rintro ⟨_, h⟩; cases h

/-- Every other module is a group. -/
theorem Declaration.shape_eq_moduleGroup_iff {d : Declaration} :
    d.shape = .moduleGroup ↔
      (∃ name access attributes enums, d = .module name access attributes enums) ∧
        ¬ d.IsTypedFieldless := by
  rw [← shape_eq_typedFieldless_iff]
  cases d with
  | block enums =>
    constructor
    · intro h; cases h
    · rintro ⟨⟨_, _, _, _, h⟩, -⟩; cases h
  | module name access attributes enums =>
    have hvalued : (Declaration.module name access attributes enums).shape ≠ .valued := by
      intro h
      obtain ⟨_, h⟩ := shape_eq_valued_iff.mp h
      cases h
    constructor
    · intro h
      rw [h]
      exact ⟨⟨_, _, _, _, rfl⟩, by decide⟩
    · rintro ⟨-, h⟩
      cases hshape : (Declaration.module name access attributes enums).shape with
      | valued => exact absurd hshape hvalued
      | typedFieldless => exact absurd hshape h
      | moduleGroup => rfl

end MaskEnum
