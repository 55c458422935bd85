import MaskEnum.Proofs.Declaration.Grammar
import MaskEnum.Proofs.Declaration.Invocations
set_option autoImplicit false

/-!
# Brackets of declarations

The brackets in a declaration are opened and closed in pairs of one kind, each pair inside another
one or behind it. So between brackets of an invocation, a declaration is all of the block: none of
its own brackets closes the invocation, whichever kind that has.

## Main definitions

* `MaskEnum.Nested` — tokens whose brackets stand in pairs.

## Main results

* `MaskEnum.Nested.returnsAt` — a bracket before nested tokens is closed by the one behind them.
* `MaskEnum.Declaration.Spells.nested` — the tokens of a declaration are nested.
-/

namespace MaskEnum

/-- Whether a lexeme is a bracket of any kind. -/
def Lexeme.isBracket : Lexeme → Bool
  | mark m => [Mark.lbrace, .rbrace, .lparen, .rparen, .lbracket, .rbracket].contains m
  | ident _ | int _ | attr _ | doc _ => false

/-- Tokens whose brackets are opened and closed in pairs of one kind. -/
inductive Nested : List Token → Prop
  | nil : Nested []
  | token {t : Token} {ts : List Token} : t.lexeme.isBracket = false → Nested ts → Nested (t :: ts)
  | brackets {opener close : Mark} {p q : Position} {inner rest : List Token} :
      opener.closer? = some close → Nested inner → Nested rest →
        Nested (⟨.mark opener, p⟩ :: (inner ++ ⟨.mark close, q⟩ :: rest))

/-! ## Counting nested brackets -/

/-- There are three kinds of brackets. -/
theorem Mark.eq_of_closer? {opener close : Mark} (h : opener.closer? = some close) :
    opener = .lbrace ∧ close = .rbrace ∨ opener = .lparen ∧ close = .rparen ∨
      opener = .lbracket ∧ close = .rbracket := by
  cases opener <;> simp_all [closer?]

section Counting

variable {opener close : Mark} (hkind : opener.closer? = some close)

include hkind

/-- What is no bracket leaves the count of every kind. -/
theorem excess_of_isBracket {t : Token} (ht : t.lexeme.isBracket = false) :
    excess opener close [t] = 0 := by
  have hne : t.lexeme ≠ .mark opener ∧ t.lexeme ≠ .mark close := by
    rcases Mark.eq_of_closer? hkind with ⟨rfl, rfl⟩ | ⟨rfl, rfl⟩ | ⟨rfl, rfl⟩ <;>
      constructor <;> intro heq <;> rw [heq] at ht <;> cases ht
  exact excess_other hne.1 hne.2

/-- A pair of brackets counts up and down again, or not at all if it is of another kind. -/
theorem excess_pair {o c : Mark} (h : o.closer? = some c) (p q : Position) :
    0 ≤ excess opener close [⟨.mark o, p⟩] ∧
      excess opener close [⟨.mark o, p⟩] + excess opener close [⟨.mark c, q⟩] = 0 := by
  rcases Mark.eq_of_closer? hkind with ⟨rfl, rfl⟩ | ⟨rfl, rfl⟩ | ⟨rfl, rfl⟩ <;>
    rcases Mark.eq_of_closer? h with ⟨rfl, rfl⟩ | ⟨rfl, rfl⟩ | ⟨rfl, rfl⟩ <;>
      simp [excess]

/-- While a bracket is open, the count does not return to zero within nested tokens. -/
theorem Nested.returnsAt_append {ts : List Token} (h : Nested ts) {depth : Int} (hdepth : 0 < depth)
    {rest : List Token} {last : Token} :
    ReturnsAt opener close depth (ts ++ rest) last ↔ ReturnsAt opener close depth rest last := by
  induction h generalizing depth rest with
  | nil => rfl
  | token ht _ ih =>
    rw [List.cons_append, returnsAt_cons, excess_of_isBracket hkind ht, Int.add_zero, ih hdepth]
    exact and_iff_right (by omega)
  | @brackets o c p q inner more hpair _ _ ihinner ihmore =>
    obtain ⟨hopen, hcancel⟩ := excess_pair hkind hpair p q
    have hback : depth + excess opener close [⟨.mark o, p⟩] +
        excess opener close [⟨.mark c, q⟩] = depth := by omega
    rw [List.cons_append, List.append_assoc, List.cons_append, returnsAt_cons,
      ihinner (by omega), returnsAt_cons, hback, ihmore hdepth]
    constructor
    · exact fun h => h.2.2
    · exact fun h => ⟨by omega, by omega, h⟩

/-- **Blocks.** A bracket before nested tokens is closed by the bracket behind them. -/
theorem Nested.returnsAt {ts : List Token} (h : Nested ts) {last : Token}
    (hlast : last.lexeme = .mark close) : ReturnsAt opener close 1 ts last := by
  rw [← List.append_nil ts, h.returnsAt_append hkind Int.one_pos, returnsAt_nil,
    excess_closer (Mark.ne_of_closer?_eq_some hkind) hlast]
  decide

end Counting

/-! ## Nested tokens -/

section Grammar

variable {ts us : List Token}

/-- Nested tokens one after the other. -/
theorem Nested.append (h : Nested ts) (h' : Nested us) : Nested (ts ++ us) := by
  induction h with
  | nil => exact h'
  | token ht _ ih => exact .token ht ih
  | @brackets opener close p q _ _ hpair hinner _ _ ih =>
    simpa using @Nested.brackets opener close p q _ _ hpair hinner ih

/-- One token that is no bracket behind nested ones. -/
theorem Nested.concat {t : Token} (h : Nested ts) (ht : t.lexeme.isBracket = false) :
    Nested (ts ++ [t]) :=
  h.append (.token ht .nil)

/-- The segments of a path. -/
theorem PathTail.nested {names : List String} (h : PathTail ts names) : Nested ts := by
  induction h with
  | nil => exact .nil
  | cons _ ih => exact .token rfl (.token rfl ih)

/-- An operand. -/
theorem Operand.Spells.nested {o : Operand} (h : Operand.Spells ts o) : Nested ts := by
  cases h with
  | literal => exact .token rfl .nil
  | negative => exact .token rfl (.token rfl .nil)
  | variant => exact .token rfl .nil
  | @negated p q r s name =>
    exact @Nested.brackets .lparen .rparen p s [⟨.mark .minus, q⟩, ⟨.ident name, r⟩] [] rfl
      (.token rfl (.token rfl .nil)) .nil
  | @enumeration p q r s t first name ts names hpath =>
    exact @Nested.brackets .lparen .rparen p s (⟨.ident "enum", q⟩ :: ⟨.ident first, r⟩ :: ts)
      [⟨.ident name, t⟩] rfl (.token rfl (.token rfl hpath.nested)) (.token rfl .nil)
  | @typed p q r s word name =>
    exact @Nested.brackets .lparen .rparen p r [⟨.ident word, q⟩] [⟨.ident name, s⟩] rfl
      (.token rfl .nil) (.token rfl .nil)

namespace Initializer

/-- No operator is a bracket. -/
theorem isBracket_of_operator? {t : Token} {op : Operator} (h : t.operator? = some op) :
    t.lexeme.isBracket = false := by
  obtain ⟨lexeme, p⟩ := t
  cases lexeme with
  | mark m => cases m <;> first | rfl | cases h
  | _ => rfl

/-- Operands behind one operator. -/
theorem Terms.nested {op : Operator} {os : List Operand} (h : Terms op ts os) : Nested ts := by
  induction h with
  | nil => exact .nil
  | cons hop ho _ ih => exact .token (isBracket_of_operator? hop) (ho.nested.append ih)

/-- Groups of different operators. -/
theorem Groups.nested {order : List Operator} {first init : Initializer}
    (h : Groups order first ts init) : Nested ts := by
  induction h with
  | nil => exact .nil
  | cons hterms _ ih => exact hterms.nested.append ih

/-- An initializer. -/
theorem Spells.nested {init : Initializer} (h : Spells ts init) : Nested ts := by
  cases h with
  | bare => exact .token rfl (.token rfl .nil)
  | chain ho hterms hgroups =>
    exact ho.nested.append (hterms.nested.append hgroups.nested)

end Initializer

/-- Attributes and doc comments. -/
theorem Metadata.nested {attributes : List String} (h : Metadata ts attributes) : Nested ts := by
  induction h with
  | nil => exact .nil
  | attr _ ih => exact .token rfl ih
  | doc _ ih => exact .token rfl ih

/-- The scope of an access. -/
theorem Access.Scope.nested {access : Access} (h : Access.Scope ts access) : Nested ts := by
  cases h with
  | crate | super | own => exact .token rfl .nil
  | within hpath => exact .token rfl (.token rfl hpath.nested)

/-- An access. -/
theorem Access.Spells.nested {access : Access} (h : Access.Spells ts access) : Nested ts := by
  cases h with
  | own => exact .nil
  | crate | everywhere => exact .token rfl .nil
  | limited hscope => exact .token rfl (.brackets rfl hscope.nested .nil)

/-- The type of an enumeration. -/
theorem Underlying.nested {access : Access} {type : Option IntType}
    (h : Underlying ts access type) : Nested ts := by
  cases h with
  | absent => exact .nil
  | written haccess _ => exact .token rfl (haccess.nested.concat rfl)

/-- A variant. -/
theorem VariantHead.nested {name : String} {value : Option Initializer} {p : Position}
    (h : VariantHead ts name value p) : Nested ts := by
  cases h with
  | bare => exact .token rfl .nil
  | valued hinit => exact .token rfl (.token rfl (Initializer.ofTokens_sound hinit).nested)

/-- Variants with commas between them. -/
theorem VariantList.nested {vs : List VariantDecl} (h : VariantList ts vs) : Nested ts := by
  induction h with
  | last hv => exact hv.nested
  | closed hv hms => exact hv.nested.append (.token rfl hms.nested)
  | cons hv hms _ ih => exact hv.nested.append (.token rfl (hms.nested.append ih))

/-- An enumeration. -/
theorem EnumDecl.Spells.nested {group : Option String} {e : EnumDecl}
    (h : EnumDecl.Spells group ts e) : Nested ts := by
  obtain ⟨hms, has, hus, hvs, -⟩ := h
  refine hms.nested.append (has.nested.append (.token rfl (.token rfl (hus.nested.append ?_))))
  exact .brackets rfl hvs.nested .nil

/-- Enumerations one after the other. -/
theorem EnumList.nested {group : Option String} {es : List EnumDecl}
    (h : EnumList group ts es) : Nested ts := by
  induction h with
  | nil => exact .nil
  | cons he _ ih => exact he.nested.append ih

/-- **Declarations.** The brackets of a declaration stand in pairs. -/
theorem Declaration.Spells.nested {d : Declaration} (h : Declaration.Spells ts d) : Nested ts := by
  cases h with
  | @module ms as es semi attributes access name enums p q r s hms has hes _ hsemi =>
    have hend : Nested semi := by
      rcases hsemi with rfl | ⟨t, rfl⟩
      · exact .nil
      · exact .token rfl .nil
    refine hms.nested.append (has.nested.append (.token rfl (.token rfl ?_)))
    exact .brackets rfl hes.nested hend
  | block hes => exact hes.nested

end Grammar

end MaskEnum
