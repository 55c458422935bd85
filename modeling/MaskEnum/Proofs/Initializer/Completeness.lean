import MaskEnum.Proofs.Initializer.Grammar
set_option autoImplicit false

/-!
# What is spelled as an initializer is read

Every reader of initializers gives back what the tokens at the front spell. An operand ends where it
ends whatever follows; the operands behind an operator end at any token but this operator; and a
group is followed by nothing, or by the operator of a later group, which is a different one.

## Main results

* `MaskEnum.Initializer.readOperand_complete`, `MaskEnum.Initializer.readTerms_complete`,
  `MaskEnum.Initializer.readGroups_complete` — the parts of an initializer.
* `MaskEnum.Initializer.ofTokens_complete` — what is spelled is read.
-/

namespace MaskEnum

/-- A type that is found by its name has this name. -/
theorem IntType.eq_name_of_ofName? {name : String} {type : IntType}
    (h : IntType.ofName? name = some type) : name = type.name := by
  have hname := List.find?_some h
  exact (beq_iff_eq.mp hname).symm

/-- An operand starts with a token, which is not the mark of a constant without type. -/
theorem Operand.Spells.exists_cons {used : List Token} {o : Operand} (h : Operand.Spells used o) :
    ∃ t more, used = t :: more ∧ t.lexeme ≠ .mark .pathsep := by
  cases h with
  | literal | negative | variant | negated | enumeration | typed => exact ⟨_, _, rfl, nofun⟩

namespace Initializer

variable {site : Site} {used ts rest : List Token}

/-- The segments of a path are read up to a closing parenthesis. -/
theorem readSegments_complete {names : List String} (h : PathTail ts names) (p : Position) :
    readSegments site (ts ++ ⟨.mark .rparen, p⟩ :: rest) =
      .ok (names, ⟨.mark .rparen, p⟩ :: rest) := by
  induction h with
  | nil => rfl
  | cons _ ih =>
    rw [List.cons_append, List.cons_append, readSegments, ih]
    rfl

/-- An operand is read, whatever follows. -/
theorem readOperand_complete {o : Operand} (h : Operand.Spells used o) (rest : List Token) :
    readOperand site (used ++ rest) = .ok (o, rest) := by
  cases h with
  | literal hread =>
    show (readLiteral _).map _ = _
    rw [readLiteral_ok.mpr hread]
    rfl
  | negative hread =>
    show (readLiteral _).map _ = _
    rw [readLiteral_ok.mpr hread]
    rfl
  | variant => rfl
  | negated => rfl
  | @enumeration p q r s t first name ts names hpath =>
    show readParenthesized site _ (⟨.ident "enum", q⟩ :: ⟨.ident first, r⟩ ::
      ((ts ++ [⟨.mark .rparen, s⟩, ⟨.ident name, t⟩]) ++ rest)) = _
    rw [List.append_assoc]
    refine bind_eq_ok.mpr ⟨_, readName_ok.mpr ⟨q, rfl⟩, ?_⟩
    refine bind_eq_ok.mpr ⟨_, readName_ok.mpr ⟨r, rfl⟩, ?_⟩
    refine bind_eq_ok.mpr ⟨_, readSegments_complete hpath s, ?_⟩
    refine bind_eq_ok.mpr ⟨_, readClosing_ok.mpr ⟨s, rfl⟩, ?_⟩
    exact bind_eq_ok.mpr ⟨_, readName_ok.mpr ⟨t, rfl⟩, rfl⟩
  | @typed p q r s word name type htype =>
    have hword : word ≠ "enum" ∧ isFloatTypeName word = false := by
      rw [IntType.eq_name_of_ofName? htype]
      cases type <;> decide
    show readParenthesized site _ (⟨.ident word, q⟩ :: ⟨.mark .rparen, r⟩ :: ⟨.ident name, s⟩ ::
      rest) = _
    refine bind_eq_ok.mpr ⟨_, readName_ok.mpr ⟨q, rfl⟩, ?_⟩
    simp only [hword, htype, if_false, Bool.false_eq_true]
    refine bind_eq_ok.mpr ⟨_, readClosing_ok.mpr ⟨r, rfl⟩, ?_⟩
    exact bind_eq_ok.mpr ⟨_, readName_ok.mpr ⟨s, rfl⟩, rfl⟩

/-- The operands behind an operator are read up to a token that is not this operator. -/
theorem readTerms_complete {op : Operator} {os : List Operand} (h : Terms op ts os)
    (hrest : ∀ t ∈ rest.head?, t.operator? ≠ some op) :
    readTerms site op (ts ++ rest) = .ok (os, rest) := by
  induction h with
  | nil =>
    cases rest with
    | nil => rw [List.append_nil, readTerms]
    | cons t rest => rw [List.nil_append, readTerms_cons, if_neg (hrest t rfl)]
  | cons hop ho _ ih =>
    rw [List.cons_append, List.append_assoc, readTerms_cons, if_pos hop]
    refine bind_eq_ok.mpr ⟨_, readOperand_complete ho _, ?_⟩
    exact bind_eq_ok.mpr ⟨_, ih, rfl⟩

/-- What follows as groups of some operators starts with one of them. -/
theorem Groups.exists_operator {order : List Operator} {first init : Initializer}
    (h : Groups order first ts init) :
    ∀ t ∈ ts.head?, ∃ op ∈ order, t.operator? = some op := by
  induction h with
  | nil => exact nofun
  | @cons op order first init ts rest os hterms _ ih =>
    cases hterms with
    | nil =>
      intro t ht
      obtain ⟨op', hop', hoperator⟩ := ih t ht
      exact ⟨op', List.mem_cons_of_mem _ hop', hoperator⟩
    | cons hop =>
      intro t ht
      obtain rfl := Option.some.inj ht
      exact ⟨op, List.mem_cons_self, hop⟩

/-- The groups of different operators are read to the end. -/
theorem readGroups_complete {order : List Operator} {first init : Initializer}
    (h : Groups order first ts init) (horder : order.Nodup) :
    readGroups site order first ts = .ok init := by
  induction h with
  | nil => rfl
  | @cons op order first init ts rest os hterms hgroups ih =>
    obtain ⟨hop, horder⟩ := List.nodup_cons.mp horder
    have hrest : ∀ t ∈ rest.head?, t.operator? ≠ some op := by
      intro t ht heq
      obtain ⟨op', hop', hoperator⟩ := hgroups.exists_operator t ht
      obtain rfl := Option.some.inj (heq.symm.trans hoperator)
      exact hop hop'
    exact bind_eq_ok.mpr ⟨_, readTerms_complete hterms hrest, ih horder⟩

/-- **What is spelled is read.** The reader gives to tokens any initializer that they spell. -/
theorem ofTokens_complete {variant : String} {init : Initializer} (h : Spells ts init) :
    ofTokens variant ts = .ok init := by
  cases h with
  | bare => rfl
  | @chain used ts rest o os init ho hos hgroups =>
    have hgroups' : Groups (.sub :: groupOrder) (.operand o) (ts ++ rest) init :=
      .cons hos hgroups
    obtain ⟨t, more, hcons, ht⟩ := ho.exists_cons
    unfold ofTokens
    split
    · next hnil => simp [hcons] at hnil
    · next p left hpath =>
      rw [hcons] at hpath
      exact absurd (congrArg Token.lexeme (List.cons.inj hpath).1) ht
    · refine bind_eq_ok.mpr ⟨_, readOperand_complete ho _, ?_⟩
      exact readGroups_complete hgroups' (by decide)

end Initializer

end MaskEnum
