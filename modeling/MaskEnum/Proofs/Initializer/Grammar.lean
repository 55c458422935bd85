import MaskEnum.Initializer.Parser
import MaskEnum.Proofs.Result
set_option autoImplicit false

/-!
# The grammar of initializers

Which tokens spell an initializer is said by relations, one for each rule of the grammar, and
independently of the reader. Whatever the reader accepts is spelled by the tokens it used.

## Main definitions

* `MaskEnum.PathTail` — the segments of a path behind its first.
* `MaskEnum.Operand.Spells` — the tokens of an operand.
* `MaskEnum.Initializer.Terms`, `MaskEnum.Initializer.Groups` — operands behind one operator, and
  groups of different operators.
* `MaskEnum.Initializer.Spells` — the tokens of an initializer.

## Main results

* `MaskEnum.Initializer.readOperand_sound`, `MaskEnum.Initializer.ofTokens_sound` — what is read is
  what is spelled.
-/

namespace MaskEnum

/-! ## Rules -/

/-- The tokens `"::" NAME ...` behind the first segment of a path. -/
inductive PathTail : List Token → List String → Prop
  | nil : PathTail [] []
  | cons {p q : Position} {name : String} {ts : List Token} {names : List String} :
      PathTail ts names →
        PathTail (⟨.mark .pathsep, p⟩ :: ⟨.ident name, q⟩ :: ts) (name :: names)

/-- The tokens of an operand. -/
inductive Operand.Spells : List Token → Operand → Prop
  | literal {p : Position} {digits : String} {l : Literal} :
      Literal.read digits = .ok l → Operand.Spells [⟨.int digits, p⟩] (.literal l)
  | negative {p q : Position} {digits : String} {l : Literal} :
      Literal.read digits = .ok l →
        Operand.Spells [⟨.mark .minus, p⟩, ⟨.int digits, q⟩] (.literal ⟨-l.value, l.suffix⟩)
  | variant {p : Position} {name : String} : Operand.Spells [⟨.ident name, p⟩] (.variant name)
  | negated {p q r s : Position} {name : String} :
      Operand.Spells
        [⟨.mark .lparen, p⟩, ⟨.mark .minus, q⟩, ⟨.ident name, r⟩, ⟨.mark .rparen, s⟩]
        (.negated name)
  | enumeration {p q r s t : Position} {first name : String} {ts : List Token}
      {names : List String} :
      PathTail ts names →
        Operand.Spells
          (⟨.mark .lparen, p⟩ :: ⟨.ident "enum", q⟩ :: ⟨.ident first, r⟩ ::
            (ts ++ [⟨.mark .rparen, s⟩, ⟨.ident name, t⟩]))
          (.external name (.enumeration ⟨first :: names⟩))
  | typed {p q r s : Position} {word name : String} {type : IntType} :
      IntType.ofName? word = some type →
        Operand.Spells
          [⟨.mark .lparen, p⟩, ⟨.ident word, q⟩, ⟨.mark .rparen, r⟩, ⟨.ident name, s⟩]
          (.external name (.typed type))

namespace Initializer

/-- The tokens of operands that each stand behind the operator `op`. -/
inductive Terms (op : Operator) : List Token → List Operand → Prop
  | nil : Terms op [] []
  | cons {t : Token} {used ts : List Token} {o : Operand} {os : List Operand} :
      t.operator? = some op → Operand.Spells used o → Terms op ts os →
        Terms op (t :: (used ++ ts)) (o :: os)

/-- The tokens of at most one group for each of some operators, in this order, that follow what is
read already. -/
inductive Groups : List Operator → Initializer → List Token → Initializer → Prop
  | nil {first : Initializer} : Groups [] first [] first
  | cons {op : Operator} {order : List Operator} {first init : Initializer}
      {ts rest : List Token} {os : List Operand} :
      Terms op ts os → Groups order (chained op first os) rest init →
        Groups (op :: order) first (ts ++ rest) init

/-- The tokens of an initializer. -/
inductive Spells : List Token → Initializer → Prop
  | bare {p q : Position} {name : String} :
      Spells [⟨.mark .pathsep, p⟩, ⟨.ident name, q⟩] (.operand (.external name .bare))
  | chain {used ts rest : List Token} {o : Operand} {os : List Operand} {init : Initializer} :
      Operand.Spells used o → Terms .sub ts os →
        Groups groupOrder (chained .sub (.operand o) os) rest init →
          Spells (used ++ (ts ++ rest)) init

/-! ## What is read is spelled -/

variable {site : Site} {ts left : List Token}

/-- A name is one token. -/
theorem readName_ok {what name : String} :
    readName site what ts = .ok (name, left) ↔ ∃ p, ts = ⟨.ident name, p⟩ :: left := by
  unfold readName
  split
  · next name' p left' =>
    constructor
    · intro h
      obtain ⟨rfl, rfl⟩ := Prod.mk.inj (Except.ok.inj h)
      exact ⟨p, rfl⟩
    · rintro ⟨q, h⟩
      obtain ⟨⟨rfl, -⟩, rfl⟩ : (name' = name ∧ p = q) ∧ left' = left := by simpa using h
      rfl
  · next hname =>
    refine ⟨nofun, ?_⟩
    rintro ⟨p, rfl⟩
    exact absurd rfl (hname name p left)

/-- A closing parenthesis is one token. -/
theorem readClosing_ok :
    readClosing site ts = .ok left ↔ ∃ p, ts = ⟨.mark .rparen, p⟩ :: left := by
  unfold readClosing
  split
  · next p left' =>
    constructor
    · intro h
      obtain rfl := Except.ok.inj h
      exact ⟨p, rfl⟩
    · rintro ⟨q, h⟩
      obtain ⟨-, rfl⟩ : p = q ∧ left' = left := by simpa using h
      rfl
  · next hclosing =>
    refine ⟨nofun, ?_⟩
    rintro ⟨p, rfl⟩
    exact absurd rfl (hclosing p left)

/-- The segments of a path. -/
theorem readSegments_sound {names : List String}
    (h : readSegments site ts = .ok (names, left)) : ∃ used, ts = used ++ left ∧
      PathTail used names := by
  fun_induction readSegments site ts generalizing names left with
  | case1 p name q ts ih =>
    obtain ⟨⟨more, left'⟩, hr, he⟩ := map_ok h
    obtain ⟨rfl, rfl⟩ := Prod.mk.inj he
    obtain ⟨used, rfl, hused⟩ := ih hr
    exact ⟨_, rfl, .cons hused⟩
  | case2 => cases h
  | case3 ts =>
    obtain ⟨rfl, rfl⟩ := Prod.mk.inj (Except.ok.inj h)
    exact ⟨[], rfl, .nil⟩

/-- A literal has the value that its text gives it. -/
theorem readLiteral_ok {digits : String} {l : Literal} :
    readLiteral digits = .ok l ↔ Literal.read digits = .ok l :=
  mapError_eq_ok

/-- An operand in parentheses. -/
theorem readParenthesized_sound {opener : Token} {o : Operand} {p : Position}
    (hopener : opener = ⟨.mark .lparen, p⟩)
    (h : readParenthesized site opener ts = .ok (o, left)) :
    ∃ used, opener :: ts = used ++ left ∧ Operand.Spells used o := by
  subst hopener
  unfold readParenthesized at h
  split at h
  · split at h
    · cases h
    · obtain ⟨⟨name, l₁⟩, h₁, h⟩ := bind_ok h
      obtain ⟨l₂, h₂, h⟩ := bind_ok h
      obtain ⟨rfl, rfl⟩ := Prod.mk.inj (Except.ok.inj h)
      obtain ⟨q, rfl⟩ := readName_ok.mp h₁
      obtain ⟨r, rfl⟩ := readClosing_ok.mp h₂
      exact ⟨[_, _, _, _], rfl, .negated⟩
  · obtain ⟨⟨word, l₁⟩, h₁, h⟩ := bind_ok h
    obtain ⟨q, rfl⟩ := readName_ok.mp h₁
    dsimp only at h
    split at h
    · next hword =>
      obtain ⟨⟨first, l₂⟩, h₂, h⟩ := bind_ok h
      obtain ⟨⟨names, l₃⟩, h₃, h⟩ := bind_ok h
      obtain ⟨l₄, h₄, h⟩ := bind_ok h
      obtain ⟨⟨name, l₅⟩, h₅, h⟩ := bind_ok h
      obtain ⟨rfl, rfl⟩ := Prod.mk.inj (Except.ok.inj h)
      obtain ⟨r, rfl⟩ := readName_ok.mp h₂
      obtain ⟨segments, rfl, hsegments⟩ := readSegments_sound h₃
      obtain ⟨s, rfl⟩ := readClosing_ok.mp h₄
      obtain ⟨t, rfl⟩ := readName_ok.mp h₅
      subst hword
      exact ⟨⟨.mark .lparen, p⟩ :: ⟨.ident "enum", q⟩ :: ⟨.ident first, r⟩ ::
        (segments ++ [⟨.mark .rparen, s⟩, ⟨.ident name, t⟩]), by simp, .enumeration hsegments⟩
    · split at h
      · cases h
      · split at h
        · cases h
        · next type htype =>
          obtain ⟨l₂, h₂, h⟩ := bind_ok h
          obtain ⟨⟨name, l₃⟩, h₃, h⟩ := bind_ok h
          obtain ⟨rfl, rfl⟩ := Prod.mk.inj (Except.ok.inj h)
          obtain ⟨r, rfl⟩ := readClosing_ok.mp h₂
          obtain ⟨s, rfl⟩ := readName_ok.mp h₃
          exact ⟨[_, _, _, _], rfl, .typed htype⟩

/-- An operand. -/
theorem readOperand_sound {o : Operand} (h : readOperand site ts = .ok (o, left)) :
    ∃ used, ts = used ++ left ∧ Operand.Spells used o := by
  unfold readOperand at h
  split at h
  · cases h
  · next token rest =>
    obtain ⟨lexeme, p⟩ := token
    dsimp only at h
    split at h
    · next digits =>
      obtain ⟨l, hl, he⟩ := map_ok h
      obtain ⟨rfl, rfl⟩ := Prod.mk.inj he
      exact ⟨[_], rfl, .literal (readLiteral_ok.mp hl)⟩
    · obtain ⟨rfl, rfl⟩ := Prod.mk.inj (Except.ok.inj h)
      exact ⟨[_], rfl, .variant⟩
    · split at h
      · obtain ⟨l, hl, he⟩ := map_ok h
        obtain ⟨rfl, rfl⟩ := Prod.mk.inj he
        exact ⟨[_, _], rfl, .negative (readLiteral_ok.mp hl)⟩
      · cases h
    · exact readParenthesized_sound rfl h
    · cases h
    · cases h

/-- One round of reading operands behind an operator. -/
theorem readTerms_cons (site : Site) (op : Operator) (t : Token) (left : List Token) :
    readTerms site op (t :: left) =
      if t.operator? = some op then do
        let (o, left) ← readOperand site left
        let (rest, left) ← readTerms site op left
        .ok (o :: rest, left)
      else .ok ([], t :: left) := by
  rw [readTerms]
  split_ifs
  · split
    · next h => simp [h, bind, Except.bind]
    · next o after h =>
      dsimp only
      cases h' : readTerms site op after <;> simp [h, h', bind, Except.bind]
  · rfl

/-- The operands behind one operator. -/
theorem readTerms_sound {op : Operator} {os : List Operand}
    (h : readTerms site op ts = .ok (os, left)) : ∃ used, ts = used ++ left ∧ Terms op used os := by
  fun_induction readTerms site op ts generalizing os left with
  | case1 =>
    obtain ⟨rfl, rfl⟩ := Prod.mk.inj (Except.ok.inj h)
    exact ⟨[], rfl, .nil⟩
  | case2 => cases h
  | case3 => cases h
  | case4 token rest hop o after ho hlen more left' hrest ih =>
    obtain ⟨rfl, rfl⟩ := Prod.mk.inj (Except.ok.inj h)
    obtain ⟨used, rfl, hused⟩ := readOperand_sound ho
    obtain ⟨terms, rfl, hterms⟩ := ih hrest
    exact ⟨token :: (used ++ terms), by simp, .cons hop hused hterms⟩
  | case5 token rest hop =>
    obtain ⟨rfl, rfl⟩ := Prod.mk.inj (Except.ok.inj h)
    exact ⟨[], rfl, .nil⟩

/-- The groups of the remaining operators use all tokens. -/
theorem readGroups_sound {order : List Operator} {first init : Initializer}
    (h : readGroups site order first ts = .ok init) : Groups order first ts init := by
  induction order generalizing first ts with
  | nil =>
    cases ts with
    | nil =>
      obtain rfl := Except.ok.inj h
      exact .nil
    | cons t ts => cases h
  | cons op order ih =>
    obtain ⟨⟨os, left⟩, hterms, hrest⟩ := bind_ok h
    obtain ⟨used, rfl, hused⟩ := readTerms_sound hterms
    exact .cons hused (ih hrest)

/-- **What is read is spelled.** The reader gives an initializer only to tokens that spell it. -/
theorem ofTokens_sound {variant : String} {init : Initializer}
    (h : ofTokens variant ts = .ok init) : Spells ts init := by
  unfold ofTokens at h
  dsimp only at h
  split at h
  · cases h
  · obtain ⟨⟨name, left⟩, hname, h⟩ := bind_ok h
    obtain ⟨q, rfl⟩ := readName_ok.mp hname
    dsimp only at h
    split at h
    · obtain rfl := Except.ok.inj h
      exact .bare
    · cases h
  · obtain ⟨⟨o, left⟩, ho, h⟩ := bind_ok h
    obtain ⟨⟨os, left'⟩, hos, h⟩ := bind_ok h
    obtain ⟨used, rfl, hused⟩ := readOperand_sound ho
    obtain ⟨terms, rfl, hterms⟩ := readTerms_sound hos
    exact .chain hused hterms (readGroups_sound h)

end Initializer

end MaskEnum
