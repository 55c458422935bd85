import MaskEnum.Initializer
import MaskEnum.Token
import MaskEnum.Text.Integer
set_option autoImplicit false

/-!
# Parsing initializers

The grammar has no precedence:

    initializer := operand ("-" operand)* group*  |  "::" NAME
    group       := (OP operand)+
    operand     := INT | "-" INT | NAME | "(" "-" NAME ")"
                 | "(" "enum" PATH ")" NAME | "(" TYPE ")" NAME

with at most one group per operator, in `groupOrder`. Every function takes the tokens that are
left and gives back those it did not use. A fault is reported at the first token that is left,
or at the last token of the initializer when none is.

## Main definitions

* `MaskEnum.Literal.read` — the literal that a text writes.
* `MaskEnum.Initializer.ofTokens` — the tree of a token list.
-/

namespace MaskEnum

/-- The base that the first two characters of a literal name, and the digits that follow. -/
def Literal.splitBase (cs : List Char) : Nat × List Char :=
  match cs with
  | '0' :: letter :: digits =>
    if letter == 'x' || letter == 'X' then (16, digits)
    else if letter == 'o' || letter == 'O' then (8, digits)
    else if letter == 'b' || letter == 'B' then (2, digits)
    else (10, cs)
  | _ => (10, cs)

/-- A text without the type name that ends it; a type name alone is no suffix. -/
def Literal.splitSuffix (cs : List Char) : Option IntType × List Char :=
  match IntType.all.find? fun t => t.name.toList.isSuffixOf cs && t.name.length < cs.length with
  | some t => (some t, cs.take (cs.length - t.name.length))
  | none => (none, cs)

/-- The literal that a text writes. Underscores are dropped wherever they stand. -/
def Literal.read (text : String) : Except ShapeFault Literal :=
  let (suffix, body) := splitSuffix text.toList
  let (base, written) := splitBase body
  let digits := written.filter (· != '_')
  if digits.isEmpty then .error (.emptyLiteral (String.ofList body))
  else match Text.readInteger base digits with
    | some value => .ok ⟨value, suffix⟩
    | none => .error (.badLiteral base (String.ofList digits))

namespace Initializer

/-- What stays fixed while one initializer is read: the variant it belongs to, and the place for
faults at its end. -/
structure Site where
  variant : String
  stop : Option Position

/-- A fault at the first of the tokens that are left. -/
def fail {α : Type} (site : Site) (left : List Token) (fault : InitializerFault) :
    Except Error α :=
  .error ⟨.shape (.initializer site.variant fault),
    (left.head?.map Token.position).or site.stop⟩

/-- The next token, which must be a name. -/
def readName (site : Site) (what : String) : List Token → Except Error (String × List Token)
  | ⟨.ident name, _⟩ :: left => .ok (name, left)
  | left => fail site left (.expected what)

/-- The next token, which must be a closing parenthesis. -/
def readClosing (site : Site) : List Token → Except Error (List Token)
  | ⟨.mark .rparen, _⟩ :: left => .ok left
  | left => fail site left (.expected "')'")

/-- The segments of a path behind its first. -/
def readSegments (site : Site) : List Token → Except Error (List String × List Token)
  | ⟨.mark .pathsep, _⟩ :: ⟨.ident name, _⟩ :: left =>
    (readSegments site left).map fun (names, left) => (name :: names, left)
  | ⟨.mark .pathsep, _⟩ :: left => fail site left (.expected "path segment")
  | left => .ok ([], left)

/-- A literal, whose fault has no place. -/
def readLiteral (digits : String) : Except Error Literal :=
  (Literal.read digits).mapError fun fault => ⟨.shape fault, none⟩

/-- An operand behind the parenthesis `opener`. -/
def readParenthesized (site : Site) (opener : Token) (left : List Token) :
    Except Error (Operand × List Token) :=
  match left with
  | ⟨.mark .minus, _⟩ :: left =>
    match left with
    | ⟨.int _, _⟩ :: _ => fail site left .negatedLiteral
    | _ => do
      let (variant, left) ← readName site "variant name after '(-'" left
      let left ← readClosing site left
      .ok (.negated variant, left)
  | _ => do
    let (word, after) ← readName site "'enum' or an integer type" left
    if word = "enum" then
      let (first, left) ← readName site "enumeration name" after
      let (rest, left) ← readSegments site left
      let left ← readClosing site left
      let (variant, left) ← readName site "variant name after the annotation" left
      .ok (.external variant (.enumeration ⟨first :: rest⟩), left)
    else if isFloatTypeName word then fail site left .floatType
    else match IntType.ofName? word with
      | none => fail site [opener] (.unknownType word)
      | some type =>
        let left ← readClosing site after
        let (constant, left) ← readName site "constant name after the annotation" left
        .ok (.external constant (.typed type), left)

/-- The next operand. -/
def readOperand (site : Site) : List Token → Except Error (Operand × List Token)
  | [] => fail site [] .endsEarly
  | token :: left =>
    match token.lexeme with
    | .int digits => (readLiteral digits).map fun l => (.literal l, left)
    | .ident name => .ok (.variant name, left)
    | .mark .minus =>
      match left with
      | ⟨.int digits, _⟩ :: left =>
        (readLiteral digits).map fun l => (.literal ⟨-l.value, l.suffix⟩, left)
      | _ => fail site left (.expected "integer literal after '-'")
    | .mark .lparen => readParenthesized site token left
    | .mark .pathsep => fail site [token] .bareConstantOperand
    | lexeme => fail site [token] (.unexpected lexeme.text)

theorem map_ok {ε α β : Type} {f : α → β} {r : Except ε α} {b : β} (h : r.map f = .ok b) :
    ∃ a, r = .ok a ∧ f a = b := by
  cases r with
  | error e => cases h
  | ok a => cases h; exact ⟨a, rfl, rfl⟩

theorem bind_ok {ε α β : Type} {f : α → Except ε β} {r : Except ε α} {b : β}
    (h : r >>= f = .ok b) : ∃ a, r = .ok a ∧ f a = .ok b := by
  cases r with
  | error e => cases h
  | ok a => exact ⟨a, rfl, h⟩

theorem readName_length {site : Site} {what : String} {ts left : List Token} {s : String}
    (h : readName site what ts = .ok (s, left)) : left.length < ts.length := by
  unfold readName at h
  split at h
  · cases h; simp
  · cases h

theorem readClosing_length {site : Site} {ts left : List Token}
    (h : readClosing site ts = .ok left) : left.length < ts.length := by
  unfold readClosing at h
  split at h
  · cases h; simp
  · cases h

theorem readSegments_length {site : Site} {ts left : List Token} {names : List String}
    (h : readSegments site ts = .ok (names, left)) : left.length ≤ ts.length := by
  fun_induction readSegments site ts generalizing names left with
  | case1 p s q ts ih =>
    obtain ⟨⟨more, left'⟩, hr, he⟩ := map_ok h
    cases he
    have := ih hr
    simp only [List.length_cons]
    omega
  | case2 => cases h
  | case3 => cases h; exact Nat.le_refl _

theorem readParenthesized_length {site : Site} {opener : Token} {ts left : List Token} {o : Operand}
    (h : readParenthesized site opener ts = .ok (o, left)) : left.length < ts.length := by
  unfold readParenthesized at h
  split at h
  · split at h
    · cases h
    · obtain ⟨⟨s, l₁⟩, h₁, h⟩ := bind_ok h
      obtain ⟨l₂, h₂, h⟩ := bind_ok h
      cases h
      have := readName_length h₁
      have := readClosing_length h₂
      simp only [List.length_cons]
      omega
  · obtain ⟨⟨s, l₁⟩, h₁, h⟩ := bind_ok h
    have := readName_length h₁
    dsimp only at h
    split at h
    · obtain ⟨⟨s₂, l₂⟩, h₂, h⟩ := bind_ok h
      obtain ⟨⟨s₃, l₃⟩, h₃, h⟩ := bind_ok h
      obtain ⟨l₄, h₄, h⟩ := bind_ok h
      obtain ⟨⟨s₅, l₅⟩, h₅, h⟩ := bind_ok h
      cases h
      have := readName_length h₂
      have := readSegments_length h₃
      have := readClosing_length h₄
      have := readName_length h₅
      dsimp only at *
      omega
    · split at h
      · cases h
      · split at h
        · cases h
        · obtain ⟨l₂, h₂, h⟩ := bind_ok h
          obtain ⟨⟨s₃, l₃⟩, h₃, h⟩ := bind_ok h
          cases h
          have := readClosing_length h₂
          have := readName_length h₃
          dsimp only at *
          omega

/-- An operand is at least one token. -/
theorem readOperand_length {site : Site} {ts left : List Token} {o : Operand}
    (h : readOperand site ts = .ok (o, left)) : left.length < ts.length := by
  unfold readOperand at h
  split at h
  · cases h
  · split at h
    · obtain ⟨l, _, he⟩ := map_ok h; cases he; simp
    · cases h; simp
    · split at h
      · obtain ⟨l, _, he⟩ := map_ok h
        cases he
        simp only [List.length_cons]
        omega
      · cases h
    · have := readParenthesized_length h
      simp only [List.length_cons]
      omega
    · cases h
    · cases h

/-- The operands that follow, each behind the operator `op`. -/
def readTerms (site : Site) (op : Operator) (ts : List Token) :
    Except Error (List Operand × List Token) :=
  match ts with
  | [] => .ok ([], [])
  | token :: left =>
    if token.operator? = some op then
      match h : readOperand site left with
      | .error e => .error e
      | .ok (o, after) =>
        have : after.length < left.length := readOperand_length h
        match readTerms site op after with
        | .error e => .error e
        | .ok (rest, after) => .ok (o :: rest, after)
    else .ok ([], token :: left)
termination_by ts.length

/-- The tree of `first` with the group of `op` applied to it; an empty group leaves no trace. -/
def chained (op : Operator) (first : Initializer) : List Operand → Initializer
  | [] => first
  | rest => .chain op first rest

/-- The groups that follow `first`, whose operators can only be those of `order`, and nothing
else. -/
def readGroups (site : Site) : List Operator → Initializer → List Token → Except Error Initializer
  | [], first, [] => .ok first
  | [], _, token :: left =>
    fail site (token :: left) <|
      match token.operator? with
      | none => .unexpected token.lexeme.text
      | some .sub => .lateDifference
      | some op => .outOfOrder op groupOrder
  | op :: order, first, ts => do
    let (rest, left) ← readTerms site op ts
    readGroups site order (chained op first rest) left

/-- The initializer of the variant `variant` that a whole token list writes. -/
def ofTokens (variant : String) (ts : List Token) : Except Error Initializer :=
  let site : Site := ⟨variant, ts.getLast?.map Token.position⟩
  match ts with
  | [] => fail site [] .missing
  | ⟨.mark .pathsep, _⟩ :: left => do
    let (constant, left) ← readName site "constant name after '::'" left
    match left with
    | [] => .ok (.operand (.external constant .bare))
    | _ => fail site left .bareConstantFollowed
  | _ => do
    let (first, left) ← readOperand site ts
    let (subtracted, left) ← readTerms site .sub left
    readGroups site groupOrder (chained .sub (.operand first) subtracted) left

end Initializer
end MaskEnum
