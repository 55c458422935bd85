import MaskEnum.Declaration
import MaskEnum.Initializer.Parser
set_option autoImplicit false

/-!
# Parsing declarations

One block of tokens is read by recursive descent:

    block := meta access "mod" NAME "{" enum+ "}" [";"]  |  enum+
    enum  := meta access "enum" NAME [":" access TYPE] "{" variants "}"

The attributes and doc comments behind a comma belong to the variant before it. Every function
takes the tokens that are left and gives back those it did not use; `stop` is the end of the
block, where a fault is reported when no token is left.

## Main definitions

* `MaskEnum.EnumDecl.read` — the enumeration at the front of a token list.
* `MaskEnum.Declaration.ofTokens` — the declaration that a block writes.

## Implementation notes

Loops end because each round uses at least one token; the lemmas `*_length` say so.
-/

namespace MaskEnum
namespace Declaration

open Initializer (map_ok bind_ok)

/-- The place of the first token that is left. -/
def here (stop : Position) (left : List Token) : Position :=
  (left.head?.map Token.position).getD stop

/-- A shape fault at the first of the tokens that are left. -/
def fail {α : Type} (stop : Position) (left : List Token) (fault : ShapeFault) : Except Error α :=
  .error ⟨.shape fault, some (here stop left)⟩

/-- Reports that something else was expected in front of the tokens that are left. -/
def failExpected {α : Type} (stop : Position) (left : List Token) (what : String) :
    Except Error α :=
  fail stop left (.expected what (left.head?.map (·.lexeme.text)))

/-- The next token, which must be a name, and its place. -/
def readIdent (stop : Position) (what : String) :
    List Token → Except Error ((String × Position) × List Token)
  | ⟨.ident name, p⟩ :: left => .ok ((name, p), left)
  | left => failExpected stop left what

/-- Skips a mark, which must be next. -/
def readMark (stop : Position) (m : Mark) (left : List Token) : Except Error (List Token) :=
  match left with
  | ⟨.mark m', p⟩ :: rest =>
    if m' = m then .ok rest
    else failExpected stop (⟨.mark m', p⟩ :: rest) ("'" ++ String.ofList m.spelling ++ "'")
  | _ => failExpected stop left ("'" ++ String.ofList m.spelling ++ "'")

/-- Skips a keyword, which must be next, and gives its place. -/
def readKeyword (stop : Position) (word : String) (left : List Token) :
    Except Error (Position × List Token) :=
  match left with
  | ⟨.ident name, p⟩ :: rest =>
    if name = word then .ok (p, rest) else fail stop left (.expectedKeyword word)
  | _ => fail stop left (.expectedKeyword word)

/-- The attribute that a doc comment stands for. -/
def docAttribute (text : String) : String := "doc = " ++ Text.quoted text

/-- The attributes at the front, doc comments among them. -/
def readMetadata : List Token → List String × List Token
  | ⟨.attr text, _⟩ :: left =>
    let (more, left) := readMetadata left
    (text :: more, left)
  | ⟨.doc text, _⟩ :: left =>
    let (more, left) := readMetadata left
    (docAttribute text :: more, left)
  | left => ([], left)

/-- The segments of a module path behind its first. -/
def readModulePath (stop : Position) : List Token → Except Error (List String × List Token)
  | ⟨.mark .pathsep, _⟩ :: ⟨.ident name, _⟩ :: left =>
    (readModulePath stop left).map fun (names, left) => (name :: names, left)
  | ⟨.mark .pathsep, _⟩ :: left => failExpected stop left "module path"
  | left => .ok ([], left)

/-- The scope in the parentheses of an access, the opening one already read. -/
def readScope (stop : Position) (left : List Token) : Except Error (Access × List Token) := do
  let ((scope, _), after) ← readIdent stop "visibility scope" left
  if scope = "crate" then .ok (.crate, after)
  else if scope = "super" then .ok (.super, after)
  else if scope = "self" then .ok (.own, after)
  else if scope = "in" then
    let ((first, _), left) ← readIdent stop "module path" after
    let (rest, left) ← readModulePath stop left
    .ok (.within ⟨first :: rest⟩, left)
  else fail stop left (.unknownScope scope)

/-- The access at the front; nothing written is private access. -/
def readAccess (stop : Position) (left : List Token) : Except Error (Access × List Token) :=
  match left with
  | ⟨.ident "crate", _⟩ :: ⟨.mark .pathsep, _⟩ :: _ => .ok (.own, left)
  | ⟨.ident "crate", _⟩ :: rest => .ok (.crate, rest)
  | ⟨.ident "pub", _⟩ :: ⟨.mark .lparen, _⟩ :: rest => do
    let (access, left) ← readScope stop rest
    let left ← readMark stop .rparen left
    .ok (access, left)
  | ⟨.ident "pub", _⟩ :: rest => .ok (.everywhere, rest)
  | _ => .ok (.own, left)

/-- The integer type at the front. -/
def readType (stop : Position) (left : List Token) : Except Error (IntType × List Token) := do
  let ((name, _), after) ← readIdent stop "underlying integer type" left
  if isFloatTypeName name then fail stop left .floatUnderlying
  else match IntType.ofName? name with
    | some type => .ok (type, after)
    | none => fail stop left (.unknownUnderlying name)

/-- The wrapped type with the access of the field, if a colon announces them. -/
def readUnderlying (stop : Position) (left : List Token) :
    Except Error ((Access × Option IntType) × List Token) :=
  match left with
  | ⟨.mark .colon, _⟩ :: rest => do
    let (access, left) ← readAccess stop rest
    let (type, left) ← readType stop left
    .ok ((access, some type), left)
  | _ => .ok ((.own, none), left)

/-- The tokens of an initializer: up to the comma or closing brace that stands outside its
parentheses. `depth` counts the parentheses that are open and goes below zero with one that
nothing opened. -/
def cutValue : Int → List Token → List Token × List Token
  | _, [] => ([], [])
  | depth, t :: left =>
    if depth = 0 ∧ (t.lexeme = .mark .comma ∨ t.lexeme = .mark .rbrace) then ([], t :: left)
    else
      let depth :=
        if t.lexeme = .mark .lparen then depth + 1
        else if t.lexeme = .mark .rparen then depth - 1
        else depth
      let (value, rest) := cutValue depth left
      (t :: value, rest)

/-- The initializer of a variant, if an equals sign announces one. -/
def readValue (variant : String) : List Token → Except Error (Option Initializer × List Token)
  | ⟨.mark .eq, _⟩ :: left =>
    let (value, left) := cutValue 0 left
    (Initializer.ofTokens variant value).map fun init => (some init, left)
  | left => .ok (none, left)

/-- What stands behind a variant: a comma and attributes, or the brace that closes the list. -/
def readVariantEnd (stop : Position) (variant : String) (left : List Token) :
    Except Error (List String × List Token) :=
  match left with
  | ⟨.mark .comma, _⟩ :: rest => .ok (readMetadata rest)
  | ⟨.mark .rbrace, _⟩ :: _ => .ok ([], left)
  | _ => fail stop left (.expectedComma variant)

/-- The variant at the front. -/
def readVariant (stop : Position) (left : List Token) :
    Except Error (VariantDecl × List Token) := do
  let ((name, place), left) ← readIdent stop "variant name" left
  let (value, left) ← readValue name left
  let (attributes, left) ← readVariantEnd stop name left
  .ok (⟨name, value, attributes, place⟩, left)

/-! ## Every loop uses up tokens -/

theorem readIdent_length {stop : Position} {what : String} {ts left : List Token}
    {found : String × Position} (h : readIdent stop what ts = .ok (found, left)) :
    left.length < ts.length := by
  unfold readIdent at h
  split at h
  · cases h; simp
  · cases h

theorem readMark_length {stop : Position} {m : Mark} {ts left : List Token}
    (h : readMark stop m ts = .ok left) : left.length < ts.length := by
  unfold readMark at h
  split at h
  · split at h
    · cases h; simp
    · cases h
  · cases h

theorem readKeyword_length {stop : Position} {word : String} {ts left : List Token}
    {place : Position} (h : readKeyword stop word ts = .ok (place, left)) :
    left.length < ts.length := by
  unfold readKeyword at h
  split at h
  · split at h
    · cases h; simp
    · cases h
  · cases h

theorem readMetadata_length (ts : List Token) : (readMetadata ts).2.length ≤ ts.length := by
  fun_induction readMetadata ts with
  | case1 _ _ _ _ _ he ih => rw [he] at ih; exact Nat.le_succ_of_le ih
  | case2 _ _ _ _ _ he ih => rw [he] at ih; exact Nat.le_succ_of_le ih
  | case3 => exact Nat.le_refl _

theorem readModulePath_length {stop : Position} {ts left : List Token} {names : List String}
    (h : readModulePath stop ts = .ok (names, left)) : left.length ≤ ts.length := by
  fun_induction readModulePath stop ts generalizing names left with
  | case1 p s q ts ih =>
    obtain ⟨⟨more, left'⟩, hr, he⟩ := map_ok h
    cases he
    have := ih hr
    simp only [List.length_cons]
    omega
  | case2 => cases h
  | case3 => cases h; exact Nat.le_refl _

theorem readScope_length {stop : Position} {ts left : List Token} {a : Access}
    (h : readScope stop ts = .ok (a, left)) : left.length ≤ ts.length := by
  obtain ⟨⟨⟨s, p⟩, l₁⟩, h₁, h⟩ := bind_ok h
  have := readIdent_length h₁
  dsimp only at h
  split at h
  · cases h; omega
  split at h
  · cases h; omega
  split at h
  · cases h; omega
  split at h
  · obtain ⟨⟨⟨s₂, p₂⟩, l₂⟩, h₂, h⟩ := bind_ok h
    obtain ⟨⟨s₃, l₃⟩, h₃, h⟩ := bind_ok h
    cases h
    have := readIdent_length h₂
    have := readModulePath_length h₃
    dsimp only at *
    omega
  · cases h

theorem readAccess_length {stop : Position} {ts left : List Token} {a : Access}
    (h : readAccess stop ts = .ok (a, left)) : left.length ≤ ts.length := by
  unfold readAccess at h
  split at h
  · cases h; exact Nat.le_refl _
  · cases h; simp
  · obtain ⟨⟨s, l₁⟩, h₁, h⟩ := bind_ok h
    obtain ⟨l₂, h₂, h⟩ := bind_ok h
    cases h
    have := readScope_length h₁
    have := readMark_length h₂
    simp only [List.length_cons]
    omega
  · cases h; simp
  · cases h; exact Nat.le_refl _

theorem readType_length {stop : Position} {ts left : List Token} {t : IntType}
    (h : readType stop ts = .ok (t, left)) : left.length < ts.length := by
  obtain ⟨⟨⟨s, p⟩, l₁⟩, h₁, h⟩ := bind_ok h
  have := readIdent_length h₁
  dsimp only at h
  split at h
  · cases h
  · split at h
    · cases h; exact this
    · cases h

theorem readUnderlying_length {stop : Position} {ts left : List Token}
    {u : Access × Option IntType} (h : readUnderlying stop ts = .ok (u, left)) :
    left.length ≤ ts.length := by
  unfold readUnderlying at h
  split at h
  · obtain ⟨⟨a, l₁⟩, h₁, h⟩ := bind_ok h
    obtain ⟨⟨t, l₂⟩, h₂, h⟩ := bind_ok h
    cases h
    have := readAccess_length h₁
    have := readType_length h₂
    simp only [List.length_cons]
    omega
  · cases h; exact Nat.le_refl _

theorem cutValue_append (depth : Int) (ts : List Token) :
    (cutValue depth ts).1 ++ (cutValue depth ts).2 = ts := by
  fun_induction cutValue depth ts with
  | case1 => rfl
  | case2 => rfl
  | case3 _ _ _ _ _ _ _ he ih => rw [he] at ih; simp [ih]

theorem readValue_length {variant : String} {ts left : List Token} {v : Option Initializer}
    (h : readValue variant ts = .ok (v, left)) : left.length ≤ ts.length := by
  unfold readValue at h
  split at h
  · next ts =>
    obtain ⟨init, _, he⟩ := map_ok h
    cases he
    have := congrArg List.length (cutValue_append 0 ts)
    simp only [List.length_append, List.length_cons] at this ⊢
    omega
  · cases h; exact Nat.le_refl _

theorem readVariantEnd_length {stop : Position} {variant : String} {ts left : List Token}
    {attributes : List String} (h : readVariantEnd stop variant ts = .ok (attributes, left)) :
    left.length ≤ ts.length := by
  unfold readVariantEnd at h
  split at h
  · next rest =>
    have := readMetadata_length rest
    injection h with h
    rw [h] at this
    exact Nat.le_succ_of_le this
  · cases h; exact Nat.le_refl _
  · cases h

theorem readVariant_length {stop : Position} {ts left : List Token} {v : VariantDecl}
    (h : readVariant stop ts = .ok (v, left)) : left.length < ts.length := by
  obtain ⟨⟨⟨s, p⟩, l₁⟩, h₁, h⟩ := bind_ok h
  obtain ⟨⟨value, l₂⟩, h₂, h⟩ := bind_ok h
  obtain ⟨⟨attributes, l₃⟩, h₃, h⟩ := bind_ok h
  cases h
  have := readIdent_length h₁
  have := readValue_length h₂
  have := readVariantEnd_length h₃
  dsimp only at *
  omega

/-! ## Enumerations and blocks -/

/-- Whether the closing brace is next. -/
def atBrace : List Token → Bool
  | ⟨.mark .rbrace, _⟩ :: _ => true
  | _ => false

/-- The variants up to the closing brace. -/
def readVariants (stop : Position) (ts : List Token) :
    Except Error (List VariantDecl × List Token) :=
  if atBrace ts then .ok ([], ts)
  else
    match h : readVariant stop ts with
    | .error e => .error e
    | .ok (v, left) =>
      have : left.length < ts.length := readVariant_length h
      match readVariants stop left with
      | .error e => .error e
      | .ok (vs, left) => .ok (v :: vs, left)
termination_by ts.length

theorem readVariants_length {stop : Position} {ts left : List Token} {vs : List VariantDecl}
    (h : readVariants stop ts = .ok (vs, left)) : left.length ≤ ts.length := by
  fun_induction readVariants stop ts generalizing vs left with
  | case1 => cases h; exact Nat.le_refl _
  | case2 => cases h
  | case3 => cases h
  | case4 ts _ v l₁ h₁ hl vs₂ l₂ h₂ ih =>
    cases h
    have := ih h₂
    omega

/-- The variants of the enumeration `name`, from behind the opening brace to before the closing
one. -/
def readBody (stop : Position) (name : String) (left : List Token) :
    Except Error (List VariantDecl × List Token) := do
  match left with
  | ⟨.attr _, _⟩ :: _ | ⟨.doc _, _⟩ :: _ => fail stop left (.leadingMetadata name)
  | _ =>
    let (variants, left) ← readVariants stop left
    if variants.isEmpty then fail stop left (.noVariants name) else .ok (variants, left)

/-- Whether some variants have an initializer and others have none. -/
def isMixed (variants : List VariantDecl) : Bool :=
  variants.any (·.isFieldless) && ! variants.all (·.isFieldless)

/-- The enumeration at the front, as a member of `group`. -/
def readEnum (stop : Position) (group : Option String) (left : List Token) :
    Except Error (EnumDecl × List Token) := do
  let (attributes, left) := readMetadata left
  let (access, left) ← readAccess stop left
  let (place, left) ← readKeyword stop "enum" left
  let ((name, _), left) ← readIdent stop "enumeration name" left
  let ((fieldAccess, writtenType), left) ← readUnderlying stop left
  let left ← readMark stop .lbrace left
  let (variants, left) ← readBody stop name left
  let left ← readMark stop .rbrace left
  if isMixed variants then .error ⟨.shape (.mixedVariants name), some place⟩
  else
    .ok (⟨name, group, access, fieldAccess, writtenType, variants, attributes, place⟩, left)

theorem readBody_length {stop : Position} {name : String} {ts left : List Token}
    {vs : List VariantDecl} (h : readBody stop name ts = .ok (vs, left)) :
    left.length ≤ ts.length := by
  unfold readBody at h
  split at h
  · cases h
  · cases h
  · obtain ⟨⟨vs', l⟩, h₁, h⟩ := bind_ok h
    have := readVariants_length h₁
    dsimp only at h
    split at h
    · cases h
    · cases h; exact this

theorem readEnum_length {stop : Position} {group : Option String} {ts left : List Token}
    {e : EnumDecl} (h : readEnum stop group ts = .ok (e, left)) : left.length < ts.length := by
  unfold readEnum at h
  have := readMetadata_length ts
  obtain ⟨⟨access, l₁⟩, h₁, h⟩ := bind_ok h
  obtain ⟨⟨place, l₂⟩, h₂, h⟩ := bind_ok h
  obtain ⟨⟨⟨name, _⟩, l₃⟩, h₃, h⟩ := bind_ok h
  obtain ⟨⟨⟨fieldAccess, writtenType⟩, l₄⟩, h₄, h⟩ := bind_ok h
  obtain ⟨l₅, h₅, h⟩ := bind_ok h
  obtain ⟨⟨variants, l₆⟩, h₆, h⟩ := bind_ok h
  obtain ⟨l₇, h₇, h⟩ := bind_ok h
  have := readAccess_length h₁
  have := readKeyword_length h₂
  have := readIdent_length h₃
  have := readUnderlying_length h₄
  have := readMark_length h₅
  have := readBody_length h₆
  have := readMark_length h₇
  dsimp only at *
  split at h
  · cases h
  · cases h; omega

/-- The enumerations of the module `name` and what follows its closing brace. -/
def readMembers (stop : Position) (name : String) (ts : List Token) :
    Except Error (List EnumDecl × List Token) :=
  match ts with
  | [] => fail stop [] (.unclosedModule name)
  | t :: rest =>
    if atBrace (t :: rest) then .ok ([], rest)
    else
      match h : readEnum stop (some name) (t :: rest) with
      | .error e => .error e
      | .ok (e, left) =>
        have : left.length < (t :: rest).length := readEnum_length h
        match readMembers stop name left with
        | .error e => .error e
        | .ok (es, left) => .ok (e :: es, left)
termination_by ts.length
decreasing_by assumption

/-- The enumerations of a block without a module, all of them valued. -/
def readSiblings (stop : Position) (ts : List Token) : Except Error (List EnumDecl) :=
  match ts with
  | [] => .ok []
  | t :: rest =>
    match h : readEnum stop none (t :: rest) with
    | .error e => .error e
    | .ok (e, left) =>
      have : left.length < (t :: rest).length := readEnum_length h
      if e.isFieldless then .error ⟨.shape .bareOrdinals, some e.position⟩
      else match readSiblings stop left with
        | .error e => .error e
        | .ok es => .ok (e :: es)
termination_by ts.length
decreasing_by assumption

/-- Skips one semicolon. -/
def skipSemicolon : List Token → List Token
  | ⟨.mark .semi, _⟩ :: left => left
  | left => left

/-- The module behind its attributes and access, which fills the rest of the block. -/
def readModule (stop : Position) (attributes : List String) (access : Access)
    (left : List Token) : Except Error Declaration := do
  let ((name, place), left) ← readIdent stop "module name" left
  let left ← readMark stop .lbrace left
  let (members, left) ← readMembers stop name left
  if members.isEmpty then .error ⟨.shape (.emptyModule name), some place⟩
  else
    match skipSemicolon left with
    | [] => .ok (.module name access attributes members)
    | left => fail stop left .crowdedModule

/-- The declaration that a block of tokens writes. -/
def ofTokens (block : TokenList) : Except Error Declaration := do
  if block.tokens.isEmpty then fail block.stop [] .emptyBlock
  else
    let (attributes, left) := readMetadata block.tokens
    let (access, left) ← readAccess block.stop left
    match left with
    | ⟨.ident "mod", _⟩ :: left => readModule block.stop attributes access left
    | _ => (readSiblings block.stop block.tokens).map .block

end Declaration
end MaskEnum
