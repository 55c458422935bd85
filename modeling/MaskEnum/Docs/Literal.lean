import MaskEnum.Binary64
import MaskEnum.Reserved
import MaskEnum.Text.Integer
import MaskEnum.Text.StringLiteral
set_option autoImplicit false

/-!
# Literal expressions

The text behind `doc =` in an attribute is read as an expression of Python that consists of
literals only: strings, numbers, the named constants, and tuples, lists, sets and dictionaries of
such. Only a string is of use, so of every other value no more is kept than decides whether the
expression has a value at all: whether it is a number that may take a sign or be part of a sum, and
whether it may be a member of a set or a key. An integer must fit a double to be part of a sum.
Values are computed from left to right, and the first part without one ends the reading. A part that
is no literal has none, a name for example; then the expression is no literal one.

Everything that is made of documentation is stated for any reader of such expressions. The one that
is defined here knows names as the only parts that are no literals. What becomes of an expression
with another such part is left open (`ExpressionFault.unreadable`) if a key, a large number or deep
nesting may bring about a fault before that part is noticed. It is also left open for an expression
with an escape that names a character.

## Main definitions

* `MaskEnum.Docs.Evaluation`, `MaskEnum.Docs.Reader` — what becomes of an expression, and what says
  so.
* `MaskEnum.Docs.Kind` — what is kept of a value.
* `MaskEnum.Docs.readValue` — the literal expression at the front of a text.
* `MaskEnum.Docs.evaluate` — the reader for texts that start with a string.

## Implementation notes

Nesting is bounded by the length of the text, which serves as fuel.
-/

namespace MaskEnum.Docs

/-- What becomes of an expression. -/
inductive Evaluation where
  /-- It is a string. -/
  | text (points : List Nat)
  /-- It has another value. -/
  | other
  /-- It is no literal expression. -/
  | none
  /-- Reading it fails. -/
  | broken (fault : ExpressionFault)
  deriving DecidableEq, Repr

/-- A reader of expressions. -/
abbrev Reader := List Char → Evaluation

/-- What is kept of a value. -/
inductive Kind where
  | text (points : List Nat)
  /-- A real number without a sign; `huge` marks an integer that is too large for a double. -/
  | real (huge : Bool)
  /-- An imaginary number without a sign. -/
  | imaginary
  /-- A real number with a sign. -/
  | signed (huge : Bool)
  /-- Any other value that may be a key. -/
  | frozen
  /-- A value that may not be a key. -/
  | mutable
  /-- No value: something inside has none, or may not be the key that it is. -/
  | broken (fault : ExpressionFault)
  deriving DecidableEq, Repr

/-- Why there is no value, if there is none. -/
def Kind.fault? : Kind → Option ExpressionFault
  | broken fault => some fault
  | _ => none

/-- Why a value may not be a key, if it may not. -/
def Kind.keyFault? : Kind → Option ExpressionFault
  | broken fault => some fault
  | mutable => some .unhashableKey
  | _ => none

/-- A value of some kind and the text after it. -/
abbrev Reading := Option (Kind × List Char)

/-! ## Blanks, names and numbers -/

/-- Drops blanks and continued lines, inside brackets also line ends and comments. -/
def skipBlanks (inside comment : Bool) : List Char → List Char
  | [] => []
  | '\\' :: '\n' :: cs => skipBlanks inside false cs
  | c :: cs =>
    if comment then skipBlanks inside (c != '\n') cs
    else if c == ' ' || c == '\t' || c == '\x0c' || (inside && c == '\n') then
      skipBlanks inside false cs
    else if inside && c == '#' then skipBlanks inside true cs
    else c :: cs

/-- Whether a character continues a name or a number. -/
def isWordPart (c : Char) : Bool := c.isAlphanum || c == '_' || 0x80 ≤ c.toNat

/-- Drops digits with single underscores between them; at least one digit is needed. -/
def dropDigits (isDigit : Char → Bool) : List Char → Option (List Char)
  | [] => none
  | [d] => if isDigit d then some [] else none
  | d :: '_' :: c :: cs =>
    if isDigit d then (if isDigit c then dropDigits isDigit (c :: cs) else none) else none
  | d :: c :: cs =>
    if isDigit d then
      if isDigit c then dropDigits isDigit (c :: cs) else some (c :: cs)
    else none

/-- Drops the digits of a number in another base, before which an underscore may stand. -/
def dropRadix (isDigit : Char → Bool) : List Char → Option (List Char)
  | '_' :: cs => dropDigits isDigit cs
  | cs => dropDigits isDigit cs

/-- Drops an exponent, if there is one. -/
def dropExponent (cs : List Char) : Option (List Char) :=
  match cs with
  | 'e' :: more | 'E' :: more =>
    match more with
    | '+' :: digits | '-' :: digits => dropDigits Char.isDigit digits
    | digits => dropDigits Char.isDigit digits
  | _ => some cs

/-- Drops the digits behind a point, if there are any. -/
def dropFraction (cs : List Char) : Option (List Char) :=
  match cs with
  | d :: _ => if d.isDigit then dropDigits Char.isDigit cs else some cs
  | [] => some []

/-- A number and the text after it, which must not go on with the number. -/
def endNumber (kind : Kind) (rest : List Char) : Reading :=
  match rest with
  | c :: _ => if isWordPart c then none else some (kind, rest)
  | [] => some (kind, [])

/-- Reads the letter of an imaginary number and makes sure that the number ends. -/
def finishNumber (cs : List Char) : Reading :=
  match cs with
  | 'j' :: rest | 'J' :: rest => endNumber .imaginary rest
  | rest => endNumber (.real false) rest

/-- Whether an integer with a leading zero is all zeros. -/
def isZeros (digits : List Char) : Bool := digits.all fun c => c == '0' || c == '_'

/-- Whether a natural number is too large for a double. -/
def isHuge (n : Nat) : Bool :=
  match Binary64.ofRatio false n 1 with
  | .infinite _ => true
  | _ => false

/-- The integer of the digits, and underscores between them, of a text up to where `rest` begins. -/
def integer (base : Nat) (cs rest : List Char) : Kind :=
  let digits := (cs.take (cs.length - rest.length)).filterMap Text.digitValue?
  .real (isHuge (Text.digitsValue base digits))

/-- A number. -/
def readNumber (cs : List Char) : Reading :=
  match cs with
  | '0' :: 'x' :: more | '0' :: 'X' :: more => readRadix 16 (Text.hexValue? · |>.isSome) more
  | '0' :: 'o' :: more | '0' :: 'O' :: more => readRadix 8 Text.isOctalDigit more
  | '0' :: 'b' :: more | '0' :: 'B' :: more => readRadix 2 (fun c => c == '0' || c == '1') more
  | '.' :: more => do finishNumber (← dropExponent (← dropDigits Char.isDigit more))
  | _ => do
    let rest ← dropDigits Char.isDigit cs
    match rest with
    | '.' :: more => finishNumber (← dropExponent (← dropFraction more))
    | _ =>
      let behind ← dropExponent rest
      let (kind, rest') ← finishNumber behind
      if behind.length = rest.length ∧ kind = .real false then
        let digits := cs.take (cs.length - rest.length)
        if digits.head? = some '0' ∧ ! isZeros digits then none
        else if digitLimit < (digits.filter Char.isDigit).length then none
        else some (integer 10 cs rest, rest')
      else some (kind, rest')
where
  /-- A number in another base is an integer. -/
  readRadix (base : Nat) (isDigit : Char → Bool) (cs : List Char) : Reading := do
    let rest ← dropRadix isDigit cs
    endNumber (integer base cs rest) rest

/-! ## Strings -/

/-- Whether the body of a literal of bytes is well formed. -/
def isBytes : List Char → Bool
  | [] => true
  | '\\' :: 'x' :: a :: b :: cs =>
    (Text.hexValue? a).isSome && (Text.hexValue? b).isSome && isBytes cs
  | ['\\', 'x'] | ['\\', 'x', _] => false
  | '\\' :: c :: cs => c.toNat < 0x80 && isBytes cs
  | c :: cs => c.toNat < 0x80 && isBytes cs

/-- The string or bytes literal at the front of a text, behind the letters of its form. -/
def readString (cs : List Char) : Reading := do
  let form := (cs.takeWhile Char.isAlpha).map Char.toLower
  let quoted := cs.dropWhile Char.isAlpha
  let mark ← quoted.head?
  if mark = '"' ∨ mark = '\'' then
    let (triple, inner) ← Text.openLiteral mark quoted
    let (body, rest) ← Text.literalBody mark triple inner
    if form = [] ∨ form = ['u'] then some (.text (← Text.unescape body), rest)
    else if form = ['r'] then some (.text (body.map Char.toNat), rest)
    else if form = ['b'] then if isBytes body then some (.frozen, rest) else none
    else if form = ['b', 'r'] ∨ form = ['r', 'b'] then
      if body.all (·.toNat < 0x80) then some (.frozen, rest) else none
    else none
  else none

/-- Whether a string or bytes literal, of whatever form, is next. -/
def atString (cs : List Char) : Bool :=
  match cs.dropWhile Char.isAlpha with
  | c :: _ => c == '"' || c == '\''
  | [] => false

/-- Adjacent literals as one: all text or all bytes. -/
def join : Kind → Kind → Option Kind
  | .text a, .text b => some (.text (a ++ b))
  | .frozen, .frozen => some .frozen
  | _, _ => none

/-- The adjacent literals at the front of a text as one. -/
def readStrings (inside : Bool) : Nat → List Char → Reading
  | 0, _ => none
  | fuel + 1, cs => do
    let (first, rest) ← readString cs
    let after := skipBlanks inside false rest
    if atString after then
      let (more, rest) ← readStrings inside fuel after
      some (← join first more, rest)
    else some (first, rest)

/-! ## Values -/

/-- The kind of a tuple. -/
def tuple (members : List Kind) : Kind :=
  match members.findSome? Kind.fault? with
  | some fault => .broken fault
  | none => if members.contains .mutable then .mutable else .frozen

/-- The kind of a list. -/
def list (members : List Kind) : Kind :=
  match members.findSome? Kind.fault? with
  | some fault => .broken fault
  | none => .mutable

/-- The sum of a real and an imaginary number, the only one that is a literal. -/
def sum : Kind → Kind → Kind
  | .real huge, .imaginary | .signed huge, .imaginary =>
    if huge then .broken .hugeSum else .frozen
  | _, _ => .broken .malformed

/-- Whether no value can start here: a closing bracket or, outside brackets, the end. -/
def atStop (inside : Bool) : List Char → Bool
  | [] => true
  | c :: _ => c == ')' || c == ']' || c == '\x7d' || (! inside && (c == '#' || c == '\n'))

/-- A member of a display: a value, and behind a colon another. -/
abbrev Entry := Kind × Option Kind

/-- Why a set or dictionary cannot take an entry, if it cannot: both values of an entry are computed
before the first becomes a key. -/
def Entry.fault? (entry : Entry) : Option ExpressionFault :=
  entry.1.fault? <|> entry.2.bind Kind.fault? <|> entry.1.keyFault?

/-- The kind of a set or dictionary. -/
def keyed (entries : List Entry) : Kind :=
  match entries.findSome? Entry.fault? with
  | some fault => .broken fault
  | none => .mutable

/-- The entries of a display between round brackets, or the value that they enclose. -/
def parenthesized (entries : List Entry) (trailing : Bool) : Option Kind :=
  if entries.all (·.2.isNone) then
    match entries, trailing with
    | [(kind, _)], false => some kind
    | _, _ => some (tuple (entries.map Prod.fst))
  else none

/-- The entries of a display between curly brackets: all with a colon, or none. -/
def braced (entries : List Entry) : Option Kind :=
  let values := entries.filterMap Prod.snd
  if values.length = entries.length ∨ values = [] then
    some (keyed entries)
  else none

/-- The constant or empty set that a name means; any other name is no literal. -/
def readNamed (inside : Bool) (cs : List Char) : Reading :=
  let name := String.ofList (cs.takeWhile isWordPart)
  let rest := cs.dropWhile isWordPart
  if ["None", "True", "False"].contains name then some (.frozen, rest)
  else if name = "" ∨ isKeyword name ∨ name.toList.any (0x80 ≤ ·.toNat) then none
  else match skipBlanks inside false rest with
    | '(' :: more =>
      match skipBlanks true false more with
      | ')' :: rest => if name = "set" then some (.mutable, rest) else none
      | _ => none
    | _ => some (.broken .malformed, rest)

mutual

/-- A value without sign or sum. -/
def readAtom (inside : Bool) : Nat → List Char → Reading
  | 0, _ => none
  | fuel + 1, cs =>
    if atString cs then readStrings inside (fuel + 1) cs
    else match cs with
      | '(' :: more => do
        let (entries, trailing, rest) ← readEntries true fuel more
        match rest with
        | ')' :: rest => some (← parenthesized entries trailing, rest)
        | _ => none
      | '[' :: more => do
        let (entries, _, rest) ← readEntries true fuel more
        match rest with
        | ']' :: rest =>
          if entries.all (·.2.isNone) then some (list (entries.map Prod.fst), rest) else none
        | _ => none
      | '\x7b' :: more => do
        let (entries, _, rest) ← readEntries true fuel more
        match rest with
        | '\x7d' :: rest => some (← braced entries, rest)
        | _ => none
      | '.' :: '.' :: '.' :: rest => some (.frozen, rest)
      | c :: _ =>
        if c.isDigit || c == '.' then readNumber cs else readNamed inside cs
      | [] => none

/-- A value with a sign, or one without. -/
def readSigned (inside : Bool) : Nat → List Char → Reading
  | 0, _ => none
  | fuel + 1, cs =>
    match cs with
    | '+' :: more | '-' :: more => do
      let (kind, rest) ← readAtom inside fuel (skipBlanks inside false more)
      match kind with
      | .real huge => some (.signed huge, rest)
      | .imaginary => some (.frozen, rest)
      | _ => some (.broken .malformed, rest)
    | _ => readAtom inside fuel cs

/-- A value, or the sum of a real and an imaginary number. -/
def readValue (inside : Bool) : Nat → List Char → Reading
  | 0, _ => none
  | fuel + 1, cs => do
    let (left, rest) ← readSigned inside fuel cs
    match skipBlanks inside false rest with
    | '+' :: more | '-' :: more =>
      let (right, rest) ← readAtom inside fuel (skipBlanks inside false more)
      some (sum left right, rest)
    | _ => some (left, rest)

/-- Entries with commas between them, up to where no value can start; the flag tells whether the
last entry has a comma behind it. -/
def readEntries (inside : Bool) : Nat → List Char → Option (List Entry × Bool × List Char)
  | 0, _ => none
  | fuel + 1, cs =>
    let start := skipBlanks inside false cs
    if atStop inside start then some ([], true, start)
    else do
      let (key, rest) ← readValue inside fuel start
      let after := skipBlanks inside false rest
      let (entry, after) ← (match after with
        | ':' :: more => do
          let (value, rest) ← readValue inside fuel (skipBlanks inside false more)
          some ((key, some value), skipBlanks inside false rest)
        | _ => some ((key, none), after) : Option (Entry × List Char))
      match after with
      | ',' :: more =>
        let (entries, trailing, rest) ← readEntries inside fuel more
        some (entry :: entries, trailing, rest)
      | _ => some ([entry], false, after)

end

/-! ## Whole texts -/

/-- Whether nothing but blank lines and comments is left, behind the last value. -/
def isDone (cs : List Char) : Bool :=
  match cs with
  | [] => true
  | c :: _ =>
    (c == '#' || c == '\n') &&
      (Text.fields cs).all fun line =>
        match skipBlanks false false line with
        | [] => true
        | c :: _ => c == '#'

/-- The value of a whole text: of one expression, or of several as the members of a tuple. -/
def readWhole (cs : List Char) : Option Kind := do
  let (entries, trailing, rest) ← readEntries false (4 * cs.length + 4) cs
  if isDone rest ∧ entries ≠ [] then parenthesized entries trailing else none

/-! ## Limits -/

/-- Whether an expression opens so many brackets that it may be nested too deep. -/
def opensMany (cs : List Char) : Bool :=
  100 ≤ (cs.filter fun c => c == '(' || c == '[' || c == '\x7b').length

/-- Whether a text has an escape that names a character. -/
def namesCharacter : List Char → Bool
  | '\\' :: 'N' :: _ => true
  | _ :: cs => namesCharacter cs
  | [] => false

/-- Whether a text may have a key that cannot be one: behind a curly bracket, a further bracket
opens. -/
def opensKey (cs : List Char) : Bool :=
  ((cs.dropWhile (· != '\x7b')).drop 1).any fun c => c == '(' || c == '[' || c == '\x7b'

/-- Whether a text may have an integer that is too large for a double. -/
def hasLongWord (cs : List Char) : Bool :=
  (cs.splitBy fun a b => isWordPart a && isWordPart b).any (250 ≤ ·.length)

/-- Whether a text that is not understood is sure to be no literal expression: its first string is
not well formed, or nothing behind that can fail before the rest is noticed. A text that is long may
be nested too deep. -/
def isSettled (cs : List Char) : Bool :=
  ! namesCharacter cs &&
    match readString cs with
    | none => true
    | some (_, rest) =>
      rest.length < 1000 && ! opensMany rest && ! opensKey rest && ! hasLongWord rest

/-- The outcome of an expression that starts with a string. Line ends of every form count as line
feeds, and the null character has no place in an expression. -/
def evaluate : Reader := fun text =>
  let cs := Text.unifyBreaks text
  if cs.contains '\x00' then .none
  else match readWhole cs with
    | some (.text points) => .text points
    | some kind =>
      match opensMany cs, kind.fault? with
      | true, _ => .broken .unreadable
      | false, some .malformed => .none
      | false, some fault => .broken fault
      | false, none => .other
    | none => if isSettled cs then .none else .broken .unreadable

end MaskEnum.Docs
