import MaskEnum.Docs.Literal
import MaskEnum.Error
set_option autoImplicit false

/-!
# Documentation in attributes

An attribute `doc = "..."` is documentation; a doc comment is such an attribute too. Generated code
shows documentation as a docstring or as comment lines of its own, and any other attribute as a
comment.

## Main definitions

* `MaskEnum.Docs.outcome` — what an attribute says to a reader, `docText` if that is documentation.
* `MaskEnum.Docs.docstring` — the lines of a docstring.
* `MaskEnum.Notes` — attributes, split into documentation and comments.
-/

namespace MaskEnum
namespace Docs

/-- The expression behind `doc =`, if an attribute has that form and the expression starts with a
quote. -/
def docExpression? (attr : List Char) : Option (List Char) :=
  match Text.strip attr with
  | 'd' :: 'o' :: 'c' :: rest =>
    match rest.dropWhile Text.isBlank with
    | '=' :: rest =>
      match rest.dropWhile Text.isBlank with
      | c :: cs => if c = '"' ∨ c = '\'' then some (c :: cs) else none
      | [] => none
    | _ => none
  | _ => none

/-- The text of an expression that could not be read: all of it, without quotes at its ends. -/
def fallback (expression : List Char) : List Char :=
  Text.stripOf (fun c => c == '"' || c == '\'') expression

/-- What an attribute says: the code points of its documentation, or something else. An expression
that is no literal one counts as documentation as it stands. -/
def outcome (read : Reader) (attr : String) : Evaluation :=
  match docExpression? attr.toList with
  | none => .other
  | some expression =>
    match read expression with
    | .none => .text ((fallback expression).map Char.toNat)
    | result => result

/-- The documentation that an attribute is, if it is documentation. -/
def docText (read : Reader) (attr : String) : Except Fault (Option String) :=
  match outcome read attr with
  | .text points => .ok (some (String.ofList (Text.characters points)))
  | .other | .none => .ok none
  | .broken fault => .error (.documentation fault)

/-- Whether an attribute is documentation that writes a surrogate. -/
def writesSurrogate (read : Reader) (attr : String) : Bool :=
  match outcome read attr with
  | .text points => points.any fun n => ! Text.isScalar n
  | .other | .none | .broken _ => false

/-- A character inside a docstring. -/
def escapeDoc (c : Char) : List Char :=
  if c = '\\' then ['\\', '\\'] else if c = '"' then ['\\', '"'] else [c]

/-- The quotes around a docstring. -/
def docQuotes : List Char := ['"', '"', '"']

/-- The text of doc lines: each without blanks at its ends, joined by line feeds. -/
def docBody (docs : List (List Char)) : List Char :=
  ['\n'].intercalate (docs.map Text.strip)

/-- The lines of the docstring for doc lines, behind an indentation. A docstring of one line is
closed on it; with more, every line is indented unless it is empty, the first then loses its blanks,
and the closing quotes have a line of their own. -/
def docstring (docs : List (List Char)) (indent : List Char) : List (List Char) :=
  let indented (line : List Char) := if line.isEmpty then [] else indent ++ line
  match Text.fields ((docBody docs).flatMap escapeDoc) with
  | [] => []
  | [line] => [indent ++ docQuotes ++ line ++ docQuotes]
  | first :: rest =>
    (indent ++ docQuotes ++ Text.strip (indented first)) :: rest.map indented
      ++ [indent ++ docQuotes]

/-- An attribute on one line: its words, with single spaces between them. -/
def flatten (attr : String) : String :=
  " ".intercalate ((Text.words attr.toList).map String.ofList)

end Docs

/-- Attributes, split into the documentation and the comments that generated code shows. -/
structure Notes where
  docs : List String
  comments : List String
  deriving DecidableEq, Repr

/-- Splits attributes. -/
def Notes.ofAttributes (read : Docs.Reader) : List String → Except Fault Notes
  | [] => .ok ⟨[], []⟩
  | attr :: rest => do
    let text ← Docs.docText read attr
    let notes ← ofAttributes read rest
    match text with
    | some text => .ok { notes with docs := text :: notes.docs }
    | none => .ok { notes with comments := Docs.flatten attr :: notes.comments }

end MaskEnum
