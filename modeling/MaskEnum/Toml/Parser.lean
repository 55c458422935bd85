import MaskEnum.Toml.Document
import MaskEnum.Toml.Scalar
set_option autoImplicit false

/-!
# Reading TOML

A document is read line by line: blank lines, comments, headlines and entries. Only arrays and
strings in triple quotes run over line ends.

## Main definitions

* `MaskEnum.Toml.readValue` — a value at the front of a text.
* `MaskEnum.Toml.readDocument` — the sections of a text.
* `MaskEnum.Toml.parse` — the table that a text writes.

## Implementation notes

Nesting and the number of lines are bounded by the length of the text, which serves as fuel.
-/

namespace MaskEnum.Toml

/-- The text after a comment, if one is next; the line break is left. Control characters have no
place in a comment. -/
def skipComment : List Char → Option (List Char)
  | '#' :: cs =>
    if (cs.takeWhile (· != '\n')).any isForbidden then none else some (cs.dropWhile (· != '\n'))
  | cs => some cs

/-- Skips gaps, line breaks and comments between the items of an array, with at most `fuel`
comments. -/
def skipArrayGap : Nat → List Char → Option (List Char)
  | 0, _ => none
  | fuel + 1, cs =>
    match cs.dropWhile isGapOrBreak with
    | '#' :: more => do skipArrayGap fuel (← skipComment ('#' :: more))
    | rest => some rest

/-- Skips what may stand between the items of an array. -/
def arrayGap (cs : List Char) : Option (List Char) := skipArrayGap (cs.length + 1) cs

mutual

/-- A value. -/
def readValue : Nat → List Char → Option (Value × List Char)
  | 0, _ => none
  | fuel + 1, cs =>
    match cs with
    | '[' :: more => do
      let (items, rest) ← readItems fuel (← arrayGap more)
      some (.array items, rest)
    | '\x7b' :: more => do
      let (entries, rest) ← readInline fuel (more.dropWhile isGap)
      some (← tableOf entries, rest)
    | _ => readScalar cs

/-- The items of an array up to the closing bracket. -/
def readItems : Nat → List Char → Option (List Value × List Char)
  | 0, _ => none
  | fuel + 1, cs =>
    match cs with
    | ']' :: rest => some ([], rest)
    | _ => do
      let (item, rest) ← readValue fuel cs
      match ← arrayGap rest with
      | ']' :: rest => some ([item], rest)
      | ',' :: more =>
        let (items, rest) ← readItems fuel (← arrayGap more)
        some (item :: items, rest)
      | _ => none

/-- A key with its value. -/
def readEntry : Nat → List Char → Option (Entry × List Char)
  | 0, _ => none
  | fuel + 1, cs => do
    let (key, rest) ← readKey cs
    match rest with
    | '=' :: more =>
      let (value, rest) ← readValue fuel (more.dropWhile isGap)
      some ((key, value), rest)
    | _ => none

/-- The entries of an inline table up to the closing brace, of which there is at least one. -/
def readInlineEntries : Nat → List Char → Option (List Entry × List Char)
  | 0, _ => none
  | fuel + 1, cs => do
    let (entry, rest) ← readEntry fuel cs
    match rest.dropWhile isGap with
    | '\x7d' :: rest => some ([entry], rest)
    | ',' :: more =>
      let (entries, rest) ← readInlineEntries fuel (more.dropWhile isGap)
      some (entry :: entries, rest)
    | _ => none

/-- The entries of an inline table up to the closing brace. -/
def readInline : Nat → List Char → Option (List Entry × List Char)
  | 0, _ => none
  | fuel + 1, cs =>
    match cs with
    | '\x7d' :: rest => some ([], rest)
    | _ => readInlineEntries fuel cs

end

/-- The fuel for a value at the front of a text. -/
def valueFuel (cs : List Char) : Nat := 4 * cs.length + 4

/-- A headline. -/
def readHeadline (cs : List Char) : Option (Headline × List Char) :=
  match cs with
  | '[' :: '[' :: more => do
    let (key, rest) ← readKey (more.dropWhile isGap)
    some (.item key, ← after? "]]" rest)
  | '[' :: more => do
    let (key, rest) ← readKey (more.dropWhile isGap)
    some (.table key, ← after? "]" rest)
  | _ => none

/-- A line of a document. -/
inductive Line where
  | blank
  | headline (h : Headline)
  | entry (e : Entry)
  deriving Repr

/-- The text after the end of a line, behind gaps and a comment; the end of the text is one. -/
def endLine (cs : List Char) : Option (List Char) := do
  match ← skipComment (cs.dropWhile isGap) with
  | [] => some []
  | '\n' :: rest => some rest
  | _ => none

/-- A line without its end. -/
def readLine (cs : List Char) : Option (Line × List Char) :=
  match cs with
  | [] => some (.blank, [])
  | c :: _ =>
    if c = '\n' ∨ c = '#' then some (.blank, cs)
    else if c = '[' then (readHeadline cs).map fun (h, rest) => (.headline h, rest)
    else (readEntry (valueFuel cs) cs).map fun (e, rest) => (.entry e, rest)

/-- At most `fuel` lines. -/
def readLines : Nat → List Char → Option (List Line)
  | 0, _ => none
  | fuel + 1, cs =>
    if cs.isEmpty then some []
    else do
      let (line, rest) ← readLine (cs.dropWhile isGap)
      let lines ← readLines fuel (← endLine rest)
      some (line :: lines)

/-- The sections that lines write, the first of which has the headline `h`. -/
def sectionsOf (h : Headline) : List Line → List Section
  | [] => [⟨h, []⟩]
  | .blank :: lines => sectionsOf h lines
  | .headline next :: lines => ⟨h, []⟩ :: sectionsOf next lines
  | .entry e :: lines =>
    match sectionsOf h lines with
    | first :: rest => { first with entries := e :: first.entries } :: rest
    | [] => [⟨h, [e]⟩]

/-- The sections of a text, in which every carriage return stands before a line feed. -/
def readDocument (cs : List Char) : Option (List Section) :=
  (readLines (cs.length + 1) cs).map (sectionsOf .root)

/-- A text without the carriage returns that stand before line feeds. -/
def dropReturns : List Char → List Char
  | [] => []
  | '\r' :: '\n' :: cs => '\n' :: dropReturns cs
  | c :: cs => c :: dropReturns cs

/-- The table that a text writes. -/
def parse (text : String) : Option Fields := do
  Fields.ofSections (← readDocument (dropReturns text.toList))

end MaskEnum.Toml
