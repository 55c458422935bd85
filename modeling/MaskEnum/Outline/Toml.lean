import MaskEnum.Outline
import MaskEnum.Text.Quoted
set_option autoImplicit false

/-!
# Outlines as TOML

A record is written as a document: its plain fields first, one line each, then a section for every
field that is a record, and one section per item for every list of records. A list of records stays
among the plain fields, as inline tables, if each of them fits a line of its own. Sections are
separated by empty lines.

## Main definitions

* `MaskEnum.Outline.inline` — an outline as the value of a key.
* `MaskEnum.Outline.needsSections` — whether a list is written as sections.
* `MaskEnum.Outline.toml` — an outline as a document.
-/

namespace MaskEnum
namespace Outline

/-- A character inside a TOML string. -/
def tomlEscape (c : Char) : List Char :=
  if c = '"' ∨ c = '\\' then ['\\', c]
  else if c = '\n' then ['\\', 'n']
  else if c = '\r' then ['\\', 'r']
  else if c.toNat = 8 then ['\\', 'b']
  else if c.toNat = 12 then ['\\', 'f']
  else if c ≠ '\t' ∧ c.toNat < 32 ∨ c.toNat = 127 then '\\' :: 'u' :: Text.hexDigits 4 c.toNat
  else [c]

/-- A text between quotes. -/
def tomlString (s : String) : List Char := '"' :: s.toList.flatMap tomlEscape ++ ['"']

/-- A key, in quotes unless it consists of letters, digits, hyphens and underscores. -/
def tomlKey (name : String) : List Char :=
  if ! name.isEmpty && name.toList.all fun c => c.isAlphanum || c == '-' || c == '_' then
    name.toList
  else tomlString name

/-- The indentation of a nesting depth. -/
def tomlPad (depth : Nat) : List Char := List.replicate (4 * depth) ' '

mutual

/-- An outline as the value of a key, where the lists around it are `depth` deep. -/
def inline (depth : Nat) : Outline → List Char
  | null => []
  | flag value => flagChars value
  | integer value => integerChars value
  | text value => tomlString value
  | list [] => "[]".toList
  | list (o :: os) =>
    "[\n".toList ++ joined ",\n" (inlineItems (depth + 1) (o :: os)) ++ ",\n".toList
      ++ tomlPad depth ++ [']']
  | record [] => ['\x7b', '\x7d']
  | record (field :: fields) =>
    "\x7b ".toList ++ joined ", " (inlineFields (field :: fields)) ++ " \x7d".toList

/-- The items of a list, indented. -/
def inlineItems (depth : Nat) : List Outline → List (List Char)
  | [] => []
  | o :: os => (tomlPad depth ++ o.inline depth) :: inlineItems depth os

/-- The fields of an inline table. -/
def inlineFields : List (String × Outline) → List (List Char)
  | [] => []
  | (name, o) :: fields =>
    (tomlKey name ++ " = ".toList ++ o.inline 0) :: inlineFields fields

end

/-- The longest line of an inline table inside a list. -/
def lineLimit : Nat := 100

/-- Whether an outline fits a line of a list, with its indentation and comma. -/
def fitsLine (o : Outline) : Bool :=
  let line := tomlPad 1 ++ o.inline 0 ++ [',']
  line.length ≤ lineLimit && ! line.contains '\n'

/-- Whether a list is written as sections: it consists of records, and one of them is too long for
a line. -/
def needsSections (items : List Outline) : Bool :=
  ! items.isEmpty && items.all isRecord && ! items.all fitsLine

/-- Whether a field is written as a line. -/
def isPlain : Outline → Bool
  | record _ => false
  | list items => ! needsSections items
  | _ => true

/-- The lines of the plain fields of a record. -/
def plainLines (fields : List (String × Outline)) : List Char :=
  (fields.filter (·.2.isPlain)).flatMap fun (name, o) =>
    tomlKey name ++ " = ".toList ++ o.inline 0 ++ ['\n']

/-- The dotted name of a section inside another. -/
def sectionName (outer : List Char) (name : String) : List Char :=
  if outer.isEmpty then tomlKey name else outer ++ '.' :: tomlKey name

/-- The headline of a section. The document itself has none, nor has a section that only serves to
hold others. -/
def sectionHead (name : List Char) (isItem : Bool) (fields : List (String × Outline)) :
    List Char :=
  if isItem then "[[".toList ++ name ++ "]]\n".toList
  else if ! name.isEmpty && (fields.isEmpty || fields.any (·.2.isPlain)) then
    '[' :: name ++ "]\n".toList
  else []

mutual

/-- The sections for a record called `name`, which may be the item of a list. -/
def sections (name : List Char) (isItem : Bool) : Outline → List (List Char)
  | record fields =>
    let first := sectionHead name isItem fields ++ plainLines fields
    (if first.isEmpty then [] else [first]) ++ fieldSections name fields
  | _ => []

/-- The sections for the fields of a record that are not plain. -/
def fieldSections (outer : List Char) : List (String × Outline) → List (List Char)
  | [] => []
  | (name, record inner) :: fields =>
    sections (sectionName outer name) false (record inner) ++ fieldSections outer fields
  | (name, list items) :: fields =>
    (if needsSections items then itemSections (sectionName outer name) items else [])
      ++ fieldSections outer fields
  | _ :: fields => fieldSections outer fields

/-- The sections for the items of a list. -/
def itemSections (name : List Char) : List Outline → List (List Char)
  | [] => []
  | o :: os => sections name true o ++ itemSections name os

end

/-- An outline as a document. Fields without a value are left out. -/
def toml (o : Outline) : String :=
  String.ofList (joined "\n" (sections [] false o.withoutNulls))

end Outline
end MaskEnum
