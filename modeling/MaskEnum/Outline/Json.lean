import MaskEnum.Outline
import MaskEnum.Text.Quoted
set_option autoImplicit false

/-!
# Outlines as JSON

Every item and every field of a list or record that is not empty has a line of its own, behind as
many indentations as it lies deep. Only the quote, the backslash and the control characters below
the space are escaped.

## Main definitions

* `MaskEnum.Outline.jsonString` — a text between quotes.
* `MaskEnum.Outline.json` — an outline as JSON.
-/

namespace MaskEnum
namespace Outline

/-- A character inside a JSON string. -/
def jsonEscape (c : Char) : List Char :=
  if c = '"' ∨ c = '\\' then ['\\', c]
  else if c = '\n' then ['\\', 'n']
  else if c = '\r' then ['\\', 'r']
  else if c = '\t' then ['\\', 't']
  else if c.toNat = 8 then ['\\', 'b']
  else if c.toNat = 12 then ['\\', 'f']
  else if c.toNat < 32 then '\\' :: 'u' :: Text.hexDigits 4 c.toNat
  else [c]

/-- A text between quotes. -/
def jsonString (s : String) : List Char := '"' :: s.toList.flatMap jsonEscape ++ ['"']

/-- The line break before a part that lies `depth` deep. -/
def jsonBreak (indent depth : Nat) : List Char := '\n' :: List.replicate (indent * depth) ' '

/-- Parts between brackets, one deeper than `depth`. -/
def jsonBlock (opener closer : Char) (indent depth : Nat) (parts : List (List Char)) :
    List Char :=
  if parts.isEmpty then [opener, closer]
  else
    opener :: joined "," (parts.map (jsonBreak indent (depth + 1) ++ ·))
      ++ jsonBreak indent depth ++ [closer]

mutual

/-- An outline that lies `depth` deep as JSON. -/
def jsonChars (indent depth : Nat) : Outline → List Char
  | null => "null".toList
  | flag value => flagChars value
  | integer value => integerChars value
  | text value => jsonString value
  | list items => jsonBlock '[' ']' indent depth (jsonItems indent (depth + 1) items)
  | record fields =>
    jsonBlock '\x7b' '\x7d' indent depth (jsonFields indent (depth + 1) fields)

/-- The items of a list as JSON. -/
def jsonItems (indent depth : Nat) : List Outline → List (List Char)
  | [] => []
  | o :: os => o.jsonChars indent depth :: jsonItems indent depth os

/-- The fields of a record as JSON. -/
def jsonFields (indent depth : Nat) : List (String × Outline) → List (List Char)
  | [] => []
  | (name, o) :: fields =>
    (jsonString name ++ ": ".toList ++ o.jsonChars indent depth) :: jsonFields indent depth fields

end

/-- An outline as JSON, with `indent` spaces per depth. -/
def json (indent : Nat) (o : Outline) : String := String.ofList (o.jsonChars indent 0)

end Outline
end MaskEnum
