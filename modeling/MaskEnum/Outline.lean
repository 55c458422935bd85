set_option autoImplicit false

/-!
# Outlines

An outline is data that can be written to a file: scalars, lists, and records whose fields keep
their order.

## Main definitions

* `MaskEnum.Outline` — the type.
* `MaskEnum.Outline.withoutNulls` — an outline without the fields that have no value.
* `MaskEnum.Outline.joined` — parts with a separator between them.
-/

namespace MaskEnum

/-- Data that can be written to a file. -/
inductive Outline where
  | null
  | flag (value : Bool)
  | integer (value : Int)
  | text (value : String)
  | list (items : List Outline)
  | record (fields : List (String × Outline))

namespace Outline

/-- The outline of a value that may be missing. -/
def ofOption {α : Type} (f : α → Outline) : Option α → Outline
  | none => null
  | some a => f a

/-- Whether an outline is a record. -/
def isRecord : Outline → Bool
  | record _ => true
  | _ => false

mutual

/-- Drops the fields without a value from all records. -/
def withoutNulls : Outline → Outline
  | list items => list (itemsWithoutNulls items)
  | record fields => record (fieldsWithoutNulls fields)
  | o => o

/-- Drops the fields without a value from the records among the items of a list. -/
def itemsWithoutNulls : List Outline → List Outline
  | [] => []
  | o :: os => o.withoutNulls :: itemsWithoutNulls os

/-- Drops the fields without a value, also inside the other fields. -/
def fieldsWithoutNulls : List (String × Outline) → List (String × Outline)
  | [] => []
  | (_, null) :: fields => fieldsWithoutNulls fields
  | (name, o) :: fields => (name, o.withoutNulls) :: fieldsWithoutNulls fields

end

/-- Parts with a separator between them. -/
def joined (separator : String) (parts : List (List Char)) : List Char :=
  separator.toList.intercalate parts

/-- The text of a flag, which both formats share. -/
def flagChars (value : Bool) : List Char := if value then "true".toList else "false".toList

/-- The decimal digits of an integer, which both formats share. -/
def integerChars (value : Int) : List Char := (toString value).toList

end Outline
end MaskEnum
