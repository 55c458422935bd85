import MaskEnum.Binary64
set_option autoImplicit false

/-!
# TOML values

What a TOML document holds. Dates and times are kept as they are written, because nothing asks for
more than that they are no other kind of value.

## Main definitions

* `MaskEnum.Toml.Value` — the type.
* `MaskEnum.Toml.Fields` — the fields of a table, in order.
-/

namespace MaskEnum.Toml

/-- A TOML value. -/
inductive Value where
  | text (s : String)
  | integer (n : Int)
  | float (x : Binary64)
  | boolean (b : Bool)
  /-- A date, a time or both. -/
  | moment (written : String)
  | array (items : List Value)
  | table (fields : List (String × Value))
  deriving Repr

/-- The fields of a table, in order; no name occurs twice. -/
abbrev Fields := List (String × Value)

namespace Fields

/-- The value of a field. -/
def get? (fields : Fields) (name : String) : Option Value :=
  (List.find? (·.1 == name) fields).map Prod.snd

/-- Whether there is a field of a name. -/
def has (fields : Fields) (name : String) : Bool := (fields.get? name).isSome

end Fields

namespace Value

/-- Whether a value counts as nothing: an empty text, array or table, a zero, or `false`. -/
def isEmpty : Value → Bool
  | text s => s.isEmpty
  | integer n => n = 0
  | float x => x.isZero
  | boolean b => ! b
  | moment _ => false
  | array items => items.isEmpty
  | table fields => fields.isEmpty

/-- The text that a value is. -/
def text? : Value → Option String
  | text s => some s
  | _ => none

/-- The texts of a list of texts. -/
def texts? : Value → Option (List String)
  | array items => items.mapM text?
  | _ => none

end Value
end MaskEnum.Toml
