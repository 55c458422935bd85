import MaskEnum.Compile
import MaskEnum.Outline.Json
import MaskEnum.Outline.Toml
set_option autoImplicit false

/-!
# Descriptions of compiled units

What other programs may want to know of a compiled unit: its source, the surfaces of its types and
the constants that it still needs.

## Main definitions

* `MaskEnum.Description` — the description of a unit.
* `MaskEnum.Description.outline` — the description as data.
* `MaskEnum.DescriptionFormat`, `MaskEnum.Description.text` — the formats and the contents of the
  file.
-/

namespace MaskEnum

/-- The description of a unit. -/
structure Description where
  source : Option String
  types : List Surface
  symbols : List String
  deriving DecidableEq, Repr

/-- A variant as data. -/
def Surface.variantOutline (v : String × Option Int) : Outline :=
  .record [("name", .text v.1), ("value", .ofOption .integer v.2)]

/-- A type as data. -/
def Surface.outline (s : Surface) : Outline :=
  .record [
    ("name", .text s.name),
    ("qualified_name", .text s.qualifiedName),
    ("underlying_type", .text s.type.name),
    ("type_visibility", .text s.access.level),
    ("field_visibility", .text s.fieldAccess.level),
    ("field_name", .text s.field),
    ("variants", .list (s.variants.map variantOutline)),
    ("operators", .list (s.operators.map .text)),
    ("iteration_type", .text s.type.name),
    ("has_get_bit", .flag s.isOpen),
    ("has_new", .flag s.isOpen),
    ("companion_name", .ofOption .text s.companion)]

/-- How a description is written. -/
inductive DescriptionFormat where
  | json (indent : Nat)
  | toml
  deriving DecidableEq, Repr

namespace Description

/-- The description of a compiled unit. -/
def ofUnit (source : Option String) (u : CompiledUnit) : Description :=
  ⟨source, u.types, u.symbols⟩

/-- A description as data. -/
def outline (d : Description) : Outline :=
  .record [
    ("source", .ofOption .text d.source),
    ("types", .list (d.types.map Surface.outline)),
    ("symbols", .list (d.symbols.map .text))]

/-- The contents of the file for a description. -/
def text (d : Description) : DescriptionFormat → String
  | .json indent => d.outline.json indent ++ "\n"
  | .toml => d.outline.toml

end Description
end MaskEnum
