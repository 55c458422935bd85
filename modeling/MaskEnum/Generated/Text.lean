import MaskEnum.Generated
set_option autoImplicit false

/-!
# The text of generated modules

A generated module is written line by line. Every line of a class stands behind the indentation of
the class, and each part of a class is separated from the next by an empty line.

## Main definitions

* `MaskEnum.Generated.methods` — the operator methods of a class.
* `MaskEnum.Generated.Class.lines` — the lines of a class.
* `MaskEnum.Generated.Module.lines`, `MaskEnum.Generated.Module.text` — those of a module.
-/

namespace MaskEnum
namespace Generated

/-- The indentation of a nesting depth. -/
def pad (depth : Nat) : String := String.ofList (List.replicate (4 * depth) ' ')

/-- Lines behind the indentation of a depth; an empty line stays empty. -/
def indented (depth : Nat) (lines : List String) : List String :=
  lines.map fun line => if line.isEmpty then line else pad depth ++ line

/-- A docstring at a depth. -/
def docstringLines (depth : Nat) (docs : List String) : List String :=
  (Docs.docstring (docs.map String.toList) (pad depth).toList).map String.ofList

/-- Attributes as comment lines at a depth. -/
def commentLines (depth : Nat) (notes : Notes) : List String :=
  notes.comments.map fun comment => pad depth ++ "# #[" ++ comment ++ "]"

/-- The documentation of a constant as comment lines at a depth. -/
def docLines (depth : Nat) (notes : Notes) : List String :=
  notes.docs.flatMap fun doc =>
    let lines := match Text.lines doc.toList with
      | [] => [[]]
      | lines => lines
    lines.map fun line => pad depth ++ "#: " ++ String.ofList line

/-- A list of quoted names with commas between them. -/
def quotedList (names : List String) : String := ", ".intercalate (names.map Text.quoted)

/-! ## Methods -/

/-- The binary operators of a class: the stem of the method's name and the operator. Division has
two methods. -/
def methods : List (String × Operator) :=
  [("or", .or), ("and", .and), ("xor", .xor), ("add", .add), ("sub", .sub), ("mul", .mul),
    ("truediv", .div), ("floordiv", .div), ("mod", .rem), ("lshift", .shl), ("rshift", .shr)]

/-- The attribute of a class that holds its integer type. -/
def typeAttribute : String := "__underlying_type__"

/-- The wrapping operator as an expression over two operands. -/
def operation (op : Operator) (left right : String) : String :=
  let call (function arguments : String) :=
    arithmeticName ++ "." ++ function ++ "(" ++ arguments ++ ", self." ++ typeAttribute ++ ")"
  match op with
  | .div => call "div" (left ++ ", " ++ right)
  | .rem => call "rem" (left ++ ", " ++ right)
  | .shl => call "shl" (left ++ ", " ++ right)
  | .shr => call "shr" (left ++ ", " ++ right)
  | _ => call "wrap" (left ++ " " ++ op.symbol ++ " " ++ right)

/-- The two methods of a binary operator: with a new value, and in place. -/
def operatorLines (field : String) (method : String × Operator) : List String :=
  let (stem, op) := method
  let raw := operation op ("self." ++ field) ("other." ++ field)
  let guardLines := ["    if type(other) is not type(self):", "        return NotImplemented"]
  ["def __" ++ stem ++ "__(self, other):"] ++ guardLines
    ++ ["    return type(self)(" ++ raw ++ ")", "", "def __i" ++ stem ++ "__(self, other):"]
    ++ guardLines ++ ["    self." ++ field ++ " = " ++ raw, "    return self", ""]

/-- The range check of every new value. -/
def checkLines (c : Class) : List String :=
  ["def __post_init__(self):",
    "    if not self." ++ typeAttribute ++ ".contains(self." ++ c.field ++ "):",
    "        msg = f'\x7bself." ++ c.field ++ "\x7d out of range for " ++ c.type.name ++ "'",
    "        raise OverflowError(msg)",
    ""]

/-- The methods that make values and list them. -/
def accessLines (c : Class) : List String :=
  ["@classmethod",
    "def from_raw(cls, raw: int):",
    "    \"\"\"Build a value from any integer, wrapping it to " ++ c.type.name ++ ".\"\"\"",
    "    return cls(" ++ arithmeticName ++ ".wrap(raw, cls." ++ typeAttribute ++ "))",
    "",
    "@classmethod",
    "def iter(cls):",
    "    \"\"\"Iterate over the raw value of every variant in declaration order.\"\"\"",
    "    return iter(cls._VALUES)",
    ""]

/-- The methods of a class with a public field. -/
def openLines (c : Class) : List String :=
  ["@classmethod",
    "def new(cls, raw: int):",
    "    return cls(raw)",
    "",
    "def get_bit(self, index: int) -> bool:",
    "    return (self." ++ c.field ++ " & (1 << index)) != 0",
    ""]

/-- The methods of the unary operators; only a signed type has a negation. -/
def unaryLines (c : Class) : List String :=
  let method (name call : String) :=
    ["def " ++ name ++ "(self):",
      "    return type(self)(" ++ arithmeticName ++ "." ++ call ++ ", self." ++ typeAttribute
        ++ "))"]
  method "__invert__" ("invert(self." ++ c.field)
    ++ if c.type.signed then "" :: method "__neg__" ("wrap(0 - self." ++ c.field) else []

/-! ## Classes and modules -/

/-- The value of a constant. -/
def Source.text : Source → String
  | .formula f => f.text
  | .member companion table name =>
    companion ++ "." ++ table ++ "." ++ name ++ ".value"

/-- A constant with the comment lines before it. -/
def Constant.lines (depth : Nat) (c : Constant) : List String :=
  commentLines depth c.notes ++ docLines depth c.notes
    ++ [pad depth ++ c.name ++ " = " ++ arithmeticName ++ ".VariantConstant(" ++ c.source.text
      ++ ")"]

/-- The field and the attributes of a class. -/
def fieldLines (c : Class) : List String :=
  [c.field ++ ": int",
    "",
    typeAttribute ++ " = " ++ c.type.reference,
    "__type_visibility__ = " ++ Text.quoted c.access.label,
    "__field_visibility__ = " ++ Text.quoted c.fieldAccess.label,
    ""]

/-- The names and the values of the constants, in order. -/
def listLines (c : Class) : List String :=
  ["",
    "_NAMES = (" ++ quotedList (c.constants.map (·.name)) ++ ",)",
    "_VALUES = (" ++ ", ".intercalate (c.constants.map (·.name ++ ".raw")) ++ ",)",
    ""]

/-- The lines of a class at a depth. -/
def Class.lines (depth : Nat) (c : Class) : List String :=
  let inner := depth + 1
  let docs := if c.notes.docs.isEmpty then [] else docstringLines inner c.notes.docs ++ [""]
  commentLines depth c.notes
    ++ [pad depth ++ "@_dc.dataclass(order=True, unsafe_hash=True, slots=True)",
      pad depth ++ "class " ++ c.name ++ ":"]
    ++ docs
    ++ indented inner (fieldLines c)
    ++ c.constants.flatMap (Constant.lines inner)
    ++ indented inner (listLines c ++ checkLines c ++ accessLines c
      ++ (if c.isOpen then openLines c else [])
      ++ methods.flatMap (operatorLines c.field)
      ++ unaryLines c)

/-- The companion class of a module, if any of its enumerations is fieldless. -/
def companionLines (module : String) (tables : List OrdinalTable) : List String :=
  if tables.isEmpty then []
  else
    ["", "", "class " ++ companionName module ++ ":"]
      ++ tables.map fun table =>
        pad 1 ++ table.name ++ " = _enum.IntEnum(" ++ Text.quoted table.name ++ ", ["
          ++ quotedList table.members ++ "], start=0)"

/-- The lines of an item. -/
def Item.lines : Item → List String
  | .single c => ["", ""] ++ c.lines 0
  | .group name notes tables classes =>
    let docs :=
      if notes.docs.isEmpty then
        [pad 1 ++ "\"\"\"Namespace of module " ++ name ++ ".\"\"\""]
      else docstringLines 1 notes.docs
    companionLines name tables ++ ["", ""] ++ commentLines 0 notes ++ ["class " ++ name ++ ":"]
      ++ docs ++ classes.flatMap fun c => "" :: c.lines 1

/-- Whether an item needs tables of ordinals. -/
def Item.needsTables : Item → Bool
  | .single _ => false
  | .group _ _ tables _ => ! tables.isEmpty

/-- The lines of a module. -/
def Module.lines (m : Module) : List String :=
  [headline m.source, "", "import dataclasses as _dc"]
    ++ (if m.items.any Item.needsTables then ["import enum as _enum"] else [])
    ++ ["", "import encapenum.runtime as " ++ arithmeticName]
    ++ (if m.preamble.isEmpty then [] else "" :: m.preamble)
    ++ ["", "__all__ = [" ++ quotedList m.exports ++ "]"]
    ++ m.items.flatMap Item.lines

/-- The text of a module. -/
def Module.text (m : Module) : String := "\n".intercalate m.lines ++ "\n"

end Generated
end MaskEnum
