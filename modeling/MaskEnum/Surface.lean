import MaskEnum.Generated
set_option autoImplicit false

/-!
# The surface of generated types

What the user of a generated module may know of a type: its names, its variants as far as they are
known, and what it can do.

## Main definitions

* `MaskEnum.Surface` — the description of one type, with `Surface.ofEnum`.
* `MaskEnum.Surface.operators` — the operators that a type has.
-/

namespace MaskEnum

/-- The description of a generated type. -/
structure Surface where
  name : String
  group : Option String
  type : IntType
  access : Access
  fieldAccess : Access
  variants : List (String × Option Int)
  companion : Option String
  deriving DecidableEq, Repr

namespace Surface

/-- The full name, as code writes it. -/
def qualifiedName (s : Surface) : String := (⟨s.group, s.name⟩ : QualifiedName).dotted

/-- Whether the field can be used outside. -/
def isOpen (s : Surface) : Bool := s.fieldAccess ≠ .own

/-- The name of the field. -/
def field (s : Surface) : String := if s.isOpen then "raw" else "_raw"

/-- Whether the type can be used outside. -/
def isPublic (s : Surface) : Bool := s.access ≠ .own

/-- The operators: binary ones, their in-place forms, the unary ones and the wrapping
constructor. -/
def operators (s : Surface) : List String :=
  let symbols := Operator.all.map Operator.symbol
  symbols ++ symbols.map (· ++ "=") ++ (if s.type.signed then ["~", "-x"] else ["~"])
    ++ ["from_raw"]

/-- The description of an enumeration's type, whose ordinals are in the companion class
`companion`. -/
def ofEnum (companion : Option String) (e : ResolvedEnum) : Surface :=
  { name := e.decl.name
    group := e.decl.group
    type := e.decl.type
    access := e.decl.access
    fieldAccess := e.decl.fieldAccess
    variants := e.variants.map fun v => (v.name, v.value.known?)
    companion := companion.map (· ++ "." ++ e.decl.name) }

/-- The descriptions for a declaration, in order. -/
def ofDeclaration (resolved : Table QualifiedName ResolvedEnum) (d : Declaration) :
    List Surface :=
  (Generated.membersOf resolved d).map fun e =>
    match d with
    | .block _ => ofEnum none e
    | .module name .. => ofEnum (Generated.companionOf name e) e

end Surface
end MaskEnum
