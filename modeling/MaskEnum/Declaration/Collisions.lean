import MaskEnum.Declaration
import MaskEnum.Reserved
set_option autoImplicit false

/-!
# Collisions of names

Generated code binds the names of modules, enumerations and variants. A name is refused when it
cannot be bound, when generated code relies on it, or when its scope has it already: the block
scope of the unit for modules and for enumerations outside modules, a module for the enumerations
inside it, and an enumeration for its variants.

## Main definitions

* `MaskEnum.Collisions.declarations` — accepts the declarations of a unit or reports the first
  name that is refused.
-/

namespace MaskEnum
namespace Collisions

/-- The names of a scope with what they are declared as. -/
abbrev Names := List (String × NameKind)

/-- Nothing, or the fault if `bad` holds. -/
def refuse (bad : Bool) (fault : Fault) (position : Option Position) : Except Error Unit :=
  if bad then .error ⟨fault, position⟩ else .ok ()

/-- Refuses a name that generated code could not bind. -/
def identifier (kind : NameKind) (name : String) (position : Option Position) :
    Except Error Unit :=
  refuse (isKeyword name || startsWith "__" name) (.shape (.reservedName kind name)) position

/-- Refuses a name that generated code relies on, reported as `label`. -/
def scopeName (kind : NameKind) (name label : String) (position : Option Position) :
    Except Error Unit :=
  refuse (scopeNames.contains name) (.collision (.scopeName kind label)) position

/-- Refuses a name that could be that of a companion, reported as `label`. -/
def companion (kind : NameKind) (name label : String) (position : Option Position) :
    Except Error Unit :=
  refuse (startsWith companionMark name) (.collision (.companionName kind label)) position

/-- Adds a name to a scope, unless the scope has it. -/
def claim (scope : Names) (kind : NameKind) (name : String) (position : Option Position) :
    Except Error Names :=
  match scope.find? (·.1 == name) with
  | some (_, earlier) => .error ⟨.collision (.sameName kind name earlier), position⟩
  | none => .ok ((name, kind) :: scope)

/-- The variants of the enumeration `enumeration`, of which those named `seen` are checked. -/
def variants (enumeration : String) : List String → List VariantDecl → Except Error Unit
  | _, [] => .ok ()
  | seen, v :: rest => do
    let label := enumeration ++ "::" ++ v.name
    let position := some v.position
    identifier .variant v.name position
    refuse (generatedMembers.contains v.name) (.collision (.generatedMember label)) position
    scopeName .variant v.name label position
    companion .variant v.name label position
    refuse (v.isFieldless && isOrdinalReserved v.name) (.collision (.ordinalName label)) position
    refuse (seen.contains v.name) (.collision (.sameVariant v.name enumeration)) position
    variants enumeration (v.name :: seen) rest

/-- The enumerations of a scope, with the names that the scope has before them. -/
def enums : Names → List EnumDecl → Except Error Names
  | scope, [] => .ok scope
  | scope, e :: rest => do
    let position := some e.position
    identifier .enumeration e.name position
    scopeName .enumeration e.name e.name position
    companion .enumeration e.name e.name position
    let scope ← claim scope .enumeration e.name position
    variants e.name [] e.variants
    enums scope rest

/-- One declaration, with the names that the block scope has before it. -/
def declaration (top : Names) : Declaration → Except Error Names
  | .block members => enums top members
  | .module name _ _ members => do
    identifier .module name none
    scopeName .module name name none
    companion .module name name none
    let top ← claim top .module name none
    let _ ← enums [] members
    .ok top

/-- The declarations that remain, with the names that the block scope has before them. -/
def declarationsFrom : Names → List Declaration → Except Error Unit
  | _, [] => .ok ()
  | top, d :: rest => do declarationsFrom (← declaration top d) rest

/-- The declarations of a unit. -/
def declarations (ds : List Declaration) : Except Error Unit := declarationsFrom [] ds

end Collisions
end MaskEnum
