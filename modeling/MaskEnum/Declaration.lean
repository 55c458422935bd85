import MaskEnum.Initializer
import MaskEnum.Error
set_option autoImplicit false

/-!
# Declarations

A declaration block declares enumerations: either several valued ones side by side, or any number
inside one module. An enumeration wraps an integer type and names values of it, its variants. The
variants either all have initializers or none has; without, a variant stands for its position.

## Main definitions

* `MaskEnum.Access` — who may use a type, a module or a field.
* `MaskEnum.VariantDecl`, `MaskEnum.EnumDecl` — a variant and an enumeration as declared.
* `MaskEnum.Declaration`, `MaskEnum.Shape` — a block, and the form it has.
* `MaskEnum.QualifiedName` — the name of an enumeration with the module around it.
-/

namespace MaskEnum

/-- Who may use a name. -/
inductive Access where
  | own
  | everywhere
  | crate
  | super
  | within (path : EnumPath)
  deriving DecidableEq, Repr

namespace Access

/-- The word for the kind of access. -/
def level : Access → String
  | own => "private"
  | everywhere => "public"
  | crate => "crate"
  | super => "super"
  | within _ => "restricted"

/-- The access as written; a private name has nothing before it. -/
def text : Access → String
  | own => ""
  | everywhere => "pub"
  | crate => "pub(crate)"
  | super => "pub(super)"
  | within path => "pub(in " ++ path.text ++ ")"

/-- The access as written, or the word that stands for no access. -/
def label (a : Access) : String := if a = own then "private" else a.text

end Access

/-- The name of an enumeration together with the module around it, if there is one. -/
structure QualifiedName where
  group : Option String
  name : String
  deriving DecidableEq, Repr

/-- A qualified name as declarations write it. -/
def QualifiedName.text (q : QualifiedName) : String :=
  match q.group with
  | none => q.name
  | some m => m ++ "::" ++ q.name

/-- A qualified name as generated code writes it. -/
def QualifiedName.dotted (q : QualifiedName) : String :=
  match q.group with
  | none => q.name
  | some m => m ++ "." ++ q.name

/-- The path that names an enumeration in full. -/
def QualifiedName.path (q : QualifiedName) : EnumPath :=
  match q.group with
  | none => ⟨[q.name]⟩
  | some m => ⟨[m, q.name]⟩

/-- A variant as declared. Its attributes are those written after it. -/
structure VariantDecl where
  name : String
  value : Option Initializer
  attributes : List String
  position : Position
  deriving DecidableEq, Repr

/-- Whether a variant stands for its position. -/
def VariantDecl.isFieldless (v : VariantDecl) : Bool := v.value.isNone

/-- An enumeration as declared. `writtenType` is the type it wraps, if written, `position` the
place of its keyword. -/
structure EnumDecl where
  name : String
  group : Option String
  access : Access
  fieldAccess : Access
  writtenType : Option IntType
  variants : List VariantDecl
  attributes : List String
  position : Position
  deriving DecidableEq, Repr

namespace EnumDecl

/-- The wrapped type: the signed word unless another is written. -/
def type (e : EnumDecl) : IntType := e.writtenType.getD .isize

/-- The full name. -/
def qualifiedName (e : EnumDecl) : QualifiedName := ⟨e.group, e.name⟩

/-- Whether every variant stands for its position. -/
def isFieldless (e : EnumDecl) : Bool := e.variants.all VariantDecl.isFieldless

/-- The attributes of the enumeration and of its variants. -/
def allAttributes (e : EnumDecl) : List String := e.attributes ++ e.variants.flatMap (·.attributes)

end EnumDecl

/-- The form of a declaration block. -/
inductive Shape where
  | valued
  | moduleGroup
  | typedFieldless
  deriving DecidableEq, Repr

/-- A declaration block. -/
inductive Declaration where
  /-- Enumerations side by side. -/
  | block (enums : List EnumDecl)
  /-- Enumerations inside a module. -/
  | module (name : String) (access : Access) (attributes : List String) (enums : List EnumDecl)
  deriving DecidableEq, Repr

namespace Declaration

/-- The enumerations of a block, in writing order. -/
def enums : Declaration → List EnumDecl
  | block enums => enums
  | module _ _ _ enums => enums

/-- The attributes of a block and of everything in it. -/
def allAttributes : Declaration → List String
  | block enums => enums.flatMap EnumDecl.allAttributes
  | module _ _ attributes enums => attributes ++ enums.flatMap EnumDecl.allAttributes

/-- The form of a block. A module of a single fieldless enumeration whose type is written has a
form of its own. -/
def shape : Declaration → Shape
  | block _ => .valued
  | module _ _ _ [e] =>
    if e.isFieldless && e.writtenType.isSome then .typedFieldless else .moduleGroup
  | module .. => .moduleGroup

end Declaration

end MaskEnum
