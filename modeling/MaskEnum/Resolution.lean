import MaskEnum.Declaration
import MaskEnum.Formula
import MaskEnum.Table
set_option autoImplicit false

/-!
# Resolving one enumeration

Every variant gets its value in turn. Values are folded to integers as far as possible, with the
checked arithmetic of the wrapped type; a constant without a value makes the values that use it
symbolic. A name without annotation is an earlier variant of the same enumeration.

## Main definitions

* `MaskEnum.Environment` — the constants and enumerations that a unit may refer to.
* `MaskEnum.ResolvedVariant`, `MaskEnum.ResolvedEnum` — a variant and an enumeration with values.
* `MaskEnum.Resolution.initializer` — the value of an initializer.
* `MaskEnum.resolveEnum` — the enumeration with the values of its variants.
-/

namespace MaskEnum

/-- What is defined outside a unit. With `strict`, a constant without a value is a fault. -/
structure Environment where
  constants : Table String Int := .empty
  enums : Table String (Table String Int) := .empty
  strict : Bool := false

/-- A variant with its value. `ordinal` is the position of a variant without initializer. -/
structure ResolvedVariant where
  name : String
  value : Value
  ordinal : Option Nat
  attributes : List String
  deriving DecidableEq, Repr

/-- An enumeration with the values of its variants and the enumerations of the unit that it
refers to. -/
structure ResolvedEnum where
  decl : EnumDecl
  variants : List ResolvedVariant
  dependencies : List QualifiedName
  deriving DecidableEq, Repr

namespace ResolvedVariant

/-- The constants that a value depends on, sorted. -/
def symbols (v : ResolvedVariant) : List String := sortedNames v.value.formula.names

/-- Whether the value is not known yet. -/
def isSymbolic (v : ResolvedVariant) : Bool := v.value.known?.isNone

end ResolvedVariant

namespace ResolvedEnum

/-- The first variant of a name. -/
def variant? (e : ResolvedEnum) (name : String) : Option ResolvedVariant :=
  e.variants.find? (·.name == name)

/-- The constants that the values depend on, sorted. -/
def symbols (e : ResolvedEnum) : List String :=
  sortedNames (e.variants.flatMap (·.value.formula.names))

/-- The report of a name that no variant has. -/
def missingMessage (e : ResolvedEnum) (name : String) : String :=
  "Enum '" ++ e.decl.qualifiedName.text ++ "' has no variant '" ++ name ++ "'"

end ResolvedEnum

namespace Resolution

/-- What the values of an enumeration may refer to: itself, the environment, and the enumerations
of its unit that are resolved already. -/
structure Scope where
  decl : EnumDecl
  environment : Environment
  find : EnumPath → Option ResolvedEnum

/-- The wrapped type. -/
def Scope.type (s : Scope) : IntType := s.decl.type

/-- What a variant's value may refer to besides: the variant itself, and the earlier ones, the
latest first. -/
structure Context where
  scope : Scope
  current : String
  bound : List (String × Value)

/-- One operator on values: folded if both are known. -/
def apply (op : Operator) (left right : Value) (type : IntType) : Except ResolutionFault Value :=
  match left, right with
  | .known l, .known r =>
    match op.checked l r type with
    | .ok result => .ok (.known result)
    | .error fault => .error (.arithmetic fault)
  | _, _ => .ok (.symbolic (.apply op left.formula right.formula type))

/-- A value of one type taken as a value of another. A value that was checked against the same
type is not checked again. -/
def cast (value : Value) (source target : IntType) : Except ResolutionFault Value :=
  match value with
  | .known n =>
    match checkedCast n source target with
    | .ok _ => .ok value
    | .error fault => .error (.arithmetic fault)
  | .symbolic f =>
    if source = target ∧ f.isChecked then .ok value
    else .ok (.symbolic (.cast f source target))

/-- The value of a variant of the same enumeration. -/
def variant (c : Context) (name : String) : Except ResolutionFault Value :=
  match c.bound.find? (·.1 == name) with
  | some (_, value) => .ok value
  | none =>
    if name = c.current then .error (.selfReference name)
    else if c.scope.decl.variants.any (·.name == name) then .error (.forwardReference name)
    else .error (.unknownVariant name c.scope.type)

/-- The value of an external constant declared as of type `source`. -/
def constant (s : Scope) (name : String) (source : IntType) : Except ResolutionFault Value :=
  match s.environment.constants.get? name with
  | some n => cast (.known n) source s.type
  | none =>
    if s.environment.strict then .error (.undefinedConstant name)
    else if isKeyword name then .error (.reservedConstant name)
    else cast (.symbolic (.constant name)) source s.type

/-- Whether a path names the enumeration itself, bare or in full. -/
def isOwn (e : EnumDecl) (path : EnumPath) : Bool :=
  path.segments == [e.name] || path == e.qualifiedName.path

/-- The value of a variant of another enumeration: one of the unit, or else an external one. -/
def foreign (s : Scope) (path : EnumPath) (name : String) : Except ResolutionFault Value :=
  match s.find path with
  | some target =>
    match target.variant? name with
    | some v => cast v.value target.decl.type s.type
    | none => .error (.missingVariant path.text name)
  | none =>
    match s.environment.enums.get? path.text with
    | none => .error (.unknownEnumeration path.text)
    | some table =>
      match table.get? name with
      | some n => cast (.known n) s.type s.type
      | none => .error (.missingVariant path.text name)

/-- The value of a literal, which must fit its own type and the wrapped one. -/
def literal (type : IntType) (l : Literal) : Except ResolutionFault Value :=
  match l.suffix with
  | some suffix =>
    if ! suffix.contains l.value then .error (.literalRange l.value suffix)
    else if ! type.contains l.value then .error (.literalRange l.value type)
    else .ok (.known l.value)
  | none =>
    if ! type.contains l.value then .error (.literalRange l.value type)
    else .ok (.known l.value)

/-- The value of an operand. -/
def operand (c : Context) : Operand → Except ResolutionFault Value
  | .literal l => literal c.scope.type l
  | .variant name => variant c name
  | .negated name =>
    if ! c.scope.type.signed then .error (.unsignedNegation name c.scope.type)
    else do apply .sub (.known 0) (← variant c name) c.scope.type
  | .external name (.enumeration path) =>
    if isOwn c.scope.decl path then variant c name else foreign c.scope path name
  | .external name (.typed source) => constant c.scope name source
  | .external name .bare => constant c.scope name c.scope.type

/-- The value of a group: its operands in turn, each applied to what stands before it. -/
def group (c : Context) (op : Operator) : Value → List Operand → Except ResolutionFault Value
  | first, [] => .ok first
  | first, o :: rest => do
    let right ← operand c o
    let value ← apply op first right c.scope.type
    group c op value rest

/-- The value of an initializer. -/
def initializer (c : Context) : Initializer → Except ResolutionFault Value
  | .operand o => operand c o
  | .chain op first rest => do group c op (← initializer c first) rest

/-- The value of the variant `v` at position `index`. -/
def value (s : Scope) (bound : List (String × Value)) (index : Nat) (v : VariantDecl) :
    Except ResolutionFault Value :=
  match v.value with
  | none =>
    if s.type.contains index then .ok (.known index)
    else .error (.ordinalRange index s.type)
  | some init => initializer ⟨s, v.name, bound⟩ init

/-- Where a fault in the value of a variant is reported to be. -/
def siteOf (e : EnumDecl) (v : VariantDecl) : String := e.qualifiedName.text ++ "::" ++ v.name

/-- How a fault in the value of a variant is reported: with its site, unless the report cannot be
written. -/
def report (e : EnumDecl) (v : VariantDecl) (fault : ResolutionFault) : Error :=
  if fault.told?.all isWritable then ⟨.resolution (siteOf e v) fault, some v.position⟩
  else ⟨.unwritable, none⟩

/-- The variants from position `index` on, each with its value. -/
def variants (s : Scope) :
    Nat → List (String × Value) → List VariantDecl → Except Error (List ResolvedVariant)
  | _, _, [] => .ok []
  | index, bound, v :: rest =>
    match value s bound index v with
    | .error fault => .error (report s.decl v fault)
    | .ok n => do
      let more ← variants s (index + 1) ((v.name, n) :: bound) rest
      let ordinal := if v.isFieldless then some index else none
      .ok (⟨v.name, n, ordinal, v.attributes⟩ :: more)

/-- The enumerations of the unit that the initializers refer to, each once. -/
def dependencies (s : Scope) : List QualifiedName :=
  let paths := s.decl.variants.flatMap fun v =>
    match v.value with
    | none => []
    | some init => init.enumPaths
  let targets := (paths.filter fun path => ! isOwn s.decl path).filterMap s.find
  (targets.map (·.decl.qualifiedName)).eraseDups

end Resolution

/-- An enumeration with the values of its variants; `find` looks up the enumerations of its unit
that are resolved already. -/
def resolveEnum (decl : EnumDecl) (environment : Environment)
    (find : EnumPath → Option ResolvedEnum) : Except Error ResolvedEnum := do
  let scope : Resolution.Scope := ⟨decl, environment, find⟩
  let variants ← Resolution.variants scope 0 [] decl.variants
  .ok ⟨decl, variants, Resolution.dependencies scope⟩

end MaskEnum
