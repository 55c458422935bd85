import MaskEnum.Operator
set_option autoImplicit false

/-!
# Initializers

An initializer is the value of a variant as written: one operand, or a chain of operands. A chain
has no precedence. It starts with an operand from which others may be subtracted, and goes on with
one group per operator, each operator at most once and in a fixed order.

## Main definitions

* `MaskEnum.EnumPath` — a written path to an enumeration.
* `MaskEnum.Literal`, `MaskEnum.Source`, `MaskEnum.Operand` — the parts of a chain.
* `MaskEnum.Initializer` — the tree of a chain, the group written last outermost.
* `MaskEnum.groupOrder` — the order of the groups.
-/

namespace MaskEnum

/-- A path to an enumeration: its name, behind the names of the modules that hold it. -/
structure EnumPath where
  segments : List String
  deriving DecidableEq, Repr

/-- A path as written. -/
def EnumPath.text (path : EnumPath) : String := "::".intercalate path.segments

/-- An integer literal with the type named at its end. -/
structure Literal where
  value : Int
  suffix : Option IntType := none
  deriving DecidableEq, Repr

/-- What a reference outside the enumeration says about its target. -/
inductive Source where
  /-- A variant of the enumeration at `path`. -/
  | enumeration (path : EnumPath)
  /-- An external constant of a type. -/
  | typed (type : IntType)
  /-- An external constant without a type. -/
  | bare
  deriving DecidableEq, Repr

/-- One operand of an initializer. -/
inductive Operand where
  | literal (literal : Literal)
  | variant (name : String)
  | negated (name : String)
  | external (name : String) (source : Source)
  deriving DecidableEq, Repr

/-- The tree of an initializer: an operand, or the operands of one group applied to what stands
before them, from left to right. -/
inductive Initializer where
  | operand (operand : Operand)
  | chain (op : Operator) (first : Initializer) (rest : List Operand)
  deriving DecidableEq, Repr

/-- The order in which the groups follow the leading operand and what is subtracted from it. -/
def groupOrder : List Operator := [.or, .add, .and, .xor, .div, .mul, .shl, .shr]

/-- The operands as written, from left to right. -/
def Initializer.operands : Initializer → List Operand
  | operand o => [o]
  | chain _ first rest => first.operands ++ rest

/-- The path of a reference to an enumeration. -/
def Operand.enumPath? : Operand → Option EnumPath
  | external _ (.enumeration path) => some path
  | _ => none

/-- The enumerations that an initializer refers to by path, in writing order. -/
def Initializer.enumPaths (init : Initializer) : List EnumPath :=
  init.operands.filterMap Operand.enumPath?

end MaskEnum
