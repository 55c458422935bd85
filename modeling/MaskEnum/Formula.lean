import MaskEnum.Reserved
set_option autoImplicit false

/-!
# Formulas

The value of a variant is an integer or, when it depends on a constant that is not known yet, a
formula that generated code evaluates when it is loaded.

## Main definitions

* `MaskEnum.Formula` — integers, names of constants, checked operators and checked casts.
* `MaskEnum.Formula.text` — a formula as generated code writes it.
* `MaskEnum.Formula.eval` — its value, left operands first, where a name may have none.
* `MaskEnum.Formula.names` — the names it reads.
* `MaskEnum.Value` — a known integer or a formula.
-/

namespace MaskEnum

/-- An expression over integers and named constants. -/
inductive Formula where
  | int (value : Int)
  | constant (name : String)
  | apply (op : Operator) (left right : Formula) (type : IntType)
  | cast (inner : Formula) (source target : IntType)
  deriving DecidableEq, Repr

/-- An integer type as generated code writes it. -/
def IntType.reference (t : IntType) : String :=
  arithmeticName ++ ".INTEGER_TYPES[" ++ Text.quoted t.name ++ "]"

namespace Formula

/-- A formula as generated code writes it. -/
def text : Formula → String
  | int value => toString value
  | constant name => name
  | apply op left right type =>
    arithmeticName ++ ".const_op(" ++ Text.quoted op.symbol ++ ", " ++ left.text ++ ", "
      ++ right.text ++ ", " ++ type.reference ++ ")"
  | cast inner source target =>
    arithmeticName ++ ".const_cast(" ++ inner.text ++ ", " ++ source.reference ++ ", "
      ++ target.reference ++ ")"

/-- The value of a formula, whose names are read by `read`; `fault` turns a fault of arithmetic
into one of the caller. -/
def eval {ε : Type} (read : String → Except ε Int) (fault : ArithFault → ε) :
    Formula → Except ε Int
  | int value => .ok value
  | constant name => read name
  | apply op left right type => do
    let l ← left.eval read fault
    let r ← right.eval read fault
    (op.checked l r type).mapError fault
  | cast inner source target => do
    let value ← inner.eval read fault
    (checkedCast value source target).mapError fault

/-- The names a formula reads, in reading order. -/
def names : Formula → List String
  | int _ => []
  | constant name => [name]
  | apply _ left right _ => left.names ++ right.names
  | cast inner _ _ => inner.names

/-- Whether a formula is an operator or a cast, so that its value has been checked. -/
def isChecked : Formula → Bool
  | apply .. | cast .. => true
  | int _ | constant _ => false

end Formula

/-- The value of a variant, as far as it is known. -/
inductive Value where
  | known (value : Int)
  | symbolic (formula : Formula)
  deriving DecidableEq, Repr

namespace Value

/-- The integer, if it is known. -/
def known? : Value → Option Int
  | known value => some value
  | symbolic _ => none

/-- The formula that generated code uses for a value. -/
def formula : Value → Formula
  | known value => .int value
  | symbolic f => f

end Value

/-- The names of a list without repetition, by code points. -/
def sortedNames (names : List String) : List String :=
  names.eraseDups.mergeSort fun a b => decide (a ≤ b)

end MaskEnum
