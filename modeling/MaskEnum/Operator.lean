import MaskEnum.IntType
import MaskEnum.IntType.Bitwise
set_option autoImplicit false

/-!
# Operators and their two arithmetics

The ten binary operators on integers of a type have two meanings. A *wrapping* operator reduces its
exact result into the range of the type; it is what values of a generated type do. A *checked*
operator refuses a result outside the range; it is what initializers do. Both divide toward zero
and refuse a zero divisor, and both refuse a shift by a negative amount or by the width and more.

## Main definitions

* `MaskEnum.Operator` — the operators, with their `symbol`.
* `MaskEnum.ArithFault` — why an operator has no result, with its wording.
* `MaskEnum.Operator.exact` — the result over unbounded integers.
* `MaskEnum.Operator.wrapping`, `MaskEnum.Operator.checked` — the two meanings.
* `MaskEnum.checkedCast` — a constant of one type taken as a value of another.
-/

namespace MaskEnum

/-- A binary operator on integers. -/
inductive Operator where
  | or | and | xor | add | sub | mul | div | rem | shl | shr
  deriving DecidableEq, Repr, Inhabited

namespace Operator

/-- The operator as written. -/
def symbol : Operator → String
  | or => "|" | and => "&" | xor => "^" | add => "+" | sub => "-"
  | mul => "*" | div => "/" | rem => "%" | shl => "<<" | shr => ">>"

/-- All operators, in the order in which they are listed. -/
def all : List Operator := [or, and, xor, add, sub, mul, div, rem, shl, shr]

/-- The operator of a symbol. -/
def ofSymbol? (s : String) : Option Operator := all.find? (·.symbol == s)

end Operator

/-- Why an operation on integers has no result. -/
inductive ArithFault where
  /-- The divisor is zero. -/
  | zeroDivisor
  /-- The shift amount is negative, or the width of the type or more. -/
  | shiftAmount (amount : Int) (type : IntType)
  /-- The exact result of an operator is outside the range of the type. -/
  | overflow (op : Operator) (left right result : Int) (type : IntType)
  /-- A constant is outside the range of the type. -/
  | constant (value : Int) (type : IntType)
  deriving DecidableEq, Repr

namespace ArithFault

/-- How a result that does not fit is reported. -/
def overflowText (what : String) (result : Int) (type : IntType) : String :=
  what ++ " overflows " ++ type.name ++ " (result " ++ toString result ++ ", range "
    ++ toString type.min ++ "..=" ++ toString type.max ++ ")"

/-- The wording of a fault. -/
def message : ArithFault → String
  | zeroDivisor => "attempt to divide by zero"
  | shiftAmount amount type =>
    "shift amount " ++ toString amount ++ " out of range for " ++ type.name ++ " ("
      ++ toString type.bits ++ " bits)"
  | overflow op left right result type =>
    overflowText ("'" ++ toString left ++ " " ++ op.symbol ++ " " ++ toString right ++ "'") result
      type
  | constant value type => overflowText "constant" value type

end ArithFault

namespace Operator

/-- The result over unbounded integers; the type matters only for the amounts that a shift
accepts. Shifting right rounds down. -/
def exact (op : Operator) (left right : Int) (type : IntType) : Except ArithFault Int :=
  match op with
  | or => .ok (Bitwise.or left right)
  | and => .ok (Bitwise.and left right)
  | xor => .ok (Bitwise.xor left right)
  | add => .ok (left + right)
  | sub => .ok (left - right)
  | mul => .ok (left * right)
  | div => if right = 0 then .error .zeroDivisor else .ok (left.tdiv right)
  | rem => if right = 0 then .error .zeroDivisor else .ok (left.tmod right)
  | shl =>
    if 0 ≤ right ∧ right < type.bits then .ok (left * (1 <<< right.toNat : Nat))
    else .error (.shiftAmount right type)
  | shr =>
    if 0 ≤ right ∧ right < type.bits then .ok (left / (1 <<< right.toNat : Nat))
    else .error (.shiftAmount right type)

/-- The exact result reduced into the range of the type. -/
def wrapping (op : Operator) (left right : Int) (type : IntType) : Except ArithFault Int :=
  (op.exact left right type).map type.wrap

/-- The exact result if it lies in the range of the type. -/
def checked (op : Operator) (left right : Int) (type : IntType) : Except ArithFault Int := do
  let result ← op.exact left right type
  if type.contains result then .ok result else .error (.overflow op left right result type)

end Operator

/-- A constant declared as of type `source` taken as a value of type `target`: it must fit both. -/
def checkedCast (value : Int) (source target : IntType) : Except ArithFault Int :=
  if ! source.contains value then .error (.constant value source)
  else if ! target.contains value then .error (.constant value target)
  else .ok value

/-- The bitwise complement in a type. -/
def complement (value : Int) (type : IntType) : Int := type.wrap (-value - 1)

end MaskEnum
