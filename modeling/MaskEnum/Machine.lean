import MaskEnum.Loaded
set_option autoImplicit false

/-!
# Values of generated types

A value of a generated type is an object with a type and a raw integer. Objects live in a store
and are reached through registers, several of which may refer to one object. Every new object is
checked to hold an integer of its type; an in-place operator changes the object that it finds.

## Main definitions

* `MaskEnum.Object` — a type and a raw integer, with the operations on values.
* `MaskEnum.StepFault` — why an operation fails.
* `MaskEnum.Machine` — a loaded module, a store of objects and the registers.
-/

namespace MaskEnum

/-- Why an operation on values fails. -/
inductive StepFault where
  /-- There is no type or register of this name. -/
  | missing (name : String)
  /-- A type or a value has no attribute of this name. -/
  | noAttribute (name : String)
  /-- The operands have the wrong types. -/
  | typeMismatch
  | outOfRange (raw : Int) (type : IntType)
  | arithmetic (fault : ArithFault)
  | negativeIndex
  deriving DecidableEq, Repr

/-- The wording of a fault. -/
def StepFault.message : StepFault → String
  | missing name => name
  | noAttribute name => "no attribute '" ++ name ++ "'"
  | typeMismatch => "operands of different types"
  | outOfRange raw type => toString raw ++ " out of range for " ++ type.name
  | arithmetic fault => fault.message
  | negativeIndex => "negative shift count"

namespace LoadedClass

/-- The integer type that a class wraps. -/
def type (c : LoadedClass) : IntType := c.definition.type

/-- The full name of a class. -/
def name (c : LoadedClass) : QualifiedName := c.definition.qualifiedName

/-- The value of a constant. -/
def constant? (c : LoadedClass) (name : String) : Option Int :=
  (c.values.find? (·.1 == name)).map Prod.snd

/-- The documentation of a class; without any, how it is called to make a value. -/
def documentation (c : LoadedClass) : String :=
  let depth := if c.definition.group.isSome then 2 else 1
  let text :=
    if c.definition.notes.docs.isEmpty then ""
    else Generated.documentation depth c.definition.notes.docs
  if text.isEmpty then c.definition.name ++ "(" ++ c.definition.field ++ ": int)" else text

end LoadedClass

/-- A value of a generated type. -/
structure Object where
  type : LoadedClass
  raw : Int
  deriving DecidableEq, Repr

/-- A comparison of values. -/
inductive Comparison where
  | eq | ne | lt | le | gt | ge
  deriving DecidableEq, Repr

namespace Comparison

/-- The comparison as written. -/
def symbol : Comparison → String
  | eq => "==" | ne => "!=" | lt => "<" | le => "<=" | gt => ">" | ge => ">="

/-- All comparisons. -/
def all : List Comparison := [eq, ne, lt, le, gt, ge]

/-- The comparison of a symbol. -/
def ofSymbol? (s : String) : Option Comparison := all.find? (·.symbol == s)

/-- Whether a comparison holds of two integers. -/
def holds : Comparison → Int → Int → Bool
  | eq, a, b => a == b
  | ne, a, b => a != b
  | lt, a, b => a < b
  | le, a, b => a ≤ b
  | gt, a, b => b < a
  | ge, a, b => b ≤ a

end Comparison

namespace Object

/-- A new value, which must lie in the range of its type. -/
def create (c : LoadedClass) (raw : Int) : Except StepFault Object :=
  if c.type.contains raw then .ok ⟨c, raw⟩ else .error (.outOfRange raw c.type)

/-- A new value from any integer, reduced into the range of its type. -/
def ofRaw (c : LoadedClass) (raw : Int) : Except StepFault Object := create c (c.type.wrap raw)

/-- Whether two values have the same type. -/
def sameType (a b : Object) : Bool := a.type.name == b.type.name

/-- The raw integer of a binary operator's result. -/
def operate (op : Operator) (a b : Object) : Except StepFault Int :=
  if a.sameType b then (op.wrapping a.raw b.raw a.type.type).mapError .arithmetic
  else .error .typeMismatch

/-- A binary operator, with a new value. -/
def binary (op : Operator) (a b : Object) : Except StepFault Object := do
  create a.type (← operate op a b)

/-- The bitwise complement. -/
def complement (a : Object) : Except StepFault Object :=
  create a.type (MaskEnum.complement a.raw a.type.type)

/-- The negation, which only signed types have. -/
def negate (a : Object) : Except StepFault Object :=
  if a.type.type.signed then ofRaw a.type (0 - a.raw) else .error .typeMismatch

/-- A bit of the two's complement digits of the raw integer. -/
def bit (a : Object) (index : Int) : Except StepFault Bool :=
  if ! a.type.definition.isOpen then .error (.noAttribute "get_bit")
  else if index < 0 then .error .negativeIndex
  else .ok ((a.raw >>> index.toNat) % 2 == 1)

/-- A comparison. Values of different types are different and have no order. -/
def compare (op : Comparison) (a b : Object) : Except StepFault Bool :=
  if a.sameType b then .ok (op.holds a.raw b.raw)
  else match op with
    | .eq => .ok false
    | .ne => .ok true
    | _ => .error .typeMismatch

/-- The text of a value. -/
def text (a : Object) : String :=
  a.type.name.dotted ++ "(" ++ a.type.definition.field ++ "=" ++ toString a.raw ++ ")"

/-- The prime that hashes of integers are reduced by. -/
def hashPrime : Int := 2305843009213693951

/-- The hash of an integer: its residue modulo a prime with the integer's sign, where `-1` gives
way to `-2`. -/
def hashOf (n : Int) : Int :=
  let residue := n.tmod hashPrime
  if residue = -1 then -2 else residue

end Object

/-- A loaded module with objects and registers that refer to them. -/
structure Machine where
  module : Loaded
  objects : List Object := []
  registers : Table String Nat := {}
  deriving DecidableEq, Repr

namespace Machine

/-- The object in a register, with its place in the store. -/
def object (m : Machine) (register : String) : Except StepFault (Nat × Object) :=
  match m.registers.get? register with
  | none => .error (.missing register)
  | some place =>
    match m.objects[place]? with
    | none => .error (.missing register)
    | some o => .ok (place, o)

/-- Puts a new object into the store and, if a register is given, a reference to it there. -/
def keep (m : Machine) (o : Object) : Option String → Machine
  | none => m
  | some register =>
    { m with objects := m.objects ++ [o]
             registers := m.registers.insert register m.objects.length }

/-- Changes the raw integer of an object. -/
def setRaw (m : Machine) (place : Nat) (raw : Int) : Machine :=
  { m with objects := m.objects.modify place fun o => { o with raw } }

/-- The values of all registers. -/
def contents (m : Machine) : List (String × Object) :=
  m.registers.entries.filterMap fun (register, place) =>
    m.objects[place]?.map fun o => (register, o)

end Machine

/-! ## Names of types -/

/-- What a dotted name can stand for in a loaded module. -/
inductive Place where
  | type (c : LoadedClass)
  | group (name : String) (notes : Notes)
  | companion (tables : List Generated.OrdinalTable)
  | table (t : Generated.OrdinalTable)
  deriving DecidableEq, Repr

namespace Loaded

/-- A class by its full name. -/
def class? (l : Loaded) (name : QualifiedName) : Option LoadedClass :=
  l.classes.find? fun c => decide (c.name = name)

/-- What a name stands for among those that an item binds. -/
def placeOf? (l : Loaded) (name : String) : Generated.Item → Option Place
  | .single c => if c.name = name then (l.class? ⟨none, name⟩).map .type else none
  | .group group notes tables _ =>
    if group = name then some (.group group notes)
    else if companionName group = name && ! tables.isEmpty then some (.companion tables)
    else none

/-- What a name stands for at module level. -/
def place? (l : Loaded) (name : String) : Option Place :=
  l.module.items.findSome? (l.placeOf? name)

/-- What a name stands for inside a place. -/
def memberOf? (l : Loaded) (name : String) : Place → Option Place
  | .group group _ => (l.class? ⟨some group, name⟩).map .type
  | .companion tables => (tables.find? (·.name == name)).map .table
  | .type _ | .table _ => none

/-- What the names after a place lead to. -/
def follow (l : Loaded) (place : Place) : List String → Except StepFault Place
  | [] => .ok place
  | name :: names =>
    match l.memberOf? name place with
    | some inner => l.follow inner names
    | none => .error (.missing name)

/-- What a dotted name, given by its parts, stands for. -/
def find (l : Loaded) : List String → Except StepFault Place
  | [] => .error (.missing "")
  | name :: names =>
    match l.place? name with
    | some place => l.follow place names
    | none => .error (.missing name)

/-- The type of a dotted name. -/
def type (l : Loaded) (path : List String) : Except StepFault LoadedClass := do
  match ← l.find path with
  | .type c => .ok c
  | _ => .error (.noAttribute (".".intercalate path))

/-- Whether values of the module cannot be hashed, because a name of it hides the hash function. -/
def hidesHash (l : Loaded) : Bool :=
  l.supplied.contains "hash" || (l.place? "hash").isSome

end Loaded
end MaskEnum
