import MaskEnum.Machine
set_option autoImplicit false

/-!
# Steps of a machine

A step asks a type or the values in registers for something, makes a value, or changes one. A step
that fails leaves the machine as it was.

## Main definitions

* `MaskEnum.Making`, `MaskEnum.Question`, `MaskEnum.Step` — ways to make a value, steps that change
  nothing, and all steps.
* `MaskEnum.Answer` — what a step answers.
* `MaskEnum.Machine.step` — one step.
* `MaskEnum.Machine.run` — a list of steps, with their outcomes.
-/

namespace MaskEnum

/-- A dotted name by its parts. -/
abbrev TypePath := List String

/-- The right operand of a binary operator. -/
inductive RightOperand where
  | register (name : String)
  | integer (value : Int)
  deriving DecidableEq, Repr

/-- A way to make a value. -/
inductive Making where
  /-- A constant read through its type. -/
  | variant (type : TypePath) (name : String)
  /-- A constant read through a value of its type. -/
  | sibling (register name : String)
  /-- The constructor that types with a public field have. -/
  | new (type : TypePath) (raw : Int)
  | construct (type : TypePath) (raw : Int)
  | wrapped (type : TypePath) (raw : Int)
  | binary (op : Operator) (left : String) (right : RightOperand)
  | negate (register : String)
  | complement (register : String)
  deriving DecidableEq, Repr

/-- A step that changes nothing. -/
inductive Question where
  | values (type : TypePath)
  | traits (type : TypePath)
  | documentation (type : TypePath)
  | constant (type : TypePath) (name : String)
  | members (table : TypePath)
  /-- Two iterators over a type's values: some of the first, all of the second, the rest. -/
  | iterate (type : TypePath) (count : Nat)
  | bit (register : String) (index : Int)
  | compare (op : Comparison) (left right : String)
  | sameHash (left right : String)
  | distinct (registers : List String)
  | sort (registers : List String)
  | text (register : String)
  deriving DecidableEq, Repr

/-- A step of a machine. -/
inductive Step where
  /-- Makes a value, and puts it into a register if one is given. -/
  | make (making : Making) (register : Option String)
  /-- Lets a second register refer to the value of the first. -/
  | alias (source target : String)
  /-- A binary operator in place. -/
  | assign (op : Operator) (left : String) (right : RightOperand)
  /-- Sets the raw integer of a value without a check. -/
  | setRaw (register : String) (raw : Int)
  | ask (question : Question)
  deriving DecidableEq, Repr

/-- What a step answers. -/
inductive Answer where
  | value (o : Object)
  /-- A value was changed in place. -/
  | changed (o : Object)
  /-- A value was set. -/
  | done
  | values (entries : List (String × Int))
  | traits (c : LoadedClass)
  | documentation (text : Option String)
  | text (text : String)
  | members (entries : List (String × Nat))
  | iteration (head fresh rest : List Int)
  | bit (b : Bool)
  | truth (b : Bool)
  | count (n : Nat)
  | sorted (raws : List Int)
  deriving DecidableEq, Repr

namespace Machine

/-- A constant of a class as a new value. -/
def readVariant (c : LoadedClass) (name : String) : Except StepFault Object :=
  match c.constant? name with
  | some raw => Object.create c raw
  | none => .error (.noAttribute name)

/-- The right operand as a value; an integer is none. -/
def rightOperand (m : Machine) : RightOperand → Except StepFault Object
  | .register name => return (← m.object name).2
  | .integer _ => .error .typeMismatch

/-- The value that is made. -/
def made (m : Machine) : Making → Except StepFault Object
  | .variant type name => do readVariant (← m.module.type type) name
  | .sibling register name => do readVariant (← m.object register).2.type name
  | .new type raw => do
    let c ← m.module.type type
    if c.definition.isOpen then Object.create c raw else .error (.noAttribute "new")
  | .construct type raw => do Object.create (← m.module.type type) raw
  | .wrapped type raw => do Object.ofRaw (← m.module.type type) raw
  | .binary op left right => do
    let (_, a) ← m.object left
    Object.binary op a (← m.rightOperand right)
  | .negate register => do (← m.object register).2.negate
  | .complement register => do (← m.object register).2.complement

/-- The objects in registers, in order. -/
def objectsOf (m : Machine) (registers : List String) : Except StepFault (List Object) :=
  registers.mapM fun r => return (← m.object r).2

/-- The raw integers of values of one type in ascending order. -/
def sorted (os : List Object) : Except StepFault (List Int) :=
  match os with
  | [] => .ok []
  | o :: rest =>
    if rest.all o.sameType then .ok ((os.map (·.raw)).mergeSort fun a b => decide (a ≤ b))
    else .error .typeMismatch

/-- The documentation of what a dotted name stands for. -/
def documentationOf : Place → Option String
  | .type c => some c.documentation
  | .group name notes =>
    some (if notes.docs.isEmpty then "Namespace of module " ++ name ++ "."
      else Generated.documentation 1 notes.docs)
  | .companion _ | .table _ => none

/-- What a step that changes nothing answers. -/
def ask (m : Machine) : Question → Except StepFault Answer
  | .values type => return .values (← m.module.type type).values
  | .traits type => return .traits (← m.module.type type)
  | .documentation type => return .documentation (documentationOf (← m.module.find type))
  | .constant type name => do
    match (← m.module.type type).constant? name with
    | some raw => .ok (.text ("VariantConstant(" ++ name ++ "=" ++ toString raw ++ ")"))
    | none => .error (.missing name)
  | .members path => do
    match ← m.module.find path with
    | .table t => .ok (.members t.ordinals)
    | _ => .error .typeMismatch
  | .iterate type count => do
    let raws := (← m.module.type type).values.map Prod.snd
    .ok (.iteration (raws.take count) raws (raws.drop count))
  | .bit register index => return .bit (← (← m.object register).2.bit index)
  | .compare op left right => do
    let (_, a) ← m.object left
    let (_, b) ← m.object right
    return .truth (← Object.compare op a b)
  | .sameHash left right => do
    let (_, a) ← m.object left
    let (_, b) ← m.object right
    if m.module.hidesHash then .error .typeMismatch
    else .ok (.truth (Object.hashOf a.raw == Object.hashOf b.raw))
  | .distinct registers => do
    let os ← m.objectsOf registers
    if m.module.hidesHash && ! os.isEmpty then .error .typeMismatch
    else .ok (.count (os.map fun o => (o.type.name, o.raw)).eraseDups.length)
  | .sort registers => do return .sorted (← sorted (← m.objectsOf registers))
  | .text register => return .text (← m.object register).2.text

/-- One step: its answer, and the machine afterwards. -/
def step (m : Machine) (s : Step) : Except StepFault (Answer × Machine) :=
  match s with
  | .make making register => do
    let o ← m.made making
    .ok (.value o, m.keep o register)
  | .alias source target => do
    let (place, o) ← m.object source
    .ok (.value o, { m with registers := m.registers.insert target place })
  | .assign op left right => do
    let (place, a) ← m.object left
    let raw ← Object.operate op a (← m.rightOperand right)
    .ok (.changed { a with raw }, m.setRaw place raw)
  | .setRaw register raw => do
    let (place, _) ← m.object register
    .ok (.done, m.setRaw place raw)
  | .ask question => do .ok (← m.ask question, m)

/-- Steps in turn, with the outcome of each and the machine after it. -/
def run (m : Machine) : List Step → List (Except StepFault Answer × Machine)
  | [] => []
  | s :: ss =>
    match m.step s with
    | .ok (answer, next) => (.ok answer, next) :: next.run ss
    | .error fault => (.error fault, m) :: m.run ss

end Machine
end MaskEnum
