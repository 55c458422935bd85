import MaskEnum.Loaded
set_option autoImplicit false

/-!
# The table of loaded modules

A module stands in a table under its name while its program runs, because its classes look it up
there. Afterwards it stays only if the program ends without a fault and the module is to be
registered; otherwise the module that stood there before is put back. An entry may hold no module:
such an entry counts as none, so instead of being put back it is removed.

A program may change the table itself: one with a preamble may do anything. So what a program does
is a function from the table that it finds to its outcome and the table that it leaves.

## Main definitions

* `MaskEnum.Registry` — the table.
* `MaskEnum.Execution` — what a program does to a table.
* `MaskEnum.Registry.restore` — puts an earlier module back.
* `MaskEnum.Registry.load` — loads a module.
* `MaskEnum.Generated.Module.program` — the program of a generated module.
-/

namespace MaskEnum

/-- The table of loaded modules: what stands under a name is a module of the type `α`, or none. -/
abbrev Registry (α : Type) := Table String (Option α)

/-- What the program of a module does, by the table that it finds. -/
abbrev Execution (α ε β : Type) := Registry α → Except ε β × Registry α

namespace Registry

variable {α ε β : Type}

/-- The module that stands under a name. -/
def previous (r : Registry α) (name : String) : Option α := (Table.get? r name).join

/-- Puts back the module that stood under a name, or removes the name. -/
def restore (r : Registry α) (name : String) : Option α → Registry α
  | none => Table.erase r name
  | some module => Table.insert r name (some module)

/-- Loads `module` under a name: the outcome, and the table afterwards. The text of the module is
either refused, or it is the program `run`. -/
def load (r : Registry α) (name : String) (module : α) (program : Except ε (Execution α ε β))
    (register : Bool) : Except ε β × Registry α :=
  match program with
  | .error fault => (.error fault, r)
  | .ok run =>
    let before := r.previous name
    match run (Table.insert r name (some module)) with
    | (.error fault, after) => (.error fault, restore after name before)
    | (.ok result, after) => (.ok result, if register then after else restore after name before)

end Registry

/-- The program of a generated module that has no preamble: it leaves the table as it finds it,
since what it imports stands there already. -/
def Generated.Module.program {α : Type} (m : Module) (supplied : Table String Int) :
    Except LoadFault (Execution α LoadFault Loaded) :=
  match m.textFault? with
  | some fault => .error fault
  | none => .ok fun r => (m.load supplied, r)

end MaskEnum
