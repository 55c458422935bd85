import MaskEnum.Toml.Value
set_option autoImplicit false

/-!
# TOML documents

A document is a list of sections, each a headline with entries under it. The sections together
build one table. A table may be opened by one headline only, and a value that is written out can
neither be set again nor be extended. The keys of an entry open tables too, which then belong to
the section of the entry.

## Main definitions

* `MaskEnum.Toml.Entry`, `MaskEnum.Toml.Section` — a key with its value, and a section.
* `MaskEnum.Toml.Node` — what a key of an unfinished table leads to.
* `MaskEnum.Toml.tableOf` — the table that entries write.
* `MaskEnum.Toml.Fields.ofSections` — the table that sections write.
-/

namespace MaskEnum.Toml

/-- A dotted key, given by its parts, with a value. -/
abbrev Entry := List String × Value

/-- The headline of a section. -/
inductive Headline where
  /-- The document itself. -/
  | root
  /-- A table. -/
  | table (key : List String)
  /-- A further item of a list of tables. -/
  | item (key : List String)
  deriving DecidableEq, Repr

/-- A headline with the entries under it. -/
structure Section where
  headline : Headline
  entries : List Entry
  deriving Repr

/-- What a key of an unfinished table leads to. -/
inductive Node where
  /-- A value that is written out. -/
  | value (v : Value)
  /-- A table. `owner` is the number of the section that it belongs to; a table that is only
  mentioned on the way to another belongs to none. -/
  | table (owner : Option Nat) (fields : List (String × Node))
  /-- A list of tables: those before the last, and the fields of the last. -/
  | tables (earlier : List Value) (fields : List (String × Node))

/-- The fields of an unfinished table. -/
abbrev Nodes := List (String × Node)

namespace Nodes

/-- What a name leads to. -/
def get? (nodes : Nodes) (name : String) : Option Node :=
  (List.find? (·.1 == name) nodes).map Prod.snd

/-- Sets what a name leads to; a name that is already there keeps its place. -/
def set (name : String) (n : Node) : Nodes → Nodes
  | [] => [(name, n)]
  | (k, old) :: nodes => if k = name then (k, n) :: nodes else (k, old) :: set name n nodes

end Nodes

mutual

/-- The finished value of a node. -/
def Node.toValue : Node → Value
  | .value v => v
  | .table _ fields => .table (finished fields)
  | .tables earlier fields => .array (earlier ++ [.table (finished fields)])

/-- The finished fields of a table. -/
def finished : List (String × Node) → List (String × Value)
  | [] => []
  | (name, n) :: nodes => (name, n.toValue) :: finished nodes

end

namespace Nodes

/-- Changes the table that a path of a headline leads to. Tables on the way are made if they are
missing; of a list of tables the last is meant. -/
def within (change : Nodes → Option Nodes) : List String → Nodes → Option Nodes
  | [], nodes => change nodes
  | name :: path, nodes =>
    match nodes.get? name with
    | none => do some (nodes.set name (.table none (← within change path [])))
    | some (.table owner fields) => do
      some (nodes.set name (.table owner (← within change path fields)))
    | some (.tables earlier fields) => do
      some (nodes.set name (.tables earlier (← within change path fields)))
    | some (.value _) => none

/-- Opens a table by a headline. -/
def openTable (number : Nat) (name : String) (nodes : Nodes) : Option Nodes :=
  match nodes.get? name with
  | none => some (nodes.set name (.table (some number) []))
  | some (.table none fields) => some (nodes.set name (.table (some number) fields))
  | some _ => none

/-- Opens a further item of a list of tables. -/
def openItem (name : String) (nodes : Nodes) : Option Nodes :=
  match nodes.get? name with
  | none => some (nodes.set name (.tables [] []))
  | some (.tables earlier fields) =>
    some (nodes.set name (.tables (earlier ++ [.table (finished fields)]) []))
  | some _ => none

/-- Writes an entry. The tables on the way must belong to the section of the entry, or to none;
they belong to it from now on. -/
def write (number : Nat) (v : Value) : List String → Nodes → Option Nodes
  | [], _ => none
  | [name], nodes => if (nodes.get? name).isSome then none else some (nodes.set name (.value v))
  | name :: path, nodes =>
    match nodes.get? name with
    | none => do some (nodes.set name (.table (some number) (← write number v path [])))
    | some (.table owner fields) =>
      if owner = none ∨ owner = some number then do
        some (nodes.set name (.table (some number) (← write number v path fields)))
      else none
    | some _ => none

/-- Writes entries in turn. -/
def writeAll (number : Nat) : List Entry → Nodes → Option Nodes
  | [], nodes => some nodes
  | (key, v) :: entries, nodes => do writeAll number entries (← write number v key nodes)

/-- Opens the table of a headline. -/
def openHeadline (number : Nat) : Headline → Nodes → Option Nodes
  | .root, nodes => some nodes
  | .table key, nodes =>
    match key.getLast? with
    | some name => within (openTable number name) key.dropLast nodes
    | none => none
  | .item key, nodes =>
    match key.getLast? with
    | some name => within (openItem name) key.dropLast nodes
    | none => none

end Nodes

/-- The path of a headline. -/
def Headline.path : Headline → List String
  | root => []
  | table key | item key => key

/-- Adds sections to a table, of which `count` are there already. -/
def addSections (count : Nat) : List Section → Nodes → Option Nodes
  | [], nodes => some nodes
  | s :: ss, nodes => do
    let opened ← Nodes.openHeadline count s.headline nodes
    let filled ← Nodes.within (Nodes.writeAll count s.entries) s.headline.path opened
    addSections (count + 1) ss filled

/-- The table that entries write, as an inline table holds them. -/
def tableOf (entries : List Entry) : Option Value :=
  (Nodes.writeAll 0 entries []).map fun nodes => .table (finished nodes)

/-- The table that the sections of a document write. -/
def Fields.ofSections (sections : List Section) : Option Fields :=
  (addSections 0 sections []).map finished

end MaskEnum.Toml
