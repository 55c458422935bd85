import MaskEnum.Docs
import MaskEnum.Resolution
set_option autoImplicit false

/-!
# Generated modules

What is generated for a unit, as data: a module with one class per enumeration. The classes of
enumerations that share a module stand inside a class of their own. The constants of a fieldless
enumeration are taken from a table of ordinals, and the tables of a module stand in a companion
class before it.

## Main definitions

* `MaskEnum.Generated.Constant`, `MaskEnum.Generated.Class` — a constant and the class around it.
* `MaskEnum.Generated.Item` — a class at module level, or the classes of a module.
* `MaskEnum.Generated.headline`, `MaskEnum.Generated.Module` — the first line of a module, and a
  whole module.
* `MaskEnum.Generated.ofUnit` — the items for the declarations of a unit.
-/

namespace MaskEnum
namespace Generated

/-- Where the value of a constant comes from. -/
inductive Source where
  | formula (formula : Formula)
  /-- The member of a table of ordinals. -/
  | member (companion table member : String)
  deriving DecidableEq, Repr

/-- A constant of a class. -/
structure Constant where
  name : String
  source : Source
  notes : Notes
  deriving DecidableEq, Repr

/-- The class of an enumeration. -/
structure Class where
  name : String
  group : Option String
  type : IntType
  access : Access
  fieldAccess : Access
  notes : Notes
  constants : List Constant
  deriving DecidableEq, Repr

/-- A table that numbers its members from zero. -/
structure OrdinalTable where
  name : String
  members : List String
  deriving DecidableEq, Repr

/-- A part of a module. -/
inductive Item where
  /-- A class at module level. -/
  | single (c : Class)
  /-- The class of a module around those of its enumerations, with the tables of its companion. -/
  | group (name : String) (notes : Notes) (tables : List OrdinalTable) (classes : List Class)
  deriving DecidableEq, Repr

/-- The first line of a module; an empty source name counts as none. -/
def headline (source : Option String) : String :=
  let origin := match source with
    | none | some "" => ""
    | some name => " from " ++ name
  "\"\"\"Generated by encapenum" ++ origin ++ ". Do not edit.\"\"\""

/-- A generated module. `source` names the text that it is made from, and `heading` is what becomes
of the first line as an expression. Documentation has the replacement character for a surrogate, so
that it wrote one is kept apart. -/
structure Module where
  source : Option String
  heading : Docs.Evaluation
  preamble : List String
  exports : List String
  items : List Item
  hasSurrogate : Bool
  deriving DecidableEq, Repr

/-- Whether the field of a class is public, so that it has a constructor and a bit test. -/
def Class.isOpen (c : Class) : Bool := c.fieldAccess ≠ .own

/-- The name of the field. -/
def Class.field (c : Class) : String := if c.isOpen then "raw" else "_raw"

/-- The full name of a class. -/
def Class.qualifiedName (c : Class) : QualifiedName := ⟨c.group, c.name⟩

/-- The classes of an item, in order. -/
def Item.classes : Item → List Class
  | single c => [c]
  | group _ _ _ classes => classes

/-- The classes of a module, in order. -/
def Module.classes (m : Module) : List Class := m.items.flatMap Item.classes

/-! ## From declarations -/

/-- Where the value of a variant comes from, if its ordinal is looked up in `companion`. -/
def sourceOf (companion : Option String) (e : ResolvedEnum) (v : ResolvedVariant) : Source :=
  match v.ordinal, companion with
  | some _, some companion => .member companion e.decl.name v.name
  | _, _ => .formula v.value.formula

/-- The constant of a variant. -/
def constantOf (read : Docs.Reader) (companion : Option String) (e : ResolvedEnum)
    (v : ResolvedVariant) : Except Fault Constant := do
  let notes ← Notes.ofAttributes read v.attributes
  .ok ⟨v.name, sourceOf companion e v, notes⟩

/-- The class of an enumeration. -/
def classOf (read : Docs.Reader) (companion : Option String) (e : ResolvedEnum) :
    Except Fault Class := do
  let notes ← Notes.ofAttributes read e.decl.attributes
  let constants ← e.variants.mapM (constantOf read companion e)
  .ok ⟨e.decl.name, e.decl.group, e.decl.type, e.decl.access, e.decl.fieldAccess, notes, constants⟩

/-- The companion of a fieldless member of the module `module`. -/
def companionOf (module : String) (e : ResolvedEnum) : Option String :=
  if e.decl.isFieldless then some (companionName module) else none

/-- The table of ordinals of an enumeration. -/
def tableOf (e : ResolvedEnum) : OrdinalTable := ⟨e.decl.name, e.variants.map (·.name)⟩

/-- The tables of ordinals of the members of a module. -/
def tablesOf (members : List ResolvedEnum) : List OrdinalTable :=
  (members.filter (·.decl.isFieldless)).map tableOf

/-- The members of a declaration, with their values. -/
def membersOf (resolved : Table QualifiedName ResolvedEnum) (d : Declaration) :
    List ResolvedEnum :=
  d.enums.filterMap fun e => resolved.get? e.qualifiedName

/-- The items of a declaration. -/
def itemsOf (read : Docs.Reader) (resolved : Table QualifiedName ResolvedEnum)
    (d : Declaration) : Except Fault (List Item) := do
  let members := membersOf resolved d
  match d with
  | .block _ => (← members.mapM (classOf read none)).mapM fun c => .ok (.single c)
  | .module name _ attributes _ =>
    let notes ← Notes.ofAttributes read attributes
    let classes ← members.mapM fun e => classOf read (companionOf name e) e
    .ok [.group name notes (tablesOf members) classes]

/-- The names that a declaration exports: everything at module level that is not private. -/
def exportsOf : Declaration → List String
  | .block enums => (enums.filter (·.access ≠ .own)).map (·.name)
  | .module name access _ _ => if access = .own then [] else [name]

/-- The table of resolved enumerations by their full names. -/
def byName (resolved : List ResolvedEnum) : Table QualifiedName ResolvedEnum :=
  .ofList (resolved.map fun e => (e.decl.qualifiedName, e))

/-- The module for the declarations of a unit and its resolved enumerations, whose documentation is
read by `read`. -/
def ofUnit (read : Docs.Reader) (declarations : List Declaration) (resolved : List ResolvedEnum)
    (source : Option String) (preamble : List String) : Except Fault Module := do
  let items ← declarations.mapM (itemsOf read (byName resolved))
  let attributes := declarations.flatMap Declaration.allAttributes
  .ok ⟨source, read (headline source).toList, preamble, declarations.flatMap exportsOf,
    items.flatten, attributes.any (Docs.writesSurrogate read)⟩

end Generated
end MaskEnum
