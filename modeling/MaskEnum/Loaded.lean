import MaskEnum.Generated.Program
set_option autoImplicit false

/-!
# Loaded modules

Loading a generated module runs its classes in text order and computes their constants. A formula
reads names as the body of a class does: a private name is first tied to its class, then the class
itself, the module, and the constants supplied by the caller are asked in this order.

## Main definitions

* `MaskEnum.LoadFault` — why a module could not be loaded.
* `MaskEnum.LoadedClass`, `MaskEnum.Loaded` — classes with the values of their constants.
* `MaskEnum.Generated.Site`, `MaskEnum.Generated.Setting` — what a constant and a class find when
  they are run.
* `MaskEnum.Generated.Module.load` — the loaded form of a generated module.
-/

namespace MaskEnum

/-- Why a generated module could not be loaded. -/
inductive LoadFault where
  /-- The text holds a surrogate, which cannot be encoded. -/
  | unencodable
  /-- The text is no program. -/
  | unparsable
  /-- The first line is an expression without a value. -/
  | headline (fault : ExpressionFault)
  /-- The name of the source ends the literal of the first line, and what follows is no literal.
  What a module with such a line does is left open. -/
  | stray
  /-- A name takes the place of another one. -/
  | captured
  | unbound (name : String)
  /-- A name that stands for something other than an integer is used in a formula. -/
  | notInteger (name : String)
  | missingMember (table member : String)
  | arithmetic (fault : ArithFault)
  deriving DecidableEq, Repr

/-- The wording of a load fault. -/
def LoadFault.message : LoadFault → String
  | unencodable => "surrogates not allowed"
  | unparsable => "the generated text is no program"
  | headline fault => fault.message
  | stray => "the name of the source ends the literal of the first line"
  | captured => "a name takes the place of another one"
  | unbound name => "name '" ++ name ++ "' is not defined"
  | notInteger name => "'" ++ name ++ "' is no integer"
  | missingMember table member => "table '" ++ table ++ "' has no member '" ++ member ++ "'"
  | arithmetic fault => fault.message

/-- A class with the values of its constants, in order. -/
structure LoadedClass where
  definition : Generated.Class
  values : List (String × Int)
  deriving DecidableEq, Repr

/-- A loaded module, with the constants that its caller supplied. -/
structure Loaded where
  module : Generated.Module
  classes : List LoadedClass
  supplied : Table String Int
  deriving DecidableEq, Repr

namespace Generated

/-- Whether the literal at the front of a module's first line ends with that line, so that the name
of the source is a part of it. -/
def isOneLiteral (source : Option String) : Bool :=
  let literal := do
    let (triple, inner) ← Text.openLiteral '"' (Text.unifyBreaks (headline source).toList)
    Text.literalBody '"' triple inner
  literal.any fun (_, rest) => rest.isEmpty

/-- Why the first line of a module is not run, if it is not. -/
def Module.headingFault? (m : Module) : Option LoadFault :=
  match m.heading with
  | .text _ | .other => none
  | .none => some (if isOneLiteral m.source then .unparsable else .stray)
  | .broken fault => some (if isOneLiteral m.source then .headline fault else .stray)

/-- Why the text of a module is no program, if it is none. Besides the parts of its items, the name
of its source and a null character anywhere can bring that about. -/
def Module.textFault? (m : Module) : Option LoadFault :=
  if m.hasSurrogate then some .unencodable
  else if m.text.toList.contains '\x00' || ! m.items.all Item.isProgram then some .unparsable
  else m.headingFault?

/-! ## Names -/

/-- The name that the body of a class reads for `name`: a private one belongs to the class. -/
def privateName (className name : String) : String :=
  let owner := className.toList.dropWhile (· == '_')
  if startsWith "__" name && ! endsWith "__" name && ! owner.isEmpty then
    "_" ++ String.ofList owner ++ name
  else name

/-- The names that the body of a class has defined before its first constant. -/
def Class.bodyNames (c : Class) : List String :=
  ["__module__", "__qualname__", "__annotations__", "__underlying_type__", "__type_visibility__",
    "__field_visibility__"] ++ if c.notes.docs.isEmpty then [] else ["__doc__"]

/-- The names that a module has defined before its first item. -/
def Module.headNames (m : Module) : List String :=
  ["_dc", arithmeticName, "__all__", "__doc__"]
    ++ if m.items.any Item.needsTables then ["_enum"] else []

/-- The names that every module has, unless its caller supplies a constant instead. -/
def implicitNames : List String :=
  ["__name__", "__package__", "__loader__", "__spec__", "__builtins__"]

/-- The integer that a name stands for, where the names `defined` stand for other things. -/
def readName (supplied : Table String Int) (defined : List String) (name : String) :
    Except LoadFault Int :=
  if defined.contains name then .error (.notInteger name)
  else match supplied.get? name with
    | some value => .ok value
    | none =>
      if implicitNames.contains name then .error (.notInteger name) else .error (.unbound name)

/-! ## Tables of ordinals -/

/-- Whether a table keeps a member to itself: its name starts with that of the table between one
underscore and two, goes on, and does not end with two. -/
def OrdinalTable.isPrivate (t : OrdinalTable) (member : String) : Bool :=
  let start := "_" ++ t.name ++ "__"
  startsWith start member && start.length < member.length && ! endsWith "__" member

/-- The members of a table that others see, with their ordinals. -/
def OrdinalTable.ordinals (t : OrdinalTable) : List (String × Nat) :=
  t.members.zipIdx.filter fun entry => ! t.isPrivate entry.1

/-- The ordinal of a member of a table. -/
def OrdinalTable.ordinal? (t : OrdinalTable) (member : String) : Option Nat :=
  (t.ordinals.find? (·.1 == member)).map Prod.snd

/-! ## Loading -/

/-- A constant at the time when its value is computed: the class that it belongs to, the tables of
ordinals that it may use, and the names that stand for something else. -/
structure Site where
  className : String
  tables : List OrdinalTable
  defined : List String
  constant : Constant
  deriving DecidableEq, Repr

/-- The integer that a name stands for at a site. -/
def Site.read (s : Site) (supplied : Table String Int) (name : String) : Except LoadFault Int :=
  readName supplied s.defined (privateName s.className name)

/-- The value that a constant gets. -/
def Site.eval (s : Site) (supplied : Table String Int) : Except LoadFault Int :=
  match s.constant.source with
  | .formula f => f.eval (s.read supplied) .arithmetic
  | .member _ table name =>
    match (s.tables.find? (·.name == table)).bind (·.ordinal? name) with
    | some ordinal => .ok ordinal
    | none => .error (.missingMember table name)

/-- A class at the time when its body runs. -/
structure Setting where
  tables : List OrdinalTable
  defined : List String
  definition : Class
  deriving DecidableEq, Repr

/-- The constants of a class in turn; each is a name of the class for those after it. -/
def Setting.sitesFrom (s : Setting) (defined : List String) : List Constant → List Site
  | [] => []
  | c :: cs => ⟨s.definition.name, s.tables, defined, c⟩ :: s.sitesFrom (c.name :: defined) cs

/-- The constants of a class when their values are computed. -/
def Setting.sites (s : Setting) : List Site :=
  s.sitesFrom (s.definition.bodyNames ++ s.defined) s.definition.constants

/-- The loaded form of a class. -/
def Setting.load (s : Setting) (supplied : Table String Int) : Except LoadFault LoadedClass := do
  let values ← s.sites.mapM fun site => do .ok (site.constant.name, ← site.eval supplied)
  .ok ⟨s.definition, values⟩

/-- The tables of ordinals of an item. -/
def Item.tables : Item → List OrdinalTable
  | .single _ => []
  | .group _ _ tables _ => tables

/-- The classes of items in turn, in a module that has defined the names `defined` before. -/
def settingsFrom (defined : List String) : List Item → List Setting
  | [] => []
  | item :: items =>
    item.classes.map (⟨item.tables, item.names.1 ++ defined, ·⟩)
      ++ settingsFrom (item.names.2 ++ defined) items

/-- The classes of a module when their bodies run. -/
def Module.settings (m : Module) : List Setting := settingsFrom m.headNames m.items

/-- The loaded form of a module, whose formulas may read the constants `supplied`. -/
def Module.load (m : Module) (supplied : Table String Int) : Except LoadFault Loaded :=
  match m.textFault? with
  | some fault => .error fault
  | none =>
    if m.isFree then do
      let classes ← m.settings.mapM (·.load supplied)
      .ok ⟨m, classes, supplied⟩
    else .error .captured

/-! ## Documentation -/

/-- The text of a docstring as it stands at a depth. -/
def documentation (depth : Nat) (docs : List String) : String :=
  match readDocstring depth docs with
  | some (points, _) => String.ofList (Text.characters points)
  | none => ""

end Generated
end MaskEnum
