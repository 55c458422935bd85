import MaskEnum.Generated.Text
set_option autoImplicit false

/-!
# Texts that are programs

The text of a generated module is a program as long as whatever is pasted into it stays in its
place: a name is a name and no keyword, a comment ends with its line, a docstring ends with its own
closing quotes, and brackets are not nested too deep. It is the program that was meant as long as no
name in it takes the place of another.

## Main definitions

* `MaskEnum.Generated.isUsable` — whether a program can bind and read a name.
* `MaskEnum.Generated.readDocstring`, `MaskEnum.Generated.isDocstring` — the literal that the lines
  of a docstring are, and whether they are one to their end.
* `MaskEnum.Generated.Item.isProgram` — whether the text of an item is a part of a program.
* `MaskEnum.Generated.Module.isFree` — whether no name takes the place of another.
* `MaskEnum.Generated.Module.notes` — all metadata of a module.
-/

namespace MaskEnum

/-- How deep the brackets of a formula's text are nested. -/
def Formula.depth : Formula → Nat
  | int _ | constant _ => 0
  | apply _ left right _ => max 1 (max left.depth right.depth) + 1
  | cast inner _ _ => max 1 inner.depth + 1

namespace Generated

/-! ## Names and brackets -/

/-- Whether a text is a letter or an underscore, with letters, digits and underscores after it. -/
def isIdentifier (name : String) : Bool :=
  match name.toList with
  | [] => false
  | c :: cs => (c.isAlpha || c == '_') && cs.all fun d => d.isAlphanum || d == '_'

/-- Whether a program can bind and read a name. -/
def isUsable (name : String) : Bool := isIdentifier name && ! isKeyword name

/-- The names that the value of a constant is written with. -/
def Source.names : Source → List String
  | .formula f => f.names
  | .member companion table name => [companion, table, name]

/-- How deep a program may nest brackets. -/
def bracketLimit : Nat := 200

/-- How deep the brackets around and in the value of a constant are nested. -/
def Source.depth : Source → Nat
  | .formula f => f.depth + 1
  | .member .. => 1

/-! ## Metadata -/

/-- Whether a text has no line end. -/
def isOneLine (line : String) : Bool := line.toList.all fun c => c != '\n' && c != '\r'

/-- The literal at the front of a docstring at a depth, and the text after it. Line breaks in a
program are line feeds. -/
def readDocstring (depth : Nat) (docs : List String) : Option (List Nat × List Char) :=
  let text := "\n".intercalate (docstringLines depth docs)
  Text.readLiteral '"' (Text.unifyBreaks (text.toList.drop (4 * depth)))

/-- Whether a docstring at a depth is one literal that ends with it. -/
def isDocstring (depth : Nat) (docs : List String) : Bool :=
  match readDocstring depth docs with
  | some (_, []) => true
  | _ => false

/-- Whether the metadata of a class at a depth stays in its comments and its docstring. -/
def notesStay (depth : Nat) (notes : Notes) : Bool :=
  (commentLines depth notes).all isOneLine
    && (notes.docs.isEmpty || isDocstring (depth + 1) notes.docs)

/-! ## Constants, classes and items -/

/-- Whether the text of a constant is a part of a program. -/
def Constant.isProgram (depth : Nat) (c : Constant) : Bool :=
  isUsable c.name && c.source.names.all isUsable && c.source.depth ≤ bracketLimit
    && (commentLines depth c.notes ++ docLines depth c.notes).all isOneLine

/-- Whether the text of a class is a part of a program. -/
def Class.isProgram (depth : Nat) (c : Class) : Bool :=
  isUsable c.name && notesStay depth c.notes && c.constants.all (Constant.isProgram (depth + 1))

/-- Whether the text of an item is a part of a program. -/
def Item.isProgram : Item → Bool
  | .single c => c.isProgram 0
  | .group name notes tables classes =>
    isUsable name && notesStay 0 notes && tables.all (fun t => isUsable t.name)
      && classes.all (Class.isProgram 1)

/-! ## Names that take the place of others -/

/-- Whether a name can be bound without taking the place of one that generated code looks up. -/
def isFree (name : String) : Bool := ! scopeNames.contains name && ! startsWith "__" name

/-- Whether a table of ordinals has a member for each of its names. -/
def OrdinalTable.isFree (t : OrdinalTable) : Bool :=
  Generated.isFree t.name && t.members.all (! isOrdinalReserved ·) && decide t.members.Nodup

/-- Whether the constants of a class leave its other members and each other alone. -/
def Class.isFree (c : Class) : Bool :=
  Generated.isFree c.name && decide (c.constants.map (·.name)).Nodup
    && c.constants.all fun k => Generated.isFree k.name && ! generatedMembers.contains k.name

/-- Whether the classes and tables of an item leave each other and the rest alone. -/
def Item.isFree : Item → Bool
  | .single c => c.isFree
  | .group name _ tables classes =>
    Generated.isFree name && decide (classes.map (·.name)).Nodup
      && decide (tables.map (·.name)).Nodup && classes.all Class.isFree
      && tables.all OrdinalTable.isFree

/-- The names that an item binds in its module before its classes run, and all of them. -/
def Item.names : Item → List String × List String
  | .single c => ([], [c.name])
  | .group name _ tables _ =>
    let companion := if tables.isEmpty then [] else [companionName name]
    (companion, name :: companion)

/-- Whether no name of a module takes the place of another one, or of one that its code looks up.
What a module does in which one does is not described. -/
def Module.isFree (m : Module) : Bool :=
  decide (m.items.flatMap (·.names.2)).Nodup && m.items.all Item.isFree

/-! ## All metadata -/

/-- The metadata of a class and of its constants. -/
def Class.allNotes (c : Class) : List Notes := c.notes :: c.constants.map (·.notes)

/-- The metadata of an item. -/
def Item.notes : Item → List Notes
  | .single c => c.allNotes
  | .group _ notes _ classes => notes :: classes.flatMap Class.allNotes

/-- All metadata of a module. -/
def Module.notes (m : Module) : List Notes := m.items.flatMap Item.notes

end Generated
end MaskEnum
