import MaskEnum.Generated.Text
set_option autoImplicit false

/-!
# Statements and the names in them

Generated code as a tree: a line is made of pieces, and among these a name that stands by itself is
told from one behind a dot, from keywords and from what stands in quotes. Statements bind names and
look names up. A class and a function have a scope of their own. A name that is looked up is
searched in the innermost scope and then in that of the module, since what is bound in a class
around is not seen in the classes and functions inside. External constants are told apart from all
other names.

## Main definitions

* `MaskEnum.Generated.Piece`, `MaskEnum.Generated.Step`, `MaskEnum.Generated.Function`,
  `MaskEnum.Generated.Stmt` — pieces of a line, lines of a function, functions and statements.
* `MaskEnum.Generated.linesOf` — the lines of statements.
* `MaskEnum.Generated.boundBy`, `MaskEnum.Generated.scopesOf` — the names that statements bind in
  their scope, and in those inside of it.
* `MaskEnum.Generated.lookupsOf` — the names that statements look up, each with the innermost scope
  in which it is searched.
-/

namespace MaskEnum

namespace Generated

/-! ## Lines -/

/-- A piece of a line. -/
inductive Piece where
  /-- A name that stands by itself. -/
  | name (name : String)
  /-- The name of an external constant, which is supplied from outside of the module. -/
  | constant (name : String)
  /-- The name of an attribute, behind a dot. -/
  | member (name : String)
  /-- The name of an argument, with its value behind it. -/
  | label (name : String)
  | word (word : String) (keyword : isKeyword word = true := by decide)
  | number (value : Int)
  /-- A text in quotes. -/
  | quoted (text : String)
  /-- A part of a literal as it stands, with the quotes that belong to it. -/
  | literal (text : String)
  /-- Blanks, brackets, commas and operators. -/
  | mark (text : String)
      (plain : (text.toList.all fun c => ! (c.isAlphanum || c == '_' || c == '"' || c == '\'')) =
        true := by decide)

/-- A piece as written. -/
@[simp]
def Piece.text : Piece → String
  | name n => n
  | constant n => n
  | member n => "." ++ n
  | label n => n ++ "="
  | word w _ => w
  | number n => toString n
  | quoted s => Text.quoted s
  | literal s => s
  | mark m _ => m

/-- The name that a piece looks up, apart from external constants. -/
def Piece.name? : Piece → Option String
  | name n => some n
  | _ => none

/-- Pieces as written. -/
@[simp]
def codeText : List Piece → String
  | [] => ""
  | p :: ps => p.text ++ codeText ps

/-- The names that pieces look up. -/
def namesIn (code : List Piece) : List String := code.filterMap Piece.name?

/-! ## Functions -/

/-- A line of a function at a depth inside of it, which may bind a name. -/
structure Step where
  depth : Nat
  target : Option String
  code : List Piece

/-- A line of a function as written. -/
@[simp]
def Step.text (s : Step) : String :=
  pad (s.depth + 1) ++ (match s.target with
    | none => ""
    | some name => name ++ " = ") ++ codeText s.code

/-- A parameter with its annotation, if it has one. -/
structure Parameter where
  name : String
  type : List Piece

/-- A parameter as written. -/
@[simp]
def Parameter.text (p : Parameter) : String :=
  p.name ++ if p.type.isEmpty then "" else ": " ++ codeText p.type

/-- A function. -/
structure Function where
  decorators : List (List Piece)
  name : String
  parameters : List Parameter
  result : List Piece
  steps : List Step

namespace Function

/-- The lines of a function. -/
@[simp]
def lines (f : Function) : List String :=
  (f.decorators.map fun code => "@" ++ codeText code)
    ++ ["def " ++ f.name ++ "(" ++ ", ".intercalate (f.parameters.map Parameter.text) ++ ")"
      ++ (if f.result.isEmpty then "" else " -> " ++ codeText f.result) ++ ":"]
    ++ f.steps.map Step.text

/-- The names that a function looks up in the scope around it. -/
def outerNames (f : Function) : List String :=
  f.decorators.flatMap namesIn ++ f.parameters.flatMap (fun p => namesIn p.type)
    ++ namesIn f.result

/-- The names that a function looks up when it runs. -/
def innerNames (f : Function) : List String := f.steps.flatMap fun s => namesIn s.code

/-- The names of the scope of a function. -/
def locals (f : Function) : List String :=
  f.parameters.map Parameter.name ++ f.steps.filterMap Step.target

end Function

/-! ## Statements -/

/-- A statement in a class or a module. -/
inductive Stmt where
  /-- Comments, docstrings and empty lines. -/
  | remark (lines : List String)
  | importAs (module name : String)
  | assign (target : String) (value : List Piece)
  | annotate (target : String) (type : List Piece)
  | function (f : Function)
  | class (decorators : List (List Piece)) (name : String) (body : List Stmt)

/-- The names that a statement binds in its scope. -/
def Stmt.bound : Stmt → List String
  | remark _ => []
  | importAs _ name | assign name _ | annotate name _ | .class _ name _ => [name]
  | function f => [f.name]

/-- The names that statements bind in their scope. -/
def boundBy (body : List Stmt) : List String := body.flatMap Stmt.bound

/-- A name that is looked up, with those of the innermost scope in which it is searched. At module
level there are none. -/
structure Lookup where
  scope : List String
  name : String

/-- Names that are looked up in one scope. -/
def lookupsIn (scope names : List String) : List Lookup := names.map (Lookup.mk scope)

mutual

/-- The lines of a statement at a depth. -/
def Stmt.lines (depth : Nat) : Stmt → List String
  | .remark lines => lines
  | .importAs module name => indented depth ["import " ++ module ++ " as " ++ name]
  | .assign target value => indented depth [target ++ " = " ++ codeText value]
  | .annotate target type => indented depth [target ++ ": " ++ codeText type]
  | .function f => indented depth f.lines
  | .class decorators name body =>
    indented depth ((decorators.map fun code => "@" ++ codeText code) ++ ["class " ++ name ++ ":"])
      ++ linesOf (depth + 1) body

/-- The lines of statements at a depth. -/
def linesOf (depth : Nat) : List Stmt → List String
  | [] => []
  | s :: ss => s.lines depth ++ linesOf depth ss

end

mutual

/-- The scopes inside of a statement, each with the names that are bound in it. -/
def Stmt.scopes : Stmt → List (List String)
  | .remark _ | .importAs _ _ | .assign _ _ | .annotate _ _ => []
  | .function f => [f.locals]
  | .class _ _ body => boundBy body :: scopesOf body

/-- The scopes inside of statements. -/
def scopesOf : List Stmt → List (List String)
  | [] => []
  | s :: ss => s.scopes ++ scopesOf ss

end

mutual

/-- The names that a statement in a scope looks up. -/
def Stmt.lookups (scope : List String) : Stmt → List Lookup
  | .remark _ | .importAs _ _ => []
  | .assign _ code | .annotate _ code => lookupsIn scope (namesIn code)
  | .function f => lookupsIn scope f.outerNames ++ lookupsIn f.locals f.innerNames
  | .class decorators _ body =>
    lookupsIn scope (decorators.flatMap namesIn) ++ lookupsOf (boundBy body) body

/-- The names that statements in a scope look up. -/
def lookupsOf (scope : List String) : List Stmt → List Lookup
  | [] => []
  | s :: ss => s.lookups scope ++ lookupsOf scope ss

end

/-! ## Several statements -/

/-- The lines of statements in turn. -/
theorem linesOf_eq (depth : Nat) (body : List Stmt) :
    linesOf depth body = body.flatMap (Stmt.lines depth) := by
  induction body with
  | nil => rfl
  | cons s ss ih => rw [linesOf, ih, List.flatMap_cons]

/-- The scopes inside of statements in turn. -/
theorem scopesOf_eq (body : List Stmt) : scopesOf body = body.flatMap Stmt.scopes := by
  induction body with
  | nil => rfl
  | cons s ss ih => rw [scopesOf, ih, List.flatMap_cons]

/-- The names that statements look up in turn. -/
theorem lookupsOf_eq (scope : List String) (body : List Stmt) :
    lookupsOf scope body = body.flatMap (Stmt.lookups scope) := by
  induction body with
  | nil => rfl
  | cons s ss ih => rw [lookupsOf, ih, List.flatMap_cons]

section FlatMap

variable {α : Type} (g : α → List Stmt) (as : List α)

/-- The lines of statements for each of several things. -/
theorem linesOf_flatMap (depth : Nat) :
    linesOf depth (as.flatMap g) = as.flatMap fun a => linesOf depth (g a) := by
  simp only [linesOf_eq, List.flatMap_assoc]

/-- The scopes inside of them. -/
theorem scopesOf_flatMap : scopesOf (as.flatMap g) = as.flatMap fun a => scopesOf (g a) := by
  simp only [scopesOf_eq, List.flatMap_assoc]

/-- The names that they look up. -/
theorem lookupsOf_flatMap (scope : List String) :
    lookupsOf scope (as.flatMap g) = as.flatMap fun a => lookupsOf scope (g a) := by
  simp only [lookupsOf_eq, List.flatMap_assoc]

/-- The names that they bind. -/
theorem boundBy_flatMap : boundBy (as.flatMap g) = as.flatMap fun a => boundBy (g a) :=
  List.flatMap_assoc

end FlatMap

/-- The lines of statements after others. -/
theorem linesOf_append (depth : Nat) (body more : List Stmt) :
    linesOf depth (body ++ more) = linesOf depth body ++ linesOf depth more := by
  simp only [linesOf_eq, List.flatMap_append]

/-- The scopes inside of statements after others. -/
theorem scopesOf_append (body more : List Stmt) :
    scopesOf (body ++ more) = scopesOf body ++ scopesOf more := by
  simp only [scopesOf_eq, List.flatMap_append]

/-- The names that statements look up after others. -/
theorem lookupsOf_append (scope : List String) (body more : List Stmt) :
    lookupsOf scope (body ++ more) = lookupsOf scope body ++ lookupsOf scope more := by
  simp only [lookupsOf_eq, List.flatMap_append]

/-- The names that statements bind after others. -/
theorem boundBy_append (body more : List Stmt) :
    boundBy (body ++ more) = boundBy body ++ boundBy more :=
  List.flatMap_append

/-- Lines after others behind an indentation. -/
theorem indented_append (depth : Nat) (lines more : List String) :
    indented depth (lines ++ more) = indented depth lines ++ indented depth more :=
  List.map_append

/-- Pieces after others. -/
@[simp]
theorem codeText_append (code more : List Piece) :
    codeText (code ++ more) = codeText code ++ codeText more := by
  induction code with
  | nil => exact (String.empty_append).symm
  | cons p ps ih => rw [List.cons_append, codeText, codeText, ih, String.append_assoc]

/-- The names in pieces after others. -/
theorem namesIn_append (code more : List Piece) :
    namesIn (code ++ more) = namesIn code ++ namesIn more :=
  List.filterMap_append

end Generated

end MaskEnum
