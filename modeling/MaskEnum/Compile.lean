import MaskEnum.Declaration.Blocks
import MaskEnum.Declaration.Collisions
import MaskEnum.Declaration.Parser
import MaskEnum.Generated.Text
import MaskEnum.Resolution.Unit
import MaskEnum.Surface
import MaskEnum.Token.Lexer
set_option autoImplicit false

/-!
# Compiling a declaration text

A text is cut into tokens and blocks, each block is read as a declaration, names are checked,
values resolved and a module generated. Compilation is all or nothing: the first fault ends it.

## Main definitions

* `MaskEnum.declarationsOf` — the declarations of a text.
* `MaskEnum.Options` — what else decides the outcome.
* `MaskEnum.Collisions.symbols` — refuses constants that generated names would hide.
* `MaskEnum.compile` — the compiled unit of a text.
* `MaskEnum.CompiledUnit.type?` — a type of a compiled unit by name.
-/

namespace MaskEnum

/-- The declarations of a text. -/
def declarationsOf (text : String) : Except Error (List Declaration) := do
  let list ← tokenize text
  let blocks ← splitBlocks list.tokens (some list.stop)
  blocks.mapM Declaration.ofTokens

/-- What decides the outcome besides the text. `source` names the text in the generated module,
the lines of `preamble` are put into it, and `read` reads the expressions of documentation. -/
structure Options where
  environment : Environment := {}
  source : Option String := none
  preamble : List String := []
  read : Docs.Reader := Docs.evaluate

/-- The outcome of compiling a text. -/
structure CompiledUnit where
  declarations : List Declaration
  resolved : List ResolvedEnum
  types : List Surface
  module : Generated.Module

namespace Collisions

/-- The names that generated code for these declarations has at module level. -/
def moduleNames (ds : List Declaration) : List String :=
  scopeNames ++ ds.flatMap fun d =>
    match d with
    | .block enums => enums.map (·.name)
    | .module name .. => [name, companionName name]

/-- Refuses the first constant of an enumeration that a variant or a name at module level hides. -/
def symbolsOf (hidden : List String) (e : ResolvedEnum) : Except Error Unit :=
  match e.symbols.find? fun s => e.variants.any (·.name == s) || hidden.contains s with
  | some s =>
    .error ⟨.collision (.shadowed s e.decl.qualifiedName.text), some e.decl.position⟩
  | none => .ok ()

/-- Refuses the first constant that generated code could not read. -/
def symbols (ds : List Declaration) (resolved : List ResolvedEnum) : Except Error Unit :=
  resolved.forM (symbolsOf (moduleNames ds))

end Collisions

/-- The compiled unit of a text. -/
def compile (text : String) (options : Options) : Except Error CompiledUnit := do
  let declarations ← declarationsOf text
  Collisions.declarations declarations
  let resolved ← resolveUnit (declarations.flatMap Declaration.enums) options.environment
  Collisions.symbols declarations resolved
  let module ← (Generated.ofUnit options.read declarations resolved options.source
    options.preamble).mapError fun fault => ⟨fault, none⟩
  let types := declarations.flatMap (Surface.ofDeclaration (Generated.byName resolved))
  .ok ⟨declarations, resolved, types, module⟩

namespace CompiledUnit

/-- The constants without a value that the generated module needs, sorted. -/
def symbols (u : CompiledUnit) : List String :=
  sortedNames (u.resolved.flatMap ResolvedEnum.symbols)

/-- The text of the generated module. -/
def text (u : CompiledUnit) : String := u.module.text

/-- Why a name means no type of a unit. -/
inductive TypeFault where
  | unknown (name : String)
  | ambiguous (name : String) (candidates : List String)
  deriving DecidableEq, Repr

/-- The wording of a type fault. -/
def TypeFault.message : TypeFault → String
  | unknown name => "Type '" ++ name ++ "' not found"
  | ambiguous name candidates =>
    "Ambiguous type name '" ++ name ++ "' (candidates: " ++ ", ".intercalate candidates ++ ")"

/-- The type of a name: a full name, or a bare one that only one type has. -/
def type? (u : CompiledUnit) (name : String) : Except TypeFault Surface :=
  match u.types.find? (·.qualifiedName == name) with
  | some t => .ok t
  | none =>
    match u.types.filter (·.name == name) with
    | [] => .error (.unknown name)
    | [t] => .ok t
    | ts => .error (.ambiguous name (ts.map qualified))
where
  /-- A candidate as reports call it. -/
  qualified (t : Surface) : String := t.qualifiedName

end CompiledUnit
end MaskEnum
