import MaskEnum.Operator
import MaskEnum.Text.Quoted
set_option autoImplicit false

/-!
# Faults of a declaration text

Everything that can be wrong with a declaration text, as causes. A cause knows nothing of its
place; an `Error` is a cause with the position it is reported at, if it has one. The wording of
each cause is in its function `message`, and nowhere else.

## Main definitions

* `MaskEnum.Position` — a line and a column, both counted from one.
* `MaskEnum.LexicalFault`, `MaskEnum.InitializerFault`, `MaskEnum.ShapeFault`,
  `MaskEnum.CollisionFault`, `MaskEnum.ResolutionFault`, `MaskEnum.ExpressionFault` — the causes, by
  stage.
* `MaskEnum.digitLimit` — how many digits an integer in a report may have.
* `MaskEnum.Fault`, `MaskEnum.Error` — a cause of any stage, and a reported one.

## Implementation notes

A string inside an attribute that the text does not close is a fault of its own kind
(`LexicalFault.openString`): unlike most others it is no verdict on the declaration language, and a
command line does not report it as one. No more is a value that cannot be resolved when the report
would have to write an integer with too many digits (`Fault.unwritable`).
-/

namespace MaskEnum

/-- A place in a text: line and column from one, columns in characters. -/
structure Position where
  line : Nat
  column : Nat
  deriving DecidableEq, Repr, Inhabited

namespace Position

/-- The first character of a text. -/
def start : Position := ⟨1, 1⟩

/-- The place after a character; only a line feed starts a line. -/
def after (p : Position) (c : Char) : Position :=
  if c = '\n' then ⟨p.line + 1, 1⟩ else ⟨p.line, p.column + 1⟩

/-- The place after a text. -/
def advance (p : Position) (cs : List Char) : Position := cs.foldl after p

end Position

/-- Why a text is no token list. -/
inductive LexicalFault where
  | unexpected (c : Char)
  | floatLiteral
  | openComment
  | openAttribute
  | openString
  deriving DecidableEq, Repr

/-- The wording of a lexical fault. -/
def LexicalFault.message : LexicalFault → String
  | unexpected c => "unexpected character " ++ String.ofList (Text.quote [c])
  | floatLiteral => "floating-point literals are not supported"
  | openComment => "unterminated block comment"
  | openAttribute => "unterminated attribute"
  | openString => "unterminated string in an attribute"

/-- Why a list of tokens is no initializer. -/
inductive InitializerFault where
  | missing
  | endsEarly
  | expected (what : String)
  | unexpected (text : String)
  | lateDifference
  | outOfOrder (op : Operator) (order : List Operator)
  | bareConstantFollowed
  | bareConstantOperand
  | negatedLiteral
  | floatType
  | unknownType (name : String)
  deriving DecidableEq, Repr

/-- The wording of an initializer's fault. -/
def InitializerFault.message : InitializerFault → String
  | missing => "missing value after '='"
  | endsEarly => "unexpected end of expression"
  | expected what => "expected " ++ what
  | unexpected text => "unexpected token " ++ Text.quoted text
  | lateDifference => "'-' terms must directly follow the leading operand"
  | outOfOrder op order =>
    "operator '" ++ op.symbol ++ "' is out of group order ("
      ++ " ".intercalate (order.map Operator.symbol) ++ ")"
  | bareConstantFollowed =>
    "a '::NAME' reference must be the sole initializer; use '(TYPE) NAME' with operators"
  | bareConstantOperand =>
    "a '::NAME' reference cannot be combined with operators; use '(TYPE) NAME'"
  | negatedLiteral => "negation only applies to variant names; write a signed literal instead"
  | floatType => "floating-point values are not supported"
  | unknownType name => "unknown type annotation " ++ Text.quoted name

/-- The name of the invocation that holds a declaration block. -/
def invocationName : String := "encap_enum"

/-- What a name is declared as. -/
inductive NameKind where
  | module | enumeration | variant
  deriving DecidableEq, Repr

/-- The kind of a name as reports call it. -/
def NameKind.text : NameKind → String
  | module => "module"
  | enumeration => "enum"
  | variant => "variant"

/-- Why a list of tokens has none of the shapes of a declaration. -/
inductive ShapeFault where
  | emptyLiteral (text : String)
  | badLiteral (base : Nat) (digits : String)
  | initializer (variant : String) (fault : InitializerFault)
  | strayToken (text : String)
  | missingOpener
  | unclosedBlock (opener : String)
  | expected (what : String) (found : Option String)
  | expectedKeyword (word : String)
  | unknownScope (scope : String)
  | floatUnderlying
  | unknownUnderlying (name : String)
  | leadingMetadata (enumeration : String)
  | mixedVariants (enumeration : String)
  | expectedComma (variant : String)
  | noVariants (enumeration : String)
  | unclosedModule (module : String)
  | emptyModule (module : String)
  | emptyBlock
  | crowdedModule
  | bareOrdinals
  | reservedName (kind : NameKind) (name : String)
  deriving DecidableEq, Repr

/-- How much of its quoted digits the report of a bad literal shows. -/
def shownDigits : Nat := 200

/-- The wording of a shape fault. -/
def ShapeFault.message : ShapeFault → String
  | emptyLiteral text => "invalid integer literal " ++ Text.quoted text
  | badLiteral base digits =>
    "invalid literal for int() with base " ++ toString base ++ ": "
      ++ String.ofList ((Text.quote digits.toList).take shownDigits)
  | initializer variant fault => "variant '" ++ variant ++ "': " ++ fault.message
  | strayToken text =>
    "expected '" ++ invocationName ++ "!' invocation, found " ++ Text.quoted text
  | missingOpener => "expected '\x7b' after '" ++ invocationName ++ "!'"
  | unclosedBlock opener =>
    "unclosed '" ++ opener ++ "' in '" ++ invocationName ++ "!' invocation"
  | expected what found =>
    "expected " ++ what ++ ", found " ++ (found.map Text.quoted).getD "end of block"
  | expectedKeyword word => "expected '" ++ word ++ "'"
  | unknownScope scope => "unknown visibility scope " ++ Text.quoted scope
  | floatUnderlying => "floating-point underlying types are not supported"
  | unknownUnderlying name => "unsupported underlying type " ++ Text.quoted name
  | leadingMetadata enumeration =>
    "enum '" ++ enumeration ++ "': attributes cannot be placed before the first variant"
  | mixedVariants enumeration =>
    "enum '" ++ enumeration ++ "' mixes valued and fieldless variants"
  | expectedComma variant => "expected ',' after variant '" ++ variant ++ "'"
  | noVariants enumeration => "enum '" ++ enumeration ++ "' must declare at least one variant"
  | unclosedModule module => "unclosed module '" ++ module ++ "'"
  | emptyModule module => "module '" ++ module ++ "' must contain at least one enum"
  | emptyBlock => "empty declaration block"
  | crowdedModule => "a module wrapper must be the only item of its block"
  | bareOrdinals => "fieldless enumerations must be declared inside a module wrapper"
  | reservedName kind name =>
    kind.text ++ " '" ++ name ++ "' cannot be used as a name in generated Python code"

/-- The start of every name that belongs to a table of ordinals. -/
def companionMark : String := "_encap_enum_"

/-- Why two names of a unit cannot stand side by side. A `label` is the name as reported. -/
inductive CollisionFault where
  | sameName (kind : NameKind) (name : String) (earlier : NameKind)
  | scopeName (kind : NameKind) (label : String)
  | companionName (kind : NameKind) (label : String)
  | generatedMember (label : String)
  | ordinalName (label : String)
  | sameVariant (variant enumeration : String)
  | shadowed (symbol enumeration : String)
  deriving DecidableEq, Repr

/-- The wording of a collision. -/
def CollisionFault.message : CollisionFault → String
  | sameName kind name earlier =>
    kind.text ++ " '" ++ name ++ "' collides with " ++ earlier.text ++ " of the same name"
  | scopeName kind label =>
    kind.text ++ " '" ++ label ++ "' collides with a name the generated code relies on"
  | companionName kind label =>
    kind.text ++ " '" ++ label ++ "' uses the reserved prefix '" ++ companionMark ++ "'"
  | generatedMember label => "variant '" ++ label ++ "' collides with a generated member"
  | ordinalName label => "variant '" ++ label ++ "' collides with a reserved ordinal table name"
  | sameVariant variant enumeration =>
    "duplicate variant '" ++ variant ++ "' in enum '" ++ enumeration ++ "'"
  | shadowed symbol enumeration =>
    "external constant '" ++ symbol ++ "' used by enum '" ++ enumeration
      ++ "' is shadowed by a generated name"

/-- Why a value could not be resolved. -/
inductive ResolutionFault where
  | ordinalRange (ordinal : Nat) (type : IntType)
  | literalRange (value : Int) (type : IntType)
  | unsignedNegation (name : String) (type : IntType)
  | arithmetic (fault : ArithFault)
  | selfReference (name : String)
  | forwardReference (name : String)
  | unknownVariant (name : String) (type : IntType)
  | undefinedConstant (name : String)
  | reservedConstant (name : String)
  | missingVariant (path name : String)
  | unknownEnumeration (path : String)
  deriving DecidableEq, Repr

/-- The wording of a resolution fault. -/
def ResolutionFault.message : ResolutionFault → String
  | ordinalRange ordinal type => "ordinal " ++ toString ordinal ++ " does not fit " ++ type.name
  | literalRange value type =>
    "literal " ++ toString value ++ " out of range for " ++ type.name
  | unsignedNegation name type =>
    "cannot negate '" ++ name ++ "': underlying type " ++ type.name ++ " is unsigned"
  | arithmetic fault => fault.message
  | selfReference name => "variant '" ++ name ++ "' cannot refer to itself"
  | forwardReference name =>
    "'" ++ name ++ "' is declared later; variants may only refer to earlier variants"
  | unknownVariant name type =>
    "unknown variant '" ++ name ++ "' (annotate external constants, e.g. '(" ++ type.name ++ ") "
      ++ name ++ "')"
  | undefinedConstant name => "external constant '" ++ name ++ "' is not defined"
  | reservedConstant name =>
    "external constant '" ++ name ++ "' is a reserved word in Python"
  | missingVariant path name => "enumeration '" ++ path ++ "' has no variant '" ++ name ++ "'"
  | unknownEnumeration path => "unknown enumeration '" ++ path ++ "'"

/-- Why an expression of literals has no value. -/
inductive ExpressionFault where
  /-- A part of it is no literal. -/
  | malformed
  /-- A key of a dictionary or a member of a set cannot be one. -/
  | unhashableKey
  /-- An integer is too large for a sum with an imaginary number. -/
  | hugeSum
  /-- The expression is beyond its reader: it is nested too deep, say, or what becomes of it is not
  described. -/
  | unreadable
  deriving DecidableEq, Repr

/-- The wording of an expression's fault. -/
def ExpressionFault.message : ExpressionFault → String
  | malformed => "malformed node or string"
  | unhashableKey => "unhashable key"
  | hugeSum => "int too large to convert to float"
  | unreadable => "the expression cannot be read"

/-- How many digits an integer may have that is written into a text. -/
def digitLimit : Nat := 4300

/-- Whether an integer can be written into a text. -/
def isWritable (n : Int) : Bool := decide (n.natAbs < Nat.pow 10 digitLimit)

/-- The integer in the wording of a fault that may have too many digits: one that is written in the
declarations or comes from elsewhere. All others lie in the range of a type, or are computed from
two that do. -/
def ResolutionFault.told? : ResolutionFault → Option Int
  | literalRange value _ | arithmetic (.constant value _) => some value
  | _ => none

/-- What is wrong with a declaration text. -/
inductive Fault where
  | lexical (fault : LexicalFault)
  | shape (fault : ShapeFault)
  | collision (fault : CollisionFault)
  /-- A value of the variant `site` cannot be resolved. -/
  | resolution (site : String) (fault : ResolutionFault)
  /-- A value cannot be resolved, and the integer that is to blame cannot be written. -/
  | unwritable
  /-- A bare enumeration name has several candidates. -/
  | ambiguous (path : String) (candidates : List String)
  /-- Enumerations refer to each other in a circle. -/
  | circular (members : List String)
  /-- Documentation is written as an expression without a value. -/
  | documentation (fault : ExpressionFault)
  deriving DecidableEq, Repr

/-- The wording of a fault, without its place. -/
def Fault.message : Fault → String
  | lexical fault => fault.message
  | shape fault => fault.message
  | collision fault => fault.message
  | resolution site fault => site ++ ": " ++ fault.message
  | unwritable =>
    "Exceeds the limit (" ++ toString digitLimit ++ " digits) for integer string conversion; "
      ++ "use sys.set_int_max_str_digits() to increase the limit"
  | ambiguous path candidates =>
    "ambiguous enumeration reference '" ++ path ++ "' (candidates: "
      ++ ", ".intercalate candidates ++ ")"
  | circular members =>
    "circular references between enumerations: " ++ ", ".intercalate members
  | documentation fault => fault.message

/-- A reported fault. -/
structure Error where
  fault : Fault
  position : Option Position := none
  deriving DecidableEq, Repr

/-- The report: the place, if there is one, and the wording. -/
def Error.message (e : Error) : String :=
  match e.position with
  | none => e.fault.message
  | some p =>
    "line " ++ toString p.line ++ ", column " ++ toString p.column ++ ": " ++ e.fault.message

end MaskEnum
