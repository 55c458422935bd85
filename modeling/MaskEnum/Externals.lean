import MaskEnum.Files
import MaskEnum.Table
import MaskEnum.Text.Integer
import MaskEnum.Toml.Parser
set_option autoImplicit false

/-!
# Externals files

An externals file is a TOML document with the values of constants and of the variants of
enumerations that are defined elsewhere. It may hold a table `constants` and a table `enums` of
tables, and nothing else. What can only mean one integer is taken as that integer: a truth value, a
float without a fraction, a text that writes an integer in base ten.

## Main definitions

* `MaskEnum.Externals` — the contents of a file, with `Externals.merge`.
* `MaskEnum.Externals.integer?` — the integer that a value means.
* `MaskEnum.Externals.ofFields` — the contents of a document.
* `MaskEnum.Externals.load` — the contents of the file at a path.
-/

namespace MaskEnum

/-- Values that are defined elsewhere. -/
structure Externals where
  constants : Table String Int := .empty
  enums : Table String (Table String Int) := .empty
  deriving DecidableEq, Repr

/-- Why an externals file cannot be used. -/
inductive ExternalsFault where
  | unreadable (path : Path) (fault : FileFault)
  | badToml (path : Path)
  | invalid (path : Path)
  deriving DecidableEq, Repr

/-- The wording of a fault. -/
def ExternalsFault.message : ExternalsFault → String
  | unreadable path fault => "Cannot read externals file " ++ path.text ++ ": " ++ fault.message
  | badToml path => "Invalid TOML in " ++ path.text
  | invalid path => "Invalid externals file " ++ path.text

namespace Externals

/-- The number that digits write, without a needless zero at the front. -/
def numeral? : List Char → Option Nat
  | [] => none
  | ['0'] => some 0
  | c :: cs =>
    if c = '0' || ! (c :: cs).all Char.isDigit then none
    else some (Text.digitsValue 10 ((c :: cs).map fun d => d.toNat - '0'.toNat))

/-- The integer that digits behind at most a minus sign write. -/
def plain? : List Char → Option Int
  | '-' :: cs => (numeral? cs).map fun n => -n
  | cs => (numeral? cs).map fun n => n

/-- Whether two underscores stand side by side. -/
def hasDouble (cs : List Char) : Bool :=
  (cs.zip (cs.drop 1)).any fun pair => pair.1 == '_' && pair.2 == '_'

/-- Drops the zeros at the front, and underscores among them, up to the last of both unless
another digit follows. -/
def dropZeros (cs : List Char) : Option (List Char) :=
  let isFiller (c : Char) : Bool := c == '0' || c == '_'
  match cs with
  | '0' :: _ =>
    match (cs.takeWhile isFiller).getLast?, cs.dropWhile isFiller with
    | some last, [] => some [last]
    | some last, '.' :: rest => some (last :: '.' :: rest)
    | _, c :: rest => if c.isDigit then some (c :: rest) else none
    | none, [] => none
  | c :: _ => if c.isDigit || c == '-' then some cs else none
  | [] => none

/-- Drops a point with nothing but zeros after it. -/
def dropFraction (cs : List Char) : List Char :=
  match cs.dropWhile (· != '.') with
  | '.' :: fraction => if fraction.all (· == '0') then cs.takeWhile (· != '.') else cs
  | _ => cs

/-- Drops underscores that stand between other characters, one at a time. -/
def dropUnderscores (cs : List Char) : List Char :=
  if cs.head? == some '_' || cs.getLast? == some '_' || hasDouble cs then cs
  else cs.filter (· != '_')

/-- A number in its plain form: without a plus sign, needless zeros and underscores. -/
def tidy (cs : List Char) : Option (List Char) := do
  let unsigned ← (match cs with
    | '+' :: '-' :: _ => none
    | '+' :: rest => some rest
    | _ => some cs : Option (List Char))
  if hasDouble unsigned then none
  else some (dropUnderscores (dropFraction (← dropZeros unsigned)))

/-- The integer that a text means. Blanks around it do not count. -/
def integerOfText? (s : String) : Option Int :=
  let cs := Text.stripOf Text.isNumberBlank s.toList
  (plain? cs).or ((tidy cs).bind plain?)

/-- The magnitude that floats must stay below to be taken as integers. -/
def floatLimit : Nat := 1 <<< 63

/-- The integer that a value means. A float must lie within the range of 64-bit integers. -/
def integer? : Toml.Value → Option Int
  | .integer n => some n
  | .boolean b => some (if b then 1 else 0)
  | .float x => x.toInt?.bind fun n => if n.natAbs < floatLimit then some n else none
  | .text s => integerOfText? s
  | _ => none

/-- The table of integers that a value means. -/
def table? : Toml.Value → Option (Table String Int)
  | .table fields => do
    some (.ofList (← fields.mapM fun (name, v) => do some (name, ← integer? v)))
  | _ => none

/-- The table of tables of integers that a value means. -/
def tables? : Toml.Value → Option (Table String (Table String Int))
  | .table fields => do
    some (.ofList (← fields.mapM fun (name, v) => do some (name, ← table? v)))
  | _ => none

/-- A field of a document, read by `f`; a missing one is an empty table. -/
def field {α : Type} (f : Toml.Value → Option (Table String α)) (fields : Toml.Fields)
    (name : String) : Option (Table String α) :=
  match fields.get? name with
  | some v => f v
  | none => some .empty

/-- The contents of a document, if it is an externals file. -/
def ofFields (fields : Toml.Fields) : Option Externals := do
  if fields.all fun (name, _) => name == "constants" || name == "enums" then
    some ⟨← field table? fields "constants", ← field tables? fields "enums"⟩
  else none

/-- The contents with other constants set on top. -/
def merge (e : Externals) (constants : Table String Int) : Externals :=
  { e with constants := e.constants.merge constants }

/-- The contents of a text, which stands at a path. -/
def parse (path : Path) (text : String) : Except ExternalsFault Externals :=
  match Toml.parse text with
  | none => .error (.badToml path)
  | some fields =>
    match ofFields fields with
    | none => .error (.invalid path)
    | some externals => .ok externals

/-- The contents of the file at a path. -/
def load {m : Type → Type} [Monad m] (fs : FileSystem m) (path : Path) :
    m (Except ExternalsFault Externals) := do
  match ← fs.read path with
  | .error fault => pure (.error (.unreadable path fault))
  | .ok text => pure (parse path text)

end Externals
end MaskEnum
