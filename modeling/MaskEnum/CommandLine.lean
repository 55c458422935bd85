import MaskEnum.Path
import MaskEnum.Text.Integer
set_option autoImplicit false

/-!
# The command line

The program is called with the name of a command and its arguments. Options of the program itself
stand before the name. Behind it, options and other arguments may be mixed; after two hyphens
everything is an argument. An option that takes a value has it behind an equals sign, or in the
next argument whatever that looks like; a one-letter option may also have it right behind the
letter.

## Main definitions

* `MaskEnum.Command` — the commands.
* `MaskEnum.CommandLine.Switch`, `MaskEnum.CommandLine.scan` — options, and the arguments of a call
  sorted into options and words.
* `MaskEnum.CommandLine`, `MaskEnum.CommandLine.parse` — what a call asks for.
-/

namespace MaskEnum

/-- A command of the program. -/
inductive Command where
  | generate (source : Path) (output externals : Option Path) (strict : Bool)
  | check (source : Path) (externals : Option Path) (strict : Bool)
  | describe (source : Path) (output externals : Option Path) (indent : Int)
  | build
  deriving DecidableEq, Repr

/-- What a call of the program asks for. -/
inductive CommandLine where
  | help
  | misuse
  | run (command : Command)
  deriving DecidableEq, Repr

namespace CommandLine

/-- An option: its name behind two hyphens, and whether it takes a value; if so, it may have a
letter too. -/
inductive Switch where
  | flag (name : String)
  | setting (name : String) (letter : Option Char)
  deriving DecidableEq, Repr

/-- The name of an option. -/
def Switch.name : Switch → String
  | flag name | setting name _ => name

/-- Whether an option has a letter. -/
def Switch.hasLetter (c : Char) : Switch → Bool
  | flag _ => false
  | setting _ letter => letter == some c

/-- A part of a call. -/
inductive Part where
  | flag (name : String)
  | setting (name value : String)
  | word (text : String)
  deriving DecidableEq, Repr

/-- An option argument cut at its equals sign. -/
def cutValue (cs : List Char) : List Char × Option String :=
  match cs.dropWhile (· != '=') with
  | _ :: value => (cs.takeWhile (· != '='), some (String.ofList value))
  | [] => (cs, none)

/-- How an argument that starts with a hyphen is understood: an option with the value attached to
it. -/
def option? (switches : List Switch) : List Char → Option (Switch × Option String)
  | '-' :: '-' :: cs =>
    let (name, value) := cutValue cs
    (switches.find? (·.name.toList == name)).map fun s => (s, value)
  | '-' :: c :: cs =>
    (switches.find? (·.hasLetter c)).map fun s =>
      (s, if cs.isEmpty then none else some (String.ofList cs))
  | _ => none

/-- Whether an argument is an option; a lone hyphen is none. -/
def isOption (arg : String) : Bool :=
  match arg.toList with
  | '-' :: _ :: _ => true
  | _ => false

/-- Sorts the arguments of a call. Unless `mixed`, everything behind the first word is a word. -/
def scan (switches : List Switch) (mixed : Bool) : List String → Option (List Part)
  | [] => some []
  | arg :: rest =>
    if arg = "--" then some (rest.map .word)
    else if isOption arg then
      match option? switches arg.toList with
      | some (.flag name, none) => (scan switches mixed rest).map (.flag name :: ·)
      | some (.setting name _, some value) =>
        (scan switches mixed rest).map (.setting name value :: ·)
      | some (.setting name _, none) =>
        match rest with
        | value :: rest => (scan switches mixed rest).map (.setting name value :: ·)
        | [] => none
      | _ => none
    else if mixed then (scan switches mixed rest).map (.word arg :: ·)
    else some ((arg :: rest).map .word)

/-! ## Commands -/

/-- The words of a call. -/
def words (parts : List Part) : List String :=
  parts.filterMap fun
    | .word text => some text
    | _ => none

/-- Whether a flag is set. -/
def isSet (parts : List Part) (name : String) : Bool := parts.contains (.flag name)

/-- The value of a setting; the last one counts. -/
def setting? (parts : List Part) (name : String) : Option String :=
  (parts.filterMap fun
    | .setting n value => if n = name then some value else none
    | _ => none).getLast?

/-- The option that asks for help, which everything understands. -/
def helpFlag : Switch := .flag "help"

/-- The options of the program itself. How much is logged changes nothing else. -/
def programSwitches : List Switch := [helpFlag, .flag "verbose", .flag "no-verbose"]

/-- The options of a command. -/
def switches? : String → Option (List Switch)
  | "generate" =>
    some [helpFlag, .setting "output" (some 'o'), .setting "externals" none, .flag "strict"]
  | "check" => some [helpFlag, .setting "externals" none, .flag "strict"]
  | "describe" =>
    some [helpFlag, .setting "output" (some 'o'), .setting "externals" none,
      .setting "indent" none]
  | "build" => some [helpFlag]
  | _ => none

/-- The indentation that is asked for. -/
def indent? (parts : List Part) : Option Int :=
  match setting? parts "indent" with
  | none => some 2
  | some text => Text.readInteger 10 text.toList

/-- The command of a name and the parts of its arguments. -/
def command? (name : String) (parts : List Part) : Option Command :=
  let path (name : String) : Option Path := (setting? parts name).map Path.ofText
  match name, words parts with
  | "generate", [source] =>
    some (.generate (.ofText source) (path "output") (path "externals") (isSet parts "strict"))
  | "check", [source] =>
    some (.check (.ofText source) (path "externals") (isSet parts "strict"))
  | "describe", [source] =>
    (indent? parts).map (.describe (.ofText source) (path "output") (path "externals"))
  | "build", [] => some .build
  | _, _ => none

/-- What a call with the name of a command and the arguments behind it asks for. -/
def parseCommand (name : String) (args : List String) : CommandLine :=
  match (switches? name).bind (scan · true args) with
  | none => .misuse
  | some parts =>
    if isSet parts helpFlag.name then .help
    else match command? name parts with
      | some command => .run command
      | none => .misuse

/-- What a call asks for. -/
def parse (args : List String) : CommandLine :=
  match scan programSwitches false args with
  | none => .misuse
  | some parts =>
    if isSet parts helpFlag.name then .help
    else match words parts with
      | name :: args => parseCommand name args
      | [] => .misuse

end CommandLine
end MaskEnum
