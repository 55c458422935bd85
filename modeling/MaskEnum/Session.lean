import MaskEnum.CommandLine
import MaskEnum.Config
import MaskEnum.Description
import MaskEnum.Externals
set_option autoImplicit false

/-!
# Running commands

A session runs one command. It reads the configuration and the files that it needs, reports what it
does, and ends well, with a failure that it has reported, or with a fault that escapes it. A build
compiles every source before it writes any module, so that a failure leaves no module behind.

## Main definitions

* `MaskEnum.Report`, `MaskEnum.Transcript` — what is reported, and all that a session leaves
  besides files.
* `MaskEnum.Ending` — how a session ends, with its `exitCode`.
* `MaskEnum.Session.compileFile` — the compiled unit of a file.
* `MaskEnum.Session.perform`, `MaskEnum.Session.run` — a command.
-/

namespace MaskEnum

/-- A report of a session. -/
inductive Report where
  | failed (message : String)
  | loading (path : Path)
  | compiling (path : Path)
  /-- The constants that a unit still needs. -/
  | pending (symbols : List String)
  | writingModule (path : Path)
  | generated (count : Nat)
  /-- The types of a unit: name, wrapped type, visibilities and variants of each. -/
  | types (rows : List (List String))
  | valid
  | writingDescription (path : Path)
  | described
  | built (source target : Path) (count : Nat)
  | finished (count : Nat)
  deriving DecidableEq, Repr

/-- The wording of a report. -/
def Report.text : Report → String
  | failed message => "✗ " ++ message
  | loading path => "Loading externals from: " ++ path.text
  | compiling path => "Compiling: " ++ path.text
  | pending symbols => "⚠ Values resolved at import time from: " ++ ", ".intercalate symbols
  | writingModule path => "Writing module to: " ++ path.text
  | generated count => "✓ Generated " ++ toString count ++ " type(s)"
  | types rows => "\n".intercalate (rows.map (" | ".intercalate ·))
  | valid => "✓ Declarations are valid"
  | writingDescription path => "Writing description to: " ++ path.text
  | described => "✓ Description written"
  | built source target count =>
    "✓ " ++ source.name ++ " -> " ++ target.text ++ " (" ++ toString count ++ " types)"
  | finished count => "✓ Built " ++ toString count ++ " module(s)"

/-- What a session leaves besides files: its output, and its reports in order. -/
structure Transcript where
  output : String := ""
  reports : List Report := []
  deriving DecidableEq, Repr

/-- A fault that is no verdict on what the user has written, and so is not reported as one. -/
inductive Escape where
  | fault (f : Fault)
  | config (f : ConfigFault)
  | file (f : FileFault)
  | indent (n : Int)
  deriving DecidableEq, Repr

/-- The wording of such a fault. -/
def Escape.message : Escape → String
  | fault f => f.message
  | config f => f.message
  | file f => f.message
  | indent n =>
    if n < 0 then "can't convert negative int to unsigned" else "int too big to convert"

/-- How a session ends. -/
inductive Ending where
  | success
  | failure
  | escaped (e : Escape)
  deriving DecidableEq, Repr

/-- The exit code of a program that ends so. -/
def Ending.exitCode : Ending → UInt32
  | success => 0
  | failure | escaped _ => 1

/-- Whether a fault is a verdict on a declaration text. -/
def Fault.isReported : Fault → Bool
  | lexical .openString | shape (.badLiteral ..) | unwritable | documentation _ => false
  | _ => true

/-- A part of a session: it adds to the transcript, and may end the session. -/
abbrev Session (m : Type → Type) := ExceptT Ending (StateT Transcript m)

namespace Session

variable {m : Type → Type} [Monad m]

/-- Adds a report. -/
def report (r : Report) : Session m Unit :=
  modify fun t => { t with reports := t.reports ++ [r] }

/-- Adds to the output. -/
def print (text : String) : Session m Unit :=
  modify fun t => { t with output := t.output ++ text }

/-- Ends the session with a failure. -/
def fail {α : Type} (message : String) : Session m α := do
  report (.failed message)
  throw .failure

/-- Ends the session with a fault that is not reported. -/
def escape {α : Type} (e : Escape) : Session m α := throw (.escaped e)

/-- The configuration for the working directory. -/
def config (fs : FileSystem m) : Session m Config := do
  match ← (Config.load fs (← fs.workingDirectory) : m _) with
  | .ok c => pure c
  | .error f => if f.isReported then fail f.message else escape (.config f)

/-- The values from elsewhere: those of the externals file, which may be given by an option or the
configuration, with the constants of the configuration on top. -/
def externals (fs : FileSystem m) (c : Config) (file : Option Path) : Session m Externals := do
  match file.or c.externalsFile with
  | none => pure (({} : Externals).merge c.externals)
  | some path =>
    report (.loading path)
    match ← (Externals.load fs path : m _) with
    | .ok e => pure (e.merge c.externals)
    | .error f => fail f.message

/-- The compiled unit of a file. -/
def compileFile (fs : FileSystem m) (c : Config) (source : Path) (file : Option Path)
    (strict : Bool) : Session m CompiledUnit := do
  let e ← externals fs c file
  report (.compiling source)
  match ← (fs.read source : m _) with
  | .error f => fail ("Cannot read " ++ source.text ++ ": " ++ f.message)
  | .ok text =>
    let options : Options :=
      { environment := ⟨e.constants, e.enums, strict || c.strict⟩
        source := some source.name
        preamble := c.preamble }
    match compile (Text.onChars Text.unifyBreaks text) options with
    | .ok u => pure u
    | .error error =>
      if error.fault.isReported then fail (source.text ++ ": " ++ error.message)
      else escape (.fault error.fault)

/-- Reports the constants that a unit still needs, if there are any. -/
def reportSymbols (u : CompiledUnit) : Session m Unit :=
  if u.symbols.isEmpty then pure () else report (.pending u.symbols)

/-- An operation on files, whose fault is not reported. -/
def changeFiles (operation : m (Except FileFault Unit)) : Session m Unit := do
  match ← (operation : m _) with
  | .error f => escape (.file f)
  | .ok () => pure ()

/-- Writes a file. Its directory is made first, and only then its text. -/
def writeFile (fs : FileSystem m) (path : Path) (text : Session m String) : Session m Unit := do
  changeFiles (fs.makeDirectory path.parent)
  let text ← text
  changeFiles (fs.write path text)

/-- A type as a row of cells. -/
def row (s : Surface) : List String :=
  let variants := s.variants.map fun (name, value) =>
    name ++ "=" ++ (value.map toString).getD "?"
  [s.qualifiedName, s.type.name, s.access.level ++ " / " ++ s.fieldAccess.level,
    ", ".intercalate variants]

/-- The number that an indentation must stay below. -/
def indentLimit : Nat := 1 <<< 64

/-- The format of a description that is written to a path, or else to the output. -/
def descriptionFormat (output : Option Path) (indent : Int) : Except Escape DescriptionFormat :=
  if output.any (·.extension == ".toml") then .ok .toml
  else if 0 ≤ indent ∧ indent.toNat < indentLimit then .ok (.json indent.toNat)
  else .error (.indent indent)

/-- The text of a description in a format that may be refused. -/
def descriptionText (d : Description) (format : Except Escape DescriptionFormat) :
    Session m String :=
  match format with
  | .ok format => pure (d.text format)
  | .error e => escape e

/-- The path of the module for a source. -/
def target (directory source : Path) : Path := directory.entry (source.stem ++ ".py")

/-- Writes the modules of compiled sources. -/
def writeModules (fs : FileSystem m) (directory : Path) :
    List (Path × CompiledUnit) → Session m Unit
  | [] => pure ()
  | (source, u) :: rest => do
    let path := target directory source
    writeFile fs path (pure u.text)
    report (.built source path u.types.length)
    writeModules fs directory rest

/-- Generates the modules of all sources of the configuration. -/
def build (fs : FileSystem m) (c : Config) : Session m Unit := do
  if c.sources.isEmpty then fail ("No sources configured in " ++ ConfigFault.sectionName)
  let directory := (c.outputDirectory.or c.root).getD (← fs.workingDirectory)
  let units ← c.sources.mapM fun source => do
    return (source, ← compileFile fs c source none false)
  writeModules fs directory units
  report (.finished units.length)

/-- Performs a command. -/
def perform (fs : FileSystem m) (command : Command) : Session m Unit := do
  let c ← config fs
  match command with
  | .generate source output file strict =>
    let u ← compileFile fs c source file strict
    reportSymbols u
    match output with
    | none => print u.text
    | some path =>
      report (.writingModule path)
      writeFile fs path (pure u.text)
      report (.generated u.types.length)
  | .check source file strict =>
    let u ← compileFile fs c source file strict
    report (.types (u.types.map row))
    reportSymbols u
    report .valid
  | .describe source output file indent =>
    let u ← compileFile fs c source file false
    let description := Description.ofUnit (some source.name) u
    let format := descriptionFormat output indent
    match output with
    | none => print (← descriptionText description format)
    | some path =>
      report (.writingDescription path)
      writeFile fs path (descriptionText description format)
      report .described
  | .build => build fs c

/-- Runs a command: how it ends, and what it leaves besides files. -/
def run (fs : FileSystem m) (command : Command) : m (Ending × Transcript) := do
  let (outcome, transcript) ← StateT.run (ExceptT.run (perform fs command)) {}
  match outcome with
  | .ok () => pure (.success, transcript)
  | .error ending => pure (ending, transcript)

end Session
end MaskEnum
