import MaskEnum.Session
set_option autoImplicit false

/-!
# The program

The command line program: its arguments are parsed, and a session is run on the disk. Reports go to
the error stream and results to the output.

## Main definitions

* `MaskEnum.disk` — the operations on files of the disk.
* `main` — the program.
-/

namespace MaskEnum

/-- The fault behind a failed operation on the disk. -/
def diskFault : IO.Error → FileFault
  | .inappropriateType .. => .notDirectory
  | .alreadyExists .. => .occupied
  | .illegalOperation .. => .isDirectory
  | _ => .missing

/-- The outcome of an operation on the disk. -/
def attempt {α : Type} (action : IO α) : IO (Except FileFault α) := do
  match ← action.toBaseIO with
  | .ok a => pure (.ok a)
  | .error e => pure (.error (diskFault e))

/-- The operations on files of the disk. -/
def disk : FileSystem IO where
  workingDirectory := do pure (.ofText (← IO.currentDir).toString)
  isFile p := do
    match ← attempt (IO.FS.readFile p.text) with
    | .ok _ => pure true
    | .error _ => pure false
  read p := attempt (IO.FS.readFile p.text)
  makeDirectory p := attempt (IO.FS.createDirAll p.text)
  write p text := attempt (IO.FS.writeFile p.text text)

/-- How the program is called. -/
def usage : String :=
  "Usage: encapenum [--verbose] COMMAND [ARGS]\n\n"
    ++ "Commands:\n"
    ++ "  generate SOURCE [-o FILE] [--externals FILE] [--strict]\n"
    ++ "  check SOURCE [--externals FILE] [--strict]\n"
    ++ "  describe SOURCE [-o FILE] [--externals FILE] [--indent N]\n"
    ++ "  build"

/-- Runs a command on the disk; the answer is the exit code. -/
def runOnDisk (command : Command) : IO UInt32 := do
  let (ending, transcript) ← Session.run disk command
  for r in transcript.reports do IO.eprintln r.text
  IO.print transcript.output
  if let .escaped e := ending then IO.eprintln e.message
  pure ending.exitCode

end MaskEnum

open MaskEnum in
/-- The program. -/
def main (args : List String) : IO UInt32 := do
  match CommandLine.parse args with
  | .help => do
    IO.println usage
    pure 0
  | .misuse => do
    IO.eprintln usage
    pure 2
  | .run command => runOnDisk command
