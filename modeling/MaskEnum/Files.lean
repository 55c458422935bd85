import MaskEnum.Path
set_option autoImplicit false

/-!
# Access to files

The operations on files that the commands need, for any kind of effect, with their faults as data.

## Main definitions

* `MaskEnum.FileFault` — why an operation on a file fails.
* `MaskEnum.FileSystem` — the operations.
-/

namespace MaskEnum

/-- Why an operation on a file fails. -/
inductive FileFault where
  | missing
  | isDirectory
  | notDirectory
  | occupied
  deriving DecidableEq, Repr

/-- The wording of a fault. -/
def FileFault.message : FileFault → String
  | missing => "No such file or directory"
  | isDirectory => "Is a directory"
  | notDirectory => "Not a directory"
  | occupied => "File exists"

/-- Operations on files. -/
structure FileSystem (m : Type → Type) where
  /-- The directory that relative paths are seen from. -/
  workingDirectory : m Path
  isFile : Path → m Bool
  read : Path → m (Except FileFault String)
  /-- Makes a directory unless it is there, and the directories above it. -/
  makeDirectory : Path → m (Except FileFault Unit)
  write : Path → String → m (Except FileFault Unit)

/-- The first of some paths that is a file. -/
def FileSystem.firstFile {m : Type → Type} [Monad m] (fs : FileSystem m) :
    List Path → m (Option Path)
  | [] => pure none
  | p :: ps => do if ← fs.isFile p then pure (some p) else fs.firstFile ps

end MaskEnum
