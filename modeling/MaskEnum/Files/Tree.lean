import MaskEnum.Files
import MaskEnum.Table
set_option autoImplicit false

/-!
# File trees

A file tree holds directories and the contents of files in memory. Directories and files are named
by the list of names that leads to them from the root. A path is followed name by name: all names
but the last have to be directories, and two dots lead to the directory above.

## Main definitions

* `MaskEnum.FileTree` — the type.
* `MaskEnum.FileTree.locate` — the place that a path leads to.
* `MaskEnum.FileTree.read`, `MaskEnum.FileTree.write`, `MaskEnum.FileTree.makeDirectory` — the
  operations.
* `MaskEnum.FileTree.fileSystem` — the operations on a tree as a state.
-/

namespace MaskEnum

/-- Directories and files in memory; relative paths are seen from `current`. -/
structure FileTree where
  current : List String
  directories : List (List String)
  files : Table (List String) String
  deriving DecidableEq, Repr

namespace FileTree

/-- Whether a place is a directory; the root always is. -/
def isDirectoryAt (t : FileTree) (place : List String) : Bool :=
  place.isEmpty || t.directories.contains place

/-- The place that names lead to from a directory. -/
def follow (t : FileTree) (place : List String) : List String → Except FileFault (List String)
  | [] => .ok place
  | ".." :: names => t.follow place.dropLast names
  | [name] => .ok (place ++ [name])
  | name :: names =>
    let next := place ++ [name]
    if t.isDirectoryAt next then t.follow next names
    else if t.files.contains next then .error .notDirectory
    else .error .missing

/-- The place that a path leads to. -/
def locate (t : FileTree) (p : Path) : Except FileFault (List String) :=
  t.follow (if p.isAbsolute then [] else t.current) p.names

/-- Whether a path leads to a file. -/
def isFile (t : FileTree) (p : Path) : Bool :=
  match t.locate p with
  | .ok place => ! t.isDirectoryAt place && t.files.contains place
  | .error _ => false

/-- The contents of a file. -/
def read (t : FileTree) (p : Path) : Except FileFault String := do
  let place ← t.locate p
  if t.isDirectoryAt place then .error .isDirectory
  else match t.files.get? place with
    | some text => .ok text
    | none => .error .missing

/-- The tree with the contents of a file set. -/
def write (t : FileTree) (p : Path) (text : String) : Except FileFault FileTree := do
  let place ← t.locate p
  if t.isDirectoryAt place then .error .isDirectory
  else if ! t.isDirectoryAt place.dropLast then .error .missing
  else .ok { t with files := t.files.insert place text }

/-- The tree with a directory, whose own directory has to be there. -/
def makeEntry (t : FileTree) (p : Path) : Except FileFault FileTree := do
  let place ← t.locate p
  if t.isDirectoryAt place then .ok t
  else if t.files.contains place then .error .occupied
  else if ! t.isDirectoryAt place.dropLast then .error .missing
  else .ok { t with directories := t.directories ++ [place] }

/-- The tree with a directory and those above it, as far as they are missing. The names of the
path are given in reverse. -/
def makeAll (t : FileTree) (anchor : String) : List String → Except FileFault FileTree
  | [] => .ok t
  | name :: above =>
    let p : Path := ⟨anchor, (name :: above).reverse⟩
    match t.makeEntry p with
    | .error .missing => do (← t.makeAll anchor above).makeEntry p
    | outcome => outcome

/-- The tree with a directory and those above it. -/
def makeDirectory (t : FileTree) (p : Path) : Except FileFault FileTree :=
  t.makeAll p.anchor p.names.reverse

/-- The outcome of a change, with the tree afterwards; a failed one leaves it as it was. -/
def change (f : FileTree → Except FileFault FileTree) : StateM FileTree (Except FileFault Unit) :=
  fun t =>
    match f t with
    | .ok changed => (.ok (), changed)
    | .error fault => (.error fault, t)

/-- The operations on a tree as a state. -/
def fileSystem : FileSystem (StateM FileTree) where
  workingDirectory := fun t => (⟨"/", t.current⟩, t)
  isFile p := fun t => (t.isFile p, t)
  read p := fun t => (t.read p, t)
  makeDirectory p := change (·.makeDirectory p)
  write p text := change (·.write p text)

end FileTree
end MaskEnum
