import MaskEnum.Text.Blank
set_option autoImplicit false

/-!
# Paths

A path is an anchor and the names after it. The anchor is empty for a relative path, and one slash
or exactly two for an absolute one. Empty names and single dots are dropped when a path is read;
double dots stay.

## Main definitions

* `MaskEnum.Path` — the type, with `ofText` and `text`.
* `MaskEnum.Path.join` — a path seen from another.
* `MaskEnum.Path.name`, `MaskEnum.Path.stem`, `MaskEnum.Path.extension` — the last name and its
  parts.
* `MaskEnum.Path.ancestors` — a path with all paths above it.
-/

namespace MaskEnum

/-- A path. -/
structure Path where
  anchor : String
  names : List String
  deriving DecidableEq, Repr, Inhabited

namespace Path

/-- The number of slashes that a text starts with. -/
def slashes (cs : List Char) : Nat := (cs.takeWhile (· == '/')).length

/-- The path that a text writes. -/
def ofText (text : String) : Path :=
  let anchor := match slashes text.toList with
    | 0 => ""
    | 2 => "//"
    | _ => "/"
  let names := (Text.pieces '/' text.toList).filter fun name => name != [] && name != ['.']
  ⟨anchor, names.map String.ofList⟩

/-- Whether a path has an anchor. -/
def isAbsolute (p : Path) : Bool := ! p.anchor.isEmpty

/-- A path as text; a relative path without names is a dot. -/
def text (p : Path) : String :=
  if p.anchor.isEmpty && p.names.isEmpty then "." else p.anchor ++ "/".intercalate p.names

/-- The path `q` seen from `p`: an absolute one stands alone. -/
def join (p q : Path) : Path := if q.isAbsolute then q else ⟨p.anchor, p.names ++ q.names⟩

/-- The path of an entry of a directory. -/
def entry (p : Path) (name : String) : Path := p.join (ofText name)

/-- The path without its last name. -/
def parent (p : Path) : Path := { p with names := p.names.dropLast }

/-- The last name, empty if there is none. -/
def name (p : Path) : String := p.names.getLast?.getD ""

/-- The last name, cut before its last dot. A dot at either end of the name does not count. -/
def splitName (p : Path) : String × String :=
  let cs := p.name.toList
  let extension := cs.reverse.takeWhile (· != '.')
  let stem := (cs.take (cs.length - (extension.length + 1)))
  if extension.isEmpty || stem.isEmpty || ! cs.contains '.' then (p.name, "")
  else (String.ofList stem, String.ofList ('.' :: extension.reverse))

/-- The last name without its extension. -/
def stem (p : Path) : String := p.splitName.1

/-- The extension of the last name, with its dot. -/
def extension (p : Path) : String := p.splitName.2

/-- All paths above one that has the names `names` in reverse, from the nearest on. -/
def above (anchor : String) : List String → List Path
  | [] => []
  | _ :: names => ⟨anchor, names.reverse⟩ :: above anchor names

/-- A path and all paths above it, from the path itself on. -/
def ancestors (p : Path) : List Path := p :: above p.anchor p.names.reverse

end Path
end MaskEnum
