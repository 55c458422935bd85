import MaskEnum.Files
import MaskEnum.Table
import MaskEnum.Toml.Parser
set_option autoImplicit false

/-!
# Configuration

The configuration of a project is the section `tool.encapenum` of the file `pyproject.toml` in its
root directory. Relative paths in it are seen from that directory.

## Main definitions

* `MaskEnum.Config` — a configuration.
* `MaskEnum.ConfigFault` — why a document holds none.
* `MaskEnum.Config.ofFields` — the configuration that a document holds.
* `MaskEnum.Config.find` — the configuration file for a directory, and `Config.load` what it holds.

## Implementation notes

A section that counts as nothing is no section. The section has to be a table; of what else it may
be, a text or a list is first asked for its keys, so that these can be unknown ones.
-/

namespace MaskEnum

/-- The configuration of a project; `root` is the directory that it was found in. -/
structure Config where
  sources : List Path := []
  outputDirectory : Option Path := none
  externals : Table String Int := .empty
  externalsFile : Option Path := none
  strict : Bool := false
  preamble : List String := []
  root : Option Path := none
  deriving DecidableEq, Repr

/-- Why a document holds no configuration. -/
inductive ConfigFault where
  | badToml (path : Path)
  | unknownKeys (keys : List String)
  | expectedPath (key : String)
  | expectedTexts (key : String)
  | expectedBoolean (key : String)
  | expectedTable
  | expectedInteger (name : String)
  | unreadable (path : Path) (fault : FileFault)
  /-- What should hold the section is no table. -/
  | sectionless
  /-- The section has no keys that could be asked for. -/
  | keyless
  /-- The section is a list of known keys, without values. -/
  | valueless
  deriving DecidableEq, Repr

namespace ConfigFault

/-- The name of the section as reports write it. -/
def sectionName : String := "[tool.encapenum]"

/-- How a value of the wrong kind is reported. -/
def invalidText (key expected : String) : String :=
  "Invalid " ++ sectionName ++ "." ++ key ++ ": expected " ++ expected

/-- The wording of a fault. -/
def message : ConfigFault → String
  | badToml path => "Invalid TOML in " ++ path.text
  | unknownKeys keys => "Unknown keys in " ++ sectionName ++ ": " ++ ", ".intercalate keys
  | expectedPath key => invalidText key "string path"
  | expectedTexts key => invalidText key "a list of strings"
  | expectedBoolean key => invalidText key "boolean"
  | expectedTable => invalidText "externals" "a table of integer constants"
  | expectedInteger name => invalidText ("externals." ++ name) "integer"
  | unreadable path fault => "Cannot read " ++ path.text ++ ": " ++ fault.message
  | sectionless => "tool is not a table"
  | keyless => sectionName ++ " has no keys"
  | valueless => sectionName ++ " is a list"

/-- Whether a fault is a verdict on the configuration, which a command reports. -/
def isReported : ConfigFault → Bool
  | unreadable .. | sectionless | keyless | valueless => false
  | _ => true

end ConfigFault

namespace Config

/-- The keys of the section. -/
def knownKeys : List String :=
  ["sources", "output_dir", "externals", "externals_file", "strict_externals", "preamble"]

/-- Refuses keys that are not known, sorted and each once. -/
def checkKeys (keys : List String) : Except ConfigFault Unit :=
  match keys.filter (! knownKeys.contains ·) with
  | [] => .ok ()
  | unknown => .error (.unknownKeys (unknown.eraseDups.mergeSort fun a b => decide (a ≤ b)))

/-- Whether a value can be a key. -/
def isKey : Toml.Value → Bool
  | .array _ | .table _ => false
  | _ => true

/-- The fault of a section that is a list. -/
def listFault (items : List Toml.Value) : ConfigFault :=
  if ! items.all isKey then .keyless
  else
    let unknown := items.filter fun item => ! item.text?.any knownKeys.contains
    match unknown.mapM Toml.Value.text? with
    | none => .keyless
    | some keys =>
      match checkKeys keys with
      | .ok () => .valueless
      | .error fault => fault

/-- The fields of the section of a document; a missing one has none. -/
def section? (document : Toml.Fields) : Except ConfigFault Toml.Fields :=
  match document.get? "tool" with
  | none => .ok []
  | some (.table tool) =>
    match Toml.Fields.get? tool "encapenum" with
    | none => .ok []
    | some v =>
      if v.isEmpty then .ok []
      else match v with
        | .table fields => .ok fields
        | .array items => .error (listFault items)
        | .text s =>
          match checkKeys (s.toList.map fun c => String.ofList [c]) with
          | .ok () => .error .valueless
          | .error fault => .error fault
        | _ => .error .keyless
  | some _ => .error .sectionless

/-- A path that is seen from the root directory. -/
def pathOf (root : Path) (key : String) : Toml.Value → Except ConfigFault Path
  | .text s => .ok (root.join (.ofText s))
  | _ => .error (.expectedPath key)

/-- The path in a field, if the field is there. -/
def pathField (root : Path) (fields : Toml.Fields) (key : String) :
    Except ConfigFault (Option Path) :=
  match fields.get? key with
  | none => .ok none
  | some v => (pathOf root key v).map some

/-- The texts in a field, none if the field is not there. -/
def textsField (fields : Toml.Fields) (key : String) : Except ConfigFault (List String) :=
  match fields.get? key with
  | none => .ok []
  | some v =>
    match v.texts? with
    | some texts => .ok texts
    | none => .error (.expectedTexts key)

/-- The truth value in a field, false if the field is not there. -/
def flagField (fields : Toml.Fields) (key : String) : Except ConfigFault Bool :=
  match fields.get? key with
  | none => .ok false
  | some (.boolean b) => .ok b
  | some _ => .error (.expectedBoolean key)

/-- The constants of a table; a truth value is no constant. -/
def constants : Toml.Fields → Except ConfigFault (List (String × Int))
  | [] => .ok []
  | (name, .integer n) :: fields => do .ok ((name, n) :: (← constants fields))
  | (name, _) :: _ => .error (.expectedInteger name)

/-- The constants in the field `externals`. -/
def constantsField (fields : Toml.Fields) : Except ConfigFault (Table String Int) :=
  match fields.get? "externals" with
  | none => .ok .empty
  | some (.table inner) => (constants inner).map Table.ofList
  | some _ => .error .expectedTable

/-- The configuration that a section holds, which is not empty. -/
def ofSection (root : Path) (fields : Toml.Fields) : Except ConfigFault Config := do
  checkKeys (fields.map Prod.fst)
  let sources ← textsField fields "sources"
  let outputDirectory ← pathField root fields "output_dir"
  let externalsFile ← pathField root fields "externals_file"
  let strict ← flagField fields "strict_externals"
  let externals ← constantsField fields
  let preamble ← textsField fields "preamble"
  .ok { sources := sources.map fun s => root.join (.ofText s)
        outputDirectory, externals, externalsFile, strict, preamble, root := some root }

/-- The configuration that a document holds, which stands in the directory `root`. -/
def ofFields (root : Path) (document : Toml.Fields) : Except ConfigFault Config := do
  match ← section? document with
  | [] => .ok { root := some root }
  | fields => ofSection root fields

/-- The configuration that a text holds, which stands at a path. -/
def parse (path : Path) (text : String) : Except ConfigFault Config :=
  match Toml.parse text with
  | none => .error (.badToml path)
  | some document => ofFields path.parent document

/-- The name of the configuration file. -/
def fileName : String := "pyproject.toml"

variable {m : Type → Type} [Monad m]

/-- The nearest configuration file in a directory or above it. -/
def find (fs : FileSystem m) (start : Path) : m (Option Path) :=
  fs.firstFile (start.ancestors.map (·.entry fileName))

/-- The configuration for a directory; without a file it is empty. -/
def load (fs : FileSystem m) (start : Path) : m (Except ConfigFault Config) := do
  match ← find fs start with
  | none => pure (.ok {})
  | some path =>
    match ← fs.read path with
    | .ok text => pure (parse path text)
    | .error fault => pure (.error (.unreadable path fault))

end Config
end MaskEnum
