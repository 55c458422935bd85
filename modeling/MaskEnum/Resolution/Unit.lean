import MaskEnum.Resolution
import MaskEnum.Graph
set_option autoImplicit false

/-!
# Resolving the enumerations of a unit

Enumerations of one unit may refer to each other by path. The references make a dependency graph,
and the enumerations are resolved in its topological order, so that every target has its values
before it is referred to.

A path of several segments must be the full name of its target. A bare name is looked for in the
module of the reference, then among the enumerations without a module, then anywhere in the unit,
where it must be unique.

## Main definitions

* `MaskEnum.findEnum` — the enumeration of a unit that a path means.
* `MaskEnum.referenceGraph` — the graph of the references of a unit.
* `MaskEnum.resolveUnit` — all enumerations of a unit with their values.
-/

namespace MaskEnum

/-- The enumeration of a full name; the last one, should there be several. -/
def enumNamed? (unit : List EnumDecl) (q : QualifiedName) : Option EnumDecl :=
  unit.reverse.find? (·.qualifiedName = q)

/-- The enumeration of the unit that a bare name means anywhere. -/
def uniqueNamed? (unit : List EnumDecl) (name : String) : Except Fault (Option EnumDecl) :=
  match unit.filter (·.name == name) with
  | [] => .ok none
  | [e] => .ok (some e)
  | es => .error (.ambiguous name (es.map (·.qualifiedName.text)))

/-- The enumeration of the unit that `path` means inside `module`. -/
def findEnum (unit : List EnumDecl) (module : Option String) (path : EnumPath) :
    Except Fault (Option EnumDecl) :=
  match path.segments with
  | [name] =>
    match (module.bind fun m => enumNamed? unit ⟨some m, name⟩).or (enumNamed? unit ⟨none, name⟩) with
    | some e => .ok (some e)
    | none => uniqueNamed? unit name
  | [m, name] => .ok (enumNamed? unit ⟨some m, name⟩)
  | _ => .ok none

/-- The paths to enumerations in the initializers of an enumeration, in writing order. -/
def EnumDecl.enumPaths (e : EnumDecl) : List EnumPath :=
  e.variants.flatMap fun v =>
    match v.value with
    | none => []
    | some init => init.enumPaths

/-- The edges for the references of `e` along `paths`, from each other enumeration that is found. -/
def edgesOf (unit : List EnumDecl) (e : EnumDecl) :
    List EnumPath → Except Error (List (QualifiedName × QualifiedName))
  | [] => .ok []
  | path :: paths =>
    match findEnum unit e.group path with
    | .error fault => .error ⟨fault, none⟩
    | .ok target => do
      let more ← edgesOf unit e paths
      match target with
      | some t => if t = e then .ok more else .ok ((t.qualifiedName, e.qualifiedName) :: more)
      | none => .ok more

/-- The edges for all references of the enumerations `es`. -/
def edges (unit : List EnumDecl) :
    List EnumDecl → Except Error (List (QualifiedName × QualifiedName))
  | [] => .ok []
  | e :: es => do
    let first ← edgesOf unit e e.enumPaths
    let rest ← edges unit es
    .ok (first ++ rest)

/-- The graph of the references of a unit. -/
def referenceGraph (unit : List EnumDecl) : Except Error (Graph QualifiedName) := do
  .ok (Graph.ofEdges (unit.map EnumDecl.qualifiedName) (← edges unit unit))

/-- The resolved enumeration that `path` means inside `module`. A path that is ambiguous means
none here; the reference graph has refused it before. -/
def resolvedTarget (unit : List EnumDecl) (resolved : Table QualifiedName ResolvedEnum)
    (module : Option String) (path : EnumPath) : Option ResolvedEnum :=
  match findEnum unit module path with
  | .ok (some target) => resolved.get? target.qualifiedName
  | _ => none

/-- Resolves the enumerations named by `order` one after the other. -/
def resolveInOrder (unit : List EnumDecl) (environment : Environment) :
    List QualifiedName → Table QualifiedName ResolvedEnum →
    Except Error (Table QualifiedName ResolvedEnum)
  | [], resolved => .ok resolved
  | q :: order, resolved =>
    match enumNamed? unit q with
    | none => resolveInOrder unit environment order resolved
    | some e => do
      let r ← resolveEnum e environment (resolvedTarget unit resolved e.group)
      resolveInOrder unit environment order (resolved.insert q r)

/-- The enumerations of a unit with their values, in the order of the unit. -/
def resolveUnit (unit : List EnumDecl) (environment : Environment) :
    Except Error (List ResolvedEnum) := do
  let graph ← referenceGraph unit
  match graph.topologicalOrder with
  | .error members => .error ⟨.circular (members.map QualifiedName.text), none⟩
  | .ok order =>
    let resolved ← resolveInOrder unit environment order .empty
    .ok (unit.filterMap fun e => resolved.get? e.qualifiedName)

end MaskEnum
