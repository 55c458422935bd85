import MaskEnum.Compile
import MaskEnum.Proofs.Relabeling
import MaskEnum.Proofs.Resolution.References
set_option autoImplicit false

/-!
# Values do not depend on places and attributes

Resolving reads neither places nor attributes. So relabeled enumerations resolve to the same values,
symbols and dependencies, or fail with the same fault, at the other place.

## Main results

* `MaskEnum.resolveEnum_relabel` — one enumeration.
* `MaskEnum.resolveUnit_relabel` — the enumerations of a unit, with unique full names.
* `MaskEnum.Collisions.symbols_relabel` — the check of the constants that are left.
-/

namespace MaskEnum

namespace Table

variable {κ α β : Type} [DecidableEq κ] (f : α → β)

/-- Looking up a changed value. -/
theorem get?_mapValues (t : Table κ α) (k : κ) : (t.mapValues f).get? k = (t.get? k).map f := by
  simp only [get?, mapValues, List.find?_map, Option.map_map]
  rfl

/-- Setting a changed value. -/
theorem insert_mapValues (t : Table κ α) (k : κ) (a : α) :
    (t.mapValues f).insert k (f a) = (t.insert k a).mapValues f := by
  have hentries : ∀ es : List (κ × α), insertEntry k (f a) (es.map fun e => (e.1, f e.2)) =
      (insertEntry k a es).map fun e => (e.1, f e.2) := by
    intro es
    induction es with
    | nil => rfl
    | cons e es ih =>
      rw [List.map_cons, insertEntry, insertEntry]
      split_ifs
      · rfl
      · rw [ih, List.map_cons]
  exact congrArg Table.mk (hentries t.entries)

/-- Setting several changed values. -/
theorem insertAll_mapValues (t : Table κ α) (es : List (κ × α)) :
    (t.mapValues f).insertAll (es.map fun e => (e.1, f e.2)) = (t.insertAll es).mapValues f := by
  induction es generalizing t with
  | nil => rfl
  | cons e es ih =>
    show ((t.mapValues f).insert e.1 (f e.2)).insertAll _ = _
    rw [insert_mapValues, ih]
    rfl

end Table

variable (r : Relabeling)

/-- The variant of a name in a relabeled enumeration. -/
theorem ResolvedEnum.variant?_relabel (e : ResolvedEnum) (name : String) :
    (e.relabel r).variant? name = (e.variant? name).map (·.relabel r) := by
  simp only [variant?, relabel, List.find?_map]
  rfl

/-! ## One enumeration -/

namespace Resolution

/-- What the values of a relabeled enumeration may refer to. -/
def Scope.relabel (s : Scope) : Scope :=
  ⟨s.decl.relabel r, s.environment, fun path => (s.find path).map (·.relabel r)⟩

/-- What its variants may refer to besides. -/
def Context.relabel (c : Context) : Context := ⟨c.scope.relabel r, c.current, c.bound⟩

variable {r} {s : Scope} {c : Context}

/-- The value of a variant of the same enumeration. -/
theorem variant_relabel (name : String) : variant (c.relabel r) name = variant c name := by
  have hnames : (c.scope.decl.relabel r).variants.any (·.name == name) =
      c.scope.decl.variants.any (·.name == name) := by
    simp only [EnumDecl.relabel, List.any_map]
    rfl
  unfold variant
  simp only [Context.relabel, Scope.relabel, Scope.type, EnumDecl.type_relabel, hnames]

/-- The value of a variant of another enumeration. -/
theorem foreign_relabel (path : EnumPath) (name : String) :
    foreign (s.relabel r) path name = foreign s path name := by
  unfold foreign
  cases h : s.find path with
  | none => simp only [Scope.relabel, h, Option.map_none, Scope.type, EnumDecl.type_relabel]
  | some target =>
    simp only [Scope.relabel, h, Option.map_some, ResolvedEnum.variant?_relabel]
    cases target.variant? name <;> rfl

/-- The value of an operand. -/
theorem operand_relabel (o : Operand) : operand (c.relabel r) o = operand c o := by
  cases o with
  | literal l => rfl
  | variant name => exact variant_relabel name
  | negated name =>
    rw [operand, operand, variant_relabel]
    rfl
  | external name source =>
    cases source with
    | enumeration path =>
      rw [operand, operand, variant_relabel]
      exact congrArg (ite _ _) (foreign_relabel path name)
    | typed type => rfl
    | bare => rfl

/-- The value of a group. -/
theorem group_relabel (op : Operator) (first : Value) (os : List Operand) :
    group (c.relabel r) op first os = group c op first os := by
  induction os generalizing first with
  | nil => rfl
  | cons o os ih =>
    rw [group, group, operand_relabel]
    refine congrArg (operand c o >>= ·) (funext fun right => ?_)
    exact congrArg (apply op first right c.scope.type >>= ·) (funext fun value => ih value)

/-- The value of an initializer. -/
theorem initializer_relabel (init : Initializer) :
    initializer (c.relabel r) init = initializer c init := by
  induction init with
  | operand o => exact operand_relabel o
  | chain op first rest ih =>
    rw [initializer, initializer, ih]
    exact congrArg (initializer c first >>= ·) (funext fun value => group_relabel op value rest)

/-- The value of a variant. -/
theorem value_relabel (bound : List (String × Value)) (index : Nat) (v : VariantDecl) :
    value (s.relabel r) bound index (v.relabel r) = value s bound index v := by
  unfold value
  cases h : v.value with
  | none =>
    simp only [VariantDecl.relabel, h]
    rfl
  | some init =>
    simp only [VariantDecl.relabel, h]
    exact initializer_relabel (c := ⟨s, v.name, bound⟩) init

/-- The report of a fault, at the other place. -/
theorem report_relabel (e : EnumDecl) (v : VariantDecl) (fault : ResolutionFault) :
    report (e.relabel r) (v.relabel r) fault = (report e v fault).move r.place := by
  unfold report
  split
  · rfl
  · rfl

/-- The values of the variants. -/
theorem variants_relabel (index : Nat) (bound : List (String × Value)) (vs : List VariantDecl) :
    variants (s.relabel r) index bound (vs.map (·.relabel r)) =
      moved r.place (List.map (·.relabel r)) (variants s index bound vs) := by
  induction vs generalizing index bound with
  | nil => rfl
  | cons v vs ih =>
    rw [List.map_cons, variants, variants, value_relabel]
    cases value s bound index v with
    | error fault => exact congrArg Except.error (report_relabel s.decl v fault)
    | ok n => exact moved_bind (ih _ _) fun _ _ => rfl

/-- The paths in the initializers of an enumeration. -/
theorem enumPaths_relabel (e : EnumDecl) : (e.relabel r).enumPaths = e.enumPaths := by
  simp only [EnumDecl.enumPaths, EnumDecl.relabel, List.flatMap_map]
  rfl

/-- The references to other enumerations. -/
theorem dependencies_relabel : dependencies (s.relabel r) = dependencies s := by
  have htargets : ∀ paths : List EnumPath, paths.filterMap (s.relabel r).find =
      (paths.filterMap s.find).map (·.relabel r) := by
    intro paths
    rw [List.map_filterMap]
    rfl
  show ((((s.decl.relabel r).enumPaths.filter _).filterMap _).map _).eraseDups =
    (((s.decl.enumPaths.filter _).filterMap s.find).map _).eraseDups
  rw [htargets, List.map_map, enumPaths_relabel]
  rfl

end Resolution

/-- **One enumeration.** A relabeled enumeration resolves to the same values, relabeled, or fails
with the same fault, at the other place. -/
theorem resolveEnum_relabel (e : EnumDecl) (environment : Environment)
    (find : EnumPath → Option ResolvedEnum) :
    resolveEnum (e.relabel r) environment (fun path => (find path).map (·.relabel r)) =
      moved r.place (·.relabel r) (resolveEnum e environment find) := by
  let s : Resolution.Scope := ⟨e, environment, find⟩
  have hdependencies : Resolution.dependencies (s.relabel r) = Resolution.dependencies s :=
    Resolution.dependencies_relabel
  refine moved_bind (@Resolution.variants_relabel r s 0 [] e.variants) fun vs _ => ?_
  exact congrArg (fun deps => Except.ok (ResolvedEnum.mk _ _ deps)) hdependencies

/-! ## A unit -/

section Unit

variable {unit : List EnumDecl}

/-- The enumeration of a full name. -/
theorem enumNamed?_relabel (q : QualifiedName) :
    enumNamed? (unit.map (·.relabel r)) q = (enumNamed? unit q).map (·.relabel r) := by
  simp only [enumNamed?, ← List.map_reverse, List.find?_map]
  rfl

/-- The enumeration of a bare name. -/
theorem uniqueNamed?_relabel (name : String) :
    uniqueNamed? (unit.map (·.relabel r)) name =
      (uniqueNamed? unit name).map (Option.map (·.relabel r)) := by
  have hfilter : (unit.map (·.relabel r)).filter (·.name == name) =
      (unit.filter (·.name == name)).map (·.relabel r) := by
    rw [List.filter_map]
    rfl
  unfold uniqueNamed?
  rw [hfilter]
  generalize unit.filter (·.name == name) = found
  rcases found with - | ⟨e, - | ⟨e', es⟩⟩
  · rfl
  · rfl
  · simp only [List.map_cons, List.map_map, Except.map]
    rfl

/-- The enumeration that a path means. -/
theorem findEnum_relabel (m : Option String) (path : EnumPath) :
    findEnum (unit.map (·.relabel r)) m path =
      (findEnum unit m path).map (Option.map (·.relabel r)) := by
  unfold findEnum
  split
  · next name _ =>
    have hnamed : ((m.bind fun m => enumNamed? (unit.map (·.relabel r)) ⟨some m, name⟩).or
        (enumNamed? (unit.map (·.relabel r)) ⟨none, name⟩)) =
        ((m.bind fun m => enumNamed? unit ⟨some m, name⟩).or (enumNamed? unit ⟨none, name⟩)).map
          (·.relabel r) := by
      simp only [enumNamed?_relabel, Option.map_or, Option.map_bind]
      rfl
    rw [hnamed]
    cases (m.bind fun m => enumNamed? unit ⟨some m, name⟩).or (enumNamed? unit ⟨none, name⟩) with
    | none => exact uniqueNamed?_relabel r name
    | some e => rfl
  · exact congrArg Except.ok (enumNamed?_relabel r _)
  · rfl

/-- In a unit with unique full names, relabeling does not make two enumerations one. -/
theorem relabel_eq_relabel_iff (hunit : (unit.map EnumDecl.qualifiedName).Nodup) {e t : EnumDecl}
    (he : e ∈ unit) (ht : t ∈ unit) : t.relabel r = e.relabel r ↔ t = e := by
  refine ⟨fun h => List.inj_on_of_nodup_map hunit ht he ?_, fun h => h ▸ rfl⟩
  rw [← EnumDecl.qualifiedName_relabel r t, h, EnumDecl.qualifiedName_relabel]

variable (hunit : (unit.map EnumDecl.qualifiedName).Nodup)

include hunit in
/-- The edges for the references of one enumeration. -/
theorem edgesOf_relabel {e : EnumDecl} (he : e ∈ unit) (paths : List EnumPath) :
    edgesOf (unit.map (·.relabel r)) (e.relabel r) paths =
      moved r.place id (edgesOf unit e paths) := by
  induction paths with
  | nil => rfl
  | cons path paths ih =>
    have hgroup : (e.relabel r).group = e.group := rfl
    rw [edgesOf, edgesOf, hgroup, findEnum_relabel]
    cases hfind : findEnum unit e.group path with
    | error fault => rfl
    | ok target =>
      refine moved_bind ih fun more _ => ?_
      cases target with
      | none => rfl
      | some t =>
        have hiff := relabel_eq_relabel_iff r hunit he (findEnum_eq_some hfind).1
        simp only [Option.map_some, hiff]
        split_ifs <;> rfl

include hunit in
/-- The graph of the references. -/
theorem referenceGraph_relabel :
    referenceGraph (unit.map (·.relabel r)) = moved r.place id (referenceGraph unit) := by
  have hedges : ∀ es : List EnumDecl, (∀ e ∈ es, e ∈ unit) →
      edges (unit.map (·.relabel r)) (es.map (·.relabel r)) =
        moved r.place id (edges unit es) := by
    intro es hes
    induction es with
    | nil => rfl
    | cons e es ih =>
      obtain ⟨he, hes⟩ := List.forall_mem_cons.mp hes
      rw [List.map_cons, edges, edges, Resolution.enumPaths_relabel]
      exact moved_bind (edgesOf_relabel r hunit he _) fun _ _ =>
        moved_bind (ih hes) fun _ _ => rfl
  refine moved_bind (hedges unit fun _ h => h) fun es _ => ?_
  rw [List.map_map]
  rfl

/-- What a path means among the enumerations that are resolved already. -/
theorem resolvedTarget_relabel (resolved : Table QualifiedName ResolvedEnum) (m : Option String) :
    resolvedTarget (unit.map (·.relabel r)) (resolved.mapValues (·.relabel r)) m =
      fun path => (resolvedTarget unit resolved m path).map (·.relabel r) := by
  funext path
  unfold resolvedTarget
  rw [findEnum_relabel]
  rcases findEnum unit m path with fault | - | t
  · rfl
  · rfl
  · exact Table.get?_mapValues _ _ _

/-- Resolving in an order. -/
theorem resolveInOrder_relabel (environment : Environment) (order : List QualifiedName)
    (resolved : Table QualifiedName ResolvedEnum) :
    resolveInOrder (unit.map (·.relabel r)) environment order (resolved.mapValues (·.relabel r)) =
      moved r.place (Table.mapValues (·.relabel r))
        (resolveInOrder unit environment order resolved) := by
  induction order generalizing resolved with
  | nil => rfl
  | cons q order ih =>
    rw [resolveInOrder, resolveInOrder, enumNamed?_relabel]
    cases enumNamed? unit q with
    | none => exact ih _
    | some e =>
      have hgroup : (e.relabel r).group = e.group := rfl
      simp only [Option.map_some, hgroup, resolvedTarget_relabel]
      refine moved_bind (resolveEnum_relabel r e environment _) fun e' _ => ?_
      rw [Table.insert_mapValues]
      exact ih _

include hunit in
/-- **Units.** Relabeled enumerations with unique full names resolve to the same values, relabeled,
or fail with the same fault, at the other place. -/
theorem resolveUnit_relabel (environment : Environment) :
    resolveUnit (unit.map (·.relabel r)) environment =
      moved r.place (List.map (·.relabel r)) (resolveUnit unit environment) := by
  refine moved_bind (referenceGraph_relabel r hunit) fun graph _ => ?_
  dsimp only [id]
  cases graph.topologicalOrder with
  | error members => rfl
  | ok order =>
    refine moved_bind (resolveInOrder_relabel r environment order .empty) fun resolved _ => ?_
    refine congrArg Except.ok ?_
    rw [List.filterMap_map, List.map_filterMap]
    exact List.filterMap_congr fun e _ => Table.get?_mapValues _ _ _

end Unit

/-! ## Constants that are left -/

/-- The constants that the values of a relabeled enumeration depend on. -/
theorem ResolvedEnum.symbols_relabel (e : ResolvedEnum) : (e.relabel r).symbols = e.symbols := by
  simp only [symbols, relabel, List.flatMap_map]
  rfl

namespace Collisions

/-- The check of one enumeration. -/
theorem symbolsOf_relabel (hidden : List String) (e : ResolvedEnum) :
    symbolsOf hidden (e.relabel r) = moved r.place id (symbolsOf hidden e) := by
  have hnames : ∀ s, (e.relabel r).variants.any (·.name == s) = e.variants.any (·.name == s) := by
    intro s
    simp only [ResolvedEnum.relabel, List.any_map]
    rfl
  unfold symbolsOf
  simp only [hnames, ResolvedEnum.symbols_relabel]
  split <;> rfl

/-- The names at module level. -/
theorem moduleNames_relabel (ds : List Declaration) :
    moduleNames (ds.map (·.relabel r)) = moduleNames ds := by
  rw [moduleNames, moduleNames, List.flatMap_map]
  refine congrArg (scopeNames ++ List.flatMap · ds) (funext fun d => ?_)
  cases d with
  | block es =>
    simp only [Declaration.relabel, List.map_map]
    rfl
  | module => rfl

/-- **Constants.** Relabeled enumerations pass the check of their constants, or fail with the same
fault, at the other place. -/
theorem symbols_relabel (ds : List Declaration) (rs : List ResolvedEnum) :
    symbols (ds.map (·.relabel r)) (rs.map (·.relabel r)) = moved r.place id (symbols ds rs) := by
  rw [symbols, symbols, moduleNames_relabel]
  induction rs with
  | nil => rfl
  | cons e rs ih => exact moved_bind (symbolsOf_relabel r _ e) fun _ _ => ih

end Collisions

end MaskEnum
