import MaskEnum.Proofs.Generated.Program
import MaskEnum.Proofs.Generated.Tree
set_option autoImplicit false

/-!
# Scopes of generated modules

In a generated module no name takes the place of another. Every scope binds each of its names once.
What generated code relies on, its imports, the companions of modules and what the language
provides, is bound nowhere else in the scopes in which it is looked up. Declared names that pass the
check for collisions are the reason: they are none of the names that every class has, and none that
code relies on.

## Main definitions

* `MaskEnum.Generated.Relied` — a name that generated code relies on.
* `MaskEnum.Generated.Module.Scoped` — a module in which no name takes the place of another.

## Main results

* `MaskEnum.Generated.Class.Distinct.nodup_body`, `MaskEnum.Generated.Class.Distinct.not_mem_body` —
  the scope of a class.
* `MaskEnum.Generated.Class.Distinct.kept_body`, `MaskEnum.Generated.Item.Distinct.kept` — what
  classes and items look up.
* `MaskEnum.Collisions.scoped` — modules for declarations that pass the check are scoped.
-/

namespace MaskEnum

namespace Generated

/-- A name that generated code relies on: an import, something that the language provides, or the
companion of a module. -/
def Relied (name : String) : Prop := name ∈ scopeNames ∨ startsWith companionMark name = true

instance (name : String) : Decidable (Relied name) := inferInstanceAs (Decidable (_ ∨ _))

/-- The names that the language provides. -/
def languageNames : List String :=
  ["bool", "classmethod", "int", "iter", "type", "NotImplemented", "OverflowError"]

/-- The names that every class finds outside of its scope. -/
def classNames : List String := "_dc" :: arithmeticName :: languageNames

/-- An admissible name is none that generated code relies on. -/
theorem not_relied_of_admissible {name : String} (h : Admissible name) : ¬ Relied name := by
  rintro (hscope | hmark)
  · exact h.notScope hscope
  · rw [h.notCompanion] at hmark
    cases hmark

/-! ## Functions -/

/-- A function that looks up its own names and names that code relies on, and gives the latter to
none of its own. What it looks up in the scope around it is the name of no member of a class. -/
structure Function.Scoped (f : Function) : Prop where
  outer : ∀ name ∈ f.outerNames, name ∈ classNames ∧ name ≠ "iter"
  inner : ∀ name ∈ f.innerNames, name ∈ f.locals ∨ name ∈ classNames
  locals : ∀ name ∈ f.locals, ¬ Relied name
  nodup : f.locals.Nodup

/-- The names of a function decide whether it is scoped. -/
theorem Function.Scoped.of_names {f : Function} (outer inner locals : List String)
    (houter : f.outerNames = outer) (hinner : f.innerNames = inner) (hlocals : f.locals = locals)
    (h : (∀ name ∈ outer, name ∈ classNames ∧ name ≠ "iter") ∧
      (∀ name ∈ inner, name ∈ locals ∨ name ∈ classNames) ∧
      (∀ name ∈ locals, ¬ Relied name) ∧ locals.Nodup) : f.Scoped := by
  subst houter hinner hlocals
  exact ⟨h.1, h.2.1, h.2.2.1, h.2.2.2⟩

/-- The function of a binary operator is scoped. -/
theorem scoped_binary (field : String) (m : String × Operator) :
    (binaryFunction field m).Scoped := by
  refine .of_names [] ["type", "other", "type", "self", "NotImplemented", "type", "self",
    arithmeticName, "self", "other", "self"] ["self", "other"] rfl ?_ rfl (by decide)
  obtain ⟨stem, op⟩ := m
  cases op <;> rfl

/-- So is that of a binary operator in place. -/
theorem scoped_inPlace (field : String) (m : String × Operator) :
    (inPlaceFunction field m).Scoped := by
  refine .of_names [] ["type", "other", "type", "self", "NotImplemented", "self", arithmeticName,
    "self", "other", "self", "self"] ["self", "other"] rfl ?_ rfl (by decide)
  obtain ⟨stem, op⟩ := m
  cases op <;> rfl

/-- An empty line or a scoped function. -/
inductive Stmt.IsFunction : Stmt → Prop
  | gap : IsFunction gap
  | function {f : Function} : f.Scoped → IsFunction (.function f)

/-- All functions of a class are scoped. -/
theorem Class.isFunction_functions (c : Class) : ∀ s ∈ c.functions, s.IsFunction := by
  have hcheck : (checkFunction c).Scoped :=
    .of_names [] ["self", "self", "self", "OverflowError", "msg"] ["self", "msg"] rfl rfl rfl
      (by decide)
  have hraw : (fromRawFunction c).Scoped :=
    .of_names ["classmethod", "int"] ["cls", arithmeticName, "raw", "cls"] ["cls", "raw"] rfl rfl
      rfl (by decide)
  have hiter : iterFunction.Scoped :=
    .of_names ["classmethod"] ["iter", "cls"] ["cls"] rfl rfl rfl (by decide)
  have hnew : newFunction.Scoped :=
    .of_names ["classmethod", "int"] ["cls", "raw"] ["cls", "raw"] rfl rfl rfl (by decide)
  have hbit : (bitFunction c).Scoped :=
    .of_names ["int", "bool"] ["self", "index"] ["self", "index"] rfl rfl rfl (by decide)
  have hinvert : (unaryFunction "__invert__" "invert" (operandPieces "self" c.field)).Scoped :=
    .of_names [] ["type", "self", arithmeticName, "self", "self"] ["self"] rfl rfl rfl (by decide)
  have hneg : (unaryFunction "__neg__" "wrap"
      ([.number 0, .mark " - "] ++ operandPieces "self" c.field)).Scoped :=
    .of_names [] ["type", "self", arithmeticName, "self", "self"] ["self"] rfl rfl rfl (by decide)
  simp only [Class.functions, List.forall_mem_append, List.forall_mem_cons, List.forall_mem_flatMap]
  refine ⟨⟨⟨⟨⟨.function hcheck, .gap, .function hraw, .gap, .function hiter, .gap,
    List.forall_mem_nil _⟩, ?_⟩, fun m _ => ?_⟩, .function hinvert, List.forall_mem_nil _⟩, ?_⟩
  · split_ifs
    · simp only [List.forall_mem_cons]
      exact ⟨.function hnew, .gap, .function hbit, .gap, List.forall_mem_nil _⟩
    · exact List.forall_mem_nil _
  · exact ⟨.function (scoped_binary _ m), .gap, .function (scoped_inPlace _ m), .gap,
      List.forall_mem_nil _⟩
  · split_ifs
    · exact List.forall_mem_cons.mpr ⟨.gap, List.forall_mem_singleton.mpr (.function hneg)⟩
    · exact List.forall_mem_nil _

/-! ## Classes -/

/-- The names that every class has before its constants. -/
def membersBefore (isOpen : Bool) : List String :=
  [if isOpen then "raw" else "_raw", typeAttribute, "__type_visibility__", "__field_visibility__"]

/-- The names that every class has behind its constants. -/
def membersBehind (isOpen signed : Bool) : List String :=
  ["_NAMES", "_VALUES", "__post_init__", "from_raw", "iter"]
    ++ (if isOpen then ["new", "get_bit"] else [])
    ++ methods.flatMap (fun m => ["__" ++ m.1 ++ "__", "__i" ++ m.1 ++ "__"])
    ++ ["__invert__"] ++ (if signed then ["__neg__"] else [])

/-- They are pairwise different. -/
theorem nodup_members : ∀ isOpen signed,
    (membersBefore isOpen ++ membersBehind isOpen signed).Nodup := by
  decide +kernel

/-- They are reserved. -/
theorem reserved_members : ∀ isOpen signed,
    ∀ name ∈ membersBefore isOpen ++ membersBehind isOpen signed,
      startsWith "__" name = true ∨ name ∈ generatedMembers := by
  decide +kernel

/-- Code relies on none of them but one. -/
theorem not_relied_members : ∀ isOpen signed,
    ∀ name ∈ membersBefore isOpen ++ membersBehind isOpen signed,
      name = "iter" ∨ ¬ Relied name := by
  decide +kernel

/-- The names in the scope of a class. -/
theorem boundBy_body (depth : Nat) (c : Class) :
    boundBy (c.body depth) = membersBefore c.isOpen ++ c.constants.map Constant.name
      ++ membersBehind c.isOpen c.type.signed := by
  have hconstants : boundBy (c.constants.flatMap (Constant.tree depth)) =
      c.constants.map Constant.name := by
    rw [boundBy_flatMap, List.map_eq_flatMap]
    rfl
  have hfields : boundBy c.fields = membersBefore c.isOpen := rfl
  have hfunctions : boundBy c.listing ++ boundBy c.functions =
      membersBehind c.isOpen c.type.signed := by
    unfold Class.functions membersBehind
    cases c.isOpen <;> cases c.type.signed <;> rfl
  rw [Class.body, boundBy_append, boundBy_append, boundBy_append, boundBy_append, hfields,
    hconstants, List.append_assoc, hfunctions]
  rfl

namespace Class.Distinct

variable {c : Class} (h : c.Distinct) (depth : Nat)
include h

/-- **Scopes of classes.** A class binds each of its names once. -/
theorem nodup_body : (boundBy (c.body depth)).Nodup := by
  have hperm : (membersBefore c.isOpen ++ c.constants.map Constant.name
      ++ membersBehind c.isOpen c.type.signed).Perm (c.constants.map Constant.name
        ++ (membersBefore c.isOpen ++ membersBehind c.isOpen c.type.signed)) := by
    rw [← List.append_assoc]
    exact List.perm_append_comm.append_right _
  rw [boundBy_body, hperm.nodup_iff]
  refine h.nodup.append (nodup_members _ _) fun name hname hmember => ?_
  obtain ⟨k, hk, rfl⟩ := List.mem_map.mp hname
  obtain ⟨hadmissible, hnotMember⟩ := h.constants k hk
  rcases reserved_members _ _ _ hmember with hprivate | hreserved
  · rw [hadmissible.notPrivate] at hprivate
    cases hprivate
  · exact hnotMember hreserved

/-- **Scopes of classes.** A class binds no name that code relies on, but for the method that lists
values. -/
theorem not_mem_body {name : String} (hrelied : Relied name) (hiter : name ≠ "iter") :
    name ∉ boundBy (c.body depth) := by
  rw [boundBy_body, List.append_assoc, List.mem_append, List.mem_append]
  intro hname
  have hmembers := not_relied_members c.isOpen c.type.signed name
  rcases hname with hbefore | hconstant | hbehind
  · exact (hmembers (List.mem_append_left _ hbefore)).elim hiter fun hn => hn hrelied
  · obtain ⟨k, hk, rfl⟩ := List.mem_map.mp hconstant
    exact not_relied_of_admissible (h.constants k hk).1 hrelied
  · exact (hmembers (List.mem_append_right _ hbehind)).elim hiter fun hn => hn hrelied

end Class.Distinct

/-! ## Lookups -/

/-- A name that is looked up is found in the innermost scope or outside, and outside if it is one
that code relies on. -/
structure Lookup.Kept (outside : List String) (l : Lookup) : Prop where
  free : Relied l.name → l.name ∉ l.scope
  found : l.name ∈ l.scope ∨ l.name ∈ outside

/-- The names in a formula, apart from external constants. -/
theorem namesIn_formula (f : Formula) : ∀ name ∈ namesIn f.pieces, name = arithmeticName := by
  have hcall : ∀ more, namesIn more = [] →
      ∀ name ∈ namesIn (.name arithmeticName :: more), name = arithmeticName := by
    intro more hmore
    show ∀ name ∈ arithmeticName :: namesIn more, name = arithmeticName
    rw [hmore]
    exact List.forall_mem_singleton.mpr rfl
  have hmark : ∀ more, namesIn more = [] → ∀ name ∈ namesIn more, name = arithmeticName :=
    fun more hmore => hmore ▸ List.forall_mem_nil _
  induction f with
  | int value | constant name => exact List.forall_mem_nil _
  | apply op left right type ihl ihr =>
    simp only [Formula.pieces, namesIn_append, List.forall_mem_append]
    exact ⟨⟨⟨⟨⟨⟨hcall _ rfl, ihl⟩, hmark _ rfl⟩, ihr⟩, hmark _ rfl⟩, hcall _ rfl⟩, hmark _ rfl⟩
  | cast inner source target ih =>
    simp only [Formula.pieces, namesIn_append, List.forall_mem_append]
    exact ⟨⟨⟨⟨⟨⟨hcall _ rfl, ih⟩, hmark _ rfl⟩, hcall _ rfl⟩, hmark _ rfl⟩, hcall _ rfl⟩,
      hmark _ rfl⟩

/-- What a constant looks up. -/
theorem lookups_constant (scope : List String) (depth : Nat) (k : Constant) :
    (k.tree depth).flatMap (Stmt.lookups scope) =
      lookupsIn scope (arithmeticName :: namesIn k.source.pieces) := by
  have hnames : namesIn ([.name arithmeticName, .member "VariantConstant", .mark "("]
      ++ k.source.pieces ++ [.mark ")"]) = arithmeticName :: namesIn k.source.pieces := by
    rw [namesIn_append, namesIn_append]
    exact congrArg (arithmeticName :: ·) (List.append_nil _)
  rw [← hnames]
  exact List.append_nil _

/-- What the lists of a class look up. -/
theorem lookups_listing (scope : List String) (c : Class) :
    c.listing.flatMap (Stmt.lookups scope) = lookupsIn scope (c.constants.map Constant.name) := by
  have hnames : namesIn ([.mark "("] ++ quotedPieces (c.constants.map (·.name)) ++ [.mark ",)"]) =
      [] := by
    rw [namesIn_append, namesIn_append, namesIn_quotedPieces]
    rfl
  have hvalues : namesIn ([.mark "("]
      ++ separated (c.constants.map fun k => [.name k.name, .member "raw"]) ++ [.mark ",)"]) =
        c.constants.map Constant.name := by
    rw [namesIn_append, namesIn_append, namesIn_separated, List.flatMap_map, List.map_eq_flatMap]
    exact List.append_nil _
  rw [← hvalues]
  simp only [Class.listing, gap, List.flatMap_cons, List.flatMap_nil, Stmt.lookups, hnames]
  exact List.append_nil _

variable {outside : List String} (houtside : ∀ name ∈ classNames, name ∈ outside)
include houtside

/-- The names that a scoped function looks up are kept, in a scope that binds no name that code
relies on, but for the method that lists values. -/
theorem Stmt.IsFunction.kept {s : Stmt} (hs : s.IsFunction) {scope : List String}
    (hscope : ∀ name, Relied name → name ≠ "iter" → name ∉ scope) :
    ∀ l ∈ s.lookups scope, l.Kept outside := by
  cases hs with
  | gap => exact List.forall_mem_nil _
  | @function f hf =>
    refine List.forall_mem_append.mpr ⟨List.forall_mem_map.mpr fun name hname => ?_,
      List.forall_mem_map.mpr fun name hname => ?_⟩
    · obtain ⟨hclass, hiter⟩ := hf.outer name hname
      exact ⟨fun h => hscope name h hiter, .inr (houtside name hclass)⟩
    · exact ⟨fun h hmem => hf.locals name hmem h, (hf.inner name hname).imp id (houtside name)⟩

/-- **Lookups of classes.** What a class looks up is kept. -/
theorem Class.Distinct.kept_body {c : Class} (h : c.Distinct) (depth : Nat)
    (hsources : ∀ k ∈ c.constants, ∀ companion table member,
      k.source = .member companion table member →
        companion ∈ outside ∧ startsWith companionMark companion = true) :
    ∀ l ∈ lookupsOf (boundBy (c.body depth)) (c.body depth), l.Kept outside := by
  have hscope : ∀ name, Relied name → name ≠ "iter" → name ∉ boundBy (c.body depth) :=
    fun _ => h.not_mem_body depth
  have hclass : ∀ name, name ∈ classNames ∧ name ≠ "iter" →
      Lookup.Kept outside ⟨boundBy (c.body depth), name⟩ :=
    fun name hname => ⟨fun hrelied => hscope name hrelied hname.2, .inr (houtside name hname.1)⟩
  have hconstant : ∀ k ∈ c.constants, Lookup.Kept outside ⟨boundBy (c.body depth), k.name⟩ := by
    intro k hk
    refine ⟨fun hrelied => absurd hrelied (not_relied_of_admissible (h.constants k hk).1), .inl ?_⟩
    rw [boundBy_body]
    exact List.mem_append_left _ (List.mem_append_right _ (List.mem_map_of_mem hk))
  generalize hbody : boundBy (c.body depth) = scope at *
  rw [lookupsOf_eq]
  simp only [Class.body, List.flatMap_append, List.forall_mem_append]
  refine ⟨⟨⟨⟨List.forall_mem_nil _, ?_⟩, ?_⟩, ?_⟩, ?_⟩
  · show ∀ l ∈ lookupsIn scope ["int", arithmeticName], l.Kept outside
    exact List.forall_mem_map.mpr fun name hname => hclass name (by revert name; decide)
  · rw [List.flatMap_assoc]
    refine List.forall_mem_flatMap.mpr fun k hk => ?_
    rw [lookups_constant]
    refine List.forall_mem_map.mpr (List.forall_mem_cons.mpr ⟨hclass _ (by decide), ?_⟩)
    cases hsource : k.source with
    | formula f =>
      intro name hname
      rw [namesIn_formula f name hname]
      exact hclass _ (by decide)
    | member companion table member =>
      obtain ⟨hmem, hmark⟩ := hsources k hk companion table member hsource
      refine List.forall_mem_singleton.mpr ⟨fun h => hscope _ h ?_, .inr hmem⟩
      rintro rfl
      cases hmark
  · rw [lookups_listing]
    exact List.forall_mem_map.mpr (List.forall_mem_map.mpr hconstant)
  · exact List.forall_mem_flatMap.mpr fun s hs => (c.isFunction_functions s hs).kept houtside hscope

/-- So is what a class with its decorator looks up, in a scope that does not bind that one's
name. -/
theorem Class.Distinct.kept_tree {c : Class} (h : c.Distinct) (depth : Nat) {scope : List String}
    (hscope : "_dc" ∉ scope)
    (hsources : ∀ k ∈ c.constants, ∀ companion table member,
      k.source = .member companion table member →
        companion ∈ outside ∧ startsWith companionMark companion = true) :
    ∀ l ∈ lookupsOf scope (c.tree depth), l.Kept outside := by
  show ∀ l ∈ [] ++ ((lookupsIn scope ["_dc"]
    ++ lookupsOf (boundBy (c.body (depth + 1))) (c.body (depth + 1))) ++ []), l.Kept outside
  rw [List.nil_append, List.append_nil]
  refine List.forall_mem_append.mpr ⟨List.forall_mem_singleton.mpr ?_,
    h.kept_body houtside _ hsources⟩
  exact ⟨fun _ => hscope, .inr (houtside _ List.mem_cons_self)⟩

omit houtside

/-- **Scopes of classes.** The scopes in a class bind each of their names once. -/
theorem Class.Distinct.nodup_scopes {c : Class} (h : c.Distinct) (depth : Nat) :
    ∀ scope ∈ scopesOf (c.tree depth), scope.Nodup := by
  have hflat : ∀ body : List Stmt, (∀ s ∈ body, s.scopes = [] ∨ s.IsFunction) →
      ∀ scope ∈ scopesOf body, scope.Nodup := by
    intro body hbody
    rw [scopesOf_eq]
    refine List.forall_mem_flatMap.mpr fun s hs => ?_
    rcases hbody s hs with hnil | hfunction
    · rw [hnil]
      exact List.forall_mem_nil _
    · cases hfunction with
      | gap => exact List.forall_mem_nil _
      | function hf => exact List.forall_mem_singleton.mpr hf.nodup
  have hbody : ∀ s ∈ c.body (depth + 1), s.scopes = [] ∨ s.IsFunction := by
    simp only [Class.body, List.forall_mem_append, List.forall_mem_flatMap]
    refine ⟨⟨⟨⟨List.forall_mem_singleton.mpr (.inl rfl), ?_⟩, fun k _ => ?_⟩, ?_⟩,
      fun s hs => .inr (c.isFunction_functions s hs)⟩
    all_goals
      simp only [Class.fields, Constant.tree, Class.listing, gap, List.forall_mem_cons]
      simp [Stmt.scopes]
  show ∀ scope ∈ [] ++ ((boundBy (c.body (depth + 1)) :: scopesOf (c.body (depth + 1))) ++ []),
    scope.Nodup
  rw [List.nil_append, List.append_nil]
  exact List.forall_mem_cons.mpr ⟨h.nodup_body _, hflat _ hbody⟩

/-! ## Items -/

/-- The names that classes with the comments before them bind. -/
theorem boundBy_classes (classes : List Class) :
    boundBy (classes.flatMap fun c => gap :: c.tree 1) = classes.map Class.name := by
  rw [boundBy_flatMap, List.map_eq_flatMap]
  rfl

/-- The names that tables bind. -/
theorem boundBy_tables (tables : List OrdinalTable) :
    boundBy (tables.map OrdinalTable.tree) = tables.map OrdinalTable.name := by
  rw [boundBy, List.flatMap_map, List.map_eq_flatMap]
  rfl

/-- The names that an item binds at module level. -/
theorem boundBy_item (item : Item) : (boundBy item.tree).Perm item.names.2 := by
  cases item with
  | single c => exact .refl _
  | group name notes tables classes =>
    have hcompanion : boundBy (companionTree name tables) =
        if tables.isEmpty then [] else [companionName name] := by
      unfold companionTree
      split_ifs <;> rfl
    rw [Item.tree, boundBy_append, hcompanion]
    exact List.perm_append_comm

/-- **Scopes of items.** The scopes in an item bind each of their names once. -/
theorem Item.Distinct.nodup_scopes {item : Item} (h : item.Distinct) :
    (∀ scope ∈ scopesOf item.tree, scope.Nodup) ∧ ∀ t ∈ item.tables,
      t.members.Nodup ∧ ∀ member ∈ t.members, isOrdinalReserved member = false := by
  cases h with
  | @single c hc =>
    refine ⟨?_, List.forall_mem_nil _⟩
    rw [Item.tree, scopesOf_append]
    exact hc.nodup_scopes 0
  | @group name notes tables classes hname hnames htables hclassNames hclasses =>
    refine ⟨?_, fun t ht => ⟨(htables t ht).nodup, (htables t ht).members⟩⟩
    have hcompanion : ∀ scope ∈ scopesOf (companionTree name tables), scope.Nodup := by
      have hnone : scopesOf (tables.map OrdinalTable.tree) = [] := by
        rw [scopesOf_eq, List.flatMap_map]
        exact List.flatMap_eq_nil_iff.mpr fun _ _ => rfl
      unfold companionTree
      split_ifs
      · exact List.forall_mem_nil _
      · simp only [scopesOf, Stmt.scopes, gap, hnone, boundBy_tables, List.nil_append,
          List.append_nil]
        exact List.forall_mem_singleton.mpr hnames
    have hmodule : ∀ scope ∈ scopesOf (classes.flatMap fun c => gap :: c.tree 1), scope.Nodup := by
      rw [scopesOf_flatMap]
      exact List.forall_mem_flatMap.mpr fun c hc => (hclasses c hc).nodup_scopes 1
    rw [Item.tree, scopesOf_append]
    refine List.forall_mem_append.mpr ⟨hcompanion, ?_⟩
    simp only [scopesOf, Stmt.scopes, gap, List.nil_append, List.append_nil]
    refine List.forall_mem_cons.mpr ⟨?_, hmodule⟩
    exact (boundBy_classes classes).symm ▸ hclassNames

/-- What a table of ordinals looks up. -/
theorem lookups_table (scope : List String) (t : OrdinalTable) :
    t.tree.lookups scope = lookupsIn scope ["_enum"] := by
  have hnames : namesIn ([.name "_enum", .member "IntEnum", .mark "(", .quoted t.name,
      .mark ", ["] ++ quotedPieces t.members ++ [.mark "], ", .label "start", .number 0,
      .mark ")"]) = ["_enum"] := by
    rw [namesIn_append, namesIn_append, namesIn_quotedPieces]
    rfl
  rw [OrdinalTable.tree, Stmt.lookups, hnames]

/-- What a companion looks up is kept. -/
theorem kept_companion (name : String) {tables : List OrdinalTable}
    (htables : ∀ t ∈ tables, t.Distinct) (houter : tables ≠ [] → "_enum" ∈ outside) :
    ∀ l ∈ lookupsOf [] (companionTree name tables), l.Kept outside := by
  unfold companionTree
  split_ifs with hempty
  · exact List.forall_mem_nil _
  · simp only [lookupsOf, Stmt.lookups, gap, boundBy_tables, List.nil_append, List.append_nil]
    rw [lookupsOf_eq, List.flatMap_map]
    refine List.forall_mem_flatMap.mpr fun t _ => ?_
    rw [lookups_table]
    have hne : tables ≠ [] := by simpa using hempty
    refine List.forall_mem_singleton.mpr ⟨fun hrelied hmem => ?_, .inr (houter hne)⟩
    obtain ⟨t', ht', heq⟩ := List.mem_map.mp hmem
    exact not_relied_of_admissible (htables t' ht').name (heq ▸ hrelied)

include houtside in
/-- **Lookups of items.** What an item looks up is kept. -/
theorem Item.Distinct.kept {item : Item} (h : item.Distinct)
    (hcompanions : ∀ name ∈ item.names.1, name ∈ outside)
    (htables : item.needsTables = true → "_enum" ∈ outside) :
    ∀ l ∈ lookupsOf [] item.tree, l.Kept outside := by
  cases h with
  | @single c hc hsources =>
    rw [Item.tree, lookupsOf_append]
    refine List.forall_mem_append.mpr
      ⟨List.forall_mem_nil _, hc.kept_tree houtside 0 List.not_mem_nil ?_⟩
    intro k hk companion table member hsource
    obtain ⟨f, hf⟩ := hsources k hk
    cases hf.symm.trans hsource
  | @group name notes tables classes hname hnames hadmissible hclassNames hclasses hsources =>
    have hcompanion : ∀ l ∈ lookupsOf [] (companionTree name tables), l.Kept outside :=
      kept_companion name hadmissible fun hne => htables (by simpa [Item.needsTables] using hne)
    have hdataclass : "_dc" ∉ classes.map Class.name := by
      intro hmem
      obtain ⟨c, hc, heq⟩ := List.mem_map.mp hmem
      exact not_relied_of_admissible (hclasses c hc).name (heq ▸ .inl (by decide))
    have hmodule : ∀ l ∈ lookupsOf (classes.map Class.name)
        (classes.flatMap fun c => gap :: c.tree 1), l.Kept outside := by
      rw [lookupsOf_flatMap]
      refine List.forall_mem_flatMap.mpr fun c hc => ?_
      refine (hclasses c hc).kept_tree houtside 1 hdataclass
        fun k hk companion table member hsource => ?_
      obtain ⟨rfl, hne⟩ := hsources c hc k hk companion table member hsource
      refine ⟨hcompanions _ ?_, startsWith_companionName name⟩
      rw [Item.names, if_neg (by simpa using hne)]
      exact List.mem_singleton_self _
    have hscope : ∀ docs, boundBy (.remark docs :: classes.flatMap fun c => gap :: c.tree 1) =
        classes.map Class.name := fun _ => boundBy_classes classes
    rw [Item.tree, lookupsOf_append]
    refine List.forall_mem_append.mpr ⟨hcompanion, ?_⟩
    simp only [lookupsOf, Stmt.lookups, hscope, List.append_nil]
    exact hmodule

/-! ## Modules -/

/-- A statement that binds a name that code relies on only if it is an import, and none that the
language provides. -/
def Stmt.Imports (s : Stmt) : Prop :=
  ∀ name ∈ s.bound, name ∈ scopeNames →
    name ∉ languageNames ∧ ∃ module, s = .importAs module name

/-- A module in which no name takes the place of another. -/
structure Module.Scoped (m : Module) : Prop where
  /-- The module binds each of its names once. -/
  nodup : (boundBy m.tree).Nodup
  /-- So do its classes, companions and functions, -/
  scopes : ∀ scope ∈ scopesOf m.tree, scope.Nodup
  /-- and so does each table of ordinals, with members that a table can have. -/
  tables : ∀ item ∈ m.items, ∀ t ∈ item.tables,
    t.members.Nodup ∧ ∀ member ∈ t.members, isOrdinalReserved member = false
  /-- What is looked up is found, and outside of the innermost scope if code relies on it. -/
  kept : ∀ l ∈ lookupsOf [] m.tree, l.Kept (boundBy m.tree ++ languageNames)
  /-- Of the names that code relies on, the module binds its imports alone, by importing them. -/
  imported : ∀ s ∈ m.tree, s.Imports
  /-- What is marked as a companion is the companion of an item. -/
  companions : ∀ s ∈ m.tree, ∀ name ∈ s.bound, startsWith companionMark name = true →
    ∃ item ∈ m.items, name ∈ item.names.1 ∧ s = .class [] name (item.tables.map OrdinalTable.tree)

/-- A name that an item binds at module level is admissible or the name of its companion. -/
theorem Item.Distinct.bound {item : Item} (h : item.Distinct) :
    ∀ s ∈ item.tree, ∀ name ∈ s.bound, Admissible name ∨
      name ∈ item.names.1 ∧ startsWith companionMark name = true ∧
        s = .class [] name (item.tables.map OrdinalTable.tree) := by
  cases h with
  | @single c hc hsources =>
    simp only [Item.tree, Class.tree, gap, List.cons_append, List.nil_append, List.forall_mem_cons]
    exact ⟨List.forall_mem_nil _, List.forall_mem_nil _, List.forall_mem_nil _,
      List.forall_mem_singleton.mpr (.inl hc.name), List.forall_mem_nil _⟩
  | @group name notes tables classes hname hnames hadmissible hclassNames hclasses hsources =>
    refine List.forall_mem_append.mpr ⟨?_, ?_⟩
    · unfold companionTree
      split_ifs with hempty
      · exact List.forall_mem_nil _
      · simp only [gap, List.forall_mem_cons]
        refine ⟨List.forall_mem_nil _, List.forall_mem_nil _, List.forall_mem_singleton.mpr ?_,
          List.forall_mem_nil _⟩
        refine .inr ⟨?_, startsWith_companionName name, rfl⟩
        rw [Item.names, if_neg hempty]
        exact List.mem_singleton_self _
    · simp only [gap, List.forall_mem_cons]
      exact ⟨List.forall_mem_nil _, List.forall_mem_nil _, List.forall_mem_nil _,
        List.forall_mem_singleton.mpr (.inl hname), List.forall_mem_nil _⟩

/-- The names that a module can bind before its items. -/
def headNames : List String := ["_dc", "_enum", arithmeticName, "__all__"]

/-- The names that a module binds before its items. -/
theorem boundBy_headTree (m : Module) : boundBy m.headTree =
    ["_dc"] ++ (if m.items.any Item.needsTables then ["_enum"] else [])
      ++ [arithmeticName, "__all__"] := by
  unfold Module.headTree
  split_ifs <;> rfl

/-- They bear no mark of a companion and are not admissible. -/
theorem reserved_headTree (m : Module) : ∀ name ∈ boundBy m.headTree,
    ¬ Admissible name ∧ startsWith companionMark name = false := by
  have hreserved : ∀ name ∈ headNames, (name ∈ scopeNames ∨ startsWith "__" name = true) ∧
      startsWith companionMark name = false := by decide
  have hhead : ∀ name ∈ boundBy m.headTree, name ∈ headNames := by
    rw [boundBy_headTree]
    split_ifs <;> decide
  intro name hname
  obtain ⟨hname, hmark⟩ := hreserved name (hhead name hname)
  refine ⟨fun h => ?_, hmark⟩
  rcases hname with hscope | hprivate
  · exact h.notScope hscope
  · rw [h.notPrivate] at hprivate
    cases hprivate

/-- Before its items, a module binds names that code relies on by imports alone. -/
theorem imports_headTree (m : Module) : ∀ s ∈ m.headTree, s.Imports := by
  have hremark : ∀ lines, (Stmt.remark lines).Imports := fun _ => List.forall_mem_nil _
  have himport : ∀ module name, name ∉ languageNames → (Stmt.importAs module name).Imports :=
    fun module name hname => List.forall_mem_singleton.mpr fun _ => ⟨hname, module, rfl⟩
  have hexports : ∀ value, (Stmt.assign "__all__" value).Imports :=
    fun _ => List.forall_mem_singleton.mpr fun hscope => absurd hscope (by decide)
  unfold Module.headTree
  simp only [List.forall_mem_append, List.forall_mem_cons]
  refine ⟨⟨⟨hremark _, himport _ _ (by decide), List.forall_mem_nil _⟩, ?_⟩, hremark _,
    himport _ _ (by decide), hremark _, hexports _, List.forall_mem_nil _⟩
  split_ifs
  · exact List.forall_mem_singleton.mpr (himport _ _ (by decide))
  · exact List.forall_mem_nil _

/-- Before its items, a module looks nothing up and has no scopes inside. -/
theorem lookupsOf_headTree (m : Module) :
    lookupsOf [] m.headTree = [] ∧ scopesOf m.headTree = [] := by
  have hexports : namesIn (.mark "[" :: (quotedPieces m.exports ++ [.mark "]"])) = [] := by
    show namesIn (quotedPieces m.exports ++ [.mark "]"]) = []
    rw [namesIn_append, namesIn_quotedPieces]
    rfl
  unfold Module.headTree
  split_ifs <;> simp [lookupsOf, scopesOf, Stmt.lookups, Stmt.scopes, gap, hexports, lookupsIn]

section Module

variable {m : Module} (hitems : ∀ item ∈ m.items, item.Distinct)

/-- The names that a module binds. -/
theorem Module.boundBy_tree (m : Module) :
    boundBy m.tree = boundBy m.headTree ++ m.items.flatMap fun item => boundBy item.tree := by
  rw [Module.tree, boundBy_append, boundBy_flatMap]

include hitems

/-- A module binds each of its names once if its items share none. -/
theorem Module.nodup_tree (hnames : (m.items.flatMap (·.names.2)).Nodup) :
    (boundBy m.tree).Nodup := by
  have hperm : (m.items.flatMap fun item => boundBy item.tree).Perm
      (m.items.flatMap (·.names.2)) :=
    List.Perm.flatMap_left _ fun item _ => boundBy_item item
  have hhead : (boundBy m.headTree).Nodup := by
    rw [boundBy_headTree]
    split_ifs <;> decide
  rw [m.boundBy_tree]
  refine hhead.append (hperm.nodup_iff.mpr hnames) fun name hname hmem => ?_
  obtain ⟨item, hitem, hmem⟩ := List.mem_flatMap.mp hmem
  obtain ⟨s, hs, hmem⟩ := List.mem_flatMap.mp hmem
  obtain ⟨hadmissible, hmark⟩ := reserved_headTree m name hname
  rcases (hitems item hitem).bound s hs name hmem with h | ⟨-, h, -⟩
  · exact hadmissible h
  · rw [hmark] at h
    cases h

/-- What the items of a module look up is kept. -/
theorem Module.kept_tree : ∀ l ∈ lookupsOf [] m.tree, l.Kept (boundBy m.tree ++ languageNames) := by
  have hhead : ∀ name ∈ boundBy m.headTree, name ∈ boundBy m.tree ++ languageNames := by
    rw [m.boundBy_tree]
    exact fun name hname => List.mem_append_left _ (List.mem_append_left _ hname)
  rw [boundBy_headTree] at hhead
  have hclass : ∀ name ∈ classNames, name ∈ boundBy m.tree ++ languageNames :=
    List.forall_mem_cons.mpr ⟨hhead _ (by simp), List.forall_mem_cons.mpr
      ⟨hhead _ (by simp), fun name hname => List.mem_append_right _ hname⟩⟩
  have hcompanions : ∀ item ∈ m.items, ∀ name ∈ item.names.1,
      name ∈ boundBy m.tree ++ languageNames := by
    intro item hitem name hname
    have hmem : name ∈ boundBy item.tree := by
      refine (boundBy_item item).mem_iff.mpr ?_
      cases item with
      | single c => cases hname
      | group => exact List.mem_cons_of_mem _ hname
    rw [m.boundBy_tree]
    exact List.mem_append_left _ (List.mem_append_right _
      (List.mem_flatMap.mpr ⟨item, hitem, hmem⟩))
  have htables : ∀ item ∈ m.items, item.needsTables = true →
      "_enum" ∈ boundBy m.tree ++ languageNames := by
    intro item hitem hneeds
    exact hhead _ (by simp [List.any_eq_true.mpr ⟨item, hitem, hneeds⟩])
  generalize boundBy m.tree ++ languageNames = outside at hclass hcompanions htables
  rw [Module.tree, lookupsOf_append, (lookupsOf_headTree m).1, List.nil_append, lookupsOf_flatMap]
  exact List.forall_mem_flatMap.mpr fun item hitem =>
    (hitems item hitem).kept hclass (hcompanions item hitem) (htables item hitem)

/-- Of the names that code relies on, a module binds its imports alone. -/
theorem Module.imports_tree : ∀ s ∈ m.tree, s.Imports := by
  have hunmarked : ∀ name ∈ scopeNames, startsWith companionMark name = false := by decide
  refine List.forall_mem_append.mpr ⟨imports_headTree m, fun s hs name hname hscope => ?_⟩
  obtain ⟨item, hitem, hs⟩ := List.mem_flatMap.mp hs
  rcases (hitems item hitem).bound s hs name hname with h | ⟨-, h, -⟩
  · exact absurd hscope h.notScope
  · rw [hunmarked name hscope] at h
    cases h

/-- What a module binds with the mark of companions is the companion of an item. -/
theorem Module.companions_tree : ∀ s ∈ m.tree, ∀ name ∈ s.bound,
    startsWith companionMark name = true →
      ∃ item ∈ m.items, name ∈ item.names.1 ∧
        s = .class [] name (item.tables.map OrdinalTable.tree) := by
  intro s hs name hname hmark
  rcases List.mem_append.mp hs with hs | hs
  · rw [(reserved_headTree m name (List.mem_flatMap.mpr ⟨s, hs, hname⟩)).2] at hmark
    cases hmark
  · obtain ⟨item, hitem, hs⟩ := List.mem_flatMap.mp hs
    rcases (hitems item hitem).bound s hs name hname with h | ⟨hmem, -, heq⟩
    · rw [h.notCompanion] at hmark
      cases hmark
    · exact ⟨item, hitem, hmem, heq⟩

/-- **Modules.** A module is scoped if its items are distinct and share no name at module level. -/
theorem Module.scoped_of_distinct (hnames : (m.items.flatMap (·.names.2)).Nodup) : m.Scoped where
  nodup := nodup_tree hitems hnames
  scopes := by
    rw [Module.tree, scopesOf_append, (lookupsOf_headTree m).2, List.nil_append, scopesOf_flatMap]
    exact List.forall_mem_flatMap.mpr fun item hitem => (hitems item hitem).nodup_scopes.1
  tables item hitem := (hitems item hitem).nodup_scopes.2
  kept := kept_tree hitems
  imported := imports_tree hitems
  companions := companions_tree hitems

end Module

end Generated

/-- **Scopes.** In the module that is generated without preamble for declarations that pass the
check for collisions, however they are resolved, no name takes the place of another: its lines are
those of a tree of statements that is scoped. -/
theorem Collisions.scoped {ds : List Declaration}
    (hcollisions : Collisions.declarations ds = .ok ()) {environment : Environment}
    {rs : List ResolvedEnum}
    (hrs : resolveUnit (ds.flatMap Declaration.enums) environment = .ok rs)
    {read : Docs.Reader} {source : Option String} {m : Generated.Module}
    (hm : Generated.ofUnit read ds rs source [] = .ok m) :
    m.lines = Generated.linesOf 0 m.tree ∧ m.Scoped := by
  obtain ⟨itemss, hitems, rfl⟩ := Generated.exists_items_of_ofUnit hm
  have hdecl : ∀ r ∈ rs, r.InPlace ∧ r.decl.Admitted := by
    refine fun r hr => ⟨resolveUnit_inPlace hrs r hr, ?_⟩
    obtain ⟨d, hd, he⟩ := List.mem_flatMap.mp (decl_mem_of_resolveUnit hrs r hr)
    exact (Collisions.admitted hcollisions d hd).enums _ he
  have hnames := Generated.sublist_name_membersOf rs
  refine ⟨(Generated.Module.linesOf_tree rfl).symm, Generated.Module.scoped_of_distinct ?_ ?_⟩
  · intro item hitem
    obtain ⟨d, hd, items, hof, hitem⟩ := Generated.exists_declaration_of_ofUnit hm hitem
    exact hof.distinct (Collisions.admitted hcollisions d hd)
      (fun e he => hdecl e (Generated.mem_of_membersOf he))
      (((Collisions.declarations_ok hcollisions).2 d hd).sublist (hnames d)) item hitem
  · show (itemss.flatten.flatMap (·.names.2)).Nodup
    rw [List.flatten_eq_flatMap, List.flatMap_assoc]
    refine List.Nodup.sublist ?_ (Collisions.nodup_boundNames hcollisions)
    exact sublist_flatMap_of_forall₂
      (hitems.imp fun d items hof => hof.sublist_boundNames (hnames d))

/-- A module whose enumeration has a table of ordinals, and an enumeration beside it. -/
def shades : String :=
  "encap_enum! \x7b pub mod shade \x7b pub enum Tone: u8 \x7b Dark, Light \x7d \x7d \x7d "
    ++ "encap_enum! \x7b pub enum Step: i8 \x7b Up = 1, Down = 0 - 1 \x7d \x7d"

/-- The module for `shades` is scoped. -/
theorem Collisions.scoped_shades : ∃ ds rs m,
    declarationsOf shades = .ok ds ∧ Collisions.declarations ds = .ok () ∧
    resolveUnit (ds.flatMap Declaration.enums) {} = .ok rs ∧
    Generated.ofUnit Docs.evaluate ds rs none [] = .ok m ∧ m.items.length = 2 ∧
    m.lines = Generated.linesOf 0 m.tree ∧ m.Scoped := by
  obtain ⟨u, hu, hlength⟩ :=
    exists_compile shades {} (p := fun u => u.module.items.length = 2) (by decide +kernel)
  have hsteps := compile_of hu
  exact ⟨u.declarations, u.resolved, u.module, hsteps.declarationsOf, hsteps.collisions,
    hsteps.resolveUnit, hsteps.ofUnit, hlength,
    Collisions.scoped hsteps.collisions hsteps.resolveUnit hsteps.ofUnit⟩

end MaskEnum
