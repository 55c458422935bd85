import MaskEnum.Proofs.Generated.Documentation
import MaskEnum.Proofs.Generated.Layout
import MaskEnum.Proofs.Generated.Metadata
import MaskEnum.Proofs.Generated.Relabeling
import MaskEnum.Proofs.Generated.Skeleton
set_option autoImplicit false

/-!
# Metadata is inert

Declarations that differ in their attributes alone are resolved to the same values, with the same
formulas, ordinals and dependencies, or fail with the same error. What is generated for them differs
in comments and docstrings alone, and no attribute can leave the comment or the docstring that it is
written as. An attribute has one effect at most: if the expression in it cannot be read, then no
module is generated.

## Main definitions

* `MaskEnum.Generated.Module.bare` — a module without its metadata.
* `MaskEnum.Generated.Module.Agree` — modules with the same statements.
* `MaskEnum.Generated.Module.Confined` — a module whose metadata stays in comments and docstrings.

## Main results

* `MaskEnum.Generated.ofUnit_bare` — generating commutes with taking metadata away.
* `MaskEnum.metadata_inert` — declarations that differ in metadata alone.
* `MaskEnum.metadata_unhashable` — the one effect that an attribute can have.
-/

namespace MaskEnum

namespace Generated

/-! ## Without metadata -/

/-- No metadata. -/
def noNotes : Notes := ⟨[], []⟩

/-- A constant without its metadata. -/
def Constant.bare (k : Constant) : Constant := { k with notes := noNotes }

/-- A class without its metadata. -/
def Class.bare (c : Class) : Class :=
  { c with notes := noNotes, constants := c.constants.map Constant.bare }

/-- An item without its metadata. -/
def Item.bare : Item → Item
  | .single c => .single c.bare
  | .group name _ tables classes => .group name noNotes tables (classes.map Class.bare)

/-- A module without its metadata. -/
def Module.bare (m : Module) : Module :=
  { m with items := m.items.map Item.bare, hasSurrogate := false }

/-- **Classes.** Metadata adds no statement to a class. -/
theorem Class.statements_bare (depth : Nat) (c : Class) :
    c.bare.statements depth = c.statements depth := by
  have hmembers : memberLines c.bare = memberLines c := by
    have hlist : listLines c.bare = listLines c := by
      simp only [listLines, Class.bare, List.map_map]
      rfl
    rw [memberLines, hlist]
    rfl
  have hconstants : c.bare.constants.flatMap (fun k => Generated.statements [k.line (depth + 1)]) =
      c.constants.flatMap fun k => Generated.statements [k.line (depth + 1)] := by
    rw [Class.bare, List.flatMap_map]
    rfl
  rw [Class.statements, hmembers, hconstants]
  rfl

/-- **Items.** Metadata adds no statement to an item. -/
theorem Item.statements_bare (item : Item) : item.bare.statements = item.statements := by
  cases item with
  | single c => exact c.statements_bare 0
  | group name notes tables classes =>
    simp only [bare, statements, List.flatMap_map, Class.statements_bare]

/-! ## Generating without metadata -/

variable {read : Docs.Reader}

/-- The same step for the elements of a list, each of them and each result changed. -/
theorem mapM_map_of_ok {α β γ δ ε : Type} {k : α → Except ε β} {k' : γ → Except ε δ} {f : α → γ}
    {g : β → δ} (hk : ∀ a b, k a = .ok b → k' (f a) = .ok (g b)) {as : List α} {bs : List β}
    (h : as.mapM k = .ok bs) : (as.map f).mapM k' = .ok (bs.map g) := by
  refine mapM_eq_ok.mpr ?_
  rw [List.forall₂_map_left_iff, List.forall₂_map_right_iff]
  exact (mapM_eq_ok.mp h).imp hk

/-- The class of an enumeration without metadata. -/
theorem classOf_bare {companion : Option String} {e : ResolvedEnum} {c : Class}
    (h : classOf read companion e = .ok c) :
    classOf read companion (e.relabel .bare) = .ok c.bare := by
  obtain ⟨notes, constants, -, hconstants, rfl⟩ := classOf_eq_ok.mp h
  refine classOf_eq_ok.mpr ⟨noNotes, constants.map Constant.bare, rfl, ?_, rfl⟩
  show List.Forall₂ _ (e.variants.map (·.relabel .bare)) _
  rw [List.forall₂_map_left_iff, List.forall₂_map_right_iff]
  refine hconstants.imp fun v k hk => ?_
  obtain ⟨_, -, rfl⟩ := constantOf_eq_ok.mp hk
  exact constantOf_eq_ok.mpr ⟨noNotes, rfl, rfl⟩

/-- The items of a declaration without metadata. -/
theorem itemsOf_bare {rs : List ResolvedEnum} {d : Declaration} {items : List Item}
    (h : itemsOf read (byName rs) d = .ok items) :
    itemsOf read (byName (rs.map (·.relabel .bare))) (d.relabel .bare) =
      .ok (items.map Item.bare) := by
  have hmembers : membersOf (byName (rs.map (·.relabel .bare))) (d.relabel .bare) =
      (membersOf (byName rs) d).map (·.relabel .bare) := by
    rw [byName_relabel, membersOf_relabel]
  unfold itemsOf
  rw [hmembers]
  cases d with
  | block enums =>
    obtain ⟨classes, hclasses, h⟩ := bind_eq_ok.mp h
    rw [mapM_single] at h
    obtain rfl := Except.ok.inj h
    refine bind_eq_ok.mpr ⟨classes.map Class.bare,
      mapM_map_of_ok (fun _ _ => classOf_bare) hclasses, ?_⟩
    rw [mapM_single, List.map_map, List.map_map]
    rfl
  | module name access attributes enums =>
    obtain ⟨notes, -, h⟩ := bind_eq_ok.mp h
    obtain ⟨classes, hclasses, h⟩ := bind_eq_ok.mp h
    obtain rfl := Except.ok.inj h
    refine bind_eq_ok.mpr ⟨noNotes, rfl, bind_eq_ok.mpr ⟨classes.map Class.bare, ?_, ?_⟩⟩
    · refine mapM_map_of_ok (fun e c hc => ?_) hclasses
      rw [companionOf_relabel]
      exact classOf_bare hc
    · rw [tablesOf_relabel]
      rfl

/-- A declaration without metadata has no attributes. -/
theorem allAttributes_bare (d : Declaration) : (d.relabel .bare).allAttributes = [] := by
  have henums : ∀ es : List EnumDecl,
      (es.map (·.relabel .bare)).flatMap EnumDecl.allAttributes = [] := by
    intro es
    rw [List.flatMap_map]
    refine List.flatMap_eq_nil_iff.mpr fun e _ => List.flatMap_eq_nil_iff.mpr ?_
    exact List.forall_mem_map.mpr fun v _ => rfl
  cases d with
  | block es => exact henums es
  | module name access attributes es => exact henums es

/-- **Modules.** The module for declarations without metadata is the module without its metadata. -/
theorem ofUnit_bare {ds : List Declaration} {rs : List ResolvedEnum} {source : Option String}
    {preamble : List String} {m : Module} (h : ofUnit read ds rs source preamble = .ok m) :
    ofUnit read (ds.map (·.relabel .bare)) (rs.map (·.relabel .bare)) source preamble =
      .ok m.bare := by
  obtain ⟨itemss, hitemss, h⟩ := bind_eq_ok.mp h
  obtain rfl := Except.ok.inj h
  refine bind_eq_ok.mpr ⟨itemss.map (List.map Item.bare),
    mapM_map_of_ok (fun _ _ => itemsOf_bare) hitemss, ?_⟩
  have hattributes : (ds.map (·.relabel .bare)).flatMap Declaration.allAttributes = [] := by
    rw [List.flatMap_map]
    exact List.flatMap_eq_nil_iff.mpr fun d _ => allAttributes_bare d
  have hexports : (ds.map (·.relabel .bare)).flatMap exportsOf = ds.flatMap exportsOf := by
    simp only [List.flatMap_map, exportsOf_relabel]
  rw [hattributes, hexports]
  simp only [Module.bare, List.map_flatten]
  rfl

/-! ## Modules with the same statements -/

/-- The lines of a module before its items. -/
def Module.head (m : Module) : List String :=
  [headline m.source, "", "import dataclasses as _dc"]
    ++ (if m.items.any Item.needsTables then ["import enum as _enum"] else [])
    ++ ["", "import encapenum.runtime as " ++ arithmeticName]
    ++ (if m.preamble.isEmpty then [] else "" :: m.preamble)
    ++ ["", "__all__ = [" ++ quotedList m.exports ++ "]"]

/-- Metadata does not show before the items. -/
theorem Module.head_bare (m : Module) : m.bare.head = m.head := by
  have htables : m.bare.items.any Item.needsTables = m.items.any Item.needsTables := by
    rw [bare, List.any_map]
    refine congrArg (m.items.any ·) (funext fun item => ?_)
    cases item <;> rfl
  rw [head, htables]
  rfl

/-- A reader is in code behind the lines before the items if the preamble leaves no docstring
open. -/
theorem Module.readLines_head {m : Module} (h : (readLines .code m.preamble).1 ≠ .inDocstring) :
    (readLines .code m.head).1 = .code := by
  have hopening : ∀ line ∈ [headline m.source, "", "import dataclasses as _dc"]
      ++ (if m.items.any Item.needsTables then ["import enum as _enum"] else [])
      ++ ["", "import encapenum.runtime as " ++ arithmeticName], staysInCode line = true := by
    have hheadline : staysInCode (headline m.source) = true := by
      unfold headline
      rw [String.append_assoc]
      exact staysInCode_append (by decide) _
    simp only [List.forall_mem_append, List.forall_mem_cons, hheadline]
    split_ifs <;> decide
  have hpreamble : (readLines .code (if m.preamble.isEmpty then [] else "" :: m.preamble)).1 =
      (readLines .code m.preamble).1 := by
    split_ifs with hempty
    · rw [List.isEmpty_iff.mp hempty]
    · rw [readLines, readLine_empty Standing.code_ne]
  have hexports : ∀ standing ≠ .inDocstring,
      (readLines standing ["", "__all__ = [" ++ quotedList m.exports ++ "]"]).1 = .code := by
    intro standing hstanding
    have hdrop : ("__all__ = [" ++ quotedList m.exports ++ "]").toList.dropWhile (· == ' ') =
        '_' :: ("_all__ = [".toList ++ (quotedList m.exports ++ "]").toList) := by
      rw [String.append_assoc, String.toList_append]
      rfl
    rw [readLines, readLine_empty hstanding, readLines,
      readLine_statement hstanding hdrop (by decide) (by decide)]
    rfl
  rw [head, readLines_append, readLines_append, readLines_code hopening]
  exact hexports _ (hpreamble ▸ h)

/-- Modules that have the same lines before their items, and the same statements in them, wherever
outside of docstrings their reader comes from. So they have the same statements as a whole if their
preamble leaves no docstring open. -/
structure Module.Agree (m m' : Module) : Prop where
  parts : ∃ head body body', m.lines = head ++ body ∧ m'.lines = head ++ body' ∧
    ∀ standing ≠ .inDocstring, (readLines standing body).2 = (readLines standing body').2
  whole : (readLines .code m.preamble).1 ≠ .inDocstring → statements m.lines = statements m'.lines

/-- **Modules.** Modules that are the same without metadata agree. -/
theorem Module.agree_of_bare {m m' : Module} (h : m.bare = m'.bare)
    (hitems : ∀ item ∈ m.items, item.HasIdentifiers)
    (hitems' : ∀ item ∈ m'.items, item.HasIdentifiers) : m.Agree m' := by
  have hhead : m.head = m'.head := by rw [← m.head_bare, h, m'.head_bare]
  have hbody : ∀ standing ≠ .inDocstring, (readLines standing (m.items.flatMap Item.lines)).2 =
      (readLines standing (m'.items.flatMap Item.lines)).2 := by
    intro standing hstanding
    rw [readLines_items hitems hstanding, readLines_items hitems' hstanding]
    have hstatements := congrArg (fun m : Module => m.items.flatMap Item.statements) h
    simpa only [bare, List.flatMap_map, Item.statements_bare] using hstatements
  refine ⟨⟨m.head, _, _, rfl, by rw [hhead]; rfl, hbody⟩, fun hpreamble => ?_⟩
  have hcode := readLines_head hpreamble
  show (readLines .code (m.head ++ _)).2 = (readLines .code (m'.head ++ _)).2
  rw [readLines_append, readLines_append, ← hhead, hcode, hbody .code Standing.code_ne]

/-- A module whose metadata stays in comments and docstrings: each comment is one line, and no quote
stands by itself between the quotes around a docstring. -/
structure Module.Confined (m : Module) : Prop where
  comments : ∀ notes ∈ m.notes, ∀ depth, ∀ line ∈ commentLines depth notes ++ docLines depth notes,
    isOneLine line = true
  docstrings : ∀ notes ∈ m.notes, ∀ depth, ∃ body, Text.Escaped body ∧
    ("\n".intercalate (docstringLines depth notes.docs)).toList =
      (pad depth).toList ++ Docs.docQuotes ++ body ++ Docs.docQuotes

/-- All metadata of a module comes from attributes. -/
theorem exists_attributes_of_mem_notes {ds : List Declaration} {rs : List ResolvedEnum}
    {source : Option String} {preamble : List String} {m : Module}
    (h : ofUnit read ds rs source preamble = .ok m) :
    ∀ notes ∈ m.notes, ∃ attrs, Notes.ofAttributes read attrs = .ok notes := by
  have hclass : ∀ {companion e c}, classOf read companion e = .ok c →
      ∀ notes ∈ c.allNotes, ∃ attrs, Notes.ofAttributes read attrs = .ok notes := by
    intro companion e c hc
    obtain ⟨notes, constants, hnotes, hconstants, rfl⟩ := classOf_eq_ok.mp hc
    refine List.forall_mem_cons.mpr ⟨⟨_, hnotes⟩, List.forall_mem_map.mpr fun k hk => ?_⟩
    obtain ⟨v, -, hconstant⟩ := exists_left_of_forall₂ hconstants hk
    obtain ⟨notes, hnotes, rfl⟩ := constantOf_eq_ok.mp hconstant
    exact ⟨_, hnotes⟩
  intro notes hnotes
  obtain ⟨item, hitem, hnotes⟩ := List.mem_flatMap.mp hnotes
  obtain ⟨d, -, items, hof, hitem⟩ := exists_declaration_of_ofUnit h hitem
  cases hof with
  | block hclasses =>
    obtain ⟨c, hc, rfl⟩ := List.mem_map.mp hitem
    obtain ⟨e, -, he⟩ := exists_left_of_forall₂ hclasses hc
    exact hclass he notes hnotes
  | module hmodule hclasses =>
    obtain rfl := List.mem_singleton.mp hitem
    rcases List.mem_cons.mp hnotes with rfl | hnotes
    · exact ⟨_, hmodule⟩
    · obtain ⟨c, hc, hnotes⟩ := List.mem_flatMap.mp hnotes
      obtain ⟨e, -, he⟩ := exists_left_of_forall₂ hclasses hc
      exact hclass he notes hnotes

/-- **Confinement.** The metadata of a generated module stays in comments and docstrings. -/
theorem ofUnit_confined {ds : List Declaration} {rs : List ResolvedEnum}
    {source : Option String} {preamble : List String} {m : Module}
    (h : ofUnit read ds rs source preamble = .ok m) : m.Confined where
  comments notes hnotes depth := by
    obtain ⟨attrs, hattrs⟩ := exists_attributes_of_mem_notes h notes hnotes
    exact List.forall_mem_append.mpr
      ⟨isOneLine_commentLines hattrs depth, isOneLine_docLines depth notes⟩
  docstrings notes _ depth := by
    have hindent : ∀ c ∈ (pad depth).toList, c = ' ' := by
      rw [toList_pad]
      exact fun c hc => List.eq_of_mem_replicate hc
    obtain ⟨body, hbody, htext⟩ := Docs.exists_docstring (notes.docs.map String.toList) hindent
    exact ⟨body, hbody, (toList_intercalate_ofList "\n" _).trans htext⟩

/-- The items for declarations with identifiers have identifiers. -/
theorem ItemsOf.hasIdentifiers {d : Declaration} {members : List ResolvedEnum} {items : List Item}
    (h : ItemsOf read d members items) (hd : d.HasIdentifiers)
    (hmembers : ∀ e ∈ members, e.decl.HasIdentifiers) : ∀ item ∈ items, item.HasIdentifiers := by
  cases h with
  | block hclasses => exact List.forall_mem_map.mpr fun c _ => trivial
  | @module name access attributes enums _ notes classes hnotes hclasses =>
    refine List.forall_mem_singleton.mpr ⟨hd.scope name (List.mem_singleton_self name), ?_⟩
    exact List.forall_mem_map.mpr fun e he => (hmembers e (List.mem_filter.mp he).1).name

end Generated

/-! ## Two runs -/

section TwoRuns

variable {ds₁ ds₂ : List Declaration}

/-- The enumerations of declarations without metadata. -/
theorem enums_bare (ds : List Declaration) :
    (ds.map (·.relabel .bare)).flatMap Declaration.enums =
      (ds.flatMap Declaration.enums).map (·.relabel .bare) := by
  simp only [List.flatMap_map, Declaration.enums_relabel, List.map_flatMap]

/-- An outcome whose result alone is changed. -/
theorem moved_id {α β : Type} (g : α → β) (x : Except Error α) : moved id g x = x.map g := by
  cases x with
  | error e => exact congrArg Except.error (congrArg (Error.mk e.fault) Option.map_id')
  | ok a => rfl

/-- **Resolving.** Declarations that differ in metadata alone are resolved alike. -/
theorem resolveUnit_of_bare (h₁ : Checked ds₁) (h₂ : Checked ds₂)
    (h : ds₁.map (·.relabel .bare) = ds₂.map (·.relabel .bare)) (environment : Environment) :
    (resolveUnit (ds₁.flatMap Declaration.enums) environment).map
        (List.map (·.relabel .bare)) =
      (resolveUnit (ds₂.flatMap Declaration.enums) environment).map
        (List.map (·.relabel .bare)) := by
  have hbare : ∀ ds, Checked ds → resolveUnit ((ds.map (·.relabel .bare)).flatMap Declaration.enums)
      environment = (resolveUnit (ds.flatMap Declaration.enums) environment).map
        (List.map (·.relabel .bare)) := by
    intro ds hds
    rw [enums_bare, resolveUnit_relabel .bare hds.nodup_qualifiedName]
    exact moved_id _ _
  rw [← hbare ds₁ h₁, h, hbare ds₂ h₂]

/-- **Constants that are hidden.** So are the checks of their constants. -/
theorem symbols_of_bare (h : ds₁.map (·.relabel .bare) = ds₂.map (·.relabel .bare))
    {rs₁ rs₂ : List ResolvedEnum}
    (hrs : rs₁.map (·.relabel .bare) = rs₂.map (·.relabel .bare)) :
    Collisions.symbols ds₁ rs₁ = Collisions.symbols ds₂ rs₂ := by
  have hbare : ∀ ds rs, Collisions.symbols (ds.map (·.relabel .bare)) (rs.map (·.relabel .bare)) =
      Collisions.symbols ds rs := by
    intro ds rs
    rw [Collisions.symbols_relabel]
    show moved id id _ = _
    rw [moved_id]
    exact congrFun Except.map_id _
  rw [← hbare, h, hrs, hbare]

/-- **Types.** Their descriptions are the same. -/
theorem types_of_bare (h : ds₁.map (·.relabel .bare) = ds₂.map (·.relabel .bare))
    {rs₁ rs₂ : List ResolvedEnum}
    (hrs : rs₁.map (·.relabel .bare) = rs₂.map (·.relabel .bare)) :
    ds₁.flatMap (Surface.ofDeclaration (Generated.byName rs₁)) =
      ds₂.flatMap (Surface.ofDeclaration (Generated.byName rs₂)) := by
  have hbare : ∀ (ds : List Declaration) (rs : List ResolvedEnum),
      (ds.map (·.relabel .bare)).flatMap
          (Surface.ofDeclaration (Generated.byName (rs.map (·.relabel .bare)))) =
        ds.flatMap (Surface.ofDeclaration (Generated.byName rs)) := by
    intro ds rs
    simp only [List.flatMap_map, Surface.ofDeclaration_relabel]
  rw [← hbare, h, hrs, hbare]

/-- The items of a module have identifiers. -/
theorem Checked.hasIdentifiers_items {ds : List Declaration} (hds : Checked ds)
    {environment : Environment} {rs : List ResolvedEnum}
    (hrs : resolveUnit (ds.flatMap Declaration.enums) environment = .ok rs)
    {read : Docs.Reader} {source : Option String} {preamble : List String} {m : Generated.Module}
    (h : Generated.ofUnit read ds rs source preamble = .ok m) :
    ∀ item ∈ m.items, item.HasIdentifiers := by
  intro item hitem
  obtain ⟨d, hd, items, hof, hitem⟩ := Generated.exists_declaration_of_ofUnit h hitem
  refine hof.hasIdentifiers (hds.hasIdentifiers d hd) (fun e he => ?_) item hitem
  obtain ⟨d', hd', he'⟩ := List.mem_flatMap.mp
    (decl_mem_of_resolveUnit hrs e (Generated.mem_of_membersOf he))
  exact (hds.hasIdentifiers d' hd').enums e.decl he'

/-- What two runs share whose declarations differ in metadata alone: names, values with their
formulas, ordinals and dependencies; symbols and the check of these; the descriptions of types; and
the statements of modules. -/
structure Alike (options : Options) (ds₁ ds₂ : List Declaration) (rs₁ rs₂ : List ResolvedEnum) :
    Prop where
  resolved : rs₁.map (·.relabel .bare) = rs₂.map (·.relabel .bare)
  symbols : rs₁.map ResolvedEnum.symbols = rs₂.map ResolvedEnum.symbols
  hidden : Collisions.symbols ds₁ rs₁ = Collisions.symbols ds₂ rs₂
  types : ds₁.flatMap (Surface.ofDeclaration (Generated.byName rs₁)) =
    ds₂.flatMap (Surface.ofDeclaration (Generated.byName rs₂))
  modules : ∀ m₁ m₂,
    Generated.ofUnit options.read ds₁ rs₁ options.source options.preamble = .ok m₁ →
    Generated.ofUnit options.read ds₂ rs₂ options.source options.preamble = .ok m₂ → m₁.Agree m₂

/-- **Metadata is inert.** Declarations that pass the check for collisions and differ in metadata
alone fail to resolve with the same error, or both resolve, to the same but for metadata. A module
is then generated for each, unless the expression of an attribute cannot be read, and the two agree.
All metadata of a module stays in its comments and docstrings. This holds for every reader of
expressions. -/
theorem metadata_inert (h₁ : Checked ds₁) (h₂ : Checked ds₂)
    (h : ds₁.map (·.relabel .bare) = ds₂.map (·.relabel .bare)) (options : Options) :
    ((∃ err, resolveUnit (ds₁.flatMap Declaration.enums) options.environment = .error err ∧
        resolveUnit (ds₂.flatMap Declaration.enums) options.environment = .error err) ∨
      ∃ rs₁ rs₂, resolveUnit (ds₁.flatMap Declaration.enums) options.environment = .ok rs₁ ∧
        resolveUnit (ds₂.flatMap Declaration.enums) options.environment = .ok rs₂ ∧
        Alike options ds₁ ds₂ rs₁ rs₂) ∧
    ∀ ds ∈ [ds₁, ds₂], ∀ rs,
      resolveUnit (ds.flatMap Declaration.enums) options.environment = .ok rs →
      FailsAtFirst options.read (ds.flatMap Declaration.allAttributes)
          (Generated.ofUnit options.read ds rs options.source options.preamble) ∧
        ∀ m, Generated.ofUnit options.read ds rs options.source options.preamble = .ok m →
          m.Confined := by
  constructor
  · have hresolve := resolveUnit_of_bare h₁ h₂ h options.environment
    cases hrs₁ : resolveUnit (ds₁.flatMap Declaration.enums) options.environment with
    | error err =>
      cases hrs₂ : resolveUnit (ds₂.flatMap Declaration.enums) options.environment with
      | error err₂ =>
        rw [hrs₁, hrs₂] at hresolve
        obtain rfl := Except.error.inj hresolve
        exact .inl ⟨err, rfl, rfl⟩
      | ok rs₂ =>
        rw [hrs₁, hrs₂] at hresolve
        cases hresolve
    | ok rs₁ =>
      cases hrs₂ : resolveUnit (ds₂.flatMap Declaration.enums) options.environment with
      | error err₂ =>
        rw [hrs₁, hrs₂] at hresolve
        cases hresolve
      | ok rs₂ =>
        rw [hrs₁, hrs₂] at hresolve
        have hrs : rs₁.map (·.relabel .bare) = rs₂.map (·.relabel .bare) :=
          Except.ok.inj hresolve
        refine .inr ⟨rs₁, rs₂, rfl, rfl, hrs, ?_, symbols_of_bare h hrs, types_of_bare h hrs,
          fun m₁ m₂ hm₁ hm₂ => ?_⟩
        · have hsymbols := congrArg (List.map ResolvedEnum.symbols) hrs
          simpa only [List.map_map, Function.comp_def, ResolvedEnum.symbols_relabel] using hsymbols
        · refine Generated.Module.agree_of_bare ?_ (h₁.hasIdentifiers_items hrs₁ hm₁)
            (h₂.hasIdentifiers_items hrs₂ hm₂)
          have hbare := Generated.ofUnit_bare hm₁
          rw [h, hrs, Generated.ofUnit_bare hm₂] at hbare
          exact (Except.ok.inj hbare).symm
  · intro ds hmem rs hrs
    have hds : Checked ds := by
      rcases List.mem_pair.mp hmem with rfl | rfl
      · exact h₁
      · exact h₂
    exact ⟨hds.ofUnit_failsAtFirst hrs _ _, fun m => Generated.ofUnit_confined⟩

end TwoRuns

/-- An enumeration with documentation. -/
def documented : String :=
  "#[doc = \"one\"] pub enum A: u8 \x7b X = 1, #[doc = \"x\\ny\"] Y = X << 1 \x7d"

/-- The same without, with its tokens at the same places. -/
def undocumented : String :=
  "/* nothing */  pub enum A: u8 \x7b X = 1, /*           */ Y = X << 1 \x7d"

/-- Texts that pass the check and differ in metadata alone. -/
theorem exists_checked_of_texts {text₁ text₂ : String}
    (h : (match declarationsOf text₁, declarationsOf text₂ with
      | .ok ds₁, .ok ds₂ => (Collisions.declarations ds₁).toOption.isSome &&
          (Collisions.declarations ds₂).toOption.isSome &&
          decide (ds₁.map (·.relabel .bare) = ds₂.map (·.relabel .bare))
      | _, _ => false) = true) :
    ∃ ds₁ ds₂, declarationsOf text₁ = .ok ds₁ ∧ declarationsOf text₂ = .ok ds₂ ∧
      Checked ds₁ ∧ Checked ds₂ ∧ ds₁.map (·.relabel .bare) = ds₂.map (·.relabel .bare) := by
  split at h
  · next ds₁ ds₂ hds₁ hds₂ =>
    obtain ⟨hchecked, hbare⟩ := Bool.and_eq_true_iff.mp h
    obtain ⟨⟨⟨⟩, h₁⟩, ⟨⟨⟩, h₂⟩⟩ := (Bool.and_eq_true_iff.mp hchecked).imp exists_eq_ok exists_eq_ok
    exact ⟨ds₁, ds₂, hds₁, hds₂, checked_of_declarationsOf hds₁ h₁,
      checked_of_declarationsOf hds₂ h₂, of_decide_eq_true hbare⟩
  · cases h

/-- Both resolve, alike. -/
theorem metadata_inert_documented :
    ∃ ds₁ ds₂, declarationsOf documented = .ok ds₁ ∧ declarationsOf undocumented = .ok ds₂ ∧
      ∃ rs₁ rs₂, resolveUnit (ds₁.flatMap Declaration.enums) {} = .ok rs₁ ∧
        resolveUnit (ds₂.flatMap Declaration.enums) {} = .ok rs₂ ∧ Alike {} ds₁ ds₂ rs₁ rs₂ := by
  obtain ⟨ds₁, ds₂, hds₁, hds₂, h₁, h₂, hbare⟩ :=
    @exists_checked_of_texts documented undocumented (by decide +kernel)
  refine ⟨ds₁, ds₂, hds₁, hds₂, ?_⟩
  obtain ⟨⟨err, herr, -⟩ | hresolved, -⟩ := metadata_inert h₁ h₂ hbare {}
  · have hsome : (declarationsOf documented >>= fun ds =>
        resolveUnit (ds.flatMap Declaration.enums) {}).toOption.isSome = true := by decide +kernel
    rw [hds₁] at hsome
    obtain ⟨rs, hrs⟩ := exists_eq_ok hsome
    cases herr.symm.trans hrs
  · exact hresolved

/-- An enumeration with an attribute whose expression has a set with a list in it. -/
def unhashed : String := "pub enum A: u8 \x7b X = 1, #[doc = \"a\", \x7b[]\x7d] Y = 2 \x7d"

/-- The same without the attribute, with its tokens at the same places. -/
def unattributed : String := "pub enum A: u8 \x7b X = 1, /*              */ Y = 2 \x7d"

/-- The two differ in metadata alone and pass the check, but only one of them has a module. -/
theorem metadata_unhashable :
    ∃ ds₁ ds₂, declarationsOf unhashed = .ok ds₁ ∧ declarationsOf unattributed = .ok ds₂ ∧
      Collisions.declarations ds₁ = .ok () ∧ Collisions.declarations ds₂ = .ok () ∧
      ds₁.map (·.relabel .bare) = ds₂.map (·.relabel .bare) ∧
      compileDeclarations {} ds₁ = .error ⟨.documentation .unhashableKey, none⟩ ∧
      ∃ u, compileDeclarations {} ds₂ = .ok u := by
  obtain ⟨ds₁, ds₂, hds₁, hds₂, h₁, h₂, hbare⟩ :=
    @exists_checked_of_texts unhashed unattributed (by decide +kernel)
  have hfault : compile unhashed {} = .error ⟨.documentation .unhashableKey, none⟩ :=
    eq_error (by decide +kernel)
  obtain ⟨u, hu⟩ : ∃ u, compile unattributed {} = .ok u := exists_eq_ok (by decide +kernel)
  rw [compile_eq, hds₁] at hfault
  rw [compile_eq, hds₂] at hu
  exact ⟨ds₁, ds₂, hds₁, hds₂, h₁.collisions, h₂.collisions, hbare, hfault, u, hu⟩

end MaskEnum
