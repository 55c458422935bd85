import MaskEnum.Proofs.Declaration.Blocks
import MaskEnum.Proofs.Declaration.Collisions
import MaskEnum.Proofs.Generated.Relabeling
import MaskEnum.Proofs.Generated.Unit
set_option autoImplicit false

/-!
# Layout does not matter

Two texts with the same lexemes differ in their white space and comments alone, and so in the places
of their tokens. They compile to modules with the same text, types and symbols, or both fail with
the same fault.

## Main definitions

* `MaskEnum.compileDeclarations` — compiling behind the parser.

## Main results

* `MaskEnum.compileDeclarations_ofPlaces` — compiling commutes with a change of places.
* `MaskEnum.compile_layout` — texts with the same lexemes compile alike.
-/

namespace MaskEnum

/-! ## Other places -/

/-- The variants of an enumeration at another place are the same. -/
theorem ResolvedEnum.variants_ofPlaces (f : Position → Position) (e : ResolvedEnum) :
    (e.relabel (.ofPlaces f)).variants = e.variants := by
  simp only [relabel, ResolvedVariant.relabel, Relabeling.ofPlaces]
  exact List.map_id _

namespace Generated

variable (f : Position → Position)

/-- The attributes of a declaration at another place. -/
theorem allAttributes_ofPlaces (d : Declaration) :
    (d.relabel (.ofPlaces f)).allAttributes = d.allAttributes := by
  have henums : ∀ es : List EnumDecl,
      (es.map (·.relabel (.ofPlaces f))).flatMap EnumDecl.allAttributes =
        es.flatMap EnumDecl.allAttributes := by
    intro es
    rw [List.flatMap_map]
    refine congrArg (es.flatMap ·) (funext fun e => ?_)
    simp only [EnumDecl.allAttributes, EnumDecl.relabel, List.flatMap_map]
    rfl
  cases d with
  | block es => exact henums es
  | module name access attributes es => exact congrArg (attributes ++ ·) (henums es)

/-- The class of an enumeration at another place. -/
theorem classOf_ofPlaces (read : Docs.Reader) (companion : Option String) (e : ResolvedEnum) :
    classOf read companion (e.relabel (.ofPlaces f)) = classOf read companion e := by
  unfold classOf
  rw [ResolvedEnum.variants_ofPlaces]
  rfl

/-- The items of a declaration at another place. -/
theorem itemsOf_ofPlaces (read : Docs.Reader) (rs : List ResolvedEnum) (d : Declaration) :
    itemsOf read (byName (rs.map (·.relabel (.ofPlaces f)))) (d.relabel (.ofPlaces f)) =
      itemsOf read (byName rs) d := by
  unfold itemsOf
  rw [byName_relabel, membersOf_relabel]
  cases d with
  | block es =>
    simp only [Declaration.relabel, List.mapM_map, Function.comp_def, classOf_ofPlaces]
  | module name access attributes es =>
    simp only [Declaration.relabel, List.mapM_map, Function.comp_def, classOf_ofPlaces,
      companionOf_relabel, tablesOf_relabel]
    rfl

/-- **Modules.** The module for declarations at other places is the same. -/
theorem ofUnit_ofPlaces (read : Docs.Reader) (ds : List Declaration) (rs : List ResolvedEnum)
    (source : Option String) (preamble : List String) :
    ofUnit read (ds.map (·.relabel (.ofPlaces f))) (rs.map (·.relabel (.ofPlaces f))) source
        preamble = ofUnit read ds rs source preamble := by
  unfold ofUnit
  simp only [List.mapM_map, Function.comp_def, itemsOf_ofPlaces, List.flatMap_map,
    exportsOf_relabel, allAttributes_ofPlaces]

end Generated

/-! ## Compiling -/

/-- The unit that a list of declarations compiles to. -/
def compileDeclarations (options : Options) (ds : List Declaration) :
    Except Error CompiledUnit := do
  Collisions.declarations ds
  let resolved ← resolveUnit (ds.flatMap Declaration.enums) options.environment
  Collisions.symbols ds resolved
  let module ← (Generated.ofUnit options.read ds resolved options.source options.preamble).mapError
    fun fault => ⟨fault, none⟩
  let types := ds.flatMap (Surface.ofDeclaration (Generated.byName resolved))
  .ok ⟨ds, resolved, types, module⟩

/-- A text is compiled by way of its declarations. -/
theorem compile_eq (text : String) (options : Options) :
    compile text options = declarationsOf text >>= compileDeclarations options :=
  rfl

/-- A compiled unit with its declarations at other places. -/
def CompiledUnit.move (f : Position → Position) (u : CompiledUnit) : CompiledUnit :=
  { u with
    declarations := u.declarations.map (·.relabel (.ofPlaces f))
    resolved := u.resolved.map (·.relabel (.ofPlaces f)) }

/-- It has the same symbols. -/
theorem CompiledUnit.symbols_move (f : Position → Position) (u : CompiledUnit) :
    (u.move f).symbols = u.symbols := by
  simp only [symbols, move, List.flatMap_map, ResolvedEnum.symbols_relabel]

/-- Declarations at other places compile alike, if their full names are unique. -/
theorem compileDeclarations_ofPlaces (f : Position → Position) (options : Options)
    {ds : List Declaration} (hgrouped : ∀ d ∈ ds, d.Grouped) :
    compileDeclarations options (ds.map (·.relabel (.ofPlaces f))) =
      moved f (CompiledUnit.move f) (compileDeclarations options ds) := by
  have henums : (ds.map (·.relabel (.ofPlaces f))).flatMap Declaration.enums =
      (ds.flatMap Declaration.enums).map (·.relabel (.ofPlaces f)) := by
    simp only [List.flatMap_map, Declaration.enums_relabel, List.map_flatMap]
  refine moved_bind (Collisions.declarations_relabel (.ofPlaces f) ds) fun _ hcollisions => ?_
  have hnodup := Collisions.nodup_qualifiedName hcollisions hgrouped
  rw [henums]
  refine moved_bind (resolveUnit_relabel (.ofPlaces f) hnodup _) fun rs _ => ?_
  refine moved_bind (Collisions.symbols_relabel (.ofPlaces f) ds rs) fun _ _ => ?_
  rw [Generated.ofUnit_ofPlaces]
  cases Generated.ofUnit options.read ds rs options.source options.preamble with
  | error fault => rfl
  | ok module =>
    refine congrArg (fun types => Except.ok (CompiledUnit.mk _ _ types module)) ?_
    simp only [List.flatMap_map, Surface.ofDeclaration_relabel]

/-- The declarations of a text are read from the blocks of its tokens. -/
theorem declarationsOf_of_tokenize {text : String} {list : TokenList}
    (h : tokenize text = .ok list) :
    declarationsOf text =
      splitBlocks list.tokens (some list.stop) >>= fun bs => bs.mapM Declaration.ofTokens := by
  rw [declarationsOf, h]
  rfl

/-- Texts with the same lexemes have the same declarations, up to places. -/
theorem declarationsOf_erased {text₁ text₂ : String} {list₁ list₂ : TokenList}
    (h₁ : tokenize text₁ = .ok list₁) (h₂ : tokenize text₂ = .ok list₂)
    (h : list₁.tokens.map Token.lexeme = list₂.tokens.map Token.lexeme) :
    moved erased (List.map (·.relabel (.ofPlaces erased))) (declarationsOf text₁) =
      moved erased (List.map (·.relabel (.ofPlaces erased))) (declarationsOf text₂) := by
  have htokens : list₁.tokens.map (Token.move erased) = list₂.tokens.map (Token.move erased) := by
    have hmap := congrArg (List.map fun lexeme => Token.mk lexeme Position.start) h
    rwa [List.map_map, List.map_map] at hmap
  have hblocks : ∀ {text : String} {list : TokenList}, tokenize text = .ok list →
      moved erased (List.map (·.relabel (.ofPlaces erased))) (declarationsOf text) =
        erasedBlocks (splitBlocks (list.tokens.map (Token.move erased)) none) >>=
          fun blocks => blocks.mapM Declaration.ofTokens := by
    intro text list htext
    rw [declarationsOf_of_tokenize htext, splitBlocks_erased]
    refine (moved_bind rfl fun bs _ => ?_).symm
    exact moved_mapM fun b _ => Declaration.ofTokens_move b
  rw [hblocks h₁, hblocks h₂, htokens]

/-- **Layout.** Two texts with the same lexemes, wherever their tokens stand, are compiled alike
with the same options: either both compile, to modules with the same text, types and symbols, or
both fail, with the same fault, and both or neither at a place. -/
theorem compile_layout {text₁ text₂ : String} {list₁ list₂ : TokenList}
    (h₁ : tokenize text₁ = .ok list₁) (h₂ : tokenize text₂ = .ok list₂)
    (h : list₁.tokens.map Token.lexeme = list₂.tokens.map Token.lexeme) (options : Options) :
    (∃ u₁ u₂, compile text₁ options = .ok u₁ ∧ compile text₂ options = .ok u₂ ∧
        u₁.text = u₂.text ∧ u₁.types = u₂.types ∧ u₁.symbols = u₂.symbols) ∨
      ∃ e₁ e₂, compile text₁ options = .error e₁ ∧ compile text₂ options = .error e₂ ∧
        e₁.fault = e₂.fault ∧ e₁.position.isSome = e₂.position.isSome := by
  have herased : ∀ text, moved erased (CompiledUnit.move erased) (compile text options) =
      moved erased (List.map (·.relabel (.ofPlaces erased))) (declarationsOf text) >>=
        compileDeclarations options := by
    intro text
    rw [compile_eq]
    refine (moved_bind rfl fun ds hds => ?_).symm
    refine compileDeclarations_ofPlaces erased options fun d hd => ?_
    obtain ⟨⟨used, hused⟩, -⟩ := declarationsOf_spec hds d hd
    exact hused.grouped
  have hsame : moved erased (CompiledUnit.move erased) (compile text₁ options) =
      moved erased (CompiledUnit.move erased) (compile text₂ options) := by
    rw [herased, herased, declarationsOf_erased h₁ h₂ h]
  cases hc₁ : compile text₁ options with
  | error e₁ =>
    cases hc₂ : compile text₂ options with
    | error e₂ =>
      rw [hc₁, hc₂] at hsame
      obtain ⟨hfault, hplace⟩ := Error.mk.inj (Except.error.inj hsame)
      refine .inr ⟨e₁, e₂, rfl, rfl, hfault, ?_⟩
      simpa using congrArg Option.isSome hplace
    | ok u₂ =>
      rw [hc₁, hc₂] at hsame
      cases hsame
  | ok u₁ =>
    cases hc₂ : compile text₂ options with
    | error e₂ =>
      rw [hc₁, hc₂] at hsame
      cases hsame
    | ok u₂ =>
      rw [hc₁, hc₂] at hsame
      have hmoved : u₁.move erased = u₂.move erased := Except.ok.inj hsame
      refine .inl ⟨u₁, u₂, rfl, rfl, ?_, ?_, ?_⟩
      · show (u₁.move erased).text = (u₂.move erased).text
        rw [hmoved]
      · show (u₁.move erased).types = (u₂.move erased).types
        rw [hmoved]
      · rw [← u₁.symbols_move erased, hmoved, u₂.symbols_move]

/-- An enumeration on one line, with a value that does not fit. -/
def dense : String := "pub enum A:u8\x7bX=1,Y=300\x7d"

/-- The same with comments, on several lines. -/
def spread : String := "pub enum A : u8 // one\n\x7b\n  X = 1,\n  /* two */ Y = 300\n\x7d\n"

/-- Both fail alike, at different places. -/
theorem compile_layout_spread :
    ∃ list₁ list₂, tokenize dense = .ok list₁ ∧ tokenize spread = .ok list₂ ∧
      list₁.tokens.map Token.lexeme = list₂.tokens.map Token.lexeme ∧
      compile dense {} = .error ⟨.resolution "A::Y" (.literalRange 300 .u8), some ⟨1, 19⟩⟩ ∧
      ∃ e, compile spread {} = .error e ∧ e.fault = .resolution "A::Y" (.literalRange 300 .u8) ∧
        e.position.isSome = true := by
  have hread : (tokenize dense).toOption.map (·.tokens.map Token.lexeme) =
      (tokenize spread).toOption.map (·.tokens.map Token.lexeme) := by
    decide +kernel
  obtain ⟨list₁, h₁⟩ : ∃ list, tokenize dense = .ok list := exists_eq_ok (by decide +kernel)
  obtain ⟨list₂, h₂⟩ : ∃ list, tokenize spread = .ok list := exists_eq_ok (by decide +kernel)
  have hlexemes : list₁.tokens.map Token.lexeme = list₂.tokens.map Token.lexeme := by
    rw [h₁, h₂] at hread
    exact Option.some.inj hread
  have hdense : compile dense {} =
      .error ⟨.resolution "A::Y" (.literalRange 300 .u8), some ⟨1, 19⟩⟩ :=
    eq_error (by decide +kernel)
  refine ⟨list₁, list₂, h₁, h₂, hlexemes, hdense, ?_⟩
  obtain ⟨u₁, -, hu₁, -⟩ | ⟨e₁, e₂, he₁, he₂, hfault, hplace⟩ :=
    compile_layout h₁ h₂ hlexemes {}
  · rw [hdense] at hu₁
    cases hu₁
  · obtain rfl := Except.error.inj (hdense.symm.trans he₁)
    exact ⟨e₂, he₂, hfault.symm, hplace.symm⟩

end MaskEnum
