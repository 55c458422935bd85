import MaskEnum.Compile
import MaskEnum.Proofs.Declaration.Identifiers
import MaskEnum.Proofs.Declaration.Refusal
import MaskEnum.Proofs.Resolution.FixedPoint
set_option autoImplicit false

/-!
# Stages that fail only with a verdict

Behind the tokens of a text, every stage up to the resolved enumerations fails only with a verdict
on the declarations: on their shape, their names or their values. The one exception is a value whose
report would have to write an integer with too many digits. Resolving a unit looks up its
enumerations by their full names, and each of them is found.

## Main definitions

* `MaskEnum.Fault.isVerdict` — whether a fault is a verdict on declarations.
* `MaskEnum.FailsByVerdict` — every failure is one.
* `MaskEnum.LooksUp` — the look-ups of a unit that must not miss.

## Main results

* `MaskEnum.declarationsOf_fails` — the declarations of a text that has tokens.
* `MaskEnum.Collisions.declarations_fails`, `MaskEnum.Collisions.symbols_fails` — names.
* `MaskEnum.resolveUnit_fails` — values.
* `MaskEnum.looksUp` — no look-up misses.
-/

namespace MaskEnum

/-- Whether a fault is a verdict on declarations: on their shape, their names or their values. -/
def Fault.isVerdict : Fault → Bool
  | lexical _ | shape (.badLiteral ..) | unwritable | documentation _ => false
  | shape _ | collision _ | resolution .. | ambiguous .. | circular _ => true

/-- Every failure is a verdict on declarations. -/
def FailsByVerdict {α : Type} (r : Except Error α) : Prop :=
  ∀ err, r = .error err → err.fault.isVerdict = true

section Steps

variable {α β : Type}

/-- Success is no failure. -/
theorem failsByVerdict_ok (a : α) : FailsByVerdict (.ok a) := by
  intro err h
  cases h

/-- A verdict. -/
theorem failsByVerdict_error {err : Error} (h : err.fault.isVerdict = true) :
    FailsByVerdict (.error err : Except Error α) := by
  intro err' h'
  obtain rfl := Except.error.inj h'
  exact h

/-- A chain of steps. -/
theorem FailsByVerdict.bind {r : Except Error α} {g : α → Except Error β} (hr : FailsByVerdict r)
    (hg : ∀ a, r = .ok a → FailsByVerdict (g a)) : FailsByVerdict (r >>= g) := by
  intro err h
  rcases bind_eq_error.mp h with h | ⟨a, ha, h⟩
  · exact hr err h
  · exact hg a ha err h

/-- The same step for all elements of a list. -/
theorem failsByVerdict_mapM {f : α → Except Error β} {as : List α}
    (h : ∀ a ∈ as, FailsByVerdict (f a)) : FailsByVerdict (as.mapM f) := by
  intro err herr
  obtain ⟨a, ha, herr⟩ := mapM_eq_error herr
  exact h a ha err herr

/-- The same check of all elements of a list. -/
theorem failsByVerdict_forM {f : α → Except Error Unit} {as : List α}
    (h : ∀ a ∈ as, FailsByVerdict (f a)) : FailsByVerdict (as.forM f) := by
  induction as with
  | nil => exact failsByVerdict_ok ()
  | cons a as ih =>
    obtain ⟨ha, has⟩ := List.forall_mem_cons.mp h
    exact ha.bind fun _ _ => ih has

/-- A stage that refuses shapes only. -/
theorem OnlyRefuses.failsByVerdict {r : Except Error α} (h : OnlyRefuses r) :
    FailsByVerdict r := by
  intro err herr
  obtain ⟨⟨f, hf⟩, hreported⟩ := h err herr
  rw [hf] at hreported ⊢
  cases f with
  | badLiteral base digits => cases hreported
  | _ => rfl

end Steps

/-! ## Declarations -/

/-- Blocks. -/
theorem splitBlocks_fails (ts : List Token) (stop : Option Position) :
    FailsByVerdict (splitBlocks ts stop) := by
  have hinvocations : FailsByVerdict (invocations ts) := by
    fun_induction invocations ts with
    | case1 => exact failsByVerdict_ok _
    | case5 start rest _ opener body _ m _ close _ inner closer after _ _ err herr ih =>
      exact fun e he => ih e (herr.trans he)
    | case6 => exact failsByVerdict_ok _
    | _ => exact failsByVerdict_error rfl
  unfold splitBlocks
  split_ifs
  · exact hinvocations
  · exact failsByVerdict_ok _

/-- **Declarations.** A text that has tokens but no declarations is refused. -/
theorem declarationsOf_fails {text : String} {list : TokenList} (h : tokenize text = .ok list) :
    FailsByVerdict (declarationsOf text) := by
  unfold declarationsOf
  rw [h]
  refine (failsByVerdict_ok list).bind fun list' hlist => ?_
  obtain rfl := Except.ok.inj hlist
  refine (splitBlocks_fails _ _).bind fun blocks hblocks => ?_
  refine failsByVerdict_mapM fun b hb => ?_
  have hproper : ∀ t ∈ b.tokens, t.Proper := fun t ht =>
    tokenize_proper h t (mem_of_splitBlocks hblocks b hb t ht)
  exact (Declaration.ofTokens_refuses hproper).failsByVerdict

/-! ## Names -/

namespace Collisions

variable {position : Option Position}

/-- A check of one name. -/
theorem refuse_fails {bad : Bool} {fault : Fault} (h : fault.isVerdict = true) :
    FailsByVerdict (refuse bad fault position) := by
  unfold refuse
  split_ifs
  · exact failsByVerdict_error h
  · exact failsByVerdict_ok ()

/-- A claim of one name. -/
theorem claim_fails (scope : Names) (kind : NameKind) (name : String) :
    FailsByVerdict (claim scope kind name position) := by
  unfold claim
  split
  · exact failsByVerdict_error rfl
  · exact failsByVerdict_ok _

/-- Variants. -/
theorem variants_fails (enumeration : String) (seen : List String) (vs : List VariantDecl) :
    FailsByVerdict (variants enumeration seen vs) := by
  induction vs generalizing seen with
  | nil => exact failsByVerdict_ok ()
  | cons v vs ih =>
    rw [variants]
    iterate 6 refine (refuse_fails rfl).bind fun _ _ => ?_
    exact ih _

/-- Enumerations. -/
theorem enums_fails (scope : Names) (es : List EnumDecl) : FailsByVerdict (enums scope es) := by
  induction es generalizing scope with
  | nil => exact failsByVerdict_ok scope
  | cons e es ih =>
    rw [enums]
    iterate 3 refine (refuse_fails rfl).bind fun _ _ => ?_
    refine (claim_fails _ _ _).bind fun scope' _ => ?_
    exact (variants_fails _ _ _).bind fun _ _ => ih scope'

/-- One declaration. -/
theorem declaration_fails (top : Names) (d : Declaration) :
    FailsByVerdict (declaration top d) := by
  cases d with
  | block members => exact enums_fails top members
  | module name access attributes members =>
    rw [declaration]
    iterate 3 refine (refuse_fails rfl).bind fun _ _ => ?_
    refine (claim_fails _ _ _).bind fun _ _ => ?_
    exact (enums_fails _ _).bind fun _ _ => failsByVerdict_ok _

/-- **Declared names.** Declarations whose names collide are refused. -/
theorem declarations_fails (ds : List Declaration) : FailsByVerdict (declarations ds) := by
  have hfrom : ∀ top, FailsByVerdict (declarationsFrom top ds) := by
    intro top
    induction ds generalizing top with
    | nil => exact failsByVerdict_ok ()
    | cons d ds ih => exact (declaration_fails top d).bind fun top' _ => ih top'
  exact hfrom []

/-- **Constants.** Resolved enumerations whose constants are hidden are refused. -/
theorem symbols_fails (ds : List Declaration) (resolved : List ResolvedEnum) :
    FailsByVerdict (symbols ds resolved) := by
  refine failsByVerdict_forM fun e _ => ?_
  unfold symbolsOf
  split
  · exact failsByVerdict_error rfl
  · exact failsByVerdict_ok ()

end Collisions

/-! ## Values -/

variable {unit : List EnumDecl} {environment : Environment}

/-- A path that is ambiguous. -/
theorem isVerdict_of_findEnum {module : Option String} {path : EnumPath} {fault : Fault}
    (h : findEnum unit module path = .error fault) : fault.isVerdict = true := by
  unfold findEnum at h
  split at h
  · split at h
    · cases h
    · unfold uniqueNamed? at h
      split at h
      · cases h
      · cases h
      · obtain rfl := Except.error.inj h
        rfl
  · cases h
  · cases h

/-- The edges of one enumeration. -/
theorem edgesOf_fails (e : EnumDecl) (paths : List EnumPath) :
    FailsByVerdict (edgesOf unit e paths) := by
  induction paths with
  | nil => exact failsByVerdict_ok []
  | cons path paths ih =>
    rw [edgesOf]
    split
    · next fault hfind => exact failsByVerdict_error (isVerdict_of_findEnum hfind)
    · next target hfind =>
      refine ih.bind fun more _ => ?_
      cases target with
      | none => exact failsByVerdict_ok more
      | some t =>
        dsimp only
        split_ifs
        · exact failsByVerdict_ok _
        · exact failsByVerdict_ok _

/-- The edges of a list of enumerations. -/
theorem edges_fails (es : List EnumDecl) : FailsByVerdict (edges unit es) := by
  induction es with
  | nil => exact failsByVerdict_ok []
  | cons e es ih =>
    refine (edgesOf_fails e e.enumPaths).bind fun first _ => ?_
    exact ih.bind fun rest _ => failsByVerdict_ok _

/-- **Values.** A unit that cannot be resolved is refused: a path is ambiguous, references are
circular, or a variant has no value. Only if the report of a value cannot be written, because a
literal or a value from elsewhere is too long for it, there is no verdict. -/
theorem resolveUnit_fails {err : Error} (h : resolveUnit unit environment = .error err) :
    err.fault.isVerdict = true ∨ err = ⟨.unwritable, none⟩ ∧ HasUnwritable unit environment := by
  rcases resolveUnit_eq_error.mp h with h | ⟨g, -, ⟨stuck, -, rfl⟩ | ⟨order, -, h⟩⟩
  · exact .inl ((edges_fails unit).bind (fun _ _ => failsByVerdict_ok _) err h)
  · exact .inl rfl
  · cases resolveInOrder_error Table.forall_get?_empty h with
    | value site fault position => exact .inl rfl
    | unwritable hlarge => exact .inr ⟨rfl, hlarge⟩

/-! ## Look-ups -/

/-- No look-up that a unit makes by the full name of an enumeration misses. -/
structure LooksUp (unit : List EnumDecl) (environment : Environment) : Prop where
  /-- Every name in the order of resolution is that of an enumeration of the unit. -/
  ordered : ∀ g order, referenceGraph unit = .ok g → g.topologicalOrder = .ok order →
    ∀ q ∈ order, ∃ e, enumNamed? unit q = some e
  /-- At the end of the order every enumeration of the unit has been resolved. -/
  resolved : ∀ g order table, referenceGraph unit = .ok g → g.topologicalOrder = .ok order →
    resolveInOrder unit environment order .empty = .ok table →
    ∀ e ∈ unit, ∃ r, table.get? e.qualifiedName = some r
  /-- Every enumeration of the unit is found when its class is generated. -/
  generated : ∀ rs, resolveUnit unit environment = .ok rs →
    ∀ e ∈ unit, ∃ r, (Generated.byName rs).get? e.qualifiedName = some r

/-- The order of resolution has names of the unit only. -/
theorem exists_of_mem_order {g : Graph QualifiedName} {order : List QualifiedName}
    (hg : referenceGraph unit = .ok g) (ho : g.topologicalOrder = .ok order) {q : QualifiedName}
    (hq : q ∈ order) : ∃ e ∈ unit, e.qualifiedName = q := by
  obtain ⟨-, hmem, -⟩ := Graph.topologicalOrder_ok (nodup_keys_referenceGraph hg) ho
  obtain ⟨es, hes, rfl⟩ := referenceGraph_eq_ok.mp hg
  rcases Graph.isNode_ofEdges.mp ((hmem q).mp hq) with hname | ⟨⟨a, b⟩, hedge, hend⟩
  · exact List.mem_map.mp hname
  · -- both ends of an edge are names of the unit
    obtain ⟨e, t, hrefers, rfl, rfl⟩ :=
      (edge_referenceGraph hg).mp (Graph.edge_ofEdges.mpr hedge)
    rcases hend with rfl | rfl
    · exact ⟨t, hrefers.mem, rfl⟩
    · exact ⟨e, hrefers.1, rfl⟩

/-- At the end of an order every enumeration that it names has been resolved. -/
theorem exists_get?_of_resolveInOrder {order : List QualifiedName}
    {table : Table QualifiedName ResolvedEnum} (hnodup : order.Nodup)
    (h : resolveInOrder unit environment order .empty = .ok table) {e : EnumDecl} (he : e ∈ unit)
    (hmem : e.qualifiedName ∈ order) : ∃ r, table.get? e.qualifiedName = some r := by
  obtain ⟨e', he'⟩ := Option.isSome_iff_exists.mp (isSome_enumNamed? he)
  obtain ⟨before, after, rfl⟩ := List.append_of_mem hmem
  obtain ⟨-, r, -, hget, -⟩ := exists_resolveEnum_of_resolveInOrder hnodup he' h
  exact ⟨r, hget⟩

/-- **Look-ups.** None misses, whatever the unit. -/
theorem looksUp (unit : List EnumDecl) (environment : Environment) :
    LooksUp unit environment where
  ordered := by
    intro g order hg ho q hq
    obtain ⟨e, he, rfl⟩ := exists_of_mem_order hg ho hq
    exact Option.isSome_iff_exists.mp (isSome_enumNamed? he)
  resolved := by
    intro g order table hg ho ht e he
    obtain ⟨hnodup, hmem⟩ := nodup_and_mem_of_topologicalOrder hg ho
    exact exists_get?_of_resolveInOrder hnodup ht he (hmem e he)
  generated := by
    intro rs h e he
    obtain ⟨g, order, table, hg, ho, ht, rfl⟩ := resolveUnit_eq_ok.mp h
    obtain ⟨hnodup, hmem⟩ := nodup_and_mem_of_topologicalOrder hg ho
    obtain ⟨r, hr⟩ := exists_get?_of_resolveInOrder hnodup ht he (hmem e he)
    have hname : r.decl.qualifiedName = e.qualifiedName :=
      qualifiedName_of_enumNamed? (enumNamed?_of_get?_resolveInOrder ht hr)
    refine Option.isSome_iff_exists.mp (Table.isSome_get?_iff.mpr ?_)
    refine Table.mem_keys_insertAll.mpr (.inl (List.mem_map.mpr ⟨(e.qualifiedName, r), ?_, rfl⟩))
    exact List.mem_map.mpr ⟨r, List.mem_filterMap.mpr ⟨e, he, hr⟩, by rw [hname]⟩

end MaskEnum
