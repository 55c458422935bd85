import MaskEnum.Proofs.Graph.OfEdges
import MaskEnum.Proofs.Graph.TopologicalOrder
import MaskEnum.Proofs.Result
import MaskEnum.Resolution.Unit
set_option autoImplicit false

/-!
# The steps of resolution

Success of a whole resolution is success of its steps: of the values of the variants in turn, and
of the enumerations of a unit in a topological order of their references. The table of resolved
enumerations only grows, and an enumeration that the order does not name again keeps its entry.

## Main results

* `MaskEnum.Resolution.variants_cons_eq_ok` — the values of the variants, one after the other.
* `MaskEnum.resolveInOrder_cons_eq_ok`, `MaskEnum.resolveInOrder_invariant` — one enumeration
  after the other, and what holds after all of them.
* `MaskEnum.resolveUnit_eq_ok` — a resolved unit.
* `MaskEnum.get?_resolveInOrder_of_notMem` — entries that the order does not name.
-/

namespace MaskEnum

/-! ## One enumeration -/

namespace Resolution

variable {s : Scope} {index : Nat} {bound : List (String × Value)} {v : VariantDecl}
  {vs : List VariantDecl} {rs : List ResolvedVariant}

/-- The variant `v` at position `index` with the value `x`. -/
def resolved (index : Nat) (v : VariantDecl) (x : Value) : ResolvedVariant :=
  ⟨v.name, x, if v.isFieldless then some index else none, v.attributes⟩

/-- The first variant gets its value, which those after it may use. -/
theorem variants_cons_eq_ok :
    variants s index bound (v :: vs) = .ok rs ↔
      ∃ x more, value s bound index v = .ok x ∧
        variants s (index + 1) ((v.name, x) :: bound) vs = .ok more ∧
        rs = resolved index v x :: more := by
  rw [variants]
  cases hx : value s bound index v with
  | error fault => exact ⟨nofun, nofun⟩
  | ok x =>
    simp only [bind_eq_ok]
    constructor
    · rintro ⟨more, hmore, h⟩
      exact ⟨x, more, rfl, hmore, (Except.ok.inj h).symm⟩
    · rintro ⟨y, more, hy, hmore, rfl⟩
      obtain rfl := Except.ok.inj hy
      exact ⟨more, hmore, rfl⟩

/-- A chain of a group is the operands in turn, each applied to the value before it. -/
theorem group_cons_eq_ok {c : Context} {op : Operator} {x y : Value} {o : Operand}
    {os : List Operand} :
    group c op x (o :: os) = .ok y ↔
      ∃ r z, operand c o = .ok r ∧ apply op x r c.scope.type = .ok z ∧ group c op z os = .ok y := by
  rw [group]
  simp only [bind_eq_ok, exists_and_left]

/-- The value of a single operand. -/
theorem initializer_operand {c : Context} {o : Operand} :
    initializer c (.operand o) = operand c o := by
  rw [initializer]

/-- The value of a chain of groups. -/
theorem initializer_chain_eq_ok {c : Context} {op : Operator} {first : Initializer}
    {os : List Operand} {y : Value} :
    initializer c (.chain op first os) = .ok y ↔
      ∃ x, initializer c first = .ok x ∧ group c op x os = .ok y := by
  rw [initializer, bind_eq_ok]

/-- The value of a negated variant. -/
theorem operand_negated_eq_ok {c : Context} {name : String} {y : Value} :
    operand c (.negated name) = .ok y ↔
      c.scope.type.signed = true ∧
        ∃ x, variant c name = .ok x ∧ apply .sub (.known 0) x c.scope.type = .ok y := by
  rw [operand]
  cases hs : c.scope.type.signed with
  | false => exact ⟨nofun, fun h => absurd h.1 (by simp)⟩
  | true => simp only [Bool.not_true, Bool.false_eq_true, if_false, bind_eq_ok, true_and]

end Resolution

/-- An enumeration is resolved if its variants are. -/
theorem resolveEnum_eq_ok {decl : EnumDecl} {environment : Environment}
    {find : EnumPath → Option ResolvedEnum} {r : ResolvedEnum} :
    resolveEnum decl environment find = .ok r ↔
      ∃ vs, Resolution.variants ⟨decl, environment, find⟩ 0 [] decl.variants = .ok vs ∧
        r = ⟨decl, vs, Resolution.dependencies ⟨decl, environment, find⟩⟩ := by
  show (Resolution.variants ⟨decl, environment, find⟩ 0 [] decl.variants >>= fun vs =>
    Except.ok ⟨decl, vs, Resolution.dependencies ⟨decl, environment, find⟩⟩) = .ok r ↔ _
  simp only [bind_eq_ok, Except.ok.injEq]
  exact exists_congr fun vs => and_congr_right fun _ => eq_comm

/-- A resolved enumeration is a resolution of its declaration. -/
theorem decl_of_resolveEnum {decl : EnumDecl} {environment : Environment}
    {find : EnumPath → Option ResolvedEnum} {r : ResolvedEnum}
    (h : resolveEnum decl environment find = .ok r) : r.decl = decl := by
  obtain ⟨vs, -, rfl⟩ := resolveEnum_eq_ok.mp h
  rfl

/-! ## The enumerations of a unit -/

variable {unit : List EnumDecl} {environment : Environment} {order : List QualifiedName}
  {q : QualifiedName} {e : EnumDecl} {t u : Table QualifiedName ResolvedEnum}

/-- What a full name means has that name. -/
theorem qualifiedName_of_enumNamed? (h : enumNamed? unit q = some e) : e.qualifiedName = q := by
  simpa using List.find?_some h

/-- What a full name means belongs to the unit. -/
theorem mem_of_enumNamed? (h : enumNamed? unit q = some e) : e ∈ unit :=
  List.mem_reverse.mp (List.mem_of_find?_eq_some h)

/-- The name of an enumeration of the unit has a meaning. -/
theorem isSome_enumNamed? (h : e ∈ unit) : (enumNamed? unit e.qualifiedName).isSome = true := by
  rw [enumNamed?, List.find?_isSome]
  exact ⟨e, List.mem_reverse.mpr h, by simp⟩

/-- The first name of the order that means an enumeration: that one is resolved, with what is
resolved already, and the rest of the order after it. -/
theorem resolveInOrder_cons_eq_ok (h : enumNamed? unit q = some e) :
    resolveInOrder unit environment (q :: order) t = .ok u ↔
      ∃ r, resolveEnum e environment (resolvedTarget unit t e.group) = .ok r ∧
        resolveInOrder unit environment order (t.insert q r) = .ok u := by
  rw [resolveInOrder, h]
  exact bind_eq_ok

/-- A name of the order without meaning is passed over. -/
theorem resolveInOrder_cons_of_none (h : enumNamed? unit q = none) :
    resolveInOrder unit environment (q :: order) t = resolveInOrder unit environment order t := by
  rw [resolveInOrder, h]

/-- Whatever every single resolution preserves holds of the final table. -/
theorem resolveInOrder_invariant {P : Table QualifiedName ResolvedEnum → Prop}
    (step : ∀ q e r t, P t → enumNamed? unit q = some e →
      resolveEnum e environment (resolvedTarget unit t e.group) = .ok r → P (t.insert q r))
    (ht : P t) (h : resolveInOrder unit environment order t = .ok u) : P u := by
  induction order generalizing t with
  | nil => exact Except.ok.inj h ▸ ht
  | cons q order ih =>
    cases hq : enumNamed? unit q with
    | none => exact ih ht (resolveInOrder_cons_of_none hq ▸ h)
    | some e =>
      obtain ⟨r, hr, hrest⟩ := (resolveInOrder_cons_eq_ok hq).mp h
      exact ih (step q e r t ht hq hr) hrest

/-- A name that the order does not hold keeps its entry. -/
theorem get?_resolveInOrder_of_notMem (hq : q ∉ order)
    (h : resolveInOrder unit environment order t = .ok u) : u.get? q = t.get? q := by
  induction order generalizing t with
  | nil => exact Except.ok.inj h ▸ rfl
  | cons p order ih =>
    rw [List.mem_cons, not_or] at hq
    cases hp : enumNamed? unit p with
    | none => exact ih hq.2 (resolveInOrder_cons_of_none hp ▸ h)
    | some e =>
      obtain ⟨r, -, hrest⟩ := (resolveInOrder_cons_eq_ok hp).mp h
      rw [ih hq.2 hrest, Table.get?_insert, if_neg (Ne.symm hq.1)]

/-- Every entry of the final table is a resolution of what its key means. -/
theorem enumNamed?_of_get?_resolveInOrder {r : ResolvedEnum}
    (h : resolveInOrder unit environment order .empty = .ok u) (hr : u.get? q = some r) :
    enumNamed? unit q = some r.decl := by
  refine resolveInOrder_invariant
    (P := fun t => ∀ q r, t.get? q = some r → enumNamed? unit q = some r.decl)
    (fun q e r t ht hq hr => Table.forall_get?_insert ht ?_) Table.forall_get?_empty h q r hr
  rw [decl_of_resolveEnum hr]
  exact hq

/-- Resolving in order, up to some point and from there. -/
theorem resolveInOrder_append (before after : List QualifiedName) :
    resolveInOrder unit environment (before ++ after) t =
      resolveInOrder unit environment before t >>= resolveInOrder unit environment after := by
  induction before generalizing t with
  | nil => rfl
  | cons q before ih =>
    cases hq : enumNamed? unit q with
    | none =>
      rw [List.cons_append, resolveInOrder_cons_of_none hq, resolveInOrder_cons_of_none hq, ih]
    | some e =>
      simp only [List.cons_append, resolveInOrder, hq, ih, bind_assoc]

/-- Where the order names an enumeration, that one is resolved with a table that has the final
entries of all names before. -/
theorem exists_resolveEnum_of_resolveInOrder {before after : List QualifiedName}
    (horder : (before ++ q :: after).Nodup) (hm : enumNamed? unit q = some e)
    (h : resolveInOrder unit environment (before ++ q :: after) t = .ok u) :
    ∃ mid r, resolveEnum e environment (resolvedTarget unit mid e.group) = .ok r ∧
      u.get? q = some r ∧ ∀ p ∈ before, u.get? p = mid.get? p := by
  rw [resolveInOrder_append, bind_eq_ok] at h
  obtain ⟨mid, -, hrest⟩ := h
  obtain ⟨r, hr, hafter⟩ := (resolveInOrder_cons_eq_ok hm).mp hrest
  obtain ⟨-, hq, hdisjoint⟩ := List.nodup_append'.mp horder
  refine ⟨mid, r, hr, ?_, fun p hp => ?_⟩
  · rw [get?_resolveInOrder_of_notMem (List.nodup_cons.mp hq).1 hafter, Table.get?_insert,
      if_pos rfl]
  · have hnot : p ∉ q :: after := fun hmem => hdisjoint hp hmem
    rw [List.mem_cons, not_or] at hnot
    rw [get?_resolveInOrder_of_notMem hnot.2 hafter, Table.get?_insert, if_neg (Ne.symm hnot.1)]

/-- A unit is resolved if its references have an order in which its enumerations are resolved. -/
theorem resolveUnit_eq_ok {rs : List ResolvedEnum} :
    resolveUnit unit environment = .ok rs ↔
      ∃ g order resolved, referenceGraph unit = .ok g ∧ g.topologicalOrder = .ok order ∧
        resolveInOrder unit environment order .empty = .ok resolved ∧
        rs = unit.filterMap fun e => resolved.get? e.qualifiedName := by
  rw [resolveUnit, bind_eq_ok]
  constructor
  · rintro ⟨g, hg, h⟩
    cases ho : g.topologicalOrder with
    | error members =>
      rw [ho] at h
      cases h
    | ok order =>
      rw [ho] at h
      obtain ⟨resolved, hr, h⟩ := bind_eq_ok.mp h
      exact ⟨g, order, resolved, hg, ho, hr, (Except.ok.inj h).symm⟩
  · rintro ⟨g, order, resolved, hg, ho, hr, rfl⟩
    refine ⟨g, hg, ?_⟩
    rw [ho]
    exact bind_eq_ok.mpr ⟨resolved, hr, rfl⟩

/-- Whatever a unit is resolved to was declared in it. -/
theorem decl_mem_of_resolveUnit {rs : List ResolvedEnum}
    (h : resolveUnit unit environment = .ok rs) : ∀ r ∈ rs, r.decl ∈ unit := by
  obtain ⟨g, order, resolved, -, -, hresolved, rfl⟩ := resolveUnit_eq_ok.mp h
  intro r hr
  obtain ⟨e, -, he⟩ := List.mem_filterMap.mp hr
  exact mem_of_enumNamed? (enumNamed?_of_get?_resolveInOrder hresolved he)

/-- A unit is not resolved if an edge of its graph cannot be found, if its sort fails, or if an
enumeration in the order of the sort is not resolved. -/
theorem resolveUnit_eq_error {err : Error} :
    resolveUnit unit environment = .error err ↔
      referenceGraph unit = .error err ∨ ∃ g, referenceGraph unit = .ok g ∧
        ((∃ stuck, g.topologicalOrder = .error stuck ∧
            err = ⟨.circular (stuck.map QualifiedName.text), none⟩) ∨
          ∃ order, g.topologicalOrder = .ok order ∧
            resolveInOrder unit environment order .empty = .error err) := by
  rw [resolveUnit, bind_eq_error]
  refine or_congr Iff.rfl (exists_congr fun g => and_congr_right fun _ => ?_)
  cases ho : g.topologicalOrder with
  | error members =>
    constructor
    · intro h
      exact Or.inl ⟨members, rfl, (Except.error.inj h).symm⟩
    · rintro (⟨stuck, hstuck, rfl⟩ | ⟨order, horder, -⟩)
      · obtain rfl := Except.error.inj hstuck
        rfl
      · cases horder
  | ok order =>
    constructor
    · intro h
      rcases bind_eq_error.mp h with h | ⟨resolved, -, h⟩
      · exact Or.inr ⟨order, rfl, h⟩
      · cases h
    · rintro (⟨stuck, hstuck, -⟩ | ⟨order', horder, h⟩)
      · cases hstuck
      · obtain rfl := Except.ok.inj horder
        exact bind_eq_error.mpr (Or.inl h)

/-- The graph of references is made from the names of the unit and the edges of its references. -/
theorem referenceGraph_eq_ok {g : Graph QualifiedName} :
    referenceGraph unit = .ok g ↔
      ∃ es, edges unit unit = .ok es ∧ g = Graph.ofEdges (unit.map EnumDecl.qualifiedName) es := by
  rw [referenceGraph, bind_eq_ok]
  simp only [Except.ok.injEq, eq_comm]

/-- The names in the graph of references are pairwise different. -/
theorem nodup_keys_referenceGraph {g : Graph QualifiedName} (hg : referenceGraph unit = .ok g) :
    g.successors.keys.Nodup := by
  obtain ⟨es, -, rfl⟩ := referenceGraph_eq_ok.mp hg
  exact Graph.nodup_keys_ofEdges _ es

/-- The order of the references names each enumeration of the unit, and none of them twice. -/
theorem nodup_and_mem_of_topologicalOrder {g : Graph QualifiedName}
    (hg : referenceGraph unit = .ok g) (ho : g.topologicalOrder = .ok order) :
    order.Nodup ∧ ∀ e ∈ unit, e.qualifiedName ∈ order := by
  obtain ⟨hnodup, hmem, -⟩ := Graph.topologicalOrder_ok (nodup_keys_referenceGraph hg) ho
  obtain ⟨es, -, rfl⟩ := referenceGraph_eq_ok.mp hg
  refine ⟨hnodup, fun e he => (hmem _).mpr ?_⟩
  exact Graph.isNode_ofEdges.mpr (Or.inl (List.mem_map_of_mem he))

end MaskEnum
