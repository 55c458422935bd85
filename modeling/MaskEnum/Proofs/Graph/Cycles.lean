import MaskEnum.Proofs.Graph.OfEdges
import MaskEnum.Proofs.Graph.TopologicalOrder
set_option autoImplicit false

/-!
# What a topological sort leaves

A sort that gives no order reports the nodes that it could not place. A node that is placed has all
that it depends on, however indirectly, placed before it, so no node on or behind a cycle is placed.
The other way round, each node that is left depends on another one that is left; so the nodes that
are left and lead to it contain a cycle.

## Main results

* `MaskEnum.Graph.mem_members_iff` — what is left are the nodes on and behind the cycles.
* `MaskEnum.Graph.topologicalOrder_sorts` — the sort of a graph, given by its successors or by its
  edges, gives an order if there is no cycle, and these nodes if there is one.
-/

namespace MaskEnum.Graph

open Relation

variable {α : Type} [DecidableEq α] {g : Graph α}

/-! ## Nodes that are left -/

/-- A member of an order has all it depends on in the order, however indirectly. -/
theorem Orders.mem_of_reflTransGen {order : List α} (h : g.Orders order) {a b : α}
    (hab : ReflTransGen g.Edge a b) (hb : b ∈ order) : a ∈ order := by
  induction hab using ReflTransGen.head_induction_on with
  | refl => exact hb
  | head hac _ hc =>
    obtain ⟨before, after, rfl⟩ := List.append_of_mem hc
    exact List.mem_append_left _ (h before _ after rfl _ hac)

/-- The sort reports the nodes outside of some order. -/
theorem exists_orders_of_error (hg : g.successors.keys.Nodup) {members : List α}
    (h : g.topologicalOrder = .error members) :
    members.Nodup ∧ ∃ placed, g.Orders placed ∧ ∀ b, b ∈ members ↔ g.IsNode b ∧ b ∉ placed := by
  obtain ⟨hs, -⟩ := sound_end hg
  rw [topologicalOrder] at h
  split_ifs at h
  obtain rfl := Except.error.inj h
  refine ⟨g.nodup_keys_waiting.filter _, _, hs.orders, fun b => ?_⟩
  rw [List.mem_filter, mem_keys_waiting hg, decide_eq_true_eq]

/-- Among nodes that each depend on another one of them, each is on a cycle or behind one: the
nodes that lead to it depend on one another, too. -/
theorem exists_cycle_of_stuck {members : List α}
    (h : ∀ b ∈ members, ∃ a ∈ members, g.Edge a b) {b : α} (hb : b ∈ members) :
    ∃ a, TransGen g.Edge a a ∧ ReflTransGen g.Edge a b := by
  classical
  have hleading : ∀ {a}, a ∈ members.filter (ReflTransGen g.Edge · b) ↔
      a ∈ members ∧ ReflTransGen g.Edge a b := by
    intro a
    rw [List.mem_filter, decide_eq_true_eq]
  have hself : b ∈ members.filter (ReflTransGen g.Edge · b) := hleading.mpr ⟨hb, .refl⟩
  obtain ⟨a, ha, hcycle⟩ := exists_transGen_of_stuck (List.ne_nil_of_mem hself) fun c hc => by
    obtain ⟨hmem, hcb⟩ := hleading.mp hc
    obtain ⟨d, hd, hdc⟩ := h c hmem
    exact ⟨d, hleading.mpr ⟨hd, hcb.head hdc⟩, hdc⟩
  exact ⟨a, hcycle, (hleading.mp ha).2⟩

/-- What comes behind a node on a cycle is a node. -/
theorem isNode_of_cycle {a b : α} (hcycle : TransGen g.Edge a a)
    (hab : ReflTransGen g.Edge a b) : g.IsNode b := by
  obtain ⟨c, -, hcb⟩ := (TransGen.tail'_iff).mp (hcycle.trans_left hab)
  exact .inr ⟨c, hcb⟩

/-- **Members of the report.** The nodes that a sort reports are those on a cycle and those behind
one. -/
theorem mem_members_iff (hg : g.successors.keys.Nodup) {members : List α}
    (h : g.topologicalOrder = .error members) {b : α} :
    b ∈ members ↔ ∃ a, TransGen g.Edge a a ∧ ReflTransGen g.Edge a b := by
  constructor
  · obtain ⟨-, hstuck⟩ := topologicalOrder_error hg h
    exact exists_cycle_of_stuck fun b hb => (hstuck b hb).2
  · rintro ⟨a, hcycle, hab⟩
    obtain ⟨-, placed, horders, hmembers⟩ := exists_orders_of_error hg h
    refine (hmembers b).mpr ⟨isNode_of_cycle hcycle hab, fun hb => ?_⟩
    exact horders.not_transGen (horders.mem_of_reflTransGen hab hb) hcycle

/-! ## The two outcomes -/

/-- Without a cycle there is an order. -/
theorem exists_order (hg : g.successors.keys.Nodup) (h : ¬ ∃ b, TransGen g.Edge b b) :
    ∃ order, g.topologicalOrder = .ok order ∧ order.Nodup ∧ (∀ b, b ∈ order ↔ g.IsNode b) ∧
      g.Orders order := by
  cases hsort : g.topologicalOrder with
  | error members => exact absurd ((topologicalOrder_error_iff hg).mp ⟨members, hsort⟩) h
  | ok order => exact ⟨order, rfl, topologicalOrder_ok hg hsort⟩

/-- With a cycle the nodes on and behind the cycles are reported. -/
theorem exists_members (hg : g.successors.keys.Nodup) (h : ∃ b, TransGen g.Edge b b) :
    ∃ members, g.topologicalOrder = .error members ∧ members.Nodup ∧
      ∀ b, b ∈ members ↔ ∃ a, TransGen g.Edge a a ∧ ReflTransGen g.Edge a b := by
  obtain ⟨members, hsort⟩ := (topologicalOrder_error_iff hg).mpr h
  exact ⟨members, hsort, (exists_orders_of_error hg hsort).1, fun b => mem_members_iff hg hsort⟩

/-- **Topological sort.** Let every node have one entry of successors. If no node depends on itself,
however indirectly, the sort lists every node, key or successor, once, and everything that a node
depends on before it; otherwise it reports the nodes on a cycle or behind one, each once.

The same holds of the graph of a list of nodes and a list of edges. Its nodes are the listed ones
and the ends of the edges, and a node depends on another if there is an edge between them. -/
theorem topologicalOrder_sorts (hg : g.successors.keys.Nodup) (nodes : List α)
    (edges : List (α × α)) :
    ((¬ ∃ b, TransGen g.Edge b b) →
      ∃ order, g.topologicalOrder = .ok order ∧ order.Nodup ∧ (∀ b, b ∈ order ↔ g.IsNode b) ∧
        ∀ before b after, order = before ++ b :: after → ∀ a, b ∈ g.next a → a ∈ before) ∧
    ((∃ b, TransGen g.Edge b b) →
      ∃ members, g.topologicalOrder = .error members ∧ members.Nodup ∧
        ∀ b, b ∈ members ↔ ∃ a, TransGen g.Edge a a ∧ ReflTransGen g.Edge a b) ∧
    ((¬ ∃ b, TransGen (fun a b => (a, b) ∈ edges) b b) →
      ∃ order, (ofEdges nodes edges).topologicalOrder = .ok order ∧ order.Nodup ∧
        (∀ b, b ∈ order ↔ b ∈ nodes ∨ ∃ e ∈ edges, b = e.1 ∨ b = e.2) ∧
        ∀ before b after, order = before ++ b :: after → ∀ a, (a, b) ∈ edges → a ∈ before) ∧
    ((∃ b, TransGen (fun a b => (a, b) ∈ edges) b b) →
      ∃ members, (ofEdges nodes edges).topologicalOrder = .error members ∧ members.Nodup ∧
        ∀ b, b ∈ members ↔ ∃ a, TransGen (fun a b => (a, b) ∈ edges) a a ∧
          ReflTransGen (fun a b => (a, b) ∈ edges) a b) := by
  have hedges : (ofEdges nodes edges).Edge = fun a b => (a, b) ∈ edges := by
    funext a b
    exact propext edge_ofEdges
  have hkeys := nodup_keys_ofEdges nodes edges
  refine ⟨exists_order hg, exists_members hg, fun hacyclic => ?_, fun hcyclic => ?_⟩
  · rw [← hedges] at hacyclic
    obtain ⟨order, hsort, hnodup, hmem, horders⟩ := exists_order hkeys hacyclic
    refine ⟨order, hsort, hnodup, fun b => (hmem b).trans isNode_ofEdges, ?_⟩
    exact fun before b after heq a ha => horders before b after heq a (edge_ofEdges.mpr ha)
  · rw [← hedges] at hcyclic ⊢
    exact exists_members hkeys hcyclic

/-- A cycle with a node behind it that is no key, and nodes before it, one of which has the cycle as
a successor twice. -/
def knotted : Graph Nat := ⟨⟨[(1, [2, 2]), (2, [3, 4]), (3, [2]), (5, [1])]⟩⟩

/-- The cycle and the node behind it are reported; edges without a cycle give an order. -/
theorem topologicalOrder_sorts_knotted :
    knotted.successors.keys.Nodup ∧ (∃ b, TransGen knotted.Edge b b) ∧
      knotted.topologicalOrder = .error [2, 3, 4] ∧
      (∀ b, b ∈ [2, 3, 4] ↔
        ∃ a, TransGen knotted.Edge a a ∧ ReflTransGen knotted.Edge a b) ∧
      (¬ ∃ b, TransGen (fun a b => (a, b) ∈ [(1, 2), (0, 1), (1, 2)]) b b) ∧
      ∃ order, (ofEdges [2, 5] [(1, 2), (0, 1), (1, 2)]).topologicalOrder = .ok order ∧
        order.Nodup ∧ 5 ∈ order := by
  have hkeys : knotted.successors.keys.Nodup := by decide
  have hcycle : TransGen knotted.Edge 2 2 := by
    have hthere : 3 ∈ knotted.next 2 := by decide
    have hback : 2 ∈ knotted.next 3 := by decide
    exact .tail (.single hthere) hback
  have hacyclic : ¬ ∃ b, TransGen (fun a b => (a, b) ∈ [(1, 2), (0, 1), (1, 2)]) b b := by
    -- all edges go upwards
    rintro ⟨b, hb⟩
    have hup : ∀ a b, (a, b) ∈ [(1, 2), (0, 1), (1, 2)] → a < b := by
      intro a b hab
      simp only [List.mem_cons, Prod.mk.injEq, List.not_mem_nil, or_false] at hab
      omega
    have hlt := TransGen.mono hup b b hb
    rw [transGen_eq_self] at hlt
    exact Nat.lt_irrefl b hlt
  obtain ⟨-, hreport, horder, -⟩ :=
    topologicalOrder_sorts hkeys [2, 5] [(1, 2), (0, 1), (1, 2)]
  have hsort : knotted.topologicalOrder = .error [2, 3, 4] := by rfl
  obtain ⟨members, hmembers, -, hall⟩ := hreport ⟨2, hcycle⟩
  obtain rfl : [2, 3, 4] = members := Except.error.inj (hsort.symm.trans hmembers)
  obtain ⟨order, hok, hnodup, hmem, -⟩ := horder hacyclic
  exact ⟨hkeys, ⟨2, hcycle⟩, hsort, hall, hacyclic, order, hok, hnodup, (hmem 5).mpr (by decide)⟩

end MaskEnum.Graph
