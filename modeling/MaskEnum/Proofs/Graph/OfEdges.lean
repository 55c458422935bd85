import MaskEnum.Proofs.Graph.Waiting
set_option autoImplicit false

/-!
# Graphs from edge lists

The graph of a list of nodes and a list of edges has those nodes and the ends of those edges, and
just those edges.

## Main results

* `MaskEnum.Graph.nodup_keys_ofEdges` — its keys are pairwise different.
* `MaskEnum.Graph.edge_ofEdges`, `MaskEnum.Graph.isNode_ofEdges` — its edges and nodes.
-/

namespace MaskEnum.Graph

variable {α : Type} [DecidableEq α] {g : Graph α} {nodes : List α} {edges : List (α × α)}

/-! ## One edge more -/

/-- Adding an edge keeps the keys pairwise different. -/
theorem nodup_keys_addEdge (hg : g.successors.keys.Nodup) (d t : α) :
    (g.addEdge d t).successors.keys.Nodup := by
  have hn := Table.nodup_keys_insertNew (Table.nodup_keys_insertNew hg d []) t []
  simp only [addEdge]
  split_ifs
  · exact hn
  · exact Table.nodup_keys_insert hn d _

/-- The keys after adding an edge: its ends are among them. -/
theorem mem_keys_addEdge {d t k : α} :
    k ∈ (g.addEdge d t).successors.keys ↔ k = d ∨ k = t ∨ k ∈ g.successors.keys := by
  have hn : ∀ k, k ∈ ((g.successors.insertNew d []).insertNew t []).keys ↔
      k = t ∨ k = d ∨ k ∈ g.successors.keys := by
    intro k
    rw [Table.mem_keys_insertNew, Table.mem_keys_insertNew]
  simp only [addEdge]
  split_ifs
  · rw [hn]
    exact or_left_comm
  · rw [Table.mem_keys_insert, hn]
    tauto

/-- The successors after adding an edge: a new one stands last. -/
theorem next_addEdge (g : Graph α) (d t a : α) :
    (g.addEdge d t).next a =
      if a = d ∧ t ∉ g.next d then g.next d ++ [t] else g.next a := by
  have hn : ∀ k, (((g.successors.insertNew d []).insertNew t []).get? k).getD [] = g.next k := by
    intro k
    rw [Table.getD_get?_insertNew, Table.getD_get?_insertNew]
    rfl
  have hadd : (g.addEdge d t).next a =
      ((if t ∈ g.next d then (g.successors.insertNew d []).insertNew t []
        else ((g.successors.insertNew d []).insertNew t []).insert d (g.next d ++ [t])).get?
          a).getD [] := by
    rw [← hn d]
    rfl
  rw [hadd]
  by_cases ht : t ∈ g.next d
  · rw [if_pos ht, if_neg (fun h => h.2 ht), hn]
  · rw [if_neg ht, Table.get?_insert]
    by_cases ha : a = d
    · rw [if_pos ha.symm, if_pos ⟨ha, ht⟩, Option.getD_some]
    · rw [if_neg (Ne.symm ha), if_neg (fun h => ha h.1), hn]

/-- The edges after adding one. -/
theorem edge_addEdge {d t a b : α} :
    (g.addEdge d t).Edge a b ↔ a = d ∧ b = t ∨ g.Edge a b := by
  rw [Edge, next_addEdge, Edge]
  split_ifs with h
  · rw [List.mem_append, List.mem_singleton, h.1]
    tauto
  · refine ⟨Or.inr, ?_⟩
    rintro (⟨rfl, rfl⟩ | hb)
    · by_contra hb
      exact h ⟨rfl, hb⟩
    · exact hb

/-! ## All edges -/

/-- The edges after adding those of a list. -/
theorem edge_foldl_addEdge (g : Graph α) (edges : List (α × α)) {a b : α} :
    (edges.foldl (fun g e => g.addEdge e.1 e.2) g).Edge a b ↔ (a, b) ∈ edges ∨ g.Edge a b := by
  induction edges generalizing g with
  | nil => simp
  | cons e edges ih =>
    rw [List.foldl_cons, ih, edge_addEdge, List.mem_cons, Prod.ext_iff]
    tauto

/-- The keys after adding the edges of a list. -/
theorem mem_keys_foldl_addEdge (g : Graph α) (edges : List (α × α)) {k : α} :
    k ∈ (edges.foldl (fun g e => g.addEdge e.1 e.2) g).successors.keys ↔
      (∃ e ∈ edges, k = e.1 ∨ k = e.2) ∨ k ∈ g.successors.keys := by
  induction edges generalizing g with
  | nil => simp
  | cons e edges ih =>
    rw [List.foldl_cons, ih, mem_keys_addEdge, List.exists_mem_cons_iff]
    generalize (∃ e ∈ edges, k = e.1 ∨ k = e.2) = later
    tauto

/-- The keys of a graph from edges are pairwise different. -/
theorem nodup_keys_ofEdges (nodes : List α) (edges : List (α × α)) :
    (ofEdges nodes edges).successors.keys.Nodup := by
  have hstep : ∀ (es : List (α × α)) (g : Graph α), g.successors.keys.Nodup →
      (es.foldl (fun g e => g.addEdge e.1 e.2) g).successors.keys.Nodup := by
    intro es
    induction es with
    | nil => exact fun _ hg => hg
    | cons e es ih => exact fun g hg => ih _ (nodup_keys_addEdge hg e.1 e.2)
  exact hstep edges _ (Table.nodup_keys_insertAll (t := Table.empty) List.nodup_nil _)

/-- The edges of a graph from edges are those. -/
theorem edge_ofEdges {a b : α} : (ofEdges nodes edges).Edge a b ↔ (a, b) ∈ edges := by
  rw [ofEdges, edge_foldl_addEdge, or_iff_left]
  have hnil : ∀ k (ss : List α),
      (Table.ofList (nodes.map fun n => (n, ([] : List α)))).get? k = some ss → ss = [] :=
    Table.forall_get?_insertAll (by simp [Table.get?_empty]) (by simp)
  rw [Edge, next]
  cases hs : (Table.ofList (nodes.map fun n => (n, ([] : List α)))).get? a with
  | none => simp
  | some ss => simp [hnil a ss hs]

/-- The nodes of a graph from edges are the listed ones and the ends of the edges. -/
theorem isNode_ofEdges {b : α} :
    (ofEdges nodes edges).IsNode b ↔ b ∈ nodes ∨ ∃ e ∈ edges, b = e.1 ∨ b = e.2 := by
  simp only [IsNode, edge_ofEdges]
  rw [ofEdges, mem_keys_foldl_addEdge, Table.ofList, Table.mem_keys_insertAll, List.map_map]
  simp only [Table.keys, Table.empty, List.map_nil, List.not_mem_nil, or_false,
    Function.comp_def, List.map_id']
  constructor
  · rintro ((h | h) | ⟨a, h⟩)
    · exact Or.inr h
    · exact Or.inl h
    · exact Or.inr ⟨(a, b), h, Or.inr rfl⟩
  · rintro (h | h)
    · exact Or.inl (Or.inr h)
    · exact Or.inl (Or.inl h)

end MaskEnum.Graph
