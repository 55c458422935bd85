import Mathlib.Algebra.BigOperators.Group.List.Basic
import Mathlib.Algebra.GroupWithZero.Nat
import MaskEnum.Graph
import MaskEnum.Proofs.Table
set_option autoImplicit false

/-!
# What the nodes of a graph wait for

The counters with which a topological sort starts, and how they relate to the edges: a node waits
for as many dependencies as there are edges into it, and placing a node takes away its edges.

## Main definitions

* `MaskEnum.Graph.next`, `MaskEnum.Graph.Edge`, `MaskEnum.Graph.IsNode` — a graph as a relation.
* `MaskEnum.Graph.remaining` — the edges into a node from the nodes that are not placed yet.

## Main results

* `MaskEnum.Graph.get?_waiting` — the counters at the start.
* `MaskEnum.Graph.remaining_snoc` — the edges that placing a node takes away.
* `MaskEnum.Graph.remaining_eq_zero_iff` — a node waits for nothing if all its dependencies are
  placed.
-/

namespace MaskEnum.Graph

variable {α : Type} [DecidableEq α] {g : Graph α}

/-- The nodes that depend on `a`. -/
def next (g : Graph α) (a : α) : List α := (g.successors.get? a).getD []

/-- There is an edge from `a` to `b`: `b` depends on `a`. -/
def Edge (g : Graph α) (a b : α) : Prop := b ∈ g.next a

/-- The nodes are the keys and all their successors. -/
def IsNode (g : Graph α) (b : α) : Prop := b ∈ g.successors.keys ∨ ∃ a, g.Edge a b

/-- The number of edges into `b` from nodes outside `placed`, repeated edges counted as often as
they occur. -/
def remaining (g : Graph α) (placed : List α) (b : α) : Nat :=
  ((g.successors.entries.filter (·.1 ∉ placed)).map (·.2.count b)).sum

/-- The edges of a graph with pairwise different keys are those of its entries. -/
theorem edge_iff (hg : g.successors.keys.Nodup) {a b : α} :
    g.Edge a b ↔ ∃ e ∈ g.successors.entries, e.1 = a ∧ b ∈ e.2 := by
  constructor
  · intro h
    cases hs : g.successors.get? a with
    | none => simp [Edge, next, hs] at h
    | some ss =>
      rw [Edge, next, hs] at h
      exact ⟨(a, ss), Table.mem_entries_of_get? hs, rfl, h⟩
  · rintro ⟨⟨a', ss⟩, he, rfl, hb⟩
    rw [Edge, next, Table.get?_eq_some_of_mem hg he]
    exact hb

/-! ## The counters at the start -/

section Tally

variable {counts : Table α Nat} {b : α}

/-- A counter after one of the counters is raised. -/
theorem getD_raise (counts : Table α Nat) (k : Nat) (n b : α) :
    ((raise counts k n).get? b).getD 0 = (counts.get? b).getD 0 + if n = b then k else 0 := by
  rw [raise, Table.get?_insert]
  split_ifs with h
  · rw [h]
    rfl
  · rfl

/-- The counters after the successors of one node are counted. -/
theorem getD_foldl_raise (counts : Table α Nat) (ss : List α) (b : α) :
    ((ss.foldl (raise · 1 ·) counts).get? b).getD 0 = (counts.get? b).getD 0 + ss.count b := by
  induction ss generalizing counts with
  | nil => rfl
  | cons s ss ih =>
    rw [List.foldl_cons, ih, getD_raise, List.count_cons, Nat.add_assoc, Nat.add_comm (ite _ _ _)]
    simp only [beq_iff_eq]

/-- Counting the successors of one node makes them keys. -/
theorem mem_keys_foldl_raise (counts : Table α Nat) (ss : List α) (b : α) :
    b ∈ (ss.foldl (raise · 1 ·) counts).keys ↔ b ∈ ss ∨ b ∈ counts.keys := by
  induction ss generalizing counts with
  | nil => simp
  | cons s ss ih =>
    rw [List.foldl_cons, ih, raise, Table.mem_keys_insert, List.mem_cons]
    tauto

/-- Counting the successors of one node keeps the keys pairwise different. -/
theorem nodup_keys_foldl_raise (h : counts.keys.Nodup) (ss : List α) :
    (ss.foldl (raise · 1 ·) counts).keys.Nodup := by
  induction ss generalizing counts with
  | nil => exact h
  | cons s ss ih => exact ih (Table.nodup_keys_insert h _ _)

/-- The counters with those of the entries `es` added. -/
def tally (counts : Table α Nat) (es : List (α × List α)) : Table α Nat :=
  es.foldl (fun counts e => e.2.foldl (raise · 1 ·) (raise counts 0 e.1)) counts

/-- A counter after entries are counted. -/
theorem getD_tally (counts : Table α Nat) (es : List (α × List α)) (b : α) :
    ((tally counts es).get? b).getD 0 =
      (counts.get? b).getD 0 + (es.map (·.2.count b)).sum := by
  induction es generalizing counts with
  | nil => rfl
  | cons e es ih =>
    have hc : (tally counts (e :: es)) =
        tally (e.2.foldl (raise · 1 ·) (raise counts 0 e.1)) es := rfl
    rw [hc, ih, getD_foldl_raise, getD_raise, List.map_cons, List.sum_cons]
    simp [Nat.add_assoc]

/-- Counting entries makes their nodes and successors keys. -/
theorem mem_keys_tally (counts : Table α Nat) (es : List (α × List α)) (b : α) :
    b ∈ (tally counts es).keys ↔ (∃ e ∈ es, b = e.1 ∨ b ∈ e.2) ∨ b ∈ counts.keys := by
  induction es generalizing counts with
  | nil => simp [tally]
  | cons e es ih =>
    have hc : (tally counts (e :: es)) =
        tally (e.2.foldl (raise · 1 ·) (raise counts 0 e.1)) es := rfl
    rw [hc, ih, mem_keys_foldl_raise, raise, Table.mem_keys_insert, List.exists_mem_cons_iff]
    generalize (∃ e ∈ es, b = e.1 ∨ b ∈ e.2) = later
    tauto

/-- Counting entries keeps the keys pairwise different. -/
theorem nodup_keys_tally (h : counts.keys.Nodup) (es : List (α × List α)) :
    (tally counts es).keys.Nodup := by
  induction es generalizing counts with
  | nil => exact h
  | cons e es ih => exact ih (nodup_keys_foldl_raise (Table.nodup_keys_insert h _ _) _)

end Tally

/-- No node has two counters. -/
theorem nodup_keys_waiting (g : Graph α) : g.waiting.keys.Nodup := by
  have hempty : (Table.empty : Table α Nat).keys.Nodup := List.nodup_nil
  exact nodup_keys_tally hempty _

/-- The counters are those of the nodes. -/
theorem mem_keys_waiting (hg : g.successors.keys.Nodup) {b : α} :
    b ∈ g.waiting.keys ↔ g.IsNode b := by
  have hw : b ∈ g.waiting.keys ↔ _ := mem_keys_tally Table.empty g.successors.entries b
  rw [hw, IsNode]
  simp only [edge_iff hg, Table.keys, Table.empty, List.map_nil, List.not_mem_nil, or_false,
    List.mem_map]
  constructor
  · rintro ⟨e, he, rfl | hb⟩
    · exact Or.inl ⟨e, he, rfl⟩
    · exact Or.inr ⟨e.1, e, he, rfl, hb⟩
  · rintro (⟨e, he, rfl⟩ | ⟨a, e, he, rfl, hb⟩)
    · exact ⟨e, he, Or.inl rfl⟩
    · exact ⟨e, he, Or.inr hb⟩

/-- At the start every node waits for all edges into it. -/
theorem get?_waiting (hg : g.successors.keys.Nodup) {b : α} (hb : g.IsNode b) :
    g.waiting.get? b = some (g.remaining [] b) := by
  have hk := Table.isSome_get?_iff.mpr ((mem_keys_waiting hg).mpr hb)
  obtain ⟨n, hn⟩ := Option.isSome_iff_exists.mp hk
  have hd : (g.waiting.get? b).getD 0 = _ := getD_tally Table.empty g.successors.entries b
  rw [hn, Option.getD_some, Table.get?_empty, Option.getD_none, Nat.zero_add] at hd
  rw [hn, hd, remaining, List.filter_eq_self.mpr (by simp)]

/-! ## Placing a node -/

/-- The edges into `b` that end with placing `n`, for any list of entries. -/
theorem sum_count_snoc {placed : List α} {n : α} (hn : n ∉ placed) (b : α) :
    ∀ es : List (α × List α), (es.map Prod.fst).Nodup →
      ((es.filter (·.1 ∉ placed)).map (·.2.count b)).sum =
        ((es.filter (·.1 ∉ placed ++ [n])).map (·.2.count b)).sum +
          (((es.find? (·.1 = n)).map Prod.snd).getD []).count b
  | [], _ => rfl
  | e :: es, hnd => by
    rw [List.map_cons, List.nodup_cons] at hnd
    have ih := sum_count_snoc hn b es hnd.2
    by_cases he : e.1 = n
    · have hf : es.find? (·.1 = n) = none := by
        rw [List.find?_eq_none]
        intro e' he' h'
        exact hnd.1 (he ▸ of_decide_eq_true h' ▸ List.mem_map_of_mem he')
      rw [hf] at ih
      simp [he, hn] at ih ⊢
      omega
    · by_cases hp : e.1 ∈ placed
      · simpa [he, hp] using ih
      · simp [he, hp] at ih ⊢
        omega

/-- Placing a node takes away its edges and no others. -/
theorem remaining_snoc (hg : g.successors.keys.Nodup) {placed : List α} {n : α}
    (hn : n ∉ placed) (b : α) :
    g.remaining placed b = g.remaining (placed ++ [n]) b + (g.next n).count b :=
  sum_count_snoc hn b g.successors.entries hg

/-- A node waits for nothing exactly if all it depends on is placed. -/
theorem remaining_eq_zero_iff (hg : g.successors.keys.Nodup) {placed : List α} {b : α} :
    g.remaining placed b = 0 ↔ ∀ a, g.Edge a b → a ∈ placed := by
  simp only [remaining, List.sum_eq_zero_iff_forall_eq_nat, List.mem_map, List.mem_filter,
    decide_eq_true_eq, edge_iff hg]
  constructor
  · rintro h a ⟨e, he, rfl, hb⟩
    by_contra ha
    exact Nat.ne_of_gt (List.count_pos_iff.mpr hb) (h _ ⟨e, ⟨he, ha⟩, rfl⟩)
  · rintro h n ⟨e, ⟨he, hp⟩, rfl⟩
    exact List.count_eq_zero.mpr fun hb => hp (h e.1 ⟨e, he, rfl, hb⟩)

end MaskEnum.Graph
