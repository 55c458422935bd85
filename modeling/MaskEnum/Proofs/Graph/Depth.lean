import Mathlib.Order.Lattice.Nat
import MaskEnum.Proofs.Graph.Cycles
import MaskEnum.Proofs.Graph.Turns
set_option autoImplicit false

/-!
# Orders by depth

The depth of a node is the length of the longest path that ends in it. A node joins the queue of a
topological sort with the last of its dependencies, one of which is a node of the depth below; so
the queue is served depth by depth, and inside a depth by the place of the last dependency. An order
with this property is an order by turns, so there is only one.

## Main definitions

* `MaskEnum.Graph.PathTo`, `MaskEnum.Graph.depth` — paths and the longest one to a node.
* `MaskEnum.Graph.ByDepth` — an order by depth, with its ties.

## Main results

* `MaskEnum.Graph.isGreatest_depth` — without cycles there is a longest path to every node.
* `MaskEnum.Graph.Queued.idxOf_lt_of_depth_lt` — orders by turns go by depth.
* `MaskEnum.Graph.topologicalOrder_byDepth` — the sort gives the only order by depth.
-/

namespace MaskEnum.Graph

open Relation

variable {α : Type} [DecidableEq α] {g : Graph α}

/-- There is a path of so many edges that ends in a node. -/
inductive PathTo (g : Graph α) : ℕ → α → Prop
  | here (b : α) : PathTo g 0 b
  | step {n : ℕ} {a b : α} : PathTo g n a → g.Edge a b → PathTo g (n + 1) b

/-- The length of the longest path that ends in a node, where there is a longest one. -/
noncomputable def depth (g : Graph α) (b : α) : ℕ := sSup {n | g.PathTo n b}

/-- An order of the nodes by depth. The nodes of depth zero stand as among the keys; two others of
one depth stand as the last nodes of the order on which they depend, or, if it is the same one, as
their last occurrences among its successors (the one that is found later from the end is first). -/
structure ByDepth (g : Graph α) (order : List α) : Prop where
  nodup : order.Nodup
  mem_iff : ∀ b, b ∈ order ↔ g.IsNode b
  depths : order.Pairwise (g.depth · ≤ g.depth ·)
  keys : order.filter (g.depth · = 0) = g.successors.keys.filter (g.depth · = 0)
  ties : order.Pairwise fun b c => g.depth b = g.depth c → 0 < g.depth b →
    ∀ a a', g.lastDependency? order b = some a → g.lastDependency? order c = some a' →
      order.idxOf a < order.idxOf a' ∨
        a = a' ∧ (g.next a).reverse.idxOf c < (g.next a).reverse.idxOf b

/-! ## Places in a list -/

section Places

variable {l : List α} {b c : α}

/-- In a list without repetitions what holds between each member and the later ones tells which of
two members is first. -/
theorem idxOf_lt_of_pairwise {R : α → α → Prop} (h : l.Pairwise R) (hb : b ∈ l) (hc : c ∈ l)
    (hne : b ≠ c) (hR : ¬ R c b) : l.idxOf b < l.idxOf c := by
  have hlt := List.idxOf_lt_length_of_mem hb
  have hlt' := List.idxOf_lt_length_of_mem hc
  rcases lt_trichotomy (l.idxOf b) (l.idxOf c) with h' | h' | h'
  · exact h'
  · exact absurd ((List.idxOf_inj hb).mp h') hne
  · refine absurd ?_ hR
    have hcb := List.pairwise_iff_getElem.mp h _ _ hlt' hlt h'
    rwa [List.getElem_idxOf, List.getElem_idxOf] at hcb

/-- Dropping repetitions keeps the order of last occurrences. -/
theorem idxOf_dedup_lt_iff (hb : b ∈ l) (hc : c ∈ l) :
    l.dedup.idxOf b < l.dedup.idxOf c ↔ l.reverse.idxOf c < l.reverse.idxOf b := by
  induction l with
  | nil => cases hb
  | cons x l ih =>
    have hold : ∀ {a}, a ∈ l → (x :: l).reverse.idxOf a = l.reverse.idxOf a := by
      intro a ha
      rw [List.reverse_cons, List.idxOf_append_of_mem (List.mem_reverse.mpr ha)]
    have hlt : ∀ {a}, a ∈ l → l.reverse.idxOf a < l.length := by
      intro a ha
      have := List.idxOf_lt_length_of_mem (List.mem_reverse.mpr ha)
      rwa [List.length_reverse] at this
    by_cases hx : x ∈ l
    · have hmem : ∀ {a}, a ∈ x :: l → a ∈ l := by
        intro a ha
        rcases List.mem_cons.mp ha with rfl | ha
        · exact hx
        · exact ha
      rw [List.dedup_cons_of_mem hx, hold (hmem hb), hold (hmem hc)]
      exact ih (hmem hb) (hmem hc)
    · -- the only occurrence of `x` is in front, so it is found last from the end
      have hlast : (x :: l).reverse.idxOf x = l.length := by
        rw [List.reverse_cons, List.idxOf_append_of_notMem (by simpa using hx)]
        simp
      have hne : ∀ {a}, a ∈ l → x ≠ a := by
        rintro a ha rfl
        exact hx ha
      rw [List.dedup_cons_of_notMem hx]
      rcases List.mem_cons.mp hb with rfl | hbl <;> rcases List.mem_cons.mp hc with rfl | hcl
      · simp
      · rw [hold hcl, hlast, List.idxOf_cons_self, List.idxOf_cons_ne _ (hne hcl)]
        exact iff_of_true (Nat.succ_pos _) (hlt hcl)
      · rw [hold hbl, hlast, List.idxOf_cons_self]
        exact iff_of_false (Nat.not_lt_zero _) (hlt hbl).le.not_gt
      · rw [hold hbl, hold hcl, List.idxOf_cons_ne _ (hne hbl), List.idxOf_cons_ne _ (hne hcl),
          Nat.succ_lt_succ_iff]
        exact ih hbl hcl

end Places

/-! ## What stands first -/

section First

variable {order : List α} {a b c : α}

/-- In an order by turns a node with an earlier turn stands first. -/
theorem Queued.idxOf_lt (hqueued : g.Queued order) (hb : b ∈ order) (hc : c ∈ order)
    (hlt : g.turn order b < g.turn order c) : order.idxOf b < order.idxOf c := by
  have hne : b ≠ c := by
    rintro rfl
    exact lt_irrefl _ hlt
  exact idxOf_lt_of_pairwise hqueued hb hc hne hlt.asymm

/-- In an order all that a member depends on is a member. -/
theorem Orders.mem_of_edge (horders : g.Orders order) (hab : g.Edge a b) (hb : b ∈ order) :
    a ∈ order :=
  horders.mem_of_reflTransGen (.single hab) hb

/-- In an order by depth a node of less depth stands first. -/
theorem ByDepth.idxOf_lt_of_depth_lt (h : g.ByDepth order) (hb : b ∈ order) (hc : c ∈ order)
    (hlt : g.depth b < g.depth c) : order.idxOf b < order.idxOf c := by
  have hne : b ≠ c := by
    rintro rfl
    exact lt_irrefl _ hlt
  exact idxOf_lt_of_pairwise h.depths hb hc hne hlt.not_ge

end First

/-! ## Last dependencies -/

section Last

variable {order : List α} {a b c : α}

/-- A node without a last dependency depends on no member. -/
theorem lastDependency?_eq_none :
    g.lastDependency? order b = none ↔ ∀ a ∈ order, ¬ g.Edge a b := by
  simp [lastDependency?, Edge]

/-- The last dependency is a member on which the node depends. -/
theorem mem_of_lastDependency? (h : g.lastDependency? order b = some a) :
    a ∈ order ∧ g.Edge a b := by
  refine ⟨List.mem_reverse.mp (List.mem_of_find?_eq_some h), ?_⟩
  simpa [Edge] using List.find?_some h

/-- No dependency stands behind the last one. -/
theorem idxOf_le_of_lastDependency? (hnodup : order.Nodup) {p : α}
    (h : g.lastDependency? order b = some a) (hp : p ∈ order) (hpb : g.Edge p b) :
    order.idxOf p ≤ order.idxOf a := by
  obtain ⟨-, before, after, heq, hnone⟩ := List.find?_eq_some_iff_append.mp h
  have horder : order = after.reverse ++ a :: before.reverse := by
    simpa using congrArg List.reverse heq
  subst horder
  have hfirst : a ∉ after.reverse := fun ha =>
    (List.nodup_append.mp hnodup).2.2 a ha a List.mem_cons_self rfl
  rw [List.idxOf_append_of_notMem hfirst, List.idxOf_cons_self, Nat.add_zero]
  rcases List.mem_append.mp hp with hp | hp
  · rw [List.idxOf_append_of_mem hp]
    exact (List.idxOf_lt_length_of_mem hp).le
  · rcases List.mem_cons.mp hp with rfl | hp
    · rw [List.idxOf_append_of_notMem hfirst, List.idxOf_cons_self, Nat.add_zero]
    · have hpb : p ∈ before ∧ b ∈ g.next p := ⟨List.mem_reverse.mp hp, hpb⟩
      simpa [hpb.2] using hnone p hpb.1

/-- The turn of a node without dependencies. -/
theorem turn_of_none (h : g.lastDependency? order b = none) :
    g.turn order b = toLex (0, g.successors.keys.idxOf b) := by
  rw [turn, h]

/-- The turn of a node with a last dependency. -/
theorem turn_of_some (h : g.lastDependency? order b = some a) :
    g.turn order b = toLex (order.idxOf a + 1, (g.next a).dedup.idxOf b) := by
  rw [turn, h]

end Last

/-! ## Depth -/

section Depth

variable {order : List α} {a b c : α}

/-- In an order of all nodes no path to a node is longer than its place. -/
theorem PathTo.le_idxOf (horders : g.Orders order) (hmem : ∀ b, g.IsNode b → b ∈ order) {n : ℕ}
    (h : g.PathTo n b) : n ≤ order.idxOf b := by
  induction h with
  | here => exact Nat.zero_le _
  | @step n a b _ hab ih =>
    obtain ⟨before, after, heq, hnew⟩ := List.eq_append_cons_of_mem (hmem b (.inr ⟨a, hab⟩))
    have ha : a ∈ before := horders before b after heq a hab
    have hlt := List.idxOf_lt_length_of_mem ha
    rw [heq, List.idxOf_append_of_mem ha] at ih
    rw [heq, List.idxOf_append_of_notMem hnew, List.idxOf_cons_self]
    omega

/-- **Depths.** Without cycles there is a longest path to every node. -/
theorem isGreatest_depth (hg : g.successors.keys.Nodup) (h : ¬ ∃ b, TransGen g.Edge b b) (b : α) :
    IsGreatest {n | g.PathTo n b} (g.depth b) := by
  obtain ⟨order, -, -, hmem, horders⟩ := exists_order hg h
  have hbound : BddAbove {n | g.PathTo n b} :=
    ⟨order.idxOf b, fun n hn => PathTo.le_idxOf horders (fun b hb => (hmem b).mpr hb) hn⟩
  exact ⟨Nat.sSup_mem ⟨0, .here b⟩ hbound, fun n hn => le_csSup hbound hn⟩

variable (hdepth : ∀ b, IsGreatest {n | g.PathTo n b} (g.depth b))

include hdepth

/-- A node is deeper than what it depends on. -/
theorem depth_lt_of_edge (hab : g.Edge a b) : g.depth a < g.depth b :=
  (hdepth b).2 (PathTo.step (hdepth a).1 hab)

/-- A node of some depth depends on one of the depth below. -/
theorem exists_edge_of_depth {d : ℕ} (hb : g.depth b = d + 1) :
    ∃ a, g.Edge a b ∧ g.depth a = d := by
  have hpath : g.PathTo (d + 1) b := hb ▸ (hdepth b).1
  cases hpath with
  | @step _ a _ ha hab =>
    have hle : d ≤ g.depth a := (hdepth a).2 ha
    have hlt := depth_lt_of_edge hdepth hab
    exact ⟨a, hab, by omega⟩

/-- The nodes of depth zero are those that depend on nothing. -/
theorem depth_eq_zero_iff : g.depth b = 0 ↔ ∀ a, ¬ g.Edge a b := by
  constructor
  · intro hb a hab
    have hlt := depth_lt_of_edge hdepth hab
    omega
  · intro h
    cases hb : g.depth b with
    | zero => rfl
    | succ d =>
      obtain ⟨a, hab, -⟩ := exists_edge_of_depth hdepth hb
      exact absurd hab (h a)

/-- The last dependency of a node that has some depth, in an order with all nodes before those that
depend on them. -/
theorem exists_lastDependency (hdeps : ∀ a b, g.Edge a b → b ∈ order → a ∈ order)
    (hb : b ∈ order) (hpos : 0 < g.depth b) : ∃ a, g.lastDependency? order b = some a := by
  cases hlast : g.lastDependency? order b with
  | some a => exact ⟨a, rfl⟩
  | none =>
    rw [lastDependency?_eq_none] at hlast
    have hzero := (depth_eq_zero_iff hdepth).mpr fun a hab => hlast a (hdeps a b hab hb) hab
    omega

/-- The last dependency of a deeper node stands behind that of another one, if what is less deep than
the other one stands before all that is deeper than it: the deeper node depends on a node that is at
least as deep as the other one. -/
theorem idxOf_lastDependency_lt {a' : α} (hnodup : order.Nodup)
    (hdeps : ∀ a b, g.Edge a b → b ∈ order → a ∈ order) (hc : c ∈ order)
    (hlt : g.depth b < g.depth c) (ha : g.lastDependency? order b = some a)
    (ha' : g.lastDependency? order c = some a')
    (hfirst : ∀ a ∈ order, g.depth a < g.depth b → ∀ p ∈ order, g.depth a < g.depth p →
      order.idxOf a < order.idxOf p) : order.idxOf a < order.idxOf a' := by
  obtain ⟨hmem, hab⟩ := mem_of_lastDependency? ha
  have hshallow := depth_lt_of_edge hdepth hab
  obtain ⟨p, hpc, hp⟩ := exists_edge_of_depth hdepth (Nat.succ_pred_eq_of_pos
    (Nat.zero_lt_of_lt hlt)).symm
  have hpmem := hdeps p c hpc hc
  have hap : g.depth a < g.depth p := hp ▸ hshallow.trans_le (Nat.le_pred_of_lt hlt)
  exact (hfirst a hmem hshallow p hpmem hap).trans_le
    (idxOf_le_of_lastDependency? hnodup ha' hpmem hpc)

/-! ## An order by turns goes by depth -/

/-- **Depth first.** In an order by turns a node of less depth stands first.

**Proof sketch.** Induction on the lesser depth. The deeper node depends on one that is at least as
deep as the other node, and what the other node depends on is less deep than that. So the last
dependency of the other node stands before it, and the other node joins the queue in an earlier
round. -/
theorem Queued.idxOf_lt_of_depth_lt (hqueued : g.Queued order) (horders : g.Orders order)
    (hnodup : order.Nodup) (hb : b ∈ order) (hc : c ∈ order) (hlt : g.depth b < g.depth c) :
    order.idxOf b < order.idxOf c := by
  have hdeps : ∀ a b, g.Edge a b → b ∈ order → a ∈ order := fun _ _ => horders.mem_of_edge
  induction hd : g.depth b using Nat.strong_induction_on generalizing b c with
  | _ d ih =>
    subst hd
    obtain ⟨a', ha'⟩ := exists_lastDependency hdepth hdeps hc (Nat.zero_lt_of_lt hlt)
    refine hqueued.idxOf_lt hb hc ?_
    rw [turn_of_some ha', Prod.Lex.lt_iff]
    refine .inl ?_
    cases ha : g.lastDependency? order b with
    | none =>
      rw [turn_of_none ha]
      exact Nat.succ_pos _
    | some a =>
      rw [turn_of_some ha]
      refine Nat.succ_lt_succ (idxOf_lastDependency_lt hdepth hnodup hdeps hc hlt ha ha' ?_)
      exact fun a ha hab p hp hap => ih (g.depth a) hab ha hp hap rfl

/-- An order by turns is an order by depth. -/
theorem byDepth_of_queued (hg : g.successors.keys.Nodup) (hnodup : order.Nodup)
    (hmem : ∀ b, b ∈ order ↔ g.IsNode b) (horders : g.Orders order) (hqueued : g.Queued order) :
    g.ByDepth order := by
  have hplaces := pairwise_idxOf hnodup
  refine ⟨hnodup, hmem, ?_, ?_, ?_⟩
  · refine hplaces.imp_of_mem fun {b c} hb hc hbc => ?_
    by_contra hlt
    have hcb := hqueued.idxOf_lt_of_depth_lt hdepth horders hnodup hc hb (not_le.mp hlt)
    exact hbc.asymm hcb
  · -- both lists have the nodes of depth zero, and both go by their places among the keys
    have hzero : ∀ b, g.depth b = 0 → g.turn order b = toLex (0, g.successors.keys.idxOf b) :=
      fun b hb => turn_of_none (lastDependency?_eq_none.mpr fun a _ =>
        (depth_eq_zero_iff hdepth).mp hb a)
    have hfirst : (order.filter (g.depth · = 0)).Pairwise
        fun b c => g.successors.keys.idxOf b < g.successors.keys.idxOf c := by
      refine (hqueued.filter _).imp_of_mem fun {b c} hb hc hbc => ?_
      rw [hzero b (of_decide_eq_true (List.mem_filter.mp hb).2),
        hzero c (of_decide_eq_true (List.mem_filter.mp hc).2)] at hbc
      simpa [Prod.Lex.toLex_lt_toLex] using hbc
    have hsecond := (pairwise_idxOf hg).filter (g.depth · = 0)
    have hperm : (order.filter (g.depth · = 0)).Perm (g.successors.keys.filter (g.depth · = 0)) := by
      refine (List.perm_ext_iff_of_nodup (hnodup.filter _) (hg.filter _)).mpr fun b => ?_
      rw [List.mem_filter, List.mem_filter, hmem, decide_eq_true_eq, depth_eq_zero_iff hdepth]
      refine and_congr_left fun hb => or_iff_left ?_
      rintro ⟨a, hab⟩
      exact hb a hab
    exact hperm.eq_of_pairwise (fun b c _ _ hbc hcb => absurd hcb hbc.asymm) hfirst hsecond
  · refine hqueued.imp_of_mem fun {b c} hb hc hbc _ _ a a' ha ha' => ?_
    rw [turn_of_some ha, turn_of_some ha', Prod.Lex.toLex_lt_toLex] at hbc
    rcases hbc with hbc | ⟨heq, hbc⟩
    · exact .inl (Nat.lt_of_succ_lt_succ hbc)
    · obtain ⟨hmem, hab⟩ := mem_of_lastDependency? ha
      obtain ⟨-, hac⟩ := mem_of_lastDependency? ha'
      obtain rfl := (List.idxOf_inj hmem).mp (Nat.succ.inj heq)
      exact .inr ⟨rfl, (idxOf_dedup_lt_iff hab hac).mp hbc⟩

/-! ## An order by depth goes by turns -/

/-- An order by depth has all dependencies of a node before the node. -/
theorem ByDepth.orders (hg : g.successors.keys.Nodup) (h : g.ByDepth order) : g.Orders order := by
  rintro before b after rfl a hab
  obtain ⟨e, he, rfl, -⟩ := (edge_iff hg).mp hab
  have ha : e.1 ∈ before ++ b :: after := (h.mem_iff _).mpr (.inl (List.mem_map_of_mem he))
  refine (List.mem_append.mp ha).resolve_right fun hbehind => ?_
  have hlt := depth_lt_of_edge hdepth hab
  have hle := (List.pairwise_append.mp h.depths).2.1
  rcases List.mem_cons.mp hbehind with heq | hafter
  · exact hlt.ne (congrArg g.depth heq)
  · exact hlt.not_ge ((List.pairwise_cons.mp hle).1 _ hafter)

/-- An order by depth is an order by turns.

**Proof sketch.** Of two nodes of different depths the deeper one depends on a node that is deeper
than anything the other one depends on, so its last dependency stands later. -/
theorem ByDepth.queued (hg : g.successors.keys.Nodup) (h : g.ByDepth order) : g.Queued order := by
  have horders := h.orders hdepth hg
  have hdeps : ∀ a b, g.Edge a b → b ∈ order → a ∈ order := fun _ _ => horders.mem_of_edge
  have hkeys : (order.filter (g.depth · = 0)).Pairwise
      fun b c => g.successors.keys.idxOf b < g.successors.keys.idxOf c := by
    rw [h.keys]
    exact (pairwise_idxOf hg).filter _
  refine ((h.depths.and h.ties).and (List.pairwise_filter.mp hkeys)).imp_of_mem
    fun {b c} hb hc ⟨⟨hle, hties⟩, hkeys⟩ => ?_
  cases ha' : g.lastDependency? order c with
  | none =>
    -- nothing stands behind `c` that is less deep
    have hzero : ∀ b ∈ order, g.lastDependency? order b = none ↔ g.depth b = 0 := by
      intro b hb
      rw [lastDependency?_eq_none, depth_eq_zero_iff hdepth]
      exact ⟨fun hnone a hab => hnone a (hdeps a b hab hb) hab, fun hnone a _ => hnone a⟩
    have hc0 := (hzero c hc).mp ha'
    have hb0 : g.depth b = 0 := by omega
    rw [turn_of_none ha', turn_of_none ((hzero b hb).mpr hb0)]
    exact Prod.Lex.toLex_lt_toLex.mpr
      (.inr ⟨rfl, hkeys (decide_eq_true hb0) (decide_eq_true hc0)⟩)
  | some a' =>
    cases ha : g.lastDependency? order b with
    | none =>
      rw [turn_of_none ha, turn_of_some ha']
      exact Prod.Lex.toLex_lt_toLex.mpr (.inl (Nat.succ_pos _))
    | some a =>
      obtain ⟨-, hab⟩ := mem_of_lastDependency? ha
      obtain ⟨-, hac⟩ := mem_of_lastDependency? ha'
      rw [turn_of_some ha, turn_of_some ha', Prod.Lex.toLex_lt_toLex]
      rcases hle.lt_or_eq with hlt | heq
      · refine .inl (Nat.succ_lt_succ ?_)
        refine idxOf_lastDependency_lt hdepth h.nodup hdeps hc hlt ha ha' ?_
        exact fun a ha _ p hp hap => h.idxOf_lt_of_depth_lt ha hp hap
      · have hpos := Nat.zero_lt_of_lt (depth_lt_of_edge hdepth hab)
        rcases hties heq hpos a a' ha ha' with hlt | ⟨rfl, hlt⟩
        · exact .inl (Nat.succ_lt_succ hlt)
        · exact .inr ⟨rfl, (idxOf_dedup_lt_iff hab hac).mpr hlt⟩

end Depth

/-! ## The sort -/

/-- **Topological sort by depth.** Let every node have one entry of successors, and let no node
depend on itself, however indirectly. Then there is a longest path to every node, and the sort gives
the order of the nodes by the lengths of these paths, which is the only one. -/
theorem topologicalOrder_byDepth (hg : g.successors.keys.Nodup)
    (hacyclic : ¬ ∃ b, TransGen g.Edge b b) :
    (∀ b, IsGreatest {n | g.PathTo n b} (g.depth b)) ∧
      ∃ order, g.topologicalOrder = .ok order ∧ ∀ l, g.ByDepth l ↔ l = order := by
  have hdepth := isGreatest_depth hg hacyclic
  obtain ⟨order, hsort, hnodup, hmem, horders⟩ := exists_order hg hacyclic
  have hqueued := queued_of_topologicalOrder hg hsort
  refine ⟨hdepth, order, hsort, fun l => ⟨fun hl => ?_, ?_⟩⟩
  · exact eq_of_queued hl.nodup hnodup (fun b => (hl.mem_iff b).trans (hmem b).symm)
      (hl.orders hdepth hg) horders (hl.queued hdepth hg) hqueued
  · rintro rfl
    exact byDepth_of_queued hdepth hg hnodup hmem horders hqueued

/-- Two nodes without dependencies; one of them has two successors, the first of which is repeated
behind the second. -/
def tied : Graph Nat := ⟨⟨[(1, [3, 4, 3]), (2, [5]), (5, [6]), (4, [6]), (3, [])]⟩⟩

/-- They go by depth: the successors of the first node by their last occurrences, before the one of
the second node, and the node behind two of them last. -/
theorem topologicalOrder_byDepth_tied :
    tied.successors.keys.Nodup ∧ (¬ ∃ b, TransGen tied.Edge b b) ∧
      tied.topologicalOrder = .ok [1, 2, 4, 3, 5, 6] ∧ tied.ByDepth [1, 2, 4, 3, 5, 6] ∧
      tied.PathTo 2 6 ∧ 2 ≤ tied.depth 6 := by
  have hkeys : tied.successors.keys.Nodup := by decide
  have hacyclic : ¬ ∃ b, TransGen tied.Edge b b := by
    -- all edges go upwards
    rintro ⟨b, hb⟩
    have hup : ∀ a b, tied.Edge a b → a < b := by
      intro a b hab
      obtain ⟨e, he, rfl, hb⟩ := (edge_iff hkeys).mp hab
      simp only [tied, List.mem_cons, List.not_mem_nil, or_false] at he
      rcases he with rfl | rfl | rfl | rfl | rfl <;> simp at hb <;> omega
    have hlt := TransGen.mono hup b b hb
    rw [transGen_eq_self] at hlt
    exact Nat.lt_irrefl b hlt
  have hpath : tied.PathTo 2 6 := by
    have hfirst : 5 ∈ tied.next 2 := by decide
    have hsecond : 6 ∈ tied.next 5 := by decide
    exact .step (.step (.here 2) hfirst) hsecond
  have hsort : tied.topologicalOrder = .ok [1, 2, 4, 3, 5, 6] := by rfl
  obtain ⟨hdepth, order, hok, honly⟩ := topologicalOrder_byDepth hkeys hacyclic
  obtain rfl : [1, 2, 4, 3, 5, 6] = order := Except.ok.inj (hsort.symm.trans hok)
  exact ⟨hkeys, hacyclic, hsort, (honly _).mpr rfl, hpath, (hdepth 6).2 hpath⟩

end MaskEnum.Graph
