import Mathlib.Data.Prod.Lex
import MaskEnum.Proofs.Graph.TopologicalOrder
set_option autoImplicit false

/-!
# First come, first served

A topological sort serves its queue in turn. A node joins the queue in the round that places the
last of its dependencies, and the nodes that join in one round do so in the order of their last
occurrences among the successors of the node placed; the nodes without dependencies are in the queue
from the start, in the order of the keys. So the order that the sort gives is sorted by these turns,
and no other order of the nodes is.

Keys that have all dependencies first already need not be sorted by their turns: a node behind which
another one waits can have a dependency in front of it that the other one has not. The sort then
changes their order.

## Main definitions

* `MaskEnum.Graph.turn` — when a node joins the queue, by round and place.
* `MaskEnum.Graph.Queued` — an order in which the nodes stand by turns.

## Main results

* `MaskEnum.Graph.queued_of_topologicalOrder` — the sort gives an order by turns.
* `MaskEnum.Graph.eq_of_queued` — there is at most one order by turns.
* `MaskEnum.Graph.topologicalOrder_eq_keys_iff` — the sort keeps the order of the keys exactly if
  they stand by turns.
-/

namespace MaskEnum.Graph

open Relation

variable {α : Type} [DecidableEq α] {g : Graph α}

/-- The last member of a list on which `b` depends. -/
def lastDependency? (g : Graph α) (order : List α) (b : α) : Option α :=
  order.reverse.find? (b ∈ g.next ·)

/-- When `b` joins the queue, if the nodes of a list are placed: the round in which its last
dependency is placed, and its place among the successors of that one, of which the last occurrences
count. A node without dependencies is in the queue before the first round, in the place that it has
among the keys. -/
def turn (g : Graph α) (order : List α) (b : α) : ℕ ×ₗ ℕ :=
  match g.lastDependency? order b with
  | none => toLex (0, g.successors.keys.idxOf b)
  | some a => toLex (order.idxOf a + 1, (g.next a).dedup.idxOf b)

/-- The members of an order stand by turns. -/
def Queued (g : Graph α) (order : List α) : Prop :=
  order.Pairwise (g.turn order · < g.turn order ·)

instance (g : Graph α) (order : List α) : Decidable (g.Queued order) :=
  inferInstanceAs (Decidable (order.Pairwise _))

/-! ## The turn of a node -/

section Turn

variable {before after : List α} {b : α}

/-- What depends on nothing behind some place joins the queue as the nodes before that place have
it. -/
theorem turn_append (h : ∀ a ∈ after, ¬ g.Edge a b) :
    g.turn (before ++ after) b = g.turn before b := by
  have hlast : g.lastDependency? (before ++ after) b = g.lastDependency? before b := by
    have hnone : after.reverse.find? (b ∈ g.next ·) = none := by
      simpa [List.find?_eq_none, Edge] using h
    rw [lastDependency?, List.reverse_append, List.find?_append, hnone, Option.none_or]
    rfl
  rw [turn, hlast, turn]
  split
  · rfl
  · next a ha =>
    have hmem : a ∈ before := List.mem_reverse.mp (List.mem_of_find?_eq_some ha)
    rw [List.idxOf_append_of_mem hmem]

/-- A node joins the queue in the round of its last dependency. -/
theorem turn_concat {n : α} (hn : n ∉ before) (hb : g.Edge n b) :
    g.turn (before ++ [n]) b = toLex (before.length + 1, (g.next n).dedup.idxOf b) := by
  have hlast : g.lastDependency? (before ++ [n]) b = some n := by
    have hb : b ∈ g.next n := hb
    simp [lastDependency?, hb]
  rw [turn, hlast]
  simp [List.idxOf_append_of_notMem hn]

/-- No node joins the queue later than in the last round. -/
theorem turn_lt (g : Graph α) (before : List α) (b : α) (place : ℕ) :
    g.turn before b < toLex (before.length + 1, place) := by
  rw [turn, Prod.Lex.lt_iff]
  split
  · exact .inl (Nat.succ_pos _)
  · next a ha =>
    have hmem : a ∈ before := List.mem_reverse.mp (List.mem_of_find?_eq_some ha)
    exact .inl (Nat.succ_lt_succ (List.idxOf_lt_length_of_mem hmem))

end Turn

/-- In a list without repetitions the members stand by their places. -/
theorem pairwise_idxOf {l : List α} (h : l.Nodup) :
    l.Pairwise fun b c => l.idxOf b < l.idxOf c := by
  rw [List.pairwise_iff_getElem]
  intro i j hi hj hij
  rwa [h.idxOf_getElem, h.idxOf_getElem]

/-! ## The queue at the start -/

section Start

variable {p : α → Bool}

/-- Counting successors adds no key that none of them is. -/
theorem filter_keys_foldl_raise {ss : List α} (hss : ∀ s ∈ ss, p s = false) (counts : Table α Nat) :
    (ss.foldl (raise · 1 ·) counts).keys.filter p = counts.keys.filter p := by
  induction ss generalizing counts with
  | nil => rfl
  | cons s ss ih =>
    obtain ⟨hs, hss⟩ := List.forall_mem_cons.mp hss
    rw [List.foldl_cons, ih hss, raise, Table.keys_insert]
    split_ifs
    · rfl
    · rw [List.filter_append, List.filter_singleton, hs, Bool.cond_false, List.append_nil]

/-- Nodes that are no successors have their counters in the order of the entries. -/
theorem filter_keys_tally {es : List (α × List α)} (hes : ∀ e ∈ es, ∀ s ∈ e.2, p s = false)
    (hnodup : (es.map Prod.fst).Nodup) {counts : Table α Nat}
    (hnew : ∀ e ∈ es, p e.1 = true → e.1 ∉ counts.keys) :
    (tally counts es).keys.filter p = counts.keys.filter p ++ (es.map Prod.fst).filter p := by
  induction es generalizing counts with
  | nil => simp [tally]
  | cons e es ih =>
    obtain ⟨he, hes⟩ := List.forall_mem_cons.mp hes
    obtain ⟨hfirst, hnodup⟩ := List.nodup_cons.mp hnodup
    have hkey := hnew e List.mem_cons_self
    have hstep : tally counts (e :: es) =
        tally (e.2.foldl (raise · 1 ·) (raise counts 0 e.1)) es := rfl
    rw [hstep, ih hes hnodup, filter_keys_foldl_raise he, raise, Table.keys_insert,
      List.map_cons, List.filter_cons]
    · cases hp : p e.1 with
      | true => simp [hkey hp, hp]
      | false => by_cases hk : e.1 ∈ counts.keys <;> simp [hk, hp]
    · intro e' he' hp hmem
      rw [mem_keys_foldl_raise, raise, Table.mem_keys_insert] at hmem
      rcases hmem with hmem | hmem | hmem
      · rw [he _ hmem] at hp
        cases hp
      · exact hfirst (hmem ▸ List.mem_map_of_mem he')
      · exact hnew e' (List.mem_cons_of_mem e he') hp hmem

/-- At the start the queue has the nodes without dependencies in the order of the keys. -/
theorem queue_start_sublist (hg : g.successors.keys.Nodup) :
    g.start.queue.Sublist g.successors.keys := by
  have hready : ∀ b, b ∈ g.start.queue ↔ g.IsNode b ∧ g.remaining [] b = 0 :=
    (sound_start hg).ready
  have hqueue : g.start.queue.Sublist g.waiting.keys := List.filter_sublist.map Prod.fst
  have hfilter := hqueue.filter fun b => decide (g.remaining [] b = 0)
  rw [List.filter_eq_self.mpr fun b hb => decide_eq_true ((hready b).mp hb).2] at hfilter
  have hkeys : g.waiting.keys.filter (fun b => decide (g.remaining [] b = 0)) =
      g.successors.keys.filter fun b => decide (g.remaining [] b = 0) := by
    refine (filter_keys_tally (fun e he s hs => ?_) hg fun e _ _ => List.not_mem_nil).trans
      (List.nil_append _)
    rw [decide_eq_false_iff_not, remaining_eq_zero_iff hg]
    exact fun h => List.not_mem_nil (h e.1 ((edge_iff hg).mpr ⟨e, he, rfl, hs⟩))
  rw [hkeys] at hfilter
  exact hfilter.trans List.filter_sublist

end Start

/-! ## A sort under way -/

namespace Progress

/-- The nodes placed and those in the queue stand by turns. -/
def Fair (g : Graph α) (p : Progress α) : Prop :=
  (p.placed ++ p.queue).Pairwise (g.turn p.placed · < g.turn p.placed ·)

/-- Placing the first of the queue and releasing its dependents keeps the turns.

**Proof sketch.** The nodes placed or in the queue do not depend on the one that is placed now, so
they keep their turns. The dependents that are released join in this round, which is later than all
before, in the order of their last occurrences. -/
theorem Fair.place (hg : g.successors.keys.Nodup) {w : Table α Nat} {n : α}
    {queue placed : List α} (hs : Sound g ⟨w, n :: queue, placed⟩)
    (h : Fair g ⟨w, n :: queue, placed⟩) :
    Fair g ((g.next n).foldl release ⟨w, queue, placed ++ [n]⟩) := by
  have hn := hs.notMem_placed
  have hkeep : ∀ b ∈ placed ++ n :: queue, g.turn (placed ++ [n]) b = g.turn placed b := by
    intro b hb
    refine turn_append fun a ha hab => hn ?_
    rw [← List.mem_singleton.mp ha]
    exact (remaining_eq_zero_iff hg).mp ((hs.ready b).mp hb).2 a hab
  have hjoin : ∀ b ∈ (g.next n).dedup, g.turn (placed ++ [n]) b =
      toLex (placed.length + 1, (g.next n).dedup.idxOf b) :=
    fun b hb => turn_concat hn (List.mem_dedup.mp hb)
  have hline : ∀ freed, placed ++ [n] ++ (queue ++ freed) = (placed ++ n :: queue) ++ freed := by
    simp
  rw [Fair, placed_foldl_release, (hs.waits_next hg).queue_foldl_release, hline]
  refine List.pairwise_append.mpr ⟨?_, ?_, fun b hb c hc => ?_⟩
  · refine h.imp_of_mem fun {b c} hb hc hbc => ?_
    rw [hkeep b hb, hkeep c hc]
    exact hbc
  · refine ((pairwise_idxOf (List.nodup_dedup (g.next n))).filter _).imp_of_mem
      fun {b c} hb hc hbc => ?_
    rw [hjoin b (List.mem_of_mem_filter hb), hjoin c (List.mem_of_mem_filter hc)]
    exact Prod.Lex.toLex_lt_toLex.mpr (.inr ⟨rfl, hbc⟩)
  · rw [hkeep b hb, hjoin c (List.mem_of_mem_filter hc)]
    exact turn_lt g placed b _

end Progress

open Progress (Sound Fair)

/-- At the start the queue stands by turns. -/
theorem fair_start (hg : g.successors.keys.Nodup) : Fair g g.start := by
  have hkeys := (pairwise_idxOf hg).sublist (queue_start_sublist hg)
  refine List.Pairwise.imp (fun {b c} hbc => ?_) hkeys
  show toLex (0, _) < toLex (0, _)
  exact Prod.Lex.toLex_lt_toLex.mpr (.inr ⟨rfl, hbc⟩)

/-- Any number of rounds keeps the turns. -/
theorem fair_run (hg : g.successors.keys.Nodup) (rounds : Nat) {p : Progress α} (hs : Sound g p)
    (hp : Fair g p) : Fair g (g.run rounds p) := by
  induction rounds generalizing p with
  | zero => exact hp
  | succ rounds ih =>
    obtain ⟨w, queue, placed⟩ := p
    cases queue with
    | nil => exact hp
    | cons n queue => exact ih (hs.place hg) (hp.place hg hs)

/-- **By turns.** In the order that the sort gives the nodes stand by turns. -/
theorem queued_of_topologicalOrder (hg : g.successors.keys.Nodup) {order : List α}
    (h : g.topologicalOrder = .ok order) : g.Queued order := by
  have hfair := fair_run hg g.waiting.size (sound_start hg) (fair_start hg)
  rw [topologicalOrder] at h
  split_ifs at h
  obtain rfl := Except.ok.inj h
  exact (List.pairwise_append.mp hfair).1

/-! ## One order only -/

/-- A node whose dependencies stand before some place has the turn that they give it. -/
theorem turn_eq_of_append {before after : List α} (hnodup : (before ++ after).Nodup) {b : α}
    (h : ∀ a, g.Edge a b → a ∈ before) : g.turn (before ++ after) b = g.turn before b :=
  turn_append fun a ha hab => (List.nodup_append.mp hnodup).2.2 a (h a hab) a ha rfl

/-- In an order by turns, behind some place, the next node has an earlier turn than any other one
that could stand there. -/
theorem Queued.turn_lt {before rest : List α} {b c : α} (hqueued : g.Queued (before ++ b :: rest))
    (hnodup : (before ++ b :: rest).Nodup) (horders : g.Orders (before ++ b :: rest))
    (hc : c ∈ before ++ b :: rest) (hnew : c ∉ before) (hne : c ≠ b)
    (hready : ∀ a, g.Edge a c → a ∈ before) : g.turn before b < g.turn before c := by
  have hrest : c ∈ rest := by
    simpa [hnew, hne] using hc
  have hlt := (List.pairwise_cons.mp (List.pairwise_append.mp hqueued).2.1).1 c hrest
  rwa [turn_eq_of_append hnodup (horders before b rest rfl), turn_eq_of_append hnodup hready] at hlt

/-- **One order.** There is at most one order of the same nodes by turns.

**Proof sketch.** Of two such orders that first differ behind some place, each has the next node of
the other one later. The dependencies of both nodes stand before that place, so they have the same
turns in both orders, and each turn would be before the other. -/
theorem eq_of_queued {order order' : List α} (hnodup : order.Nodup) (hnodup' : order'.Nodup)
    (hmem : ∀ b, b ∈ order ↔ b ∈ order') (horders : g.Orders order) (horders' : g.Orders order')
    (hqueued : g.Queued order) (hqueued' : g.Queued order') : order = order' := by
  have hlength := ((List.perm_ext_iff_of_nodup hnodup hnodup').mpr hmem).length_eq
  have hrest : ∀ rest rest' before, order = before ++ rest → order' = before ++ rest' →
      rest = rest' := by
    intro rest
    induction rest with
    | nil =>
      rintro rest' before rfl rfl
      exact (List.eq_nil_of_length_eq_zero (by simpa using hlength)).symm
    | cons b rest ih =>
      rintro rest' before heq heq'
      cases rest' with
      | nil => simp [heq, heq'] at hlength
      | cons c rest' =>
        by_cases hbc : b = c
        · subst hbc
          rw [ih rest' (before ++ [b]) (by simpa using heq) (by simpa using heq')]
        · exfalso
          subst heq heq'
          have hb : b ∉ before := fun hb =>
            (List.nodup_append.mp hnodup).2.2 b hb b List.mem_cons_self rfl
          have hc : c ∉ before := fun hc =>
            (List.nodup_append.mp hnodup').2.2 c hc c List.mem_cons_self rfl
          have hlt := hqueued.turn_lt hnodup horders ((hmem c).mpr (by simp)) hc (Ne.symm hbc)
            (horders' before c rest' rfl)
          have hlt' := hqueued'.turn_lt hnodup' horders' ((hmem b).mp (by simp)) hb hbc
            (horders before b rest rfl)
          exact lt_asymm hlt hlt'
  exact hrest order order' [] rfl rfl

/-! ## Orders that are kept -/

/-- An order of all nodes that have dependencies leaves no room for a cycle. -/
theorem Orders.acyclic {order : List α} (h : g.Orders order)
    (hmem : ∀ a, ∀ b ∈ g.next a, b ∈ order) : ¬ ∃ b, TransGen g.Edge b b := by
  rintro ⟨b, hb⟩
  obtain ⟨a, -, hab⟩ := TransGen.tail'_iff.mp hb
  exact h.not_transGen (hmem a b hab) hb

/-- **Kept keys.** Let the keys of a graph have all dependencies of a key before it, and let all
successors be keys. Then the sort gives an order of the keys. It is the one in which the keys stand
by turns; so the sort leaves the keys as they stand exactly if they stand by turns already. -/
theorem topologicalOrder_eq_keys_iff (hg : g.successors.keys.Nodup)
    (hkeys : ∀ a, ∀ b ∈ g.next a, b ∈ g.successors.keys) (horders : g.Orders g.successors.keys) :
    ∃ order, g.topologicalOrder = .ok order ∧ order.Perm g.successors.keys ∧ g.Orders order ∧
      g.Queued order ∧ (order = g.successors.keys ↔ g.Queued g.successors.keys) := by
  have hnode : ∀ b, g.IsNode b ↔ b ∈ g.successors.keys := fun b =>
    or_iff_left_of_imp fun ⟨a, hab⟩ => hkeys a b hab
  cases hsort : g.topologicalOrder with
  | error members =>
    exact absurd ((topologicalOrder_error_iff hg).mp ⟨members, hsort⟩) (horders.acyclic hkeys)
  | ok order =>
    obtain ⟨hnodup, hmem, hsorted⟩ := topologicalOrder_ok hg hsort
    have hmem : ∀ b, b ∈ order ↔ b ∈ g.successors.keys := fun b => (hmem b).trans (hnode b)
    have hqueued := queued_of_topologicalOrder hg hsort
    refine ⟨order, rfl, (List.perm_ext_iff_of_nodup hnodup hg).mpr hmem, hsorted, hqueued,
      fun h => h ▸ hqueued, eq_of_queued hnodup hg hmem hsorted horders hqueued⟩

/-- Two nodes without dependencies before two with some, whose last dependencies stand in the same
order. -/
def inTurn : Graph Char := ⟨⟨[('A', ['C', 'B', 'B']), ('D', ['C']), ('B', []), ('C', [])]⟩⟩

/-- The edges of that graph. -/
theorem edge_inTurn {a b : Char} (h : inTurn.Edge a b) :
    a = 'A' ∧ (b = 'B' ∨ b = 'C') ∨ a = 'D' ∧ b = 'C' := by
  obtain ⟨e, he, rfl, hb⟩ := (edge_iff (by decide)).mp h
  simp only [inTurn, List.mem_cons, List.not_mem_nil, or_false] at he
  rcases he with rfl | rfl | rfl | rfl
  · exact .inl ⟨rfl, by simpa [or_comm] using hb⟩
  · exact .inr ⟨rfl, by simpa using hb⟩
  · cases hb
  · cases hb

/-- They are left as they stand. -/
theorem topologicalOrder_eq_keys_iff_inTurn :
    inTurn.successors.keys.Nodup ∧ (∀ a, ∀ b ∈ inTurn.next a, b ∈ inTurn.successors.keys) ∧
      inTurn.Orders inTurn.successors.keys ∧ inTurn.Queued inTurn.successors.keys ∧
      inTurn.topologicalOrder = .ok ['A', 'D', 'B', 'C'] := by
  have hnodup : inTurn.successors.keys.Nodup := by decide
  have hkeys : ∀ a, ∀ b ∈ inTurn.next a, b ∈ inTurn.successors.keys := by
    intro a b hb
    rcases edge_inTurn hb with ⟨-, rfl | rfl⟩ | ⟨-, rfl⟩ <;> decide
  have horders : inTurn.Orders ([] ++ ['A'] ++ ['D'] ++ ['B'] ++ ['C']) := by
    have hnil : inTurn.Orders [] := fun _ _ _ h => by simp at h
    refine (((hnil.snoc ?_).snoc ?_).snoc ?_).snoc ?_ <;> intro a ha <;>
      rcases edge_inTurn ha with ⟨rfl, h | h⟩ | ⟨rfl, h⟩ <;> simp at h ⊢
  have hqueued : inTurn.Queued inTurn.successors.keys := by decide
  obtain ⟨order, hsort, -, -, -, hkept⟩ := topologicalOrder_eq_keys_iff hnodup hkeys horders
  exact ⟨hnodup, hkeys, horders, hqueued, hsort.trans (congrArg _ (hkept.mpr hqueued))⟩

/-- A node that depends on the first one, and one behind it that depends on nothing. -/
def overtaking : Graph Char := ⟨⟨[('A', ['B']), ('B', []), ('C', [])]⟩⟩

/-- The keys have all dependencies first, and all successors are keys; but the last node is in the
queue from the start, so it is placed before the one in front of it. -/
theorem topologicalOrder_overtaking :
    overtaking.successors.keys = ['A', 'B', 'C'] ∧
      (∀ a, ∀ b ∈ overtaking.next a, b ∈ overtaking.successors.keys) ∧
      (¬ ∃ b, TransGen overtaking.Edge b b) ∧
      overtaking.Orders overtaking.successors.keys ∧
      overtaking.topologicalOrder = .ok ['A', 'C', 'B'] ∧
      overtaking.topologicalOrder ≠ .ok overtaking.successors.keys := by
  have hedge : ∀ a b, overtaking.Edge a b → a = 'A' ∧ b = 'B' := by
    intro a b h
    obtain ⟨e, he, rfl, hb⟩ := (edge_iff (by decide)).mp h
    simp only [overtaking, List.mem_cons, List.not_mem_nil, or_false] at he
    rcases he with rfl | rfl | rfl
    · exact ⟨rfl, List.mem_singleton.mp hb⟩
    · cases hb
    · cases hb
  have hkeys : ∀ a, ∀ b ∈ overtaking.next a, b ∈ overtaking.successors.keys := by
    intro a b hb
    rw [(hedge a b hb).2]
    decide
  have horders : overtaking.Orders ([] ++ ['A'] ++ ['B'] ++ ['C']) := by
    have hnil : overtaking.Orders [] := fun _ _ _ h => by simp at h
    refine ((hnil.snoc ?_).snoc ?_).snoc ?_ <;> intro a ha <;>
      obtain ⟨rfl, h⟩ := hedge _ _ ha <;> simp at h ⊢
  refine ⟨rfl, hkeys, horders.acyclic hkeys, horders, rfl, fun h => ?_⟩
  cases h

end MaskEnum.Graph
