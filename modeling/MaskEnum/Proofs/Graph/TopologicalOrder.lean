import Mathlib.Data.Fintype.EquivFin
import Mathlib.Data.Fintype.Sets
import Mathlib.Data.List.Dedup
import Mathlib.Data.List.Perm.Subperm
import Mathlib.Logic.Relation
import Mathlib.Order.WellFounded
import MaskEnum.Proofs.Graph.Waiting
set_option autoImplicit false

/-!
# Soundness and completeness of the topological sort

A sort under way knows three things: the nodes placed and those in the queue are pairwise
different; every counter is the number of edges into its node from nodes that are not placed; and
a node is placed or in the queue exactly if it waits for nothing. Every round keeps this. So when
the queue is empty and a node is left, every node that is left depends on another one that is
left, and going backwards along these edges leads into a cycle.

## Main definitions

* `MaskEnum.Graph.Orders` — a list has all dependencies of a member before the member.
* `MaskEnum.Graph.Progress.Waits` — which nodes may be released, and how often.
* `MaskEnum.Graph.Progress.Sound` — the invariant of a sort under way.

## Main results

* `MaskEnum.Graph.sound_run` — every number of rounds keeps the invariant.
* `MaskEnum.Graph.topologicalOrder_ok` — an order has every node once, dependencies first.
* `MaskEnum.Graph.topologicalOrder_error_iff` — a sort fails exactly on graphs with a cycle.
-/

namespace MaskEnum.Graph

open Relation

variable {α : Type} [DecidableEq α] {g : Graph α}

/-- Every member of the list has all it depends on before it. -/
def Orders (g : Graph α) (order : List α) : Prop :=
  ∀ before b after, order = before ++ b :: after → ∀ a, g.Edge a b → a ∈ before

/-- A node may be put at the end of an order that has all it depends on. -/
theorem Orders.snoc {order : List α} {n : α} (h : g.Orders order)
    (hn : ∀ a, g.Edge a n → a ∈ order) : g.Orders (order ++ [n]) := by
  intro before b after heq a ha
  rcases List.eq_nil_or_concat after with rfl | ⟨after, z, rfl⟩
  · obtain ⟨rfl, hb⟩ := List.append_inj' heq rfl
    obtain rfl : n = b := by
      simpa using hb
    exact hn a ha
  · have heq' : order ++ [n] = (before ++ b :: after) ++ [z] := by
      simpa using heq
    exact h before b after (List.append_inj' heq' rfl).1 a ha

/-- In an order no node depends on itself, however indirectly.

**Proof sketch.** Whatever the node at some place depends on stands before that place; so would
the node itself, if it depended on itself, even at its first place. -/
theorem Orders.not_transGen {order : List α} (h : g.Orders order) {n : α} (hn : n ∈ order) :
    ¬ TransGen g.Edge n n := by
  have hbefore : ∀ a b, TransGen g.Edge a b → ∀ before after, order = before ++ b :: after →
      a ∈ before := by
    intro a b hab
    induction hab with
    | single hab => exact fun before after heq => h before _ after heq a hab
    | tail _ hcb ih =>
      intro before after heq
      have hc := h before _ after heq _ hcb
      obtain ⟨l, r, rfl⟩ := List.append_of_mem hc
      have ha := ih l (r ++ _ :: after) (by rw [heq, List.append_assoc, List.cons_append])
      exact List.mem_append_left _ ha
  intro hcycle
  obtain ⟨before, after, heq, hnot⟩ := List.eq_append_cons_of_mem hn
  exact hnot (hbefore n n hcycle before after heq)

/-! ## Releasing the dependents of a node -/

namespace Progress

/-- One dependency less for a node that waits for some. -/
theorem release_eq {p : Progress α} {n : α} {k : Nat} (h : p.waiting.get? n = some (k + 1)) :
    p.release n =
      ⟨p.waiting.insert n k, if k = 0 then p.queue ++ [n] else p.queue, p.placed⟩ := by
  cases k with
  | zero => rw [release, h]; rfl
  | succ k => rw [release, h]; rfl

/-- Releasing nodes places none. -/
theorem placed_foldl_release (ss : List α) (p : Progress α) :
    (ss.foldl release p).placed = p.placed := by
  induction ss generalizing p with
  | nil => rfl
  | cons s ss ih =>
    rw [List.foldl_cons, ih, release]
    split <;> rfl

/-- Every node of the list waits for at least as many dependencies as it has occurrences there. -/
def Waits (p : Progress α) (ss : List α) : Prop :=
  ∀ b ∈ ss, ∃ k, p.waiting.get? b = some k ∧ ss.count b ≤ k

/-- The first of the list waits for one dependency more than it has occurrences in the rest. -/
theorem Waits.head {p : Progress α} {s : α} {ss : List α} (h : p.Waits (s :: ss)) :
    ∃ k, p.waiting.get? s = some (k + 1) ∧ ss.count s ≤ k := by
  obtain ⟨k, hk, hle⟩ := h s List.mem_cons_self
  rw [List.count_cons_self] at hle
  obtain ⟨k, rfl⟩ : ∃ m, k = m + 1 := ⟨k - 1, by omega⟩
  exact ⟨k, hk, by omega⟩

/-- The counters after releasing a node. -/
theorem get?_release {p : Progress α} {s : α} {k : Nat} (h : p.waiting.get? s = some (k + 1))
    (b : α) : (p.release s).waiting.get? b = if s = b then some k else p.waiting.get? b := by
  rw [release_eq h, Table.get?_insert]

/-- Once its first node is released, the rest of the list may be. -/
theorem Waits.tail {p : Progress α} {s : α} {ss : List α} (h : p.Waits (s :: ss)) :
    (p.release s).Waits ss := by
  obtain ⟨k, hk, hle⟩ := h.head
  intro b hb
  rw [get?_release hk]
  split_ifs with hsb
  · exact ⟨k, rfl, hsb ▸ hle⟩
  · obtain ⟨k', hk', hle'⟩ := h b (List.mem_cons_of_mem s hb)
    rw [List.count_cons_of_ne hsb] at hle'
    exact ⟨k', hk', hle'⟩

/-- Releasing the nodes of a list lowers the counters by their occurrences. -/
theorem Waits.get?_foldl_release {ss : List α} {p : Progress α} (h : p.Waits ss) (b : α) :
    (ss.foldl release p).waiting.get? b = (p.waiting.get? b).map (· - ss.count b) := by
  induction ss generalizing p with
  | nil => simp
  | cons s ss ih =>
    obtain ⟨k, hk, -⟩ := h.head
    rw [List.foldl_cons, ih h.tail, get?_release hk]
    split_ifs with hsb
    · rw [← hsb, hk, List.count_cons_self, Option.map_some, Option.map_some,
        Nat.add_sub_add_right]
    · rw [List.count_cons_of_ne hsb]

/-- A node waits for its occurrences in the rest of a list, once the first of the list is released,
if it waited for those in the whole list. -/
theorem get?_release_eq_count_iff {p : Progress α} {s : α} {ss : List α} {k : Nat}
    (hk : p.waiting.get? s = some (k + 1)) (b : α) :
    (p.release s).waiting.get? b = some (ss.count b) ↔
      p.waiting.get? b = some ((s :: ss).count b) := by
  rw [get?_release hk]
  split_ifs with hsb
  · rw [← hsb, hk, List.count_cons_self, Option.some.injEq, Option.some.injEq,
      Nat.add_right_cancel_iff]
  · rw [List.count_cons_of_ne hsb]

/-- Releasing the nodes of a list puts those that wait for nothing else at the end of the queue,
each once, in the order of their last occurrences. -/
theorem Waits.queue_foldl_release {ss : List α} {p : Progress α} (h : p.Waits ss) :
    (ss.foldl release p).queue =
      p.queue ++ ss.dedup.filter fun b => p.waiting.get? b = some (ss.count b) := by
  induction ss generalizing p with
  | nil => simp
  | cons s ss ih =>
    obtain ⟨k, hk, hle⟩ := h.head
    simp only [List.foldl_cons, ih h.tail, get?_release_eq_count_iff hk]
    rw [release_eq hk]
    by_cases hs : s ∈ ss
    · have hpos := List.count_pos_iff.mpr hs
      rw [if_neg (by omega), List.dedup_cons_of_mem hs]
    · -- the only occurrence of `s` is the first of the list
      have hone : p.waiting.get? s = some ((s :: ss).count s) ↔ k = 0 := by
        rw [hk, List.count_cons_self, List.count_eq_zero.mpr hs, Option.some.injEq]
        omega
      rw [List.dedup_cons_of_notMem hs, List.filter_cons]
      simp only [decide_eq_true_eq, hone]
      split_ifs <;> simp

/-! ## The invariant -/

/-- What a sort of `g` under way knows. -/
structure Sound (g : Graph α) (p : Progress α) : Prop where
  nodup : (p.placed ++ p.queue).Nodup
  waits : ∀ b, g.IsNode b → p.waiting.get? b = some (g.remaining p.placed b)
  ready : ∀ b, b ∈ p.placed ++ p.queue ↔ g.IsNode b ∧ g.remaining p.placed b = 0
  orders : g.Orders p.placed

section Place

variable {w : Table α Nat} {n : α} {queue placed : List α}

/-- The first of the queue is not placed yet. -/
theorem Sound.notMem_placed (h : Sound g ⟨w, n :: queue, placed⟩) : n ∉ placed := fun hp =>
  (List.nodup_append.mp h.nodup).2.2 n hp n List.mem_cons_self rfl

/-- The dependents of the first of the queue may be released. -/
theorem Sound.waits_next (hg : g.successors.keys.Nodup) (h : Sound g ⟨w, n :: queue, placed⟩) :
    Waits ⟨w, queue, placed ++ [n]⟩ (g.next n) := by
  intro b hb
  refine ⟨_, h.waits b (Or.inr ⟨n, hb⟩), ?_⟩
  rw [remaining_snoc hg h.notMem_placed b]
  exact Nat.le_add_left _ _

/-- Placing the first of the queue and releasing its dependents keeps the invariant. -/
theorem Sound.place (hg : g.successors.keys.Nodup) (h : Sound g ⟨w, n :: queue, placed⟩) :
    Sound g ((g.next n).foldl release ⟨w, queue, placed ++ [n]⟩) := by
  have hnd : (placed ++ n :: queue).Nodup := h.nodup
  have hready : ∀ b, b ∈ placed ++ n :: queue ↔ g.IsNode b ∧ g.remaining placed b = 0 := h.ready
  have hwaits : ∀ b, g.IsNode b → w.get? b = some (g.remaining placed b) := h.waits
  have hsnoc := remaining_snoc hg h.notMem_placed
  have hrelease := h.waits_next hg
  have hqueue := hrelease.queue_foldl_release
  set freed := (g.next n).dedup.filter fun b => w.get? b = some ((g.next n).count b)
  have hfnd : freed.Nodup := (List.nodup_dedup _).filter _
  -- a dependent is freed when its edges from `n` are all that it waits for
  have hfree : ∀ b, b ∈ freed ↔ b ∈ g.next n ∧ g.remaining (placed ++ [n]) b = 0 := by
    intro b
    rw [List.mem_filter, List.mem_dedup, decide_eq_true_eq]
    refine and_congr_right fun hb => ?_
    rw [hwaits b (Or.inr ⟨n, hb⟩), hsnoc b, Option.some.injEq]
    omega
  have hold : placed ++ [n] ++ (queue ++ freed) = (placed ++ n :: queue) ++ freed := by
    simp
  refine ⟨?_, fun b hb => ?_, fun b => ?_, ?_⟩
  · rw [placed_foldl_release, hqueue, hold]
    refine List.nodup_append.mpr ⟨hnd, hfnd, ?_⟩
    rintro a ha b hb rfl
    have hz := ((hready a).mp ha).2
    have hc := List.count_pos_iff.mpr ((hfree a).mp hb).1
    have hs := hsnoc a
    omega
  · rw [placed_foldl_release, hrelease.get?_foldl_release]
    show (w.get? b).map _ = _
    rw [hwaits b hb, hsnoc b, Option.map_some, Nat.add_sub_cancel]
  · rw [placed_foldl_release, hqueue, hold, List.mem_append, hready, hfree]
    show _ ↔ g.IsNode b ∧ g.remaining (placed ++ [n]) b = 0
    have hs := hsnoc b
    have hc := List.count_pos_iff (a := b) (l := g.next n)
    constructor
    · rintro (⟨hb, hz⟩ | ⟨hb, hz⟩)
      · exact ⟨hb, by omega⟩
      · exact ⟨Or.inr ⟨n, hb⟩, hz⟩
    · rintro ⟨hb, hz⟩
      by_cases hm : b ∈ g.next n
      · exact Or.inr ⟨hm, hz⟩
      · rw [List.count_eq_zero.mpr hm] at hs
        exact Or.inl ⟨hb, by omega⟩
  · rw [placed_foldl_release]
    refine Orders.snoc h.orders fun a ha => ?_
    have hz := ((hready n).mp (List.mem_append_right _ List.mem_cons_self)).2
    exact (remaining_eq_zero_iff hg).mp hz a ha

end Place

end Progress

open Progress (Sound)

/-- The invariant holds at the start. -/
theorem sound_start (hg : g.successors.keys.Nodup) : Sound g g.start := by
  have hmem : ∀ b, b ∈ g.start.queue ↔ g.IsNode b ∧ g.remaining [] b = 0 := by
    intro b
    have hq : b ∈ g.start.queue ↔ (b, 0) ∈ g.waiting.entries := by
      simp [start]
    rw [hq]
    constructor
    · intro he
      have hk : g.IsNode b := (mem_keys_waiting hg).mp (List.mem_map_of_mem (f := Prod.fst) he)
      have hz := Table.get?_eq_some_of_mem g.nodup_keys_waiting he
      rw [get?_waiting hg hk] at hz
      exact ⟨hk, Option.some.inj hz⟩
    · rintro ⟨hk, hz⟩
      apply Table.mem_entries_of_get?
      rw [get?_waiting hg hk, hz]
  refine ⟨?_, fun b hb => get?_waiting hg hb, fun b => hmem b, ?_⟩
  · have hsub : g.start.queue.Sublist g.waiting.keys := List.filter_sublist.map Prod.fst
    exact hsub.nodup g.nodup_keys_waiting
  · intro before b after heq
    simp [start] at heq

/-- Any number of rounds keeps the invariant. -/
theorem sound_run (hg : g.successors.keys.Nodup) (rounds : Nat) {p : Progress α}
    (hp : Sound g p) : Sound g (g.run rounds p) := by
  induction rounds generalizing p with
  | zero => exact hp
  | succ rounds ih =>
    obtain ⟨w, queue, placed⟩ := p
    cases queue with
    | nil => exact hp
    | cons n queue => exact ih (hp.place hg)

/-- A run ends with an empty queue unless every round placed a node. -/
theorem run_queue_eq_nil_or (rounds : Nat) {p : Progress α} (hp : Sound g p)
    (hg : g.successors.keys.Nodup) :
    (g.run rounds p).queue = [] ∨ (g.run rounds p).placed.length = p.placed.length + rounds := by
  induction rounds generalizing p with
  | zero => exact Or.inr rfl
  | succ rounds ih =>
    obtain ⟨w, queue, placed⟩ := p
    cases queue with
    | nil => exact Or.inl rfl
    | cons n queue =>
      refine (ih (hp.place hg)).imp_right fun h => ?_
      rw [Progress.placed_foldl_release, List.length_append, List.length_singleton] at h
      show (g.run rounds _).placed.length = placed.length + (rounds + 1)
      rw [← Nat.add_assoc, Nat.add_right_comm]
      exact h

/-! ## The result -/

/-- What is placed at the end: nodes only, each once, in an order; and if some node is left, then
the queue is empty. -/
theorem sound_end (hg : g.successors.keys.Nodup) :
    Sound g (g.run g.waiting.size g.start) ∧
      ((g.run g.waiting.size g.start).queue = [] ∨
        (g.run g.waiting.size g.start).placed.length = g.waiting.size) := by
  refine ⟨sound_run hg _ (sound_start hg), ?_⟩
  refine (run_queue_eq_nil_or _ (sound_start hg) hg).imp_right fun h => ?_
  rw [h]
  exact Nat.zero_add _

/-- Only nodes are placed. -/
theorem Progress.Sound.subperm (hg : g.successors.keys.Nodup) {p : Progress α} (h : Sound g p) :
    p.placed.Subperm g.waiting.keys :=
  (List.nodup_append.mp h.nodup).1.subperm fun b hb =>
    (mem_keys_waiting hg).mpr ((h.ready b).mp (List.mem_append_left _ hb)).1

/-- An order that the sort gives has every node once, and all dependencies of a node before it. -/
theorem topologicalOrder_ok (hg : g.successors.keys.Nodup) {order : List α}
    (h : g.topologicalOrder = .ok order) :
    order.Nodup ∧ (∀ b, b ∈ order ↔ g.IsNode b) ∧ g.Orders order := by
  obtain ⟨hs, -⟩ := sound_end hg
  rw [topologicalOrder] at h
  split_ifs at h with hl
  obtain rfl := Except.ok.inj h
  have hsize : g.waiting.keys.length ≤ (g.run g.waiting.size g.start).placed.length := by
    rw [hl, Table.keys, List.length_map]
    rfl
  have hperm := (hs.subperm hg).perm_of_length_le hsize
  refine ⟨(List.nodup_append.mp hs.nodup).1, fun b => ?_, hs.orders⟩
  rw [hperm.mem_iff, mem_keys_waiting hg]

/-- If the sort gives no order, then what it leaves are nodes that each depend on another one of
them. -/
theorem topologicalOrder_error (hg : g.successors.keys.Nodup) {members : List α}
    (h : g.topologicalOrder = .error members) :
    members ≠ [] ∧ ∀ b ∈ members, g.IsNode b ∧ ∃ a ∈ members, g.Edge a b := by
  obtain ⟨hs, hq⟩ := sound_end hg
  rw [topologicalOrder] at h
  split_ifs at h with hl
  obtain rfl := Except.error.inj h
  have hempty := hq.resolve_right hl
  have hnode : ∀ {b}, b ∈ g.waiting.keys ↔ g.IsNode b := mem_keys_waiting hg
  refine ⟨fun hnil => hl ?_, fun b hb => ?_⟩
  · have hsub : g.waiting.keys ⊆ (g.run g.waiting.size g.start).placed := by
      intro b hb
      by_contra hnot
      exact List.not_mem_nil (hnil ▸ List.mem_filter.mpr ⟨hb, decide_eq_true hnot⟩)
    have hle := (g.nodup_keys_waiting.subperm hsub).length_le
    have hge := (hs.subperm hg).length_le
    rw [Table.keys, List.length_map] at hle hge
    exact le_antisymm hge hle
  · obtain ⟨hb, hnot⟩ := List.mem_filter.mp hb
    have hready := hs.ready b
    rw [hempty, List.append_nil, ← hnode] at hready
    have hz : g.remaining (g.run g.waiting.size g.start).placed b ≠ 0 := fun hz =>
      of_decide_eq_true hnot (hready.mpr ⟨hb, hz⟩)
    rw [Ne, remaining_eq_zero_iff hg] at hz
    push Not at hz
    obtain ⟨a, ha, hna⟩ := hz
    refine ⟨hnode.mp hb, a, List.mem_filter.mpr ⟨hnode.mpr (Or.inl ?_), decide_eq_true hna⟩, ha⟩
    obtain ⟨e, he, rfl, -⟩ := (edge_iff hg).mp ha
    exact List.mem_map_of_mem he

/-- Nodes that each depend on another one of them contain a cycle: otherwise dependency would be
well-founded on them, and a minimal one would depend on none. -/
theorem exists_transGen_of_stuck {members : List α} (hne : members ≠ [])
    (h : ∀ b ∈ members, ∃ a ∈ members, g.Edge a b) : ∃ b ∈ members, TransGen g.Edge b b := by
  by_contra hacyclic
  push Not at hacyclic
  -- what a member can be reached from is a strict order on the finitely many members
  let below (a b : { x // x ∈ members }) : Prop := TransGen g.Edge a.1 b.1
  have : IsTrans { x // x ∈ members } below := ⟨fun _ _ _ hab hbc => hab.trans hbc⟩
  have : Std.Irrefl below := ⟨fun a => hacyclic a.1 a.2⟩
  have hwf : WellFounded below := Finite.wellFounded_of_trans_of_irrefl below
  obtain ⟨x, hx⟩ := List.exists_mem_of_ne_nil members hne
  obtain ⟨m, -, hmin⟩ := hwf.has_min Set.univ ⟨⟨x, hx⟩, Set.mem_univ _⟩
  obtain ⟨a, ha, hab⟩ := h m.1 m.2
  exact hmin ⟨a, ha⟩ (Set.mem_univ _) (TransGen.single hab)

/-- The sort fails exactly on the graphs in which some node depends on itself, however
indirectly. -/
theorem topologicalOrder_error_iff (hg : g.successors.keys.Nodup) :
    (∃ members, g.topologicalOrder = .error members) ↔ ∃ b, TransGen g.Edge b b := by
  constructor
  · rintro ⟨members, h⟩
    obtain ⟨hne, hstuck⟩ := topologicalOrder_error hg h
    obtain ⟨b, -, hb⟩ := exists_transGen_of_stuck hne fun b hb => (hstuck b hb).2
    exact ⟨b, hb⟩
  · rintro ⟨b, hb⟩
    cases h : g.topologicalOrder with
    | error members => exact ⟨members, rfl⟩
    | ok order =>
      obtain ⟨-, hmem, horders⟩ := topologicalOrder_ok hg h
      obtain ⟨a, ha⟩ : ∃ a, g.Edge a b := by
        cases hb with
        | single hb => exact ⟨b, hb⟩
        | tail _ hb => exact ⟨_, hb⟩
      exact absurd hb (horders.not_transGen ((hmem b).mpr (Or.inr ⟨a, ha⟩)))

end MaskEnum.Graph
