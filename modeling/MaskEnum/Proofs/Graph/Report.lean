import MaskEnum.Proofs.Graph.Cycles
import MaskEnum.Proofs.Resolution.References
set_option autoImplicit false

/-!
# The order of a report

A sort that gives no order reports the nodes that it could not place as their counters stand in its
table. A counter is made when its node is first met: as a key, or as a successor of a key before it.
So a report goes by first mentions, key by key, each with its successors behind it. A node that is
met as a successor is thereby reported before nodes that are listed before it, unless these have
been met as well.

## Main definitions

* `MaskEnum.Graph.Lists` — a list of the members of another one by their first places there.
* `MaskEnum.Graph.mentions` — the nodes as reading a graph meets them.
* `MaskEnum.Graph.Reports` — what is reported for a list of nodes and a list of edges.

## Main results

* `MaskEnum.Graph.lists_waiting` — the counters of a sort stand by first mentions.
* `MaskEnum.Graph.idxOf_mentions_lt_iff` — which of two keys is mentioned first.
* `MaskEnum.exists_cycle_report` — reports go by first mentions, and by the list of nodes exactly if
  they are met in its order; for graphs from edges and for units with circular references.
-/

namespace MaskEnum.Graph

open Relation

variable {α : Type} [DecidableEq α] {g : Graph α}

/-! ## First places -/

/-- The members of `l`, each once, in the order of their first places in it. -/
structure Lists (l members : List α) : Prop where
  mem_iff : ∀ b, b ∈ members ↔ b ∈ l
  pairwise : members.Pairwise (l.idxOf · < l.idxOf ·)

section Lists

variable {l members : List α} {b c : α}

/-- Nothing is listed twice. -/
theorem Lists.nodup (h : Lists l members) : members.Nodup :=
  h.pairwise.imp fun hlt heq => hlt.ne (congrArg l.idxOf heq)

/-- One place more: a node that has none yet is listed last. -/
theorem Lists.snoc (h : Lists l members) (b : α) :
    Lists (l ++ [b]) (if b ∈ members then members else members ++ [b]) := by
  have hold : members.Pairwise ((l ++ [b]).idxOf · < (l ++ [b]).idxOf ·) := by
    refine h.pairwise.imp_of_mem fun {c d} hc hd hcd => ?_
    rwa [List.idxOf_append_of_mem ((h.mem_iff c).mp hc),
      List.idxOf_append_of_mem ((h.mem_iff d).mp hd)]
  split_ifs with hb
  · refine ⟨fun c => ?_, hold⟩
    rw [h.mem_iff, List.mem_append, List.mem_singleton]
    refine (or_iff_left_of_imp ?_).symm
    rintro rfl
    exact (h.mem_iff c).mp hb
  · refine ⟨fun c => ?_, List.pairwise_append.mpr ⟨hold, List.pairwise_singleton _ _, ?_⟩⟩
    · rw [List.mem_append, List.mem_append, h.mem_iff]
    · intro c hc d hd
      obtain rfl := List.mem_singleton.mp hd
      have hcl := (h.mem_iff c).mp hc
      rw [List.idxOf_append_of_mem hcl,
        List.idxOf_append_of_notMem fun hd => hb ((h.mem_iff d).mpr hd)]
      exact (List.idxOf_lt_length_of_mem hcl).trans_le (Nat.le_add_right _ _)

/-- Of two members of a list that goes up by some measure, the one that measures less is first. -/
theorem idxOf_lt_iff_of_pairwise {f : α → ℕ} (h : members.Pairwise (f · < f ·)) (hb : b ∈ members)
    (hc : c ∈ members) : members.idxOf b < members.idxOf c ↔ f b < f c := by
  have hlt : ∀ {b c}, b ∈ members → c ∈ members → members.idxOf b < members.idxOf c →
      f b < f c := by
    intro b c hb hc hbc
    have hget := List.pairwise_iff_getElem.mp h _ _ (List.idxOf_lt_length_of_mem hb)
      (List.idxOf_lt_length_of_mem hc) hbc
    rwa [List.getElem_idxOf, List.getElem_idxOf] at hget
  refine ⟨hlt hb hc, fun hbc => ?_⟩
  rcases lt_trichotomy (members.idxOf b) (members.idxOf c) with h' | h' | h'
  · exact h'
  · exact absurd (congrArg f ((List.idxOf_inj hb).mp h')) hbc.ne
  · exact absurd (hlt hc hb h') hbc.asymm

/-- One node has its first place before another one if it stands before every place of it. -/
theorem idxOf_lt_idxOf_iff (hc : c ∈ l) (hne : b ≠ c) :
    l.idxOf b < l.idxOf c ↔ ∀ before after, l = before ++ c :: after → b ∈ before := by
  constructor
  · rintro hlt before after rfl
    by_contra hb
    rw [List.idxOf_append_of_notMem hb, List.idxOf_cons_ne _ hne.symm] at hlt
    by_cases hcb : c ∈ before
    · rw [List.idxOf_append_of_mem hcb] at hlt
      have := List.idxOf_lt_length_of_mem hcb
      omega
    · rw [List.idxOf_append_of_notMem hcb, List.idxOf_cons_self] at hlt
      omega
  · intro h
    obtain ⟨before, after, heq, hcb⟩ := List.eq_append_cons_of_mem hc
    have hb := h before after heq
    rw [heq, List.idxOf_append_of_mem hb, List.idxOf_append_of_notMem hcb, List.idxOf_cons_self]
    exact (List.idxOf_lt_length_of_mem hb).trans_le (Nat.le_add_right _ _)

end Lists

/-! ## Counters by first mentions -/

/-- The nodes as reading a graph meets them: every key, and behind it its successors. -/
def mentions (g : Graph α) : List α := g.successors.entries.flatMap fun e => e.1 :: e.2

/-- Raising a counter mentions its node. -/
theorem lists_raise {counts : Table α Nat} {l : List α} (h : Lists l counts.keys) (k : Nat)
    (b : α) : Lists (l ++ [b]) (raise counts k b).keys := by
  rw [raise, Table.keys_insert]
  exact h.snoc b

/-- Counting successors mentions them. -/
theorem lists_foldl_raise {counts : Table α Nat} {l : List α} (h : Lists l counts.keys)
    (ss : List α) : Lists (l ++ ss) (ss.foldl (raise · 1 ·) counts).keys := by
  induction ss generalizing counts l with
  | nil => rwa [List.append_nil]
  | cons s ss ih =>
    rw [← List.singleton_append, ← List.append_assoc]
    exact ih (lists_raise h 1 s)

/-- Counting entries mentions their nodes and successors. -/
theorem lists_tally {counts : Table α Nat} {l : List α} (h : Lists l counts.keys)
    (es : List (α × List α)) :
    Lists (l ++ es.flatMap fun e => e.1 :: e.2) (tally counts es).keys := by
  induction es generalizing counts l with
  | nil => rwa [List.flatMap_nil, List.append_nil]
  | cons e es ih =>
    have hstep : Lists _ (tally counts (e :: es)).keys :=
      ih (lists_foldl_raise (lists_raise h 0 e.1) e.2)
    simpa using hstep

/-- **Counters.** The counters of a sort stand by the first mentions of their nodes. -/
theorem lists_waiting (g : Graph α) : Lists g.mentions g.waiting.keys := by
  have hempty : Lists [] (Table.empty : Table α Nat).keys :=
    ⟨fun _ => Iff.rfl, .nil⟩
  exact lists_tally hempty g.successors.entries

/-- What is reported goes by first mentions. -/
theorem pairwise_members {members : List α} (h : g.topologicalOrder = .error members) :
    members.Pairwise (g.mentions.idxOf · < g.mentions.idxOf ·) := by
  rw [topologicalOrder] at h
  split_ifs at h
  obtain rfl := Except.error.inj h
  exact (lists_waiting g).pairwise.filter _

/-! ## Mentions by the order of the keys -/

/-- A place in the parts of several elements, put together, is a place in one of them. -/
theorem exists_of_flatMap_eq {β γ : Type} {f : β → List γ} {as : List β} {before after : List γ}
    {c : γ} (h : as.flatMap f = before ++ c :: after) :
    ∃ front a rest l r, as = front ++ a :: rest ∧ f a = l ++ c :: r ∧
      before = front.flatMap f ++ l := by
  induction as generalizing before with
  | nil => simp at h
  | cons a as ih =>
    rw [List.flatMap_cons, List.append_eq_append_iff] at h
    rcases h with ⟨between, rfl, hrest⟩ | ⟨between, hfirst, hrest⟩
    · obtain ⟨front, a', rest, l, r, rfl, ha', rfl⟩ := ih hrest
      exact ⟨a :: front, a', rest, l, r, rfl, ha', by simp⟩
    · cases between with
      | nil =>
        obtain ⟨front, a', rest, l, r, rfl, ha', hl⟩ := @ih [] hrest.symm
        refine ⟨a :: front, a', rest, l, r, rfl, ha', ?_⟩
        rw [List.flatMap_cons, List.append_assoc, ← hl, hfirst, List.append_nil, List.append_nil]
      | cons d between =>
        obtain ⟨rfl, -⟩ := List.cons.inj hrest
        exact ⟨[], a, as, before, between, rfl, hfirst, rfl⟩

section Mentions

variable {b c : α}

/-- A key stands before another one if its entry does. -/
theorem idxOf_keys_lt_iff (hg : g.successors.keys.Nodup) {front rest : List (α × List α)}
    {e : α × List α} (h : g.successors.entries = front ++ e :: rest) :
    g.successors.keys.idxOf b < g.successors.keys.idxOf e.1 ↔ b ∈ front.map Prod.fst := by
  have hkeys : g.successors.keys = front.map Prod.fst ++ e.1 :: rest.map Prod.fst := by
    rw [Table.keys, h, List.map_append, List.map_cons]
  rw [hkeys] at hg ⊢
  have hnew : e.1 ∉ front.map Prod.fst := fun hmem =>
    (List.nodup_append.mp hg).2.2 _ hmem _ List.mem_cons_self rfl
  rw [List.idxOf_append_of_notMem hnew, List.idxOf_cons_self, Nat.add_zero]
  constructor
  · intro hlt
    by_contra hb
    rw [List.idxOf_append_of_notMem hb] at hlt
    omega
  · intro hb
    rw [List.idxOf_append_of_mem hb]
    exact List.idxOf_lt_length_of_mem hb

/-- The successors of an entry. -/
theorem next_of_mem (hg : g.successors.keys.Nodup) {e : α × List α}
    (he : e ∈ g.successors.entries) : g.next e.1 = e.2 := by
  rw [next, Table.get?_eq_some_of_mem hg he, Option.getD_some]

/-- **First mentions.** Of two keys the first one is mentioned first, unless the other one is a
successor of a key before both and the first one is not mentioned as a successor before that. -/
theorem idxOf_mentions_lt_iff (hg : g.successors.keys.Nodup) (hc : c ∈ g.successors.keys)
    (hbc : g.successors.keys.idxOf b < g.successors.keys.idxOf c) :
    g.mentions.idxOf b < g.mentions.idxOf c ↔
      ∀ a, g.Edge a c → g.successors.keys.idxOf a < g.successors.keys.idxOf b →
        ∃ a', g.Edge a' b ∧ (g.successors.keys.idxOf a' < g.successors.keys.idxOf a ∨
          a' = a ∧ (g.next a).idxOf b < (g.next a).idxOf c) := by
  have hne : b ≠ c := fun heq => hbc.ne (congrArg (g.successors.keys.idxOf ·) heq)
  have hmention : c ∈ g.mentions := by
    obtain ⟨e, he, rfl⟩ := List.mem_map.mp hc
    exact List.mem_flatMap.mpr ⟨e, he, List.mem_cons_self⟩
  rw [idxOf_lt_idxOf_iff hmention hne]
  constructor
  · intro h a hac hab
    obtain ⟨e, he, rfl, hce⟩ := (edge_iff hg).mp hac
    obtain ⟨front, rest, hentries⟩ := List.append_of_mem he
    obtain ⟨l, r, hsplit, hcl⟩ := List.eq_append_cons_of_mem hce
    have hplace : g.mentions = (front.flatMap (fun e => e.1 :: e.2) ++ e.1 :: l) ++
        c :: (r ++ rest.flatMap fun e => e.1 :: e.2) := by
      rw [mentions, hentries, List.flatMap_append, List.flatMap_cons, hsplit]
      simp
    have hlate : b ≠ e.1 ∧ b ∉ front.map Prod.fst := by
      rw [← idxOf_keys_lt_iff hg hentries]
      exact ⟨fun heq => hab.ne (congrArg (g.successors.keys.idxOf ·) heq.symm), hab.asymm⟩
    rcases List.mem_append.mp (h _ _ hplace) with hb | hb
    · obtain ⟨e', he', hb⟩ := List.mem_flatMap.mp hb
      rcases List.mem_cons.mp hb with rfl | hb
      · exact absurd (List.mem_map_of_mem he') hlate.2
      · refine ⟨e'.1, (edge_iff hg).mpr ⟨e', ?_, rfl, hb⟩, .inl ?_⟩
        · rw [hentries]
          exact List.mem_append_left _ he'
        · exact (idxOf_keys_lt_iff hg hentries).mpr (List.mem_map_of_mem he')
    · have hb := (List.mem_cons.mp hb).resolve_left hlate.1
      have hbe : b ∈ e.2 := hsplit ▸ List.mem_append_left _ hb
      refine ⟨e.1, (edge_iff hg).mpr ⟨e, he, rfl, hbe⟩, .inr ⟨rfl, ?_⟩⟩
      rw [next_of_mem hg he, hsplit, List.idxOf_append_of_mem hb, List.idxOf_append_of_notMem hcl,
        List.idxOf_cons_self]
      exact (List.idxOf_lt_length_of_mem hb).trans_le (Nat.le_add_right _ _)
  · intro h before after hplace
    obtain ⟨front, e, rest, l, r, hentries, hsplit, rfl⟩ := exists_of_flatMap_eq hplace
    have he : e ∈ g.successors.entries := hentries ▸ by simp
    have hfront : b ∈ front.map Prod.fst → b ∈ front.flatMap fun e => e.1 :: e.2 := by
      intro hb
      obtain ⟨e', he', rfl⟩ := List.mem_map.mp hb
      exact List.mem_flatMap.mpr ⟨e', he', List.mem_cons_self⟩
    cases l with
    | nil =>
      -- `c` is mentioned as a key, and the entry of `b` stands before that
      obtain ⟨rfl, -⟩ := List.cons.inj hsplit
      exact List.mem_append_left _ (hfront ((idxOf_keys_lt_iff hg hentries).mp hbc))
    | cons first l =>
      rw [List.cons_append, List.cons.injEq] at hsplit
      obtain ⟨rfl, hsplit⟩ := hsplit
      have hmem : c ∈ e.2 := hsplit ▸ List.mem_append_right _ List.mem_cons_self
      have hce : g.Edge e.1 c := (edge_iff hg).mpr ⟨e, he, rfl, hmem⟩
      by_cases hlate : g.successors.keys.idxOf e.1 < g.successors.keys.idxOf b
      · obtain ⟨a', hab, hfirst | ⟨rfl, hfirst⟩⟩ := h e.1 hce hlate
        · obtain ⟨e', he', rfl⟩ := List.mem_map.mp ((idxOf_keys_lt_iff hg hentries).mp hfirst)
          have hb : b ∈ e'.2 := by
            rw [← next_of_mem hg (hentries ▸ List.mem_append_left _ he')]
            exact hab
          exact List.mem_append_left _
            (List.mem_flatMap.mpr ⟨e', he', List.mem_cons_of_mem _ hb⟩)
        · rw [next_of_mem hg he] at hfirst
          have hb := (idxOf_lt_idxOf_iff hmem hne).mp hfirst l r hsplit
          exact List.mem_append_right _ (List.mem_cons_of_mem _ hb)
      · -- `b` is the key of this entry or of one before it
        rcases (not_lt.mp hlate).lt_or_eq with hlt | heq
        · exact List.mem_append_left _ (hfront ((idxOf_keys_lt_iff hg hentries).mp hlt))
        · have hkey : e.1 ∈ g.successors.keys := List.mem_map_of_mem he
          obtain rfl := (List.idxOf_inj hkey).mp heq.symm
          exact List.mem_append_right _ List.mem_cons_self

end Mentions

/-! ## Graphs from edge lists -/

section OfEdges

variable {nodes members : List α} {edges : List (α × α)} {a b c : α}

/-- Setting a value that may be there lists its key. -/
theorem lists_insert {β : Type} {t : Table α β} {l : List α} (h : Lists l t.keys) (k : α) (v : β) :
    Lists (l ++ [k]) (t.insert k v).keys := by
  rw [Table.keys_insert]
  exact h.snoc k

/-- An edge between keys leaves the keys as they are. -/
theorem keys_addEdge {d t : α} (hd : d ∈ g.successors.keys) (ht : t ∈ g.successors.keys) :
    (g.addEdge d t).successors.keys = g.successors.keys := by
  have hold : ∀ k ∈ g.successors.keys, g.successors.insertNew k [] = g.successors := by
    intro k hk
    exact if_pos (Table.isSome_get?_iff.mpr hk)
  simp only [addEdge, hold d hd, hold t ht]
  split_ifs
  · rfl
  · rw [Table.keys_insert, if_pos hd]

/-- If the edges only join listed nodes, the keys are the listed nodes. -/
theorem lists_keys_ofEdges (h : ∀ e ∈ edges, e.1 ∈ nodes ∧ e.2 ∈ nodes) :
    Lists nodes (ofEdges nodes edges).successors.keys := by
  have hnodes : Lists nodes (ofEdges nodes []).successors.keys := by
    have hinsert : ∀ (ns l : List α) (t : Table α (List α)), Lists l t.keys →
        Lists (l ++ ns) (t.insertAll (ns.map fun n => (n, []))).keys := by
      intro ns
      induction ns with
      | nil => exact fun l t ht => by rwa [List.append_nil]
      | cons n ns ih =>
        intro l t ht
        rw [← List.singleton_append, ← List.append_assoc]
        exact ih _ _ (lists_insert ht n [])
    exact hinsert nodes [] .empty ⟨fun _ => Iff.rfl, .nil⟩
  induction edges using List.reverseRecOn with
  | nil => exact hnodes
  | append_singleton edges e ih =>
    obtain ⟨hedges, he⟩ := List.forall_mem_append.mp h
    have hkeys := ih hedges
    obtain ⟨hd, ht⟩ := he e (List.mem_singleton_self e)
    rw [ofEdges, List.foldl_append]
    show Lists nodes ((ofEdges nodes edges).addEdge e.1 e.2).successors.keys
    rwa [keys_addEdge ((hkeys.mem_iff _).mpr hd) ((hkeys.mem_iff _).mpr ht)]

/-- The successors of a node stand by the first edges to them. -/
theorem pairwise_next_ofEdges (nodes : List α) (edges : List (α × α)) (a : α) :
    ((ofEdges nodes edges).next a).Pairwise
      fun b c => edges.idxOf (a, b) < edges.idxOf (a, c) := by
  induction edges using List.reverseRecOn with
  | nil =>
    have hnone : (ofEdges nodes []).next a = [] := by
      rw [List.eq_nil_iff_forall_not_mem]
      exact fun b hb => List.not_mem_nil (edge_ofEdges.mp hb)
    rw [hnone]
    exact .nil
  | append_singleton edges e ih =>
    have hold : ((ofEdges nodes edges).next a).Pairwise
        fun b c => (edges ++ [e]).idxOf (a, b) < (edges ++ [e]).idxOf (a, c) := by
      refine ih.imp_of_mem fun {b c} hb hc hbc => ?_
      rwa [List.idxOf_append_of_mem (edge_ofEdges.mp hb),
        List.idxOf_append_of_mem (edge_ofEdges.mp hc)]
    have hstep : (ofEdges nodes (edges ++ [e])).next a =
        ((ofEdges nodes edges).addEdge e.1 e.2).next a := by
      rw [ofEdges, List.foldl_append]
      rfl
    rw [hstep, next_addEdge]
    split_ifs with hnew
    · obtain ⟨rfl, hnew⟩ := hnew
      refine List.pairwise_append.mpr ⟨hold, List.pairwise_singleton _ _, fun b hb c hc => ?_⟩
      obtain rfl := List.mem_singleton.mp hc
      have hb := edge_ofEdges.mp hb
      have he : (e.1, e.2) ∉ edges := fun he => hnew (edge_ofEdges.mpr he)
      rw [List.idxOf_append_of_mem hb, List.idxOf_append_of_notMem he]
      exact (List.idxOf_lt_length_of_mem hb).trans_le (Nat.le_add_right _ _)
    · exact hold

/-- Whether the members of a report are met in the order of the nodes: if a member is a successor of
a node that is listed before another member that is listed before it, then that one is a successor
of an earlier node, or of the same node by an earlier edge. -/
def MetInOrder (nodes : List α) (edges : List (α × α)) (members : List α) : Prop :=
  ∀ b ∈ members, ∀ c ∈ members, nodes.idxOf b < nodes.idxOf c →
    ∀ a, (a, c) ∈ edges → nodes.idxOf a < nodes.idxOf b →
      ∃ a', (a', b) ∈ edges ∧ (nodes.idxOf a' < nodes.idxOf a ∨
        a' = a ∧ edges.idxOf (a, b) < edges.idxOf (a, c))

/-- What is reported for a list of nodes and a list of edges with a cycle: the nodes on the cycles
and those behind them, each once, in the order in which the graph mentions them. That is the order
of the nodes exactly if they are met in it. -/
structure Reports (nodes : List α) (edges : List (α × α)) (members : List α) : Prop where
  mem_iff : ∀ b, b ∈ members ↔ ∃ a, TransGen (fun a b => (a, b) ∈ edges) a a ∧
    ReflTransGen (fun a b => (a, b) ∈ edges) a b
  mentioned : members.Pairwise
    ((ofEdges nodes edges).mentions.idxOf · < (ofEdges nodes edges).mentions.idxOf ·)
  inOrder_iff : members.Pairwise (nodes.idxOf · < nodes.idxOf ·) ↔ MetInOrder nodes edges members

/-- Of two listed nodes the first one is mentioned first exactly if they are met in this order. -/
theorem idxOf_mentions_ofEdges_lt_iff (h : ∀ e ∈ edges, e.1 ∈ nodes ∧ e.2 ∈ nodes)
    (hb : b ∈ nodes) (hc : c ∈ nodes) (hbc : nodes.idxOf b < nodes.idxOf c) :
    (ofEdges nodes edges).mentions.idxOf b < (ofEdges nodes edges).mentions.idxOf c ↔
      ∀ a, (a, c) ∈ edges → nodes.idxOf a < nodes.idxOf b →
        ∃ a', (a', b) ∈ edges ∧ (nodes.idxOf a' < nodes.idxOf a ∨
          a' = a ∧ edges.idxOf (a, b) < edges.idxOf (a, c)) := by
  have hkeys := lists_keys_ofEdges h
  have hplace : ∀ {b c}, b ∈ nodes → c ∈ nodes →
      ((ofEdges nodes edges).successors.keys.idxOf b <
        (ofEdges nodes edges).successors.keys.idxOf c ↔ nodes.idxOf b < nodes.idxOf c) :=
    fun hb hc => idxOf_lt_iff_of_pairwise hkeys.pairwise ((hkeys.mem_iff _).mpr hb)
      ((hkeys.mem_iff _).mpr hc)
  rw [idxOf_mentions_lt_iff (nodup_keys_ofEdges nodes edges) ((hkeys.mem_iff c).mpr hc)
    ((hplace hb hc).mpr hbc)]
  refine forall_congr' fun a => ?_
  rw [edge_ofEdges]
  refine forall_congr' fun hac => ?_
  rw [hplace (h _ hac).1 hb]
  refine imp_congr_right fun _ => exists_congr fun a' => ?_
  rw [edge_ofEdges]
  refine and_congr_right fun hab => or_congr (hplace (h _ hab).1 (h _ hac).1) ?_
  refine and_congr_right fun heq => ?_
  subst heq
  exact idxOf_lt_iff_of_pairwise (pairwise_next_ofEdges nodes edges a') (edge_ofEdges.mpr hab)
    (edge_ofEdges.mpr hac)

/-- **Reports.** If the edges only join listed nodes, the report of a cycle goes by first mentions,
and by the list of nodes exactly if its members are met in this order. -/
theorem exists_reports (h : ∀ e ∈ edges, e.1 ∈ nodes ∧ e.2 ∈ nodes)
    (hcyclic : ∃ b, TransGen (fun a b => (a, b) ∈ edges) b b) :
    ∃ members, (ofEdges nodes edges).topologicalOrder = .error members ∧
      Reports nodes edges members := by
  have hedges : (ofEdges nodes edges).Edge = fun a b => (a, b) ∈ edges := by
    funext a b
    exact propext edge_ofEdges
  have hkeys := nodup_keys_ofEdges nodes edges
  obtain ⟨members, hsort, hnodup, hmem⟩ := exists_members hkeys (hedges ▸ hcyclic)
  rw [hedges] at hmem
  have hmentioned := pairwise_members hsort
  have hlisted : ∀ b ∈ members, b ∈ nodes := by
    intro b hb
    obtain ⟨a, hcycle, hab⟩ := (hmem b).mp hb
    obtain ⟨c, -, hcb⟩ := TransGen.tail'_iff.mp (hcycle.trans_left hab)
    exact (h _ hcb).2
  refine ⟨members, hsort, hmem, hmentioned, fun hinOrder b hb c hc hbc => ?_, fun hmet => ?_⟩
  · rw [← idxOf_mentions_ofEdges_lt_iff h (hlisted b hb) (hlisted c hc) hbc,
      ← idxOf_lt_iff_of_pairwise hmentioned hb hc, idxOf_lt_iff_of_pairwise hinOrder hb hc]
    exact hbc
  · refine hmentioned.imp_of_mem fun {b c} hb hc hlt => ?_
    rcases lt_trichotomy (nodes.idxOf b) (nodes.idxOf c) with hbc | hbc | hbc
    · exact hbc
    · obtain rfl := (List.idxOf_inj (hlisted b hb)).mp hbc
      exact absurd hlt (lt_irrefl _)
    · have hcb := (idxOf_mentions_ofEdges_lt_iff h (hlisted c hc) (hlisted b hb) hbc).mpr
        (hmet c hc b hb hbc)
      exact absurd hlt hcb.asymm

end OfEdges

end MaskEnum.Graph

namespace MaskEnum

open Relation

variable {unit : List EnumDecl}

/-- References join enumerations of the unit. -/
theorem mem_of_edges {es : List (QualifiedName × QualifiedName)} (h : edges unit unit = .ok es) :
    ∀ e ∈ es, e.1 ∈ unit.map EnumDecl.qualifiedName ∧ e.2 ∈ unit.map EnumDecl.qualifiedName := by
  obtain ⟨-, rfl⟩ := edges_eq_ok.mp h
  rintro ⟨a, b⟩ hab
  obtain ⟨e, he, hab⟩ := List.mem_flatMap.mp hab
  obtain ⟨path, -, hab⟩ := List.mem_filterMap.mp hab
  obtain ⟨t, ht, -, rfl, rfl⟩ := edgeAlong_eq_some.mp hab
  exact ⟨List.mem_map_of_mem (findEnum_eq_some ht).1, List.mem_map_of_mem he⟩

/-- **The order of a report.** Let the edges of a graph only join listed nodes, and let it have a
cycle. Then the sort reports the nodes on the cycles and behind them in the order in which the graph
mentions them, which is the order of the list exactly if they are met in it.

The same holds of a unit whose references have a cycle and the enumerations that it reports, in the
order of their declaration and of the references that they write. -/
theorem exists_cycle_report {α : Type} [DecidableEq α] {nodes : List α} {edges : List (α × α)}
    (hlisted : ∀ e ∈ edges, e.1 ∈ nodes ∧ e.2 ∈ nodes)
    (hcyclic : ∃ b, TransGen (fun a b => (a, b) ∈ edges) b b) :
    (∃ members, (Graph.ofEdges nodes edges).topologicalOrder = .error members ∧
      Graph.Reports nodes edges members) ∧
    ∀ (unit : List EnumDecl) (environment : Environment)
      (es : List (QualifiedName × QualifiedName)), MaskEnum.edges unit unit = .ok es →
      (∃ q, TransGen (fun a b => (a, b) ∈ es) q q) →
        ∃ members,
          resolveUnit unit environment =
            .error ⟨.circular (members.map QualifiedName.text), none⟩ ∧
          Graph.Reports (unit.map EnumDecl.qualifiedName) es members := by
  refine ⟨Graph.exists_reports hlisted hcyclic, fun unit environment es hes hcycle => ?_⟩
  obtain ⟨members, hsort, hreports⟩ := Graph.exists_reports (mem_of_edges hes) hcycle
  refine ⟨members, resolveUnit_eq_error.mpr (.inr ⟨_, ?_, .inl ⟨members, hsort, rfl⟩⟩), hreports⟩
  exact referenceGraph_eq_ok.mpr ⟨es, hes, rfl⟩

/-- Edges to a cycle from the node listed before it: to its first two nodes, in their order. -/
def entering : List (Char × Char) :=
  [('A', 'B'), ('A', 'C'), ('B', 'D'), ('C', 'B'), ('D', 'C')]

/-- Its nodes are met and reported in the order of the list. -/
theorem exists_cycle_report_entering :
    (∀ e ∈ entering, e.1 ∈ ['A', 'B', 'C', 'D'] ∧ e.2 ∈ ['A', 'B', 'C', 'D']) ∧
      (∃ b, TransGen (fun a b => (a, b) ∈ entering) b b) ∧
      (Graph.ofEdges ['A', 'B', 'C', 'D'] entering).topologicalOrder = .error ['B', 'C', 'D'] ∧
      Graph.MetInOrder ['A', 'B', 'C', 'D'] entering ['B', 'C', 'D'] := by
  have hlisted : ∀ e ∈ entering, e.1 ∈ ['A', 'B', 'C', 'D'] ∧ e.2 ∈ ['A', 'B', 'C', 'D'] := by
    decide
  have hcyclic : ∃ b, TransGen (fun a b => (a, b) ∈ entering) b b := by
    have hthere : ('B', 'D') ∈ entering := by decide
    have hon : ('D', 'C') ∈ entering := by decide
    have hback : ('C', 'B') ∈ entering := by decide
    exact ⟨'B', .tail (.tail (.single hthere) hon) hback⟩
  have hsort : (Graph.ofEdges ['A', 'B', 'C', 'D'] entering).topologicalOrder =
      .error ['B', 'C', 'D'] := by rfl
  obtain ⟨⟨members, hmembers, hreports⟩, -⟩ := exists_cycle_report hlisted hcyclic
  obtain rfl : ['B', 'C', 'D'] = members := Except.error.inj (hsort.symm.trans hmembers)
  exact ⟨hlisted, hcyclic, hsort, hreports.inOrder_iff.mp (by decide)⟩

/-- A cycle whose first node leads to the last one listed. -/
def crossing : List (Char × Char) := [('A', 'C'), ('C', 'B'), ('B', 'A')]

/-- An enumeration with one variant that has the value of the one of another enumeration. -/
def referring (name target : String) : EnumDecl :=
  ⟨name, none, .own, .own, none,
    [⟨"X", some (.operand (.external "X" (.enumeration ⟨[target]⟩))), [], ⟨1, 1⟩⟩], [], ⟨1, 1⟩⟩

/-- The last node listed is met, and reported, before the one in the middle. So is the last of three
enumerations of which each refers to the next one, and the last one to the first. -/
theorem exists_cycle_report_crossing :
    (∀ e ∈ crossing, e.1 ∈ ['A', 'B', 'C'] ∧ e.2 ∈ ['A', 'B', 'C']) ∧
      (∃ b, TransGen (fun a b => (a, b) ∈ crossing) b b) ∧
      (Graph.ofEdges ['A', 'B', 'C'] crossing).topologicalOrder = .error ['A', 'C', 'B'] ∧
      ¬ ['A', 'C', 'B'].Pairwise (['A', 'B', 'C'].idxOf · < ['A', 'B', 'C'].idxOf ·) ∧
      resolveUnit [referring "A" "B", referring "B" "C", referring "C" "A"] {} =
        .error ⟨.circular ["A", "C", "B"], none⟩ := by
  have hcyclic : ∃ b, TransGen (fun a b => (a, b) ∈ crossing) b b := by
    have hthere : ('A', 'C') ∈ crossing := by decide
    have hon : ('C', 'B') ∈ crossing := by decide
    have hback : ('B', 'A') ∈ crossing := by decide
    exact ⟨'A', .tail (.tail (.single hthere) hon) hback⟩
  exact ⟨by decide, hcyclic, rfl, by decide, eq_error (by decide +kernel)⟩

end MaskEnum
