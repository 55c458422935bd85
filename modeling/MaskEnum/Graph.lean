import MaskEnum.Table
set_option autoImplicit false

/-!
# Dependency graphs

A graph maps each node to the nodes that depend on it. Its topological order is found by keeping,
for every node, the number of dependencies still to be placed, and a queue of the nodes that wait
for none: the first of the queue is placed, and each node that depended on it and waits for nothing
else joins the queue at its end. So the order of the nodes decides wherever dependencies leave a
choice.

## Main definitions

* `MaskEnum.Graph` — the graphs, and `Graph.ofEdges` to build one.
* `MaskEnum.Graph.waiting` — how many dependencies each node has.
* `MaskEnum.Graph.topologicalOrder` — the order, or the nodes that lie on or behind a cycle.
-/

namespace MaskEnum

/-- Each node with the nodes that depend on it. A successor need not be a key, and may occur more
than once. -/
structure Graph (α : Type) where
  successors : Table α (List α)

namespace Graph

variable {α : Type} [DecidableEq α]

/-- The graph with the edge that makes `dependent` depend on `dependency`. A repeated edge
changes nothing. -/
def addEdge (g : Graph α) (dependency dependent : α) : Graph α :=
  let nodes := (g.successors.insertNew dependency []).insertNew dependent []
  let known := (nodes.get? dependency).getD []
  ⟨if dependent ∈ known then nodes else nodes.insert dependency (known ++ [dependent])⟩

/-- The graph of a list of nodes and a list of edges, each from a dependency to its dependent. -/
def ofEdges (nodes : List α) (edges : List (α × α)) : Graph α :=
  edges.foldl (fun g e => g.addEdge e.1 e.2) ⟨Table.ofList (nodes.map fun n => (n, []))⟩

/-- A table of counters with one of them changed. -/
def raise (counts : Table α Nat) (amount : Nat) (node : α) : Table α Nat :=
  counts.insert node ((counts.get? node).getD 0 + amount)

/-- For every node, key or successor, the number of times it is a successor. -/
def waiting (g : Graph α) : Table α Nat :=
  g.successors.entries.foldl
    (fun counts e => e.2.foldl (raise · 1 ·) (raise counts 0 e.1)) Table.empty

/-- A topological sort under way: what each node waits for, the queue, and the nodes placed. -/
structure Progress (α : Type) where
  waiting : Table α Nat
  queue : List α
  placed : List α

/-- One dependency less for `node`, which joins the queue with its last one. -/
def Progress.release (p : Progress α) (node : α) : Progress α :=
  match p.waiting.get? node with
  | some 1 => { p with waiting := p.waiting.insert node 0, queue := p.queue ++ [node] }
  | some (n + 2) => { p with waiting := p.waiting.insert node (n + 1) }
  | _ => p

/-- Places the first of the queue, `rounds` times or until the queue is empty. -/
def run (g : Graph α) : Nat → Progress α → Progress α
  | 0, p => p
  | rounds + 1, p =>
    match p.queue with
    | [] => p
    | node :: queue =>
      run g rounds <|
        ((g.successors.get? node).getD []).foldl Progress.release
          { p with queue := queue, placed := p.placed ++ [node] }

/-- The queue at the start: the nodes without a dependency. -/
def start (g : Graph α) : Progress α :=
  ⟨g.waiting, (g.waiting.entries.filter (·.2 == 0)).map Prod.fst, []⟩

/-- The nodes with every dependency before its dependents, or else the nodes that could not be
placed. No node is placed twice, so there are no more rounds than nodes. -/
def topologicalOrder (g : Graph α) : Except (List α) (List α) :=
  let placed := (g.run g.waiting.size g.start).placed
  if placed.length = g.waiting.size then .ok placed
  else .error (g.waiting.keys.filter (· ∉ placed))

/-- The report of the nodes that could not be placed. -/
def cycleMessage (members : List String) : String :=
  "Cycle detected in graph among: " ++ ", ".intercalate members

end Graph
end MaskEnum
