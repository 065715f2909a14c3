import RowAlgebra.Expr.Label
import RowAlgebra.Text.Tally

/-!
# The graph of an expression

An expression with shared nodes is a graph, with every node once and an edge from each node to each
of its inputs. `Expr.network` builds it up by a search with an explicit stack, which takes the last
input first. A node joins the network with the first edge that leads to it, and gets its operator
when it is visited. `Expr.graph` shows the network, `Expr.sharedNodes` lists the nodes that are
inputs of more than one other node, and `Expr.operatorCounts` counts how often each operator occurs.
A node is visited with its label, so there is no network if one of the labels cannot be written.
-/

namespace RowAlgebra

/-! ## Networks -/

/-- What a network knows of a node that has been visited. -/
structure Vertex (α : Type) where
  operator : Expr α
  label : Text

/-- A directed graph that is being built up. -/
structure Network (α : Type) where
  /-- The nodes in the order in which they have joined, each with its operator once it is known. -/
  nodes : List (NodeId × Option (Vertex α))
  edges : List (NodeId × NodeId)

namespace Network

variable {α : Type}

def empty : Network α :=
  ⟨[], []⟩

def hasNode (g : Network α) (i : NodeId) : Bool :=
  g.nodes.any fun n => n.1 == i

/-- A node joins, unless it has joined before. -/
def join (g : Network α) (i : NodeId) : Network α :=
  if g.hasNode i then g else { g with nodes := g.nodes ++ [(i, none)] }

/-- A node joins, if necessary, and gets its operator. -/
def addNode (g : Network α) (v : Vertex α) : Network α :=
  let i := v.operator.id
  { g.join i with nodes := (g.join i).nodes.map fun n => if n.1 = i then (n.1, some v) else n }

/-- An edge joins with both its ends; a second one between them changes nothing. -/
def addEdge (g : Network α) (source target : NodeId) : Network α :=
  let g := (g.join source).join target
  if g.edges.contains (source, target) then g
  else { g with edges := g.edges ++ [(source, target)] }

/-- The node and the edges to its inputs join. -/
def visit (g : Network α) (v : Vertex α) : Network α :=
  v.operator.children.foldl (fun g a => g.addEdge v.operator.id a.id) (g.addNode v)

/-- What is known of the nodes that have been visited. -/
def vertices (g : Network α) : List (Vertex α) :=
  g.nodes.filterMap Prod.snd

def inDegree (g : Network α) (i : NodeId) : Nat :=
  g.edges.countP fun edge => edge.2 == i

end Network

/-- A graph as it is shown. -/
structure Graph (α : Type) where
  nodes : List (Vertex α)
  edges : List (NodeId × NodeId)

namespace Graph

variable {α : Type}

def positions (g : Graph α) : List (Nat × Nat) :=
  let ids := g.nodes.map fun v => v.operator.id
  (g.edges.map fun edge => (ids.idxOf edge.1, ids.idxOf edge.2)).mergeSort fun a b =>
    decide (a.1 < b.1 ∨ (a.1 = b.1 ∧ a.2 ≤ b.2))

end Graph

/-! ## The network of an expression -/

namespace Expr

variable {α : Type}

theorem sum_size_children_lt (e : Expr α) : (e.children.reverse.map size).sum < e.size := by
  cases e with
  | binary i op a b =>
    simp only [children, size, List.reverse_cons, List.reverse_nil, List.nil_append,
      List.singleton_append, List.map_cons, List.map_nil, List.sum_cons, List.sum_nil]
    omega
  | _ => simp [children, size]

/-- Visits the nodes of a stack, and whatever lies below them, unless they have been visited. -/
def search : List (Expr α) → List NodeId → Network α → Except Error (Network α)
  | [], _, g => .ok g
  | e :: stack, visited, g =>
    if visited.contains e.id then search stack visited g
    else do
      have := e.sum_size_children_lt
      search (e.children.reverse ++ stack) (e.id :: visited) (g.visit ⟨e, ← e.label⟩)
termination_by stack => (stack.map size).sum
decreasing_by
  · simp only [List.map_cons, List.sum_cons]
    cases e <;> simp [size]
  · simp only [List.map_append, List.sum_append, List.map_cons, List.sum_cons]
    omega

def network (e : Expr α) : Except Error (Network α) :=
  search [e] [] .empty

/-- Some nodes of an expression in the order of their first occurrence in its walk. -/
def inWalkOrder (e : Expr α) (vertices : List (Vertex α)) : List (Vertex α) :=
  let ids := e.walk.map id
  vertices.mergeSort fun a b => decide (ids.idxOf a.operator.id ≤ ids.idxOf b.operator.id)

/-- The network of an expression, with the nodes in the order of their first occurrence. -/
def graph (e : Expr α) : Except Error (Graph α) := do
  let g ← e.network
  return ⟨e.inWalkOrder g.vertices, g.edges⟩

/-- The nodes that are inputs of more than one node, in the order of their first occurrence. -/
def sharedNodes (e : Expr α) : Except Error (List (Expr α)) := do
  let g ← e.network
  let shared := g.vertices.filter fun v => 1 < g.inDegree v.operator.id
  return (e.inWalkOrder shared).map Vertex.operator

/-- How often each operator occurs, in the order of the operators' names. A shared node counts
once. -/
def operatorCounts (e : Expr α) : Except Error (List (Text × Nat)) := do
  return Text.tally ((← e.network).vertices.map fun v => v.operator.name)

end Expr

end RowAlgebra
