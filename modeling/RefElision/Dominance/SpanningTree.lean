import RefElision.Dominance.FlowGraph

/-! Depth-first numbering of the vertices that can be reached from a root. -/
namespace RefElision

/-- The vertices in the order in which a depth-first search discovers them, and for
each of them the number of the vertex it was discovered from. The root has number
zero and no parent; its entry in `parents` means nothing. -/
structure SpanningTree where
  vertices : Array Nat
  parents : Array Nat

namespace SpanningTree

/-- Follows pending edges, each given by the number of its source and by its target.
The edges of a new vertex are followed before those that are pending already. The
answer lists the new vertices with the numbers of their parents. -/
def explore (succ : Nat → List Nat) (remaining : List Nat) (number : Nat)
    (pending : List (Nat × Nat)) : List (Nat × Nat) :=
  (Digraph.search Prod.snd (fun number e => (succ e.2).map fun w => (number, w)) remaining
    number pending).map Prod.swap

def ofRoot (a : Adjacency) (root : Nat) : SpanningTree :=
  let found := explore a.succ (List.range a.size) 0 [(0, root)]
  { vertices := (found.map Prod.fst).toArray
    parents := (found.map Prod.snd).toArray }

def size (t : SpanningTree) : Nat :=
  t.vertices.size

def vertex (t : SpanningTree) (i : Nat) : Nat :=
  t.vertices.getD i 0

def parent (t : SpanningTree) (i : Nat) : Nat :=
  t.parents.getD i 0

/-- The numbers of the vertices with an edge to the vertex numbered `i`. -/
def predecessors (t : SpanningTree) (a : Adjacency) (i : Nat) : List Nat :=
  (List.range t.size).filter fun u => (a.succ (t.vertex u)).contains (t.vertex i)

end SpanningTree

end RefElision
