import RefElision.Dominance.FlowGraph

/-! Dominators by removal. A vertex is a strict dominator of another one if the other
can be reached from the root, but no longer once the vertex is removed. Questions
are answered by walking up the chain of immediate dominators. -/
namespace RefElision

namespace Removal

/-- The vertices that can be reached from a root if one vertex is removed. -/
def reachedWithout (a : Adjacency) (root removed : Nat) : List Nat :=
  Digraph.gather a.succ ((List.range a.size).erase removed) [root]

/-- The strict dominators of every vertex. -/
def strictDominators (a : Adjacency) (root : Nat) : Array (List Nat) :=
  let vertices := List.range a.size
  let reached := Digraph.gather a.succ vertices [root]
  let without := (vertices.map (reachedWithout a root)).toArray
  (vertices.map fun v =>
    if v ∈ reached then
      vertices.filter fun d => d != v && !(without.getD d []).contains v
    else []).toArray

/-- The strict dominators of a vertex lie on a chain, so the nearest of them has one
strict dominator less than the vertex. -/
def parents (a : Adjacency) (root : Nat) : Array (Option Nat) :=
  let strict := strictDominators a root
  strict.map fun above =>
    above.find? fun d => (strict.getD d []).length + 1 == above.length

end Removal

/-- The vertices above a vertex, nearest first, up to a bounded number. The chain ends at a
vertex without a parent and at one that is its own parent. -/
def chain (parent : Array (Option Nat)) : Nat → Nat → List Nat
  | 0, _ => []
  | bound + 1, v =>
    match parent.getD v none with
    | none => []
    | some p => if p = v then [] else p :: chain parent bound p

/-- Whether the first vertex stands on the chain above the second. A chain of
immediate dominators has less members than there are vertices. -/
def onChain (parent : Array (Option Nat)) (vertices a b : Nat) : Bool :=
  (chain parent vertices b).contains a

end RefElision
