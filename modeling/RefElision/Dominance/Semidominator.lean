import RefElision.Dominance.LinkForest
import RefElision.Dominance.SpanningTree

/-! Immediate dominators by semidominators. The vertices are visited against their
depth-first numbers; each is linked to its parent once its semidominator is known,
and waits in a bucket until its immediate dominator can be told. -/
namespace RefElision

namespace Semidominator

/-- The forest, the dominators found so far, and for every number the vertices with
that semidominator which are still waiting. -/
structure State where
  forest : LinkForest
  dom : Array Nat
  buckets : Array (List Nat)

def start (size : Nat) : State :=
  { forest := .unlinked size
    dom := Array.replicate size 0
    buckets := Array.replicate size [] }

/-- Lowers the semidominator of a vertex by what one predecessor offers. -/
def offer (i : Nat) (f : LinkForest) (pred : Nat) : LinkForest :=
  let (u, f) := f.eval pred
  f.lower i (f.semiOf u)

/-- Tells the dominator of a vertex that waits for its semidominator's child. If the
best vertex on the way up has a lesser semidominator, the two have the same
immediate dominator. -/
def settle (parent : Nat) (s : State) (v : Nat) : State :=
  let (u, f) := s.forest.eval v
  { s with
    forest := f
    dom := s.dom.setIfInBounds v (if f.semiOf u < f.semiOf v then u else parent) }

/-- Visits the vertex numbered `i`. -/
def visit (t : SpanningTree) (a : Adjacency) (i : Nat) (s : State) : State :=
  let parent := t.parent i
  let offered := (t.predecessors a i).foldl (offer i) s.forest
  let semi := offered.semiOf i
  let buckets := s.buckets.setIfInBounds semi (i :: s.buckets.getD semi [])
  let settled := (buckets.getD parent []).foldl (settle parent)
    { s with forest := offered.link parent i }
  { settled with buckets := buckets.setIfInBounds parent [] }

/-- Visits the vertices from the given number down to one. -/
def sweep (t : SpanningTree) (a : Adjacency) : Nat → State → State
  | 0, s => s
  | i + 1, s => sweep t a i (visit t a (i + 1) s)

/-- Replaces a dominator that stands for an equal one. -/
def resolve (f : LinkForest) (dom : Array Nat) (i : Nat) : Array Nat :=
  let d := dom.getD i 0
  if d = f.semiOf i then dom else dom.setIfInBounds i (dom.getD d 0)

/-- For every number but zero the number of the immediate dominator. -/
def numbers (t : SpanningTree) (a : Adjacency) : Array Nat :=
  let s := sweep t a (t.size - 1) (start t.size)
  (List.range' 1 (t.size - 1)).foldl (resolve s.forest) s.dom

end Semidominator

/-- The immediate dominator of every vertex with respect to a root. The root has
none, and neither has a vertex that cannot be reached from it. -/
def immediateDominators (a : Adjacency) (root : Nat) : Array (Option Nat) :=
  let t := SpanningTree.ofRoot a root
  let dom := Semidominator.numbers t a
  (List.range' 1 (t.size - 1)).foldl
    (fun table i => table.setIfInBounds (t.vertex i) (some (t.vertex (dom.getD i 0))))
    (Array.replicate a.size none)

end RefElision
