/-! A forest on depth-first numbers that grows by links from a parent to a child and
answers which vertex has the least semidominator on the way up. Paths are
compressed while questions are answered. -/
namespace RefElision

/-- For every number its semidominator so far, the best vertex seen on its
compressed path, and the vertex that the compressed path leads to. -/
structure LinkForest where
  semi : Array Nat
  best : Array Nat
  ancestor : Array (Option Nat)
  deriving DecidableEq

namespace LinkForest

/-- The forest without links, where every vertex is its own semidominator. -/
def unlinked (size : Nat) : LinkForest :=
  { semi := Array.range size
    best := Array.range size
    ancestor := Array.replicate size none }

def semiOf (f : LinkForest) (v : Nat) : Nat :=
  f.semi.getD v 0

def bestOf (f : LinkForest) (v : Nat) : Nat :=
  f.best.getD v 0

def ancestorOf (f : LinkForest) (v : Nat) : Option Nat :=
  f.ancestor.getD v none

/-- Makes a vertex the child of a parent. -/
def link (f : LinkForest) (parent child : Nat) : LinkForest :=
  { f with ancestor := f.ancestor.setIfInBounds child (some parent) }

/-- Replaces the semidominator of a vertex if the given one is less. -/
def lower (f : LinkForest) (v semi : Nat) : LinkForest :=
  { f with semi := f.semi.setIfInBounds v (min (f.semiOf v) semi) }

/-- Leads the path of a vertex past its ancestor, and takes over the ancestor's best
vertex if that one has the lesser semidominator. -/
def shortcut (f : LinkForest) (v ancestor : Nat) : LinkForest :=
  { f with
    best :=
      if f.semiOf (f.bestOf ancestor) < f.semiOf (f.bestOf v) then
        f.best.setIfInBounds v (f.bestOf ancestor)
      else f.best
    ancestor := f.ancestor.setIfInBounds v (f.ancestorOf ancestor) }

/-- Compresses the path above a vertex, so that it leads straight to the root of its
tree. Ancestors have smaller numbers, so the recursion ends. -/
def compress (f : LinkForest) (v : Nat) : LinkForest :=
  match f.ancestorOf v with
  | none => f
  | some a =>
    if a < v ∧ (f.ancestorOf a).isSome then (f.compress a).shortcut v a else f
termination_by v
decreasing_by
  rename_i h
  exact h.1

/-- The vertex with the least semidominator on the path from a vertex up to the root
of its tree, the root excluded. A root answers itself. -/
def eval (f : LinkForest) (v : Nat) : Nat × LinkForest :=
  match f.ancestorOf v with
  | none => (v, f)
  | some _ =>
    let f := f.compress v
    (f.bestOf v, f)

end LinkForest

end RefElision
