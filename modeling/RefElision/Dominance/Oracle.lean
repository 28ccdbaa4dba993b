import RefElision.Dominance.DomTree
import RefElision.Dominance.Removal
import RefElision.Dominance.Semidominator

/-! Which block of a function dominates or post-dominates which, answered in one of
two ways. -/
namespace RefElision

/-- Answers about the blocks of one function. `dominates a b` says that every path
from the entry to `b` passes through `a`, and `postDominates a b` that every path
from `b` to a return does. -/
structure Oracle where
  dominates : Label → Label → Bool
  postDominates : Label → Label → Bool

namespace Oracle

/-- Always the same answer. -/
def constant (answer : Bool) : Oracle :=
  { dominates := fun _ _ => answer
    postDominates := fun _ _ => answer }

/-- The answers of an oracle that knows none of the blocks it is asked about: a block
dominates itself only. -/
def unknowing : Oracle :=
  { dominates := fun a b => a == b
    postDominates := fun a b => a == b }

/-- Turns answers about indices into answers about blocks. A block that is not part of
the graph dominates itself only. -/
def ofIndices (g : FlowGraph) (dominates postDominates : Nat → Nat → Bool) : Oracle :=
  let lift := fun (answer : Nat → Nat → Bool) (a b : Label) =>
    a == b ||
      match g.index? a, g.index? b with
      | some i, some j => answer i j
      | _, _ => false
  { dominates := lift dominates
    postDominates := lift postDominates }

end Oracle

/-- The dominator tree of a function from its entry, and the post-dominator tree from
the virtual exit along predecessors. -/
structure DomTrees where
  graph : FlowGraph
  dom : DomTree
  postDom : DomTree

namespace DomTrees

def ofFunc (f : Func) : DomTrees :=
  let g := FlowGraph.ofFunc f
  { graph := g
    dom := .ofParents (immediateDominators g.succ 0) 0
    postDom := .ofParents (immediateDominators g.pred g.exit) g.exit }

def oracle (t : DomTrees) : Oracle :=
  .ofIndices t.graph t.dom.dominates t.postDom.dominates

/-- The nearest strict dominator of a block. -/
def immediate? (t : DomTrees) (l : Label) : Option Label := do
  let d ← t.dom.parent? (← t.graph.index? l)
  t.graph.labels[d]?

/-- The nearest strict post-dominator of a block, if that is not the virtual exit. -/
def immediatePost? (t : DomTrees) (l : Label) : Option Label := do
  let d ← t.postDom.parent? (← t.graph.index? l)
  t.graph.labels[d]?

end DomTrees

/-- An oracle that walks up chains of immediate dominators. How these are found in a graph
from a root is up to `find`; loops are taken out before, since they never change
dominance. -/
def Oracle.ofFinder (find : Adjacency → Nat → Array (Option Nat)) (f : Func) : Oracle :=
  let g := FlowGraph.ofFunc f
  .ofIndices g (onChain (find g.succ.withoutLoops 0) g.succ.size)
    (onChain (find g.pred.withoutLoops g.exit) g.pred.size)

/-- How an oracle is computed. -/
inductive Algorithm where
  | lengauerTarjan
  | flow
  deriving DecidableEq, Repr

namespace Algorithm

def name : Algorithm → String
  | .lengauerTarjan => "lengauer-tarjan"
  | .flow => "flow"

def ofName? (s : String) : Option Algorithm :=
  if s = "lengauer-tarjan" then some .lengauerTarjan
  else if s = "flow" then some .flow
  else none

/-- The number that stands for an algorithm in settings. -/
def code : Algorithm → Int64
  | .lengauerTarjan => 0
  | .flow => 1

def ofCode? (n : Int64) : Option Algorithm :=
  if n = 0 then some .lengauerTarjan
  else if n = 1 then some .flow
  else none

/-- The name for any number, be it that of an algorithm or not. -/
def nameOfCode (n : Int64) : String :=
  ((ofCode? n).map name).getD "unknown"

def compute (a : Algorithm) (f : Func) : Oracle :=
  match a with
  | .lengauerTarjan => (DomTrees.ofFunc f).oracle
  | .flow => .ofFinder Removal.parents f

end Algorithm

/-- An analysis that a pass depends on. -/
inductive Analysis where
  | domTree
  | postDomTree
  deriving DecidableEq, Repr

namespace Analysis

def name : Analysis → String
  | .domTree => "domtree"
  | .postDomTree => "postdomtree"

/-- The name for any number, be it that of an analysis or not. -/
def nameOfCode (n : Int64) : String :=
  if n = 0 then Analysis.domTree.name
  else if n = 1 then Analysis.postDomTree.name
  else "unknown"

end Analysis

end RefElision
