import RefElision.Graph.Digraph
import RefElision.Program.Func

/-! A function as a graph of indices: the blocks in order, and behind them a virtual
exit that every returning block leads to. -/
namespace RefElision

/-- A graph on the indices below the number of lists. -/
abbrev Adjacency := Array (List Nat)

def Adjacency.succ (a : Adjacency) (v : Nat) : List Nat :=
  (a[v]?).getD []

/-- The graph without the edges that lead from a vertex to itself. -/
def Adjacency.withoutLoops (a : Adjacency) : Adjacency :=
  a.mapIdx fun v targets => targets.filter fun w => w != v

/-- The index form of a function. Successors come from the terminators and
predecessors from the recorded lists, so the two need not agree if a function has
been edited since its predecessors were computed. -/
structure FlowGraph where
  labels : List Label
  succ : Adjacency
  pred : Adjacency

namespace FlowGraph

/-- The index of the virtual exit. -/
def exit (g : FlowGraph) : Nat :=
  g.labels.length

def index? (g : FlowGraph) (l : Label) : Option Nat :=
  g.labels.idxOf? l

/-- The edges of a block without repetition. A target outside of the function counts
as the entry. -/
def blockSucc (labels : List Label) (b : Block) : List Nat :=
  match b.successors with
  | [] => [labels.length]
  | targets => (targets.map fun l => (labels.idxOf? l).getD 0).eraseDups

/-- The recorded predecessors of a block without repetition. One outside of the
function is left out. -/
def blockPred (labels : List Label) (b : Block) : List Nat :=
  (b.preds.filterMap labels.idxOf?).eraseDups

/-- The indices of the returning blocks. -/
def returning (blocks : List Block) : List Nat :=
  (List.range blocks.length).filter fun i =>
    (blocks[i]?.map fun b => b.successors.isEmpty).getD false

def ofFunc (f : Func) : FlowGraph :=
  { labels := f.labels
    succ := (f.blocks.map (blockSucc f.labels) ++ [[]]).toArray
    pred := (f.blocks.map (blockPred f.labels) ++ [returning f.blocks]).toArray }

end FlowGraph

end RefElision
