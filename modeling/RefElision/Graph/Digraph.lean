/-! Finite directed graphs, given by their nodes and a successor list for each node,
and the search for the nodes that can be reached. -/
namespace RefElision

/-- Edges may repeat. Edges to something that is not a node lead nowhere. -/
structure Digraph (α : Type) where
  nodes : List α
  succ : α → List α

namespace Digraph

variable {α : Type}

/-- The largest number of edges that leave a node. -/
def maxDegree (g : Digraph α) : Nat :=
  g.nodes.foldr (fun x n => max (g.succ x).length n) 0

theorem length_succ_le (g : Digraph α) {x : α} (h : x ∈ g.nodes) :
    (g.succ x).length ≤ g.maxDegree := by
  have hFold : ∀ nodes : List α, x ∈ nodes →
      (g.succ x).length ≤ nodes.foldr (fun x n => max (g.succ x).length n) 0 := by
    intro nodes hMem
    induction nodes with
    | nil => simp at hMem
    | cons y rest ih =>
        simp only [List.foldr_cons]
        rcases List.mem_cons.mp hMem with rfl | hMem
        · exact Nat.le_max_left _ _
        · exact Nat.le_trans (ih hMem) (Nat.le_max_right _ _)
  exact hFold g.nodes h

variable [DecidableEq α]

/-- Taking out something that is asked for leaves less. -/
theorem length_erase_lt {β : Type} (key : β → α) {remaining : List α} {pending rest : List β}
    {e : β} (h : pending.dropWhile (fun e => key e ∉ remaining) = e :: rest) :
    (remaining.erase (key e)).length < remaining.length := by
  have hHead := List.head?_dropWhile_not (fun e => decide (key e ∉ remaining)) pending
  rw [h] at hHead
  have hRemains : key e ∈ remaining := by simpa using hHead
  have hErase := List.length_erase_of_mem hRemains
  have hPositive := List.length_pos_of_mem hRemains
  omega

/-- A depth-first search. Each thing that is pending asks for a node, and it is passed
over if the node does not remain. Otherwise it is found, its node stops remaining, and
what it brings along is pending before all else. That may depend on how many things
were found before. -/
def search {β : Type} (key : β → α) (brings : Nat → β → List β) (remaining : List α)
    (number : Nat) (pending : List β) : List β :=
  match _h : pending.dropWhile (fun e => key e ∉ remaining) with
  | [] => []
  | e :: rest =>
    e :: search key brings (remaining.erase (key e)) (number + 1) (brings number e ++ rest)
termination_by remaining.length
decreasing_by exact length_erase_lt key _h

/-- The nodes that are reached from pending ones through nodes that remain. Every
node that is found stops remaining, so cycles and repeated edges do no harm. -/
def gather (succ : α → List α) (remaining pending : List α) : List α :=
  search (fun x => x) (fun _ x => succ x) remaining 0 pending

/-- The nodes on paths from a start along which no node is to be avoided. A start
that is to be avoided is not reached either. -/
def reach (g : Digraph α) (avoid : α → Bool) (start : List α) : List α :=
  gather g.succ (g.nodes.filter fun x => !avoid x) start

/-- The nodes that are reached by at least one step. The start itself may be one to
be avoided. -/
def reachBeyond (g : Digraph α) (avoid : α → Bool) (start : List α) : List α :=
  g.reach avoid (start.flatMap g.succ)

/-- Whether there is no way on from a node. -/
def isEnd (g : Digraph α) (x : α) : Bool :=
  !g.nodes.contains x || (g.succ x).isEmpty

theorem mem_nodes_of_isEnd (g : Digraph α) {x : α} (h : g.isEnd x = false) :
    x ∈ g.nodes := by
  simp only [isEnd, Bool.or_eq_false_iff, Bool.not_eq_false', List.contains_iff_mem] at h
  exact h.1

end Digraph

end RefElision
