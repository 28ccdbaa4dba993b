/-! Dominator trees. A tour around the tree enters and leaves every vertex once; the
times at which it does so decide which vertex is above which. -/
namespace RefElision

/-- A tree given by the parents of its vertices, with the times of a tour around it.
Vertices outside of the tree have no times. -/
structure DomTree where
  root : Nat
  parent : Array (Option Nat)
  enter : Array (Option Nat)
  leave : Array (Option Nat)

/-- The vertices with a given parent, in ascending order. -/
def DomTree.childrenIn (parent : Array (Option Nat)) (v : Nat) : List Nat :=
  (List.range parent.size).filter fun c => parent.getD c none == some v

/-- A tour under way: the clock, the vertices that have been entered but not left, the last
one first, for each vertex the children that the tour has still to go to, and the times told
so far. -/
structure Tour where
  clock : Nat
  stack : List Nat
  pending : Array (List Nat)
  enter : Array (Option Nat)
  leave : Array (Option Nat)

namespace Tour

/-- A tour that has entered the root at time zero. -/
def start (parent : Array (Option Nat)) (root : Nat) : Tour :=
  { clock := 0
    stack := [root]
    pending := ((List.range parent.size).map (DomTree.childrenIn parent)).toArray
    enter := (Array.replicate parent.size none).setIfInBounds root (some 0)
    leave := Array.replicate parent.size none }

/-- Goes on to the next child of the last vertex, or leaves that vertex if there is no child
left. Either way the clock moves on by one. -/
def step (w : Tour) : Option Tour :=
  match w.stack with
  | [] => none
  | v :: below =>
    match w.pending.getD v [] with
    | [] =>
      some { w with
        clock := w.clock + 1
        stack := below
        leave := w.leave.setIfInBounds v (some (w.clock + 1)) }
    | c :: rest =>
      some { w with
        clock := w.clock + 1
        stack := c :: v :: below
        pending := w.pending.setIfInBounds v rest
        enter := w.enter.setIfInBounds c (some (w.clock + 1)) }

/-- How many children are still to be gone to. -/
def remaining (pending : List (List Nat)) : Nat :=
  pending.foldr (fun children n => children.length + n) 0

theorem remaining_set {pending : List (List Nat)} {v c : Nat} {rest : List Nat}
    (h : pending[v]? = some (c :: rest)) :
    remaining pending = remaining (pending.set v rest) + 1 := by
  induction pending generalizing v with
  | nil => cases h
  | cons children pending ih =>
      cases v with
      | zero =>
          obtain rfl := Option.some.inj h
          simp only [remaining, List.set_cons_zero, List.foldr_cons, List.length_cons]
          omega
      | succ v =>
          have hRest := ih h
          simp only [remaining, List.set_cons_succ, List.foldr_cons] at hRest ⊢
          omega

/-- A bound on the steps that are left. -/
def weight (w : Tour) : Nat :=
  2 * remaining w.pending.toList + w.stack.length

theorem weight_step_lt {w w' : Tour} (h : w.step = some w') : w'.weight < w.weight := by
  unfold step at h
  split at h
  case h_1 => cases h
  case h_2 v below hStack =>
    split at h
    case h_1 =>
      obtain rfl := Option.some.inj h
      simp [weight, hStack]
    case h_2 c rest hPending =>
      obtain rfl := Option.some.inj h
      have hChildren : w.pending.toList[v]? = some (c :: rest) := by
        rw [Array.getElem?_toList]
        rw [Array.getD_eq_getD_getElem?] at hPending
        cases hEntry : w.pending[v]? with
        | none => rw [hEntry] at hPending; cases hPending
        | some children => rw [hEntry] at hPending; rw [← hPending]; rfl
      simp only [weight, Array.toList_setIfInBounds, remaining_set hChildren, hStack,
        List.length_cons]
      omega

/-- Goes on until the root is left. Each child is gone to once, so the tour ends. -/
def run (w : Tour) : Tour :=
  match _hStep : w.step with
  | none => w
  | some w' => w'.run
termination_by w.weight
decreasing_by exact weight_step_lt _hStep

end Tour

namespace DomTree

/-- The tree of some parents. -/
def ofParents (parent : Array (Option Nat)) (root : Nat) : DomTree :=
  let tour := (Tour.start parent root).run
  { root := root
    parent := parent
    enter := tour.enter
    leave := tour.leave }

def children (t : DomTree) (v : Nat) : List Nat :=
  childrenIn t.parent v

def parent? (t : DomTree) (v : Nat) : Option Nat :=
  t.parent.getD v none

def enter? (t : DomTree) (v : Nat) : Option Nat :=
  t.enter.getD v none

def leave? (t : DomTree) (v : Nat) : Option Nat :=
  t.leave.getD v none

/-- Whether a vertex is part of the tree. -/
def contains (t : DomTree) (v : Nat) : Bool :=
  (t.enter? v).isSome

/-- Whether the first vertex is the second or above it in the tree. Outside of the
tree a vertex is above itself only. -/
def dominates (t : DomTree) (a b : Nat) : Bool :=
  a == b ||
    match t.enter? a, t.leave? a, t.enter? b, t.leave? b with
    | some enterA, some leaveA, some enterB, some leaveB =>
      enterA ≤ enterB && leaveB ≤ leaveA
    | _, _, _, _ => false

end DomTree

end RefElision
