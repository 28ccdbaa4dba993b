import RefElision.Proofs.Graph.Path

/-! Depth-first numberings. The vertices are the numbers below the size, zero is the
root, and every other vertex has a parent from which the search discovered it. What is
said here follows from a few facts about the order of discovery, however the search
itself is carried out. -/
namespace RefElision

/-- The first vertex is the second or stands above it in the tree of parents. -/
inductive Ancestor (parent : Nat → Nat) : Nat → Nat → Prop where
  | refl (x : Nat) : Ancestor parent x x
  | above {x y : Nat} (positive : 0 < y) (rest : Ancestor parent x (parent y)) :
      Ancestor parent x y

theorem Ancestor.trans {parent : Nat → Nat} {x y z : Nat} (hxy : Ancestor parent x y)
    (hyz : Ancestor parent y z) : Ancestor parent x z := by
  induction hyz with
  | refl => exact hxy
  | above positive _ ih => exact .above positive ih

/-- A proper ancestor is an ancestor of the parent. -/
theorem Ancestor.parent_of_ne {parent : Nat → Nat} {x y : Nat} (h : Ancestor parent x y)
    (hne : x ≠ y) : 0 < y ∧ Ancestor parent x (parent y) := by
  cases h with
  | refl => exact (hne rfl).elim
  | above positive rest => exact ⟨positive, rest⟩

/-- A depth-first numbering of all vertices of a graph. Parents come before their
children and lead to them. The vertex discovered next hangs on the branch of the
one discovered last, and an edge to a later vertex leads down the tree. -/
structure DepthFirst (size : Nat) (succ : Nat → List Nat) (parent : Nat → Nat) : Prop where
  parent_lt : ∀ i, 0 < i → i < size → parent i < i
  parent_edge : ∀ i, 0 < i → i < size → i ∈ succ (parent i)
  next_parent : ∀ i, i + 1 < size → Ancestor parent (parent (i + 1)) i
  edge_down : ∀ u v, u < size → v ∈ succ u → u < v → Ancestor parent u v
  succ_lt : ∀ u, u < size → ∀ v ∈ succ u, v < size

namespace DepthFirst

variable {size : Nat} {succ : Nat → List Nat} {parent : Nat → Nat} {x y z : Nat}

theorem le_of_ancestor (h : DepthFirst size succ parent) (hAnc : Ancestor parent x y)
    (hy : y < size) : x ≤ y := by
  induction hAnc with
  | refl => exact Nat.le_refl _
  | above positive _ ih =>
      have hLess := h.parent_lt _ positive hy
      have hLe := ih (by omega)
      omega

theorem root_ancestor (h : DepthFirst size succ parent) (hy : y < size) :
    Ancestor parent 0 y := by
  induction y using Nat.strongRecOn with
  | ind y ih =>
      rcases Nat.eq_zero_or_pos y with rfl | hPos
      · exact .refl 0
      · have hLess := h.parent_lt y hPos hy
        exact .above hPos (ih (parent y) hLess (by omega))

/-- The ancestors of one vertex are ancestors of each other in the order of their
numbers. -/
theorem ancestor_of_le (h : DepthFirst size succ parent) (hx : Ancestor parent x z)
    (hy : Ancestor parent y z) (hz : z < size) (hLe : x ≤ y) : Ancestor parent x y := by
  induction hy with
  | refl => exact hx
  | @above z positive hy ih =>
      have hLess := h.parent_lt _ positive hz
      have hyz := h.le_of_ancestor hy (by omega)
      exact ih (hx.parent_of_ne (by omega)).2 (by omega)

/-- The vertices below a vertex are numbered without a gap. -/
theorem ancestor_of_between (h : DepthFirst size succ parent) (hAnc : Ancestor parent x z)
    (hz : z < size) (hxy : x ≤ y) (hyz : y ≤ z) : Ancestor parent x y := by
  induction z with
  | zero =>
      obtain rfl : y = 0 := by omega
      exact hAnc
  | succ z ih =>
      rcases Nat.eq_or_lt_of_le hyz with rfl | hLess
      · exact hAnc
      · have hParent := (hAnc.parent_of_ne (by omega)).2
        exact ih (hParent.trans (h.next_parent z hz)) (by omega) (by omega)

/-- An edge from below a vertex stays below it unless it leads to a lesser number. -/
theorem ancestor_of_edge (h : DepthFirst size succ parent) (hAnc : Ancestor parent x y)
    (hy : y < size) (hEdge : z ∈ succ y) (hLe : x ≤ z) : Ancestor parent x z := by
  by_cases hDown : y < z
  · exact hAnc.trans (h.edge_down y z hy hEdge hDown)
  · exact h.ancestor_of_between hAnc hy hLe (by omega)

/-- The way down the tree from an ancestor. -/
theorem tree_path (h : DepthFirst size succ parent) (hAnc : Ancestor parent x y)
    (hy : y < size) :
    ∃ p, Path succ x y p ∧ ∀ t ∈ p, Ancestor parent x t ∧ Ancestor parent t y := by
  induction hAnc with
  | refl =>
      refine ⟨[x], .single x, fun t ht => ?_⟩
      obtain rfl := List.mem_singleton.mp ht
      exact ⟨.refl t, .refl t⟩
  | @above y positive rest ih =>
      have hLess := h.parent_lt y positive hy
      obtain ⟨p, hPath, hBetween⟩ := ih (by omega)
      refine ⟨p ++ [y], hPath.concat (h.parent_edge y positive hy), fun t ht => ?_⟩
      rcases List.mem_append.mp ht with hFront | hLast
      · obtain ⟨hAbove, hBelow⟩ := hBetween t hFront
        exact ⟨hAbove, .above positive hBelow⟩
      · obtain rfl := List.mem_singleton.mp hLast
        exact ⟨.above positive rest, .refl t⟩

theorem path_lt (h : DepthFirst size succ parent) {p : List Nat} (hPath : Path succ x y p)
    (hx : x < size) : ∀ t ∈ p, t < size :=
  hPath.mem_of_closed hx h.succ_lt

end DepthFirst

end RefElision
