import Mathlib.Data.Nat.Find
import Mathlib.Tactic.ByContra
import Mathlib.Tactic.Choose
import RefElision.Proofs.Dominance.DepthFirst
import RefElision.Proofs.Graph.Dominators

/-! The theory of semidominators over a depth-first numbering: how a semidominator is
found from those of later vertices, and how immediate dominators follow from
semidominators. -/
namespace RefElision

/-- A path leads from `v` to `w` on which all vertices in between are numbered above
`w`. It has at least one edge. -/
inductive Detour (succ : Nat → List Nat) (w : Nat) : Nat → Prop where
  | edge {v : Nat} (edge : w ∈ succ v) : Detour succ w v
  | step {v x : Nat} (edge : x ∈ succ v) (high : w < x) (rest : Detour succ w x) :
      Detour succ w v

/-- The least vertex with a detour to `w`. -/
structure Semidominates (size : Nat) (succ : Nat → List Nat) (s w : Nat) : Prop where
  detour : Detour succ w s
  least : ∀ v, v < size → Detour succ w v → s ≤ v

variable {size : Nat} {succ : Nat → List Nat} {parent : Nat → Nat} {v w : Nat}

theorem Detour.path (h : Detour succ w v) :
    ∃ p, Path succ v w p ∧ ∀ t ∈ p, t = v ∨ t = w ∨ w < t := by
  induction h with
  | @edge v edge => exact ⟨[v, w], .step edge (.single w), by simp⟩
  | @step v x edge high _ ih =>
      obtain ⟨p, hPath, hHigh⟩ := ih
      refine ⟨v :: p, .step edge hPath, fun t ht => ?_⟩
      rcases List.mem_cons.mp ht with rfl | ht
      · exact .inl rfl
      · rcases hHigh t ht with rfl | hRest
        · exact .inr (.inr high)
        · exact .inr hRest

/-- A detour may start higher up in the tree. -/
theorem Detour.of_ancestor (h : DepthFirst size succ parent) {u : Nat}
    (hAnc : Ancestor parent u v) (hv : v < size) (hHigh : w < u) (hEdge : w ∈ succ v)
    {x : Nat} (hDetour : Detour succ u x) : Detour succ w x := by
  have hFromTree : ∀ t p, Path succ t v p → (∀ a ∈ p, w < a) → Detour succ w t := by
    intro t p hPath hAbove
    induction hPath with
    | single => exact .edge hEdge
    | step edge rest ih =>
        have hRest := ih hAnc hv hEdge fun a ha => hAbove a (List.mem_cons_of_mem _ ha)
        exact .step edge (hAbove _ (List.mem_cons_of_mem _ rest.start_mem)) hRest
  obtain ⟨p, hPath, hBetween⟩ := h.tree_path hAnc hv
  have hTree : Detour succ w u := by
    refine hFromTree u p hPath fun a ha => ?_
    obtain ⟨hAbove, hBelow⟩ := hBetween a ha
    have hav := h.le_of_ancestor hBelow hv
    have hua := h.le_of_ancestor hAbove (by omega)
    omega
  induction hDetour with
  | edge edge => exact .step edge hHigh hTree
  | step edge high _ ih => exact .step edge (by omega) ih

namespace DepthFirst

/-- What a detour reaches from below a vertex is below that vertex, unless its number is
less. -/
theorem ancestor_of_detour (h : DepthFirst size succ parent) {z : Nat}
    (hDetour : Detour succ w v) (hv : v < size) (hAnc : Ancestor parent z v) (hLe : z ≤ w) :
    Ancestor parent z w := by
  induction hDetour with
  | edge edge => exact h.ancestor_of_edge hAnc hv edge hLe
  | step edge high _ ih =>
      exact ih (h.succ_lt _ hv _ edge) (h.ancestor_of_edge hAnc hv edge (by omega))

theorem parent_detour (h : DepthFirst size succ parent) (hw : 0 < w) (hSize : w < size) :
    Detour succ w (parent w) :=
  .edge (h.parent_edge w hw hSize)

/-- A semidominator is a proper ancestor. -/
theorem semi_lt (h : DepthFirst size succ parent) {s : Nat}
    (hSemi : Semidominates size succ s w) (hw : 0 < w) (hSize : w < size) : s < w := by
  have hLess := h.parent_lt w hw hSize
  have hLeast := hSemi.least _ (by omega) (h.parent_detour hw hSize)
  omega

theorem semi_ancestor (h : DepthFirst size succ parent) {s : Nat}
    (hSemi : Semidominates size succ s w) (hw : 0 < w) (hSize : w < size) :
    Ancestor parent s w := by
  have hLess := h.semi_lt hSemi hw hSize
  exact h.ancestor_of_detour hSemi.detour (by omega) (.refl s) (by omega)

/-- A detour passes some vertex on a branch that leads to a predecessor of its end. From
a vertex that is numbered above the end, it either starts on such a branch or has
a part that is a detour to a lesser vertex of one. -/
theorem detour_branch (h : DepthFirst size succ parent) (hDetour : Detour succ w v)
    (hv : v < size) (hHigh : w < v) :
    ∃ t u, t < size ∧ w ∈ succ t ∧ Ancestor parent u t ∧ w < u ∧
      (u = v ∨ u < v ∧ Detour succ u v) := by
  induction hDetour with
  | @edge v edge => exact ⟨v, v, hv, edge, .refl v, hHigh, .inl rfl⟩
  | @step v x edge high _ ih =>
      obtain ⟨t, u, ht, hEdge, hAnc, hwu, hStart⟩ := ih (h.succ_lt v hv x edge) high
      have hDetour : Detour succ u v := by
        rcases hStart with rfl | ⟨hLess, hRest⟩
        · exact .edge edge
        · exact .step edge hLess hRest
      by_cases hLess : u < v
      · exact ⟨t, u, ht, hEdge, hAnc, hwu, .inr ⟨hLess, hDetour⟩⟩
      · have hBranch := h.ancestor_of_detour hDetour hv (.refl v) (by omega)
        exact ⟨t, v, ht, hEdge, hBranch.trans hAnc, hHigh, .inl rfl⟩

/-- A detour from a lesser vertex is an edge, or starts with a detour to a vertex on a
branch to a predecessor. -/
theorem detour_cases (h : DepthFirst size succ parent) (hDetour : Detour succ w v)
    (hv : v < size) :
    w ∈ succ v ∨
      ∃ t u, t < size ∧ w ∈ succ t ∧ Ancestor parent u t ∧ w < u ∧ Detour succ u v := by
  cases hDetour with
  | edge edge => exact .inl edge
  | @step _ x edge high rest =>
      obtain ⟨t, u, ht, hEdge, hAnc, hwu, hStart⟩ :=
        h.detour_branch rest (h.succ_lt v hv x edge) high
      refine .inr ⟨t, u, ht, hEdge, hAnc, hwu, ?_⟩
      rcases hStart with rfl | ⟨hLess, hRest⟩
      · exact .edge edge
      · exact .step edge hLess hRest

/-- Every vertex but the root has a semidominator, since it has a parent. -/
theorem exists_semi (h : DepthFirst size succ parent) :
    ∃ semi : Nat → Nat, ∀ u, 0 < u → u < size → Semidominates size succ (semi u) u := by
  classical
  have hEach : ∀ u, 0 < u → u < size → ∃ s, Semidominates size succ s u := by
    intro u hu hSize
    have hParent := h.parent_lt u hu hSize
    have hSome : ∃ v, v < size ∧ Detour succ u v :=
      ⟨parent u, by omega, h.parent_detour hu hSize⟩
    exact ⟨Nat.find hSome, (Nat.find_spec hSome).2,
      fun v hv hDetour => Nat.find_min' hSome ⟨hv, hDetour⟩⟩
  choose! semi hSemi using hEach
  exact ⟨semi, hSemi⟩

theorem ancestor_of_dominates (h : DepthFirst size succ parent) {d : Nat}
    (hDom : Dominates succ 0 d w) (hSize : w < size) : Ancestor parent d w := by
  obtain ⟨p, hPath, hBetween⟩ := h.tree_path (h.root_ancestor hSize) hSize
  exact (hBetween d (hDom p hPath)).2

/-- A path that misses an ancestor `d` of its end comes to a vertex below `d` on the
branch to its end, and it comes there by a detour that starts from a number less
than `d`, or else the path itself starts at or with a detour to such a vertex. -/
theorem crossing_from (h : DepthFirst size succ parent) {d z : Nat} {p : List Nat}
    (hPath : Path succ z w p) (hz : z < size) (hAvoid : d ∉ p) (hAnc : Ancestor parent d w) :
    ∃ y q, Ancestor parent d y ∧ d ≠ y ∧ Ancestor parent y w ∧ Path succ z y q ∧ q ⊆ p ∧
      ((∃ x, x < d ∧ Detour succ y x) ∨ d < z ∧ (z = y ∨ y < z ∧ Detour succ y z)) := by
  induction hPath with
  | single z =>
      have hne : d ≠ z := fun hEq => hAvoid (by simp [hEq])
      have hLe := h.le_of_ancestor hAnc hz
      exact ⟨z, [z], hAnc, hne, .refl z, .single z, List.Subset.refl _,
        .inr ⟨by omega, .inl rfl⟩⟩
  | @step z t w p edge rest ih =>
      have ht := h.succ_lt z hz t edge
      have hw := h.path_lt rest ht _ rest.finish_mem
      have hdz : d ≠ z := fun hEq => hAvoid (by simp [hEq])
      obtain ⟨y, q, hdy, hne, hyw, hPath, hSub, hCross⟩ :=
        ih ht (fun hMem => hAvoid (List.mem_cons_of_mem _ hMem)) hAnc
      have hPath' : Path succ z y (z :: q) := .step edge hPath
      have hSub' : z :: q ⊆ z :: p := List.cons_subset_cons _ hSub
      rcases hCross with hCross | ⟨_, hStart⟩
      · exact ⟨y, z :: q, hdy, hne, hyw, hPath', hSub', .inl hCross⟩
      · have hDetour : Detour succ y z := by
          rcases hStart with rfl | ⟨hLess, hRest⟩
          · exact .edge edge
          · exact .step edge hLess hRest
        rcases Nat.lt_or_gt_of_ne hdz with hLess | hGreater
        · by_cases hBelow : y < z
          · exact ⟨y, z :: q, hdy, hne, hyw, hPath', hSub', .inr ⟨hLess, .inr ⟨hBelow, hDetour⟩⟩⟩
          · -- Otherwise `z` is on the branch itself, and the path need not go on.
            have hzw := (h.ancestor_of_detour hDetour hz (.refl z) (by omega)).trans hyw
            have hdz' := h.ancestor_of_le hAnc hzw hw (by omega)
            exact ⟨z, [z], hdz', hdz, hzw, .single z, by simp, .inr ⟨hLess, .inl rfl⟩⟩
        · exact ⟨y, z :: q, hdy, hne, hyw, hPath', hSub', .inl ⟨z, hGreater, hDetour⟩⟩

/-- If an ancestor `d` of a vertex does not dominate it, then on the branch between them
there is a vertex with a detour from a number less than `d` that `d` does not
dominate either. -/
theorem exists_crossing (h : DepthFirst size succ parent) {d : Nat} (hSize : w < size)
    (hAnc : Ancestor parent d w) (hNot : ¬ Dominates succ 0 d w) :
    ∃ y, Ancestor parent d y ∧ d ≠ y ∧ Ancestor parent y w ∧
      (∃ x, x < d ∧ Detour succ y x) ∧ ¬ Dominates succ 0 d y := by
  obtain ⟨p, hPath, hAvoid⟩ : ∃ p, Path succ 0 w p ∧ d ∉ p := by
    simpa [Dominates] using hNot
  obtain ⟨y, q, hdy, hne, hyw, hPrefix, hSub, hCross⟩ :=
    h.crossing_from hPath (by omega) hAvoid hAnc
  rcases hCross with hCross | ⟨hNone, _⟩
  · exact ⟨y, hdy, hne, hyw, hCross, fun hDom => hAvoid (hSub (hDom q hPrefix))⟩
  · omega

section Immediate

variable {semi : Nat → Nat}
  (h : DepthFirst size succ parent)
  (hSemi : ∀ u, 0 < u → u < size → Semidominates size succ (semi u) u)
include h hSemi

/-- All dominators of a vertex but itself are the semidominator or above it. -/
theorem ancestor_semi_of_dominates {e : Nat} (hw : 0 < w) (hSize : w < size) (hne : e ≠ w)
    (hDom : Dominates succ 0 e w) : Ancestor parent e (semi w) := by
  have hLess := h.semi_lt (hSemi w hw hSize) hw hSize
  obtain ⟨p, hTree, hBetween⟩ :=
    h.tree_path (h.root_ancestor (y := semi w) (by omega)) (by omega)
  obtain ⟨q, hDetour, hHigh⟩ := (hSemi w hw hSize).detour.path
  rcases List.mem_append.mp (hDom _ (hTree.trans hDetour)) with hFront | hBack
  · exact (hBetween e hFront).2
  · have hLe := h.le_of_ancestor (h.ancestor_of_dominates hDom hSize) hSize
    rcases hHigh e (List.mem_of_mem_tail hBack) with rfl | hEq | hAbove
    · exact .refl _
    · exact (hne hEq).elim
    · omega

/-- If no vertex between the semidominator and the vertex has a lesser semidominator,
then the semidominator is the immediate dominator. -/
theorem semi_immediate (hw : 0 < w) (hSize : w < size)
    (hLeast : ∀ u, Ancestor parent u w → semi w < u → semi w ≤ semi u) :
    ImmediatelyDominates succ 0 (semi w) w := by
  have hLess := h.semi_lt (hSemi w hw hSize) hw hSize
  have hAnc := h.semi_ancestor (hSemi w hw hSize) hw hSize
  refine ⟨by omega, ?_, fun e hne hDom => ?_⟩
  · by_contra hNot
    obtain ⟨y, hAbove, hne, hyw, ⟨x, hx, hDetour⟩, _⟩ := h.exists_crossing hSize hAnc hNot
    have hyLe := h.le_of_ancestor hyw hSize
    have hyGe := h.le_of_ancestor hAbove (by omega)
    have hLow := (hSemi y (by omega) (by omega)).least x (by omega) hDetour
    have hHigh := hLeast y hyw (by omega)
    omega
  · have hAbove := h.ancestor_semi_of_dominates hSemi hw hSize hne hDom
    have heLe := h.le_of_ancestor hAbove (by omega)
    obtain ⟨p, hPath, hBetween⟩ := h.tree_path hAnc hSize
    refine hDom.of_path hPath fun t ht => ?_
    have htLe := h.le_of_ancestor (hBetween t ht).2 hSize
    have htGe := h.le_of_ancestor (hBetween t ht).1 (by omega)
    omega

/-- If a vertex between the semidominator and the vertex has the least semidominator of
all between them, and that is less than the vertex's own, then the two have the same
immediate dominator. -/
theorem relative_immediate {u d : Nat} (hSize : w < size) (hAnc : Ancestor parent u w)
    (hAbove : semi w < u) (hLeast : ∀ y, Ancestor parent y w → semi w < y → semi u ≤ semi y)
    (hDom : ImmediatelyDominates succ 0 d u) : ImmediatelyDominates succ 0 d w := by
  have hu := h.le_of_ancestor hAnc hSize
  have hdu := h.ancestor_of_dominates hDom.dominates (by omega)
  have hdLe := h.le_of_ancestor hdu (by omega)
  have hne := hDom.ne
  have hdSemi := h.le_of_ancestor
    (h.ancestor_semi_of_dominates hSemi (by omega) (by omega) hne hDom.dominates)
    (by have := h.semi_lt (hSemi u (by omega) (by omega)) (by omega) (by omega); omega)
  refine ⟨by omega, ?_, fun e hew hDomE => ?_⟩
  · by_contra hNot
    obtain ⟨y, hdy, hdNe, hyw, ⟨x, hx, hDetour⟩, hNotY⟩ :=
      h.exists_crossing hSize (hdu.trans hAnc) hNot
    have hyLe := h.le_of_ancestor hyw hSize
    have hyGe := h.le_of_ancestor hdy (by omega)
    have hLow := (hSemi y (by omega) (by omega)).least x (by omega) hDetour
    by_cases hRange : semi w < y
    · have hHigh := hLeast y hyw hRange
      omega
    · -- Then `y` is above `u`, and the way down from it to `u` misses `d`.
      obtain ⟨p, hPath, hBetween⟩ := h.tree_path
        (h.ancestor_of_le hyw hAnc hSize (by omega)) (by omega)
      refine hNotY (hDom.dominates.of_path hPath fun t ht => .inr ?_)
      have htLe := h.le_of_ancestor (hBetween t ht).2 (by omega)
      have htGe := h.le_of_ancestor (hBetween t ht).1 (by omega)
      omega
  · have hAboveE := h.ancestor_semi_of_dominates hSemi (by omega) hSize hew hDomE
    have heLe := h.le_of_ancestor hAboveE (by omega)
    obtain ⟨p, hPath, hBetween⟩ := h.tree_path hAnc hSize
    refine hDom.nearest e (by omega) (hDomE.of_path hPath fun t ht => .inr ?_)
    have htLe := h.le_of_ancestor (hBetween t ht).2 hSize
    have htGe := h.le_of_ancestor (hBetween t ht).1 (by omega)
    omega

end Immediate

end DepthFirst

end RefElision
