import Mathlib.Tactic.ByContra
import RefElision.Proofs.Graph.Search
import RefElision.Proofs.Program.Flow
import RefElision.Refs.Between

/-! The questions about what lies between blocks, answered by paths. -/
namespace RefElision

theorem Func.Linked.closed {f : Func} (h : f.Linked) : f.graph.Closed := by
  intro l hl
  rw [h.graph_nodes] at hl ⊢
  exact h.graph_closed hl

variable {g : Digraph Label}

theorem reachesAvoiding_iff (hClosed : g.Closed) {sources targets : List Label}
    (hSources : sources ⊆ g.nodes) (avoid : Option Label) :
    reachesAvoiding g sources targets avoid = true ↔
      ∃ x ∈ sources, ∃ t ∈ g.succ x, ∃ y ∈ targets, ∃ q, Path g.succ t y q ∧
        ∀ z ∈ q, avoid ≠ some z := by
  simp only [reachesAvoiding, List.any_eq_true, List.contains_iff_mem,
    Digraph.mem_reachBeyond_iff hClosed _ hSources, beq_eq_false_iff_ne]
  constructor
  · rintro ⟨y, ⟨x, hx, t, ht, q, hPath, hAvoid⟩, hy⟩
    exact ⟨x, hx, t, ht, y, hy, q, hPath, hAvoid⟩
  · rintro ⟨x, hx, t, ht, y, hy, q, hPath, hAvoid⟩
    exact ⟨y, ⟨x, hx, t, ht, q, hPath, hAvoid⟩, hy⟩

theorem decrefBetween_iff (hClosed : g.Closed) {live : List RefOp} {head : Label}
    (hHead : head ∈ g.nodes) (tails : List Label) :
    decrefBetween g live head tails = true ↔
      ∃ t ∈ g.succ head, ∃ q y, Path g.succ t y q ∧ (∀ z ∈ q, z ∉ tails) ∧
        ∃ d ∈ live, d.block = y := by
  have hStart : [head] ⊆ g.nodes := by simpa using hHead
  simp only [decrefBetween, List.any_eq_true, Digraph.mem_reachBeyond_iff hClosed _ hStart,
    holdsDecref, List.mem_singleton, exists_eq_left, beq_iff_eq, List.contains_eq_mem,
    decide_eq_false_iff_not]
  constructor
  · rintro ⟨y, ⟨t, ht, q, hPath, hAvoid⟩, hLive⟩
    exact ⟨t, ht, q, y, hPath, hAvoid, hLive⟩
  · rintro ⟨t, ht, q, y, hPath, hAvoid, hLive⟩
    exact ⟨y, ⟨t, ht, q, hPath, hAvoid⟩, hLive⟩

/-- If no decref stands between, none is met on a path that misses the tails. -/
theorem not_mem_of_decrefBetween (hClosed : g.Closed) {live : List RefOp}
    {head t : Label} (hHead : head ∈ g.nodes) {tails q : List Label}
    (hNone : decrefBetween g live head tails = false) (ht : t ∈ g.succ head) {e : RefOp}
    (hPath : Path g.succ t e.block q) (hMiss : ∀ z ∈ q, z ∉ tails) : e ∉ live := by
  intro hLive
  have hBetween := (decrefBetween_iff hClosed hHead tails).mpr
    ⟨t, ht, q, e.block, hPath, hMiss, e, hLive, rfl⟩
  rw [hNone] at hBetween
  cases hBetween

/-- If no target can be reached without coming to a node, each path to a target comes to
that node. -/
theorem mem_of_reachesAvoiding (hClosed : g.Closed) {sources targets : List Label}
    (hSources : sources ⊆ g.nodes) {avoid : Label}
    (hNone : reachesAvoiding g sources targets (some avoid) = false) :
    ∀ x ∈ sources, ∀ t ∈ g.succ x, ∀ y ∈ targets, ∀ q, Path g.succ t y q → avoid ∈ q := by
  intro x hx t ht y hy q hPath
  by_contra hMiss
  have hReaches := (reachesAvoiding_iff hClosed hSources (some avoid)).mpr
    ⟨x, hx, t, ht, y, hy, q, hPath, fun z hz hEq => hMiss (Option.some.inj hEq ▸ hz)⟩
  rw [hNone] at hReaches
  cases hReaches

end RefElision
