import RefElision.Proofs.Dominance.Sweep

/-! The table of immediate dominators. What the sweep records is resolved in ascending
order of the numbers, and the numbers are turned back into the vertices of the graph. -/
namespace RefElision

/-- A table of immediate dominators with respect to a root: it is empty at the root and
at what cannot be reached from it. -/
structure DominatorTable (succ : Nat → List Nat) (root size : Nat)
    (table : Array (Option Nat)) : Prop where
  size_eq : table.size = size
  none_iff : ∀ v, table.getD v none = none ↔ v = root ∨ ¬ ∃ p, Path succ root v p
  immediate : ∀ v d, table.getD v none = some d → ImmediatelyDominates succ root d v

/-- What holds at first and is kept while the numbers from one on are processed holds
after the last one. -/
theorem foldl_range' {σ : Type} {n : Nat} {step : σ → Nat → σ} (Holds : Nat → σ → Prop)
    (hStep : ∀ i s, i + 1 < n → Holds i s → Holds (i + 1) (step s (i + 1))) {s : σ}
    (hStart : Holds 0 s) : Holds (n - 1) ((List.range' 1 (n - 1)).foldl step s) := by
  have hRun : ∀ m i s, i + m ≤ n - 1 → Holds i s →
      Holds (i + m) ((List.range' (i + 1) m).foldl step s) := by
    intro m
    induction m with
    | zero => exact fun i s _ h => h
    | succ m ih =>
        intro i s hLess h
        rw [List.range'_succ, List.foldl_cons, ← Nat.add_assoc, Nat.add_right_comm]
        exact ih (i + 1) _ (by omega) (hStep i s (by omega) h)
  have hAll := hRun (n - 1) 0 s (by omega) hStart
  rwa [Nat.zero_add] at hAll

namespace SpanningTree.Spans

variable {t : SpanningTree} {a : Adjacency} {root i j : Nat}

theorem path_vertex {p : List Nat} (h : Path (t.numberSucc a) i j p) :
    Path a.succ (t.vertex i) (t.vertex j) (p.map t.vertex) := by
  induction h with
  | single => exact .single _
  | step edge _ ih => exact .step (mem_numberSucc.mp edge).2 ih

theorem path_number (h : t.Spans a root) {w : Nat} {q : List Nat}
    (hPath : Path a.succ (t.vertex i) w q) (hi : i < t.size) :
    ∃ j p, j < t.size ∧ t.vertex j = w ∧ q = p.map t.vertex ∧
      Path (t.numberSucc a) i j p := by
  generalize hStart : t.vertex i = v at hPath
  induction hPath generalizing i with
  | single v => exact ⟨i, [i], hi, hStart, by simp [hStart], .single i⟩
  | step edge _ ih =>
      obtain ⟨k, hk, hEq⟩ := h.closed i hi _ (hStart ▸ edge)
      obtain ⟨j, p, hj, hFinish, rfl, hPath⟩ := ih hk hEq
      refine ⟨j, i :: p, hj, hFinish, by simp [hStart], .step ?_ hPath⟩
      exact mem_numberSucc.mpr ⟨hk, hEq ▸ hStart ▸ edge⟩

/-- The numbers stand for the vertices that can be reached. -/
theorem reached_iff (h : t.Spans a root) {v : Nat} :
    (∃ p, Path a.succ root v p) ↔ ∃ i, i < t.size ∧ t.vertex i = v := by
  constructor
  · rintro ⟨p, hPath⟩
    rw [← h.vertex_zero] at hPath
    obtain ⟨j, _, hj, hEq, _⟩ := h.path_number hPath h.positive
    exact ⟨j, hj, hEq⟩
  · rintro ⟨i, hi, rfl⟩
    obtain ⟨p, hPath, _⟩ := h.depthFirst.tree_path (h.depthFirst.root_ancestor hi) hi
    exact ⟨_, h.vertex_zero ▸ path_vertex hPath⟩

theorem dominates_iff (h : t.Spans a root) (hi : i < t.size) (hj : j < t.size) :
    Dominates (t.numberSucc a) 0 i j ↔ Dominates a.succ root (t.vertex i) (t.vertex j) := by
  constructor
  · intro hDom q hPath
    rw [← h.vertex_zero] at hPath
    obtain ⟨k, p, hk, hEq, rfl, hNumbers⟩ := h.path_number hPath h.positive
    obtain rfl := h.injective k j hk hj hEq
    exact List.mem_map_of_mem (hDom p hNumbers)
  · intro hDom p hPath
    obtain ⟨k, hk, hEq⟩ := List.mem_map.mp (hDom _ (h.vertex_zero ▸ path_vertex hPath))
    have hkSize := h.depthFirst.path_lt hPath h.positive k hk
    exact h.injective k i hkSize hi hEq ▸ hk

theorem immediatelyDominates_vertex (h : t.Spans a root) (hj : j < t.size)
    (hDom : ImmediatelyDominates (t.numberSucc a) 0 i j) :
    ImmediatelyDominates a.succ root (t.vertex i) (t.vertex j) := by
  have hi : i < t.size := by
    have hAnc := h.depthFirst.ancestor_of_dominates hDom.dominates hj
    have hLe := h.depthFirst.le_of_ancestor hAnc hj
    omega
  refine ⟨fun hEq => hDom.ne (h.injective i j hi hj hEq),
    (h.dominates_iff hi hj).mp hDom.dominates, fun e hne hDomE => ?_⟩
  obtain ⟨p, hPath⟩ := h.reached_iff.mpr ⟨j, hj, rfl⟩
  obtain ⟨k, hk, rfl⟩ := h.reached_iff.mp (hDomE.reached hPath)
  refine (h.dominates_iff hk hi).mp (hDom.nearest k ?_ ((h.dominates_iff hk hj).mpr hDomE))
  exact fun hEq => hne (hEq ▸ rfl)

end SpanningTree.Spans

namespace Semidominator

variable {t : SpanningTree} {a : Adjacency} {root : Nat}

/-- The dominators while they are resolved: up to `i` they are immediate dominators, and
behind it they are as recorded. -/
structure Resolved (t : SpanningTree) (a : Adjacency) (recorded : Array Nat) (i : Nat)
    (dom : Array Nat) : Prop where
  size_eq : dom.size = t.size
  done : ∀ v, 0 < v → v ≤ i → ImmediatelyDominates (t.numberSucc a) 0 (dom.getD v 0) v
  todo : ∀ v, i < v → dom.getD v 0 = recorded.getD v 0

/-- One vertex is resolved, either by its semidominator or by a vertex before it. -/
theorem Resolved.resolve {semi : Nat → Nat} (hSpans : t.Spans a root)
    (hSemi : ∀ v, 0 < v → v < t.size → Semidominates t.size (t.numberSucc a) (semi v) v)
    {s : State} (hSwept : Swept t semi 0 s) {i : Nat} {dom : Array Nat}
    (h : Resolved t a s.dom i dom) (hSize : i + 1 < t.size) :
    Resolved t a s.dom (i + 1) (Semidominator.resolve s.forest dom (i + 1)) := by
  have hi : 0 < i + 1 := Nat.succ_pos i
  have hForest := hSwept.known.done (i + 1) hi hSize
  have hEntry := h.todo (i + 1) (Nat.lt_succ_self i)
  obtain ⟨u, hAnc, hBelow, hLeast, hRecorded⟩ :=
    recorded_of_swept hSpans hSemi hSwept hi hSize
  have hLe := hSpans.depthFirst.le_of_ancestor hAnc hSize
  replace hEntry := hEntry.trans hRecorded
  by_cases hLess : semi u < semi (i + 1)
  · rw [if_pos hLess] at hEntry
    have hBefore : u ≤ i := by
      rcases Nat.eq_or_lt_of_le hLe with rfl | hBefore
      · omega
      · omega
    have hDom : ∀ v, (dom.setIfInBounds (i + 1) (dom.getD u 0)).getD v 0 =
        if i + 1 = v then dom.getD u 0 else dom.getD v 0 :=
      fun v => getD_setIfInBounds _ (h.size_eq.symm ▸ hSize) _ _ _
    rw [Semidominator.resolve, hEntry, hForest, if_neg (by omega)]
    constructor
    case size_eq => rw [Array.size_setIfInBounds, h.size_eq]
    case done =>
      intro v hv hvi
      rw [hDom]
      split
      case isTrue hEq =>
        subst hEq
        exact hSpans.depthFirst.relative_immediate hSemi hSize hAnc hBelow hLeast
          (h.done u (by omega) hBefore)
      case isFalse hOther => exact h.done v hv (by omega)
    case todo =>
      intro v hv
      rw [hDom, if_neg (by omega)]
      exact h.todo v (by omega)
  · rw [if_neg hLess] at hEntry
    rw [Semidominator.resolve, hEntry, hForest, if_pos rfl]
    refine { h with done := fun v hv hvi => ?_, todo := fun v hv => h.todo v (by omega) }
    rcases Nat.eq_or_lt_of_le hvi with rfl | hBefore
    · rw [hEntry]
      refine hSpans.depthFirst.semi_immediate hSemi hi hSize fun y hy hyBelow => ?_
      have hBound := hLeast y hy hyBelow
      omega
    · exact h.done v hv (by omega)

theorem numbers_immediate (hSpans : t.Spans a root) {v : Nat} (hv : 0 < v) (hSize : v < t.size) :
    ImmediatelyDominates (t.numberSucc a) 0 ((numbers t a).getD v 0) v := by
  obtain ⟨semi, hSemi⟩ := hSpans.depthFirst.exists_semi
  have hSwept := (swept_start hSpans semi).sweep hSpans hSemi (by omega)
  have hAll := foldl_range' (n := t.size)
    (Resolved t a (sweep t a (t.size - 1) (start t.size)).dom)
    (fun i dom hi h => h.resolve hSpans hSemi hSwept hi)
    ⟨hSwept.dom_size, fun v hv hLe => by omega, fun v _ => rfl⟩
  exact hAll.done v hv (by omega)

end Semidominator

/-- The vertices of the numbers up to `i` have their dominators in the table, and no
other vertex has one. -/
structure Tabled (t : SpanningTree) (dom : Array Nat) (size i : Nat)
    (table : Array (Option Nat)) : Prop where
  size_eq : table.size = size
  done : ∀ j, 0 < j → j ≤ i → table.getD (t.vertex j) none = some (t.vertex (dom.getD j 0))
  todo : ∀ v, (∀ j, 0 < j → j ≤ i → t.vertex j ≠ v) → table.getD v none = none

theorem Tabled.enter {t : SpanningTree} {a : Adjacency} {root : Nat} (hSpans : t.Spans a root)
    {dom : Array Nat} {i : Nat} {table : Array (Option Nat)} (h : Tabled t dom a.size i table)
    (hi : i + 1 < t.size) :
    Tabled t dom a.size (i + 1) (table.setIfInBounds (t.vertex (i + 1))
      (some (t.vertex (dom.getD (i + 1) 0)))) := by
  have hEntry : ∀ v, (table.setIfInBounds (t.vertex (i + 1))
      (some (t.vertex (dom.getD (i + 1) 0)))).getD v none =
      if t.vertex (i + 1) = v then some (t.vertex (dom.getD (i + 1) 0))
      else table.getD v none :=
    fun v => getD_setIfInBounds _ (h.size_eq.symm ▸ hSpans.vertex_lt (i + 1) hi) _ _ _
  constructor
  case size_eq => rw [Array.size_setIfInBounds, h.size_eq]
  case done =>
    intro j hj hLe
    rw [hEntry]
    split
    case isTrue hEq => rw [hSpans.injective (i + 1) j hi (by omega) hEq]
    case isFalse hne =>
      have hOld : j ≤ i := by
        rcases Nat.eq_or_lt_of_le hLe with rfl | hLess
        · exact (hne rfl).elim
        · omega
      exact h.done j hj hOld
  case todo =>
    intro v hNone
    rw [hEntry, if_neg (hNone (i + 1) (by omega) (by omega))]
    exact h.todo v fun j hj hLe => hNone j hj (by omega)

/-- The computed table is the table of immediate dominators. -/
theorem dominatorTable_immediateDominators {a : Adjacency} (hRange : a.InRange) {root : Nat}
    (hRoot : root < a.size) :
    DominatorTable a.succ root a.size (immediateDominators a root) := by
  have hSpans := SpanningTree.spans_ofRoot hRange hRoot
  generalize hTree : SpanningTree.ofRoot a root = t at hSpans
  have hTabled : Tabled t (Semidominator.numbers t a) a.size (t.size - 1)
      (immediateDominators a root) := by
    rw [immediateDominators, hTree]
    refine foldl_range' (n := t.size) (Tabled t (Semidominator.numbers t a) a.size)
      (fun i table hi h => h.enter hSpans hi) ⟨by simp, fun j hj hLe => by omega, fun v _ => ?_⟩
    simp only [Array.getD_eq_getD_getElem?, Array.getElem?_replicate]
    split <;> rfl
  have hCases : ∀ v, (v = root ∨ ¬ ∃ p, Path a.succ root v p) ∨
      ∃ j, 0 < j ∧ j < t.size ∧ t.vertex j = v := by
    intro v
    by_cases hReached : ∃ p, Path a.succ root v p
    · obtain ⟨j, hj, hEq⟩ := hSpans.reached_iff.mp hReached
      rcases Nat.eq_zero_or_pos j with rfl | hPositive
      · exact .inl (.inl (hEq ▸ hSpans.vertex_zero))
      · exact .inr ⟨j, hPositive, hj, hEq⟩
    · exact .inl (.inr hReached)
  have hNone : ∀ v, (v = root ∨ ¬ ∃ p, Path a.succ root v p) →
      (immediateDominators a root).getD v none = none := by
    intro v hv
    refine hTabled.todo v fun j hj hLe hEq => ?_
    rcases hv with rfl | hUnreached
    · have hZero := hSpans.injective j 0 (by omega) hSpans.positive
        (hEq.trans hSpans.vertex_zero.symm)
      omega
    · exact hUnreached (hSpans.reached_iff.mpr ⟨j, by omega, hEq⟩)
  constructor
  case size_eq => exact hTabled.size_eq
  case none_iff =>
    intro v
    refine ⟨fun hEmpty => (hCases v).resolve_right ?_, hNone v⟩
    rintro ⟨j, hj, hjSize, rfl⟩
    rw [hTabled.done j hj (by omega)] at hEmpty
    cases hEmpty
  case immediate =>
    intro v d hEntry
    rcases hCases v with hOut | ⟨j, hj, hjSize, rfl⟩
    · rw [hNone v hOut] at hEntry
      cases hEntry
    · rw [hTabled.done j hj (by omega), Option.some.injEq] at hEntry
      subst hEntry
      exact hSpans.immediatelyDominates_vertex hjSize
        (Semidominator.numbers_immediate hSpans hj hjSize)

/-- The result on an arbitrary graph, of which nothing but the range of its edges is assumed:
loops, repeated edges and vertices that cannot be reached are all allowed. A vertex has no
entry exactly if it is the root or cannot be reached, and otherwise its entry is a strict
dominator that every strict dominator dominates. -/
theorem immediateDominators_exact {a : Adjacency} (hRange : a.InRange) {root : Nat}
    (hRoot : root < a.size) :
    (immediateDominators a root).size = a.size ∧
      ∀ v < a.size,
        ((immediateDominators a root)[v]? = some none ↔
          v = root ∨ ¬ ∃ p, Path a.succ root v p) ∧
        (v ≠ root → (∃ p, Path a.succ root v p) →
          ∃ d, (immediateDominators a root)[v]? = some (some d) ∧
            ImmediatelyDominates a.succ root d v) := by
  have hTable : DominatorTable a.succ root a.size (immediateDominators a root) :=
    dominatorTable_immediateDominators hRange hRoot
  have hEntry : ∀ v < a.size, (immediateDominators a root)[v]? =
      some ((immediateDominators a root).getD v none) := by
    intro v hv
    have hBound : v < (immediateDominators a root).size := hTable.size_eq.symm ▸ hv
    simp [Array.getD_eq_getD_getElem?, Array.getElem?_eq_getElem hBound]
  refine ⟨hTable.size_eq, fun v hv => ?_⟩
  rw [hEntry v hv, Option.some.injEq]
  refine ⟨hTable.none_iff v, fun hne hReached => ?_⟩
  cases hCell : (immediateDominators a root).getD v none with
  | none =>
      have hOut : v = root ∨ ¬ ∃ p, Path a.succ root v p := (hTable.none_iff v).mp hCell
      exact (hOut.elim hne fun hNone => hNone hReached).elim
  | some d => exact ⟨d, rfl, hTable.immediate v d hCell⟩

/-- The cycle between 2 and 3 can be entered at both ends, 1 is a loop with a repeated edge,
and 5 leads into the graph but is not reached. -/
def twoWaysIn : Adjacency :=
  #[[1, 1], [1, 2, 3], [3, 4], [2, 3], [0, 4], [4, 5]]

/-- Vertex 4 is reached through the cycle and has a dominator there. Vertex 5 has none. -/
theorem immediateDominators_exact_twoWaysIn :
    twoWaysIn.InRange ∧ (immediateDominators twoWaysIn 0)[0]? = some none ∧
      (immediateDominators twoWaysIn 0)[5]? = some none ∧
      ∃ d, (immediateDominators twoWaysIn 0)[4]? = some (some d) ∧
        ImmediatelyDominates twoWaysIn.succ 0 d 4 := by
  have hRange : twoWaysIn.InRange := by
    unfold Adjacency.InRange
    decide
  have hExact := (immediateDominators_exact hRange (show 0 < twoWaysIn.size by decide)).2
  have hReached : ∃ p, Path twoWaysIn.succ 0 4 p :=
    ⟨[0, 1, 2, 4], .step (by decide) (.step (by decide) (.step (by decide) (.single 4)))⟩
  have hUnreached : ¬ ∃ p, Path twoWaysIn.succ 0 5 p := by
    intro hPath
    obtain ⟨p, hPath⟩ := hPath
    have hClosed : ∀ v < 5, ∀ w ∈ twoWaysIn.succ v, w < 5 := by decide
    exact absurd (hPath.mem_of_closed (by decide) hClosed 5 hPath.finish_mem) (by decide)
  exact ⟨hRange, (hExact 0 (by decide)).1.mpr (.inl rfl),
    (hExact 5 (by decide)).1.mpr (.inr hUnreached), (hExact 4 (by decide)).2 (by decide) hReached⟩

end RefElision
