import Mathlib.Tactic.IntervalCases
import RefElision.Proofs.Dominance.Times

/-! The intervals of a tree. The vertices in the tree share the first numbers among them as
the ends of their intervals. Two intervals are nested exactly if one vertex is above the
other, and otherwise they are apart. -/
namespace RefElision

namespace DomTree

variable {parent : Array (Option Nat)} {root a b i j k l : Nat}

/-- The vertices in a tree, in ascending order. -/
def vertices (t : DomTree) : List Nat :=
  (List.range t.parent.size).filter t.contains

/-- Between vertices with times, the order is that of the intervals. -/
theorem dominates_iff_of_times {t : DomTree} (hi : t.enter? a = some i) (hj : t.leave? a = some j)
    (hk : t.enter? b = some k) (hl : t.leave? b = some l) :
    t.dominates a b = true ↔ i ≤ k ∧ l ≤ j := by
  by_cases hEq : a = b
  · subst hEq
    obtain rfl := Option.some.inj (hi.symm.trans hk)
    obtain rfl := Option.some.inj (hj.symm.trans hl)
    simp [dominates]
  · simp [dominates, hi, hj, hk, hl, hEq]

section

variable (h : Rooted parent root)
include h

theorem exists_depth_iff_entry :
    (∃ n, Depth parent root a n) ↔ a = root ∨ (parent.getD a none).isSome = true := by
  constructor
  · rintro ⟨n, hDepth⟩
    cases hDepth with
    | root => exact .inl rfl
    | step entry _ => exact .inr (by rw [entry]; rfl)
  · rintro (rfl | hSome)
    · exact ⟨0, .root⟩
    · obtain ⟨p, hEntry⟩ := Option.isSome_iff_exists.mp hSome
      exact (h.reaches a p hEntry).exists_depth

theorem contains_iff_depth :
    (ofParents parent root).contains a = true ↔ ∃ n, Depth parent root a n := by
  rw [contains, Option.isSome_iff_exists]
  constructor
  · rintro ⟨i, hi⟩
    exact exists_depth_of_enter h hi
  · rintro ⟨n, hDepth⟩
    obtain ⟨i, _, _, hi, _⟩ := times_of_depth h hDepth
    exact ⟨i, hi⟩

theorem mem_walk_iff {x : Visit} :
    x ∈ walk parent root ↔ (ofParents parent root).contains x.vertex = true := by
  rw [contains_iff_depth h]
  constructor
  · intro hMem
    exact (exists_depth_iff h).mpr (above_of_mem_tour hMem)
  · rintro ⟨n, hDepth⟩
    obtain ⟨below, hTour⟩ := exists_tour_eq h hDepth
    apply (tour_within_walk h hDepth).subset
    rw [hTour]
    cases x <;> simp [Visit.vertex]

theorem mem_vertices_iff :
    a ∈ (ofParents parent root).vertices ↔ (ofParents parent root).contains a = true := by
  rw [vertices, List.mem_filter, List.mem_range]
  refine and_iff_right_of_imp fun hIn => ?_
  obtain ⟨n, hDepth⟩ := (contains_iff_depth h).mp hIn
  exact h.lt_size hDepth

/-- The walk enters each vertex in the tree once and leaves it once. -/
theorem walk_perm_visits :
    (walk parent root).Perm ((ofParents parent root).vertices.map .enter ++
      (ofParents parent root).vertices.map .leave) := by
  have hVertices : (ofParents parent root).vertices.Nodup := List.nodup_range.filter _
  have hVisits : ((ofParents parent root).vertices.map Visit.enter ++
      (ofParents parent root).vertices.map Visit.leave).Nodup := by
    refine List.nodup_append.mpr ⟨?_, ?_, ?_⟩
    · exact hVertices.map fun _ _ hEq => Visit.enter.inj hEq
    · exact hVertices.map fun _ _ hEq => Visit.leave.inj hEq
    · simp
  rw [List.perm_ext_iff_of_nodup (nodup_walk h) hVisits]
  intro x
  rw [mem_walk_iff h]
  cases x <;> simp [Visit.vertex, mem_vertices_iff h]

/-- Each vertex in the tree has a time at which it is entered and one at which it is left,
and together these are the first numbers, each of them once. -/
theorem times_perm_range :
    ((ofParents parent root).vertices.map (ofParents parent root).enter? ++
      (ofParents parent root).vertices.map (ofParents parent root).leave?).Perm
    ((List.range (2 * (ofParents parent root).vertices.length)).map some) := by
  have hPerm := walk_perm_visits h
  have hLength : (walk parent root).length = 2 * (ofParents parent root).vertices.length := by
    rw [hPerm.length_eq, List.length_append, List.length_map, List.length_map]
    omega
  have hPositions : (walk parent root).map (walk parent root).idxOf? =
      (List.range (walk parent root).length).map some := by
    refine List.ext_getElem (by simp) fun n hn _ => ?_
    have hLt : n < (walk parent root).length := by simpa using hn
    rw [List.getElem_map, List.getElem_map, List.getElem_range,
      idxOf?_of_mem (List.getElem_mem hLt), (nodup_walk h).idxOf_getElem]
  have hTimes : ∀ v ∈ (ofParents parent root).vertices,
      (walk parent root).idxOf? (.enter v) = (ofParents parent root).enter? v ∧
      (walk parent root).idxOf? (.leave v) = (ofParents parent root).leave? v := by
    intro v hv
    obtain ⟨n, hDepth⟩ := (contains_iff_depth h).mp ((mem_vertices_iff h).mp hv)
    rw [enter?_ofParents h, leave?_ofParents h, if_pos (h.lt_size hDepth),
      if_pos (h.lt_size hDepth)]
    exact ⟨rfl, rfl⟩
  have hMapped := (hPerm.map (walk parent root).idxOf?).symm
  rw [hPositions, hLength, List.map_append, List.map_map, List.map_map] at hMapped
  rwa [List.map_congr_left fun v hv => (hTimes v hv).1.symm,
    List.map_congr_left fun v hv => (hTimes v hv).2.symm]

/-- Where the interval of one vertex begins within that of another, it lies within it. -/
theorem within_of_begins (hi : (ofParents parent root).enter? a = some i)
    (hj : (ofParents parent root).leave? a = some j)
    (hk : (ofParents parent root).enter? b = some k)
    (hl : (ofParents parent root).leave? b = some l) (hFrom : i ≤ k) (hTo : k ≤ j) :
    l ≤ j := by
  obtain ⟨n, ha⟩ := exists_depth_of_enter h hi
  obtain ⟨m, hb⟩ := exists_depth_of_enter h hk
  obtain ⟨_, _, _, hi', hj', _, _, hIn⟩ := times_of_depth h ha
  obtain ⟨_, _, _, hk', _, hEnter, _⟩ := times_of_depth h hb
  obtain rfl := Option.some.inj (hi.symm.trans hi')
  obtain rfl := Option.some.inj (hj.symm.trans hj')
  obtain rfl := Option.some.inj (hk.symm.trans hk')
  have hBelow := above_of_mem_tour ((hIn (.enter b)).mpr ⟨by omega, by omega⟩)
  have hDominates := (dominates_ofParents h).mpr (hBelow.imp_left Eq.symm)
  exact ((dominates_iff_of_times hi hj hk hl).mp hDominates).2

end

/-- For parents that make a tree, the tree holds the root and all that has a parent, the
times of its vertices are the first numbers, and the interval of a vertex holds those of
exactly the vertices below it. -/
theorem intervals_decide_ancestry (h : Rooted parent root) :
    let t := ofParents parent root
    (∀ v, t.contains v = true ↔ v = root ∨ (parent.getD v none).isSome = true) ∧
    (∀ v, t.contains v = false → t.enter? v = none ∧ t.leave? v = none) ∧
    (t.vertices.map t.enter? ++ t.vertices.map t.leave?).Perm
      ((List.range (2 * t.vertices.length)).map some) ∧
    (∀ v, t.contains v = true → ∃ i j, t.enter? v = some i ∧ t.leave? v = some j ∧ i < j) ∧
    (∀ a b i j k l, t.enter? a = some i → t.leave? a = some j →
      t.enter? b = some k → t.leave? b = some l →
      j < k ∨ l < i ∨ (i ≤ k ∧ l ≤ j) ∨ (k ≤ i ∧ j ≤ l)) ∧
    (∀ a b, t.dominates a b = true ↔ a = b ∨ Above parent a b) := by
  refine ⟨fun v => ?_, fun v hOut => ?_, times_perm_range h, fun v hIn => ?_, ?_, fun a b => ?_⟩
  · exact (contains_iff_depth h).trans (exists_depth_iff_entry h)
  · have hNone : ∀ x : Visit, x.vertex = v → (walk parent root).idxOf? x = none := by
      rintro x rfl
      rw [List.idxOf?_eq_none_iff, mem_walk_iff h, hOut]
      exact Bool.false_ne_true
    rw [enter?_ofParents h, leave?_ofParents h, hNone _ rfl, hNone _ rfl]
    exact ⟨ite_self _, ite_self _⟩
  · obtain ⟨n, hDepth⟩ := (contains_iff_depth h).mp hIn
    obtain ⟨i, j, hLess, hi, hj, _⟩ := times_of_depth h hDepth
    exact ⟨i, j, hi, hj, hLess⟩
  · intro a b i j k l hi hj hk hl
    rcases Nat.le_total i k with hFirst | hFirst
    · rcases Nat.lt_or_ge j k with hApart | hMeet
      · exact .inl hApart
      · exact .inr (.inr (.inl ⟨hFirst, within_of_begins h hi hj hk hl hFirst hMeet⟩))
    · rcases Nat.lt_or_ge l i with hApart | hMeet
      · exact .inr (.inl hApart)
      · exact .inr (.inr (.inr ⟨hFirst, within_of_begins h hk hl hi hj hFirst hMeet⟩))
  · exact dominates_ofParents h

/-- A tree with root 2 and two levels below it, and vertex 5 outside of it. -/
def sixParents : Array (Option Nat) :=
  #[some 2, some 0, none, some 0, some 2, none]

theorem sixParents_rooted : Rooted sixParents 2 := by
  refine ⟨by decide, rfl, fun v p hEntry => ?_⟩
  have hv : v < 6 := lt_size_of_getD hEntry (Option.some_ne_none _)
  have hTop : Above sixParents 2 0 := .parent rfl
  interval_cases v
  · exact hTop
  · exact .step rfl hTop
  · cases hEntry
  · exact .step rfl hTop
  · exact .parent rfl
  · cases hEntry

theorem intervals_decide_ancestry_sixParents :
    Rooted sixParents 2 ∧
    (ofParents sixParents 2).enter = #[some 1, some 2, some 0, some 4, some 7, none] ∧
    (ofParents sixParents 2).leave = #[some 6, some 3, some 9, some 5, some 8, none] ∧
    (ofParents sixParents 2).vertices = [0, 1, 2, 3, 4] ∧
    [some 1, some 2, some 0, some 4, some 7, some 6, some 3, some 9, some 5, some 8].Perm
      ((List.range 10).map some) ∧
    Above sixParents 0 3 ∧ ¬ Above sixParents 0 4 := by
  have hEnter : (ofParents sixParents 2).enter =
      #[some 1, some 2, some 0, some 4, some 7, none] := by decide +kernel
  have hLeave : (ofParents sixParents 2).leave =
      #[some 6, some 3, some 9, some 5, some 8, none] := by decide +kernel
  have hVertices : (ofParents sixParents 2).vertices = [0, 1, 2, 3, 4] := by decide +kernel
  obtain ⟨_, _, hTimes, _, _, hAncestry⟩ := intervals_decide_ancestry sixParents_rooted
  refine ⟨sixParents_rooted, hEnter, hLeave, hVertices, ?_, ?_, fun hAbove => ?_⟩
  · simpa [hVertices, enter?, leave?, hEnter, hLeave] using hTimes
  · exact ((hAncestry 0 3).mp (by decide +kernel)).resolve_left (by decide)
  · have hTrue := (hAncestry 0 4).mpr (.inr hAbove)
    have hFalse : (ofParents sixParents 2).dominates 0 4 = false := by decide +kernel
    rw [hFalse] at hTrue
    cases hTrue

end DomTree

end RefElision
