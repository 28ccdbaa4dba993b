import Mathlib.Data.List.GetD
import Mathlib.Data.List.Nodup
import RefElision.Dominance.SpanningTree
import RefElision.Proofs.Dominance.DepthFirst
import RefElision.Proofs.Graph.Search

/-! The search that numbers the vertices is depth-first: what it returns is a depth-first
numbering of the vertices that can be reached from the root. -/
namespace RefElision

/-- All edges lead to vertices of the graph. -/
def Adjacency.InRange (a : Adjacency) : Prop :=
  ∀ v, v < a.size → ∀ w ∈ a.succ v, w < a.size

namespace SpanningTree

/-- The vertex with a number in a list of discoveries. -/
def vertexIn (found : List (Nat × Nat)) (i : Nat) : Nat :=
  (found.map Prod.fst).getD i 0

/-- The number of the parent of a number in a list of discoveries. -/
def parentIn (found : List (Nat × Nat)) (i : Nat) : Nat :=
  (found.map Prod.snd).getD i 0

/-- The state of the search after some discoveries, where `final` lists all that will be
made. The sources of pending edges lie on the branch of the last discovery, the
source of the first one lowest. -/
structure Exploring (n : Nat) (succ : Nat → List Nat) (final visited : List (Nat × Nat))
    (remaining : List Nat) (pending : List (Nat × Nat)) : Prop where
  nonempty : 0 < visited.length
  distinct : (visited.map Prod.fst).Nodup
  inside : ∀ v ∈ visited.map Prod.fst, v < n
  remaining_nodup : remaining.Nodup
  remaining_iff : ∀ v, v ∈ remaining ↔ v < n ∧ v ∉ visited.map Prod.fst
  tree : ∀ i, 0 < i → i < visited.length →
    parentIn final i < i ∧ vertexIn final i ∈ succ (vertexIn final (parentIn final i))
  branch : ∀ i, i + 1 < visited.length → Ancestor (parentIn final) (parentIn final (i + 1)) i
  edges : ∀ u, u < visited.length → ∀ w ∈ succ (vertexIn final u),
    (∃ j, j < visited.length ∧ vertexIn final j = w ∧
      (u < j → Ancestor (parentIn final) u j)) ∨ (u, w) ∈ pending
  source : ∀ e ∈ pending, e.1 < visited.length ∧ e.2 ∈ succ (vertexIn final e.1) ∧
    Ancestor (parentIn final) e.1 (visited.length - 1)
  known : ∀ e ∈ pending, ∀ j, j < visited.length → vertexIn final j = e.2 → e.1 < j →
    Ancestor (parentIn final) e.1 j
  nested : pending.Pairwise fun e e' => Ancestor (parentIn final) e'.1 e.1

variable {n : Nat} {succ : Nat → List Nat} {final visited : List (Nat × Nat)}
  {remaining : List Nat} {pending rest : List (Nat × Nat)} {p v : Nat}

theorem vertexIn_lt (hFinal : visited <+: final) {i : Nat} (hi : i < visited.length) :
    vertexIn final i = vertexIn visited i := by
  obtain ⟨more, rfl⟩ := hFinal
  simp [vertexIn, List.getD_eq_getElem?_getD, List.getElem?_append_left, hi]

theorem mem_map_fst_iff (hFinal : visited <+: final) {w : Nat} :
    w ∈ visited.map Prod.fst ↔ ∃ j, j < visited.length ∧ vertexIn final j = w := by
  rw [List.mem_iff_getElem]
  constructor
  · rintro ⟨j, hj, hEq⟩
    rw [List.length_map] at hj
    refine ⟨j, hj, ?_⟩
    rw [vertexIn_lt hFinal hj]
    simpa [vertexIn, List.getD_eq_getElem?_getD, hj] using hEq
  · rintro ⟨j, hj, hEq⟩
    refine ⟨j, by simpa using hj, ?_⟩
    rw [vertexIn_lt hFinal hj] at hEq
    simpa [vertexIn, List.getD_eq_getElem?_getD, hj] using hEq

theorem vertexIn_discovered (hFinal : visited ++ [(v, p)] <+: final) :
    vertexIn final visited.length = v := by
  obtain ⟨more, rfl⟩ := hFinal
  simp [vertexIn, List.getD_eq_getElem?_getD]

theorem parentIn_discovered (hFinal : visited ++ [(v, p)] <+: final) :
    parentIn final visited.length = p := by
  obtain ⟨more, rfl⟩ := hFinal
  simp [parentIn, List.getD_eq_getElem?_getD]

section Discover

variable (h : Exploring n succ final visited remaining ((p, v) :: rest))
  (hFinal : visited ++ [(v, p)] <+: final)
include h

/-- A vertex is taken out of what remains when it is discovered. -/
theorem Exploring.mem_erase_iff (x : Nat) :
    x ∈ remaining.erase v ↔ x < n ∧ x ∉ (visited ++ [(v, p)]).map Prod.fst := by
  rw [h.remaining_nodup.mem_erase_iff, h.remaining_iff]
  simp only [List.map_append, List.map_cons, List.map_nil, List.mem_append, List.mem_singleton,
    not_or]
  constructor
  · rintro ⟨hne, hLess, hOld⟩
    exact ⟨hLess, hOld, hne⟩
  · rintro ⟨hLess, hOld, hne⟩
    exact ⟨hne, hLess, hOld⟩

include hFinal

/-- The new vertex is below its parent, and so below all sources of pending edges. -/
theorem Exploring.above_discovered {x : Nat} (hx : Ancestor (parentIn final) x p) :
    Ancestor (parentIn final) x visited.length :=
  .above h.nonempty ((parentIn_discovered hFinal).symm ▸ hx)

theorem Exploring.source_above {e : Nat × Nat} (he : e ∈ rest) :
    Ancestor (parentIn final) e.1 visited.length :=
  h.above_discovered hFinal ((List.pairwise_cons.mp h.nested).1 e he)

/-- The edges of the new vertex are pending, and the edge that led to it is no longer. -/
theorem Exploring.edges_discover {u : Nat} (hu : u < visited.length + 1) {w : Nat}
    (hw : w ∈ succ (vertexIn final u)) :
    (∃ j, j < visited.length + 1 ∧ vertexIn final j = w ∧
      (u < j → Ancestor (parentIn final) u j)) ∨
      (u, w) ∈ (succ v).map (fun w => (visited.length, w)) ++ rest := by
  rcases Nat.lt_succ_iff_lt_or_eq.mp hu with hOld | rfl
  · rcases h.edges u hOld w hw with ⟨j, hj, hjEq, hjAnc⟩ | hPending
    · exact .inl ⟨j, by omega, hjEq, hjAnc⟩
    · rcases List.mem_cons.mp hPending with hEq | hPending
      · obtain ⟨rfl, rfl⟩ := Prod.mk.inj hEq
        exact .inl ⟨visited.length, by omega, vertexIn_discovered hFinal, fun _ =>
          h.above_discovered hFinal (.refl _)⟩
      · exact .inr (List.mem_append_right _ hPending)
  · rw [vertexIn_discovered hFinal] at hw
    exact .inr (List.mem_append_left _ (List.mem_map.mpr ⟨w, hw, rfl⟩))

theorem Exploring.source_discover {e : Nat × Nat}
    (he : e ∈ (succ v).map (fun w => (visited.length, w)) ++ rest) :
    e.1 < visited.length + 1 ∧ e.2 ∈ succ (vertexIn final e.1) ∧
      Ancestor (parentIn final) e.1 visited.length := by
  rcases List.mem_append.mp he with hNew | hOld
  · obtain ⟨w, hw, rfl⟩ := List.mem_map.mp hNew
    exact ⟨by simp, by simpa [vertexIn_discovered hFinal] using hw, .refl _⟩
  · obtain ⟨hLess, hEdge, _⟩ := h.source e (List.mem_cons_of_mem _ hOld)
    exact ⟨by omega, hEdge, h.source_above hFinal hOld⟩

theorem Exploring.known_discover {e : Nat × Nat}
    (he : e ∈ (succ v).map (fun w => (visited.length, w)) ++ rest) {j : Nat}
    (hj : j < visited.length + 1) (hEq : vertexIn final j = e.2) (hLess : e.1 < j) :
    Ancestor (parentIn final) e.1 j := by
  rcases List.mem_append.mp he with hNew | hOld
  · obtain ⟨w, _, rfl⟩ := List.mem_map.mp hNew
    simp only at hLess
    omega
  · rcases Nat.lt_succ_iff_lt_or_eq.mp hj with hjOld | rfl
    · exact h.known e (List.mem_cons_of_mem _ hOld) j hjOld hEq hLess
    · exact h.source_above hFinal hOld

/-- Following an edge to a vertex that remains discovers it. -/
theorem Exploring.discover (hRemains : v ∈ remaining) :
    Exploring n succ final (visited ++ [(v, p)]) (remaining.erase v)
      ((succ v).map (fun w => (visited.length, w)) ++ rest) := by
  have hLength : (visited ++ [(v, p)]).length = visited.length + 1 := by simp
  obtain ⟨hpLess, hpEdge, hpBranch⟩ := h.source (p, v) List.mem_cons_self
  obtain ⟨hInside, hNew⟩ := (h.remaining_iff v).mp hRemains
  constructor
  case nonempty => rw [hLength]; omega
  case distinct =>
    rw [List.map_append, List.map_singleton, List.nodup_append]
    refine ⟨h.distinct, by simp, fun x hx y hy hEq => ?_⟩
    rw [hEq, List.mem_singleton.mp hy] at hx
    exact hNew hx
  case inside =>
    rw [List.map_append, List.map_singleton, List.forall_mem_append, List.forall_mem_singleton]
    exact ⟨h.inside, hInside⟩
  case remaining_nodup => exact h.remaining_nodup.erase v
  case remaining_iff => exact h.mem_erase_iff
  case tree =>
    intro i hi hLess
    rw [hLength] at hLess
    rcases Nat.lt_succ_iff_lt_or_eq.mp hLess with hOld | rfl
    · exact h.tree i hi hOld
    · rw [parentIn_discovered hFinal, vertexIn_discovered hFinal]
      exact ⟨hpLess, hpEdge⟩
  case branch =>
    intro i hLess
    rw [hLength] at hLess
    rcases Nat.lt_succ_iff_lt_or_eq.mp hLess with hOld | hEq
    · exact h.branch i hOld
    · rw [hEq, parentIn_discovered hFinal]
      rwa [← hEq] at hpBranch
  case edges =>
    rw [hLength]
    exact fun u hu w hw => h.edges_discover hFinal hu hw
  case source =>
    rw [hLength, Nat.add_sub_cancel]
    exact fun e he => h.source_discover hFinal he
  case known =>
    rw [hLength]
    exact fun e he j hj hEq hLess => h.known_discover hFinal he hj hEq hLess
  case nested =>
    refine List.pairwise_append.mpr ⟨?_, (List.pairwise_cons.mp h.nested).2, ?_⟩
    · exact List.pairwise_map.mpr (List.pairwise_of_forall fun _ _ => .refl _)
    · intro e he e' he'
      obtain ⟨w, _, rfl⟩ := List.mem_map.mp he
      exact h.source_above hFinal he'

end Discover

/-- An edge to a vertex that is known already is dropped. -/
theorem Exploring.skip (h : Exploring n succ final visited remaining ((p, v) :: rest))
    (hFinal : visited <+: final) (hv : v < n) (hGone : v ∉ remaining) :
    Exploring n succ final visited remaining rest := by
  obtain ⟨j, hj, hjEq⟩ : ∃ j, j < visited.length ∧ vertexIn final j = v := by
    rw [← mem_map_fst_iff hFinal]
    by_cases hKnown : v ∈ visited.map Prod.fst
    · exact hKnown
    · exact (hGone ((h.remaining_iff v).mpr ⟨hv, hKnown⟩)).elim
  refine { h with
    edges := fun u hu w hw => ?_
    source := fun e he => h.source e (List.mem_cons_of_mem _ he)
    known := fun e he => h.known e (List.mem_cons_of_mem _ he)
    nested := (List.pairwise_cons.mp h.nested).2 }
  rcases h.edges u hu w hw with hDone | hPending
  · exact .inl hDone
  · rcases List.mem_cons.mp hPending with hEq | hPending
    · obtain ⟨rfl, rfl⟩ := Prod.mk.inj hEq
      exact .inl ⟨j, hj, hjEq, h.known _ List.mem_cons_self j hj hjEq⟩
    · exact .inr hPending

section Explore

variable {number p v : Nat} {rest : List (Nat × Nat)}

/-- An edge to a vertex that remains discovers it. -/
theorem explore_of_mem (h : v ∈ remaining) :
    explore succ remaining number ((p, v) :: rest) = (v, p) :: explore succ (remaining.erase v)
      (number + 1) ((succ v).map (fun w => (number, w)) ++ rest) :=
  congrArg (List.map Prod.swap) (Digraph.search_of_mem h)

/-- Other edges are passed over. -/
theorem explore_of_not_mem (h : v ∉ remaining) :
    explore succ remaining number ((p, v) :: rest) = explore succ remaining number rest :=
  congrArg (List.map Prod.swap) (Digraph.search_of_not_mem h)

end Explore

/-- The search goes on until no edge is pending. -/
theorem Exploring.finish (hRange : ∀ v, v < n → ∀ w ∈ succ v, w < n) (remaining : List Nat)
    (pending : List (Nat × Nat)) : ∀ visited, Exploring n succ final visited remaining pending →
      final = visited ++ explore succ remaining visited.length pending →
        ∃ remaining', Exploring n succ final final remaining' [] := by
  refine Digraph.search_induction Prod.snd ?nil ?found ?known remaining pending
  case nil =>
    intro remaining visited h hFinal
    obtain rfl : final = visited := by
      simpa [explore, Digraph.search_of_nil] using hFinal
    exact ⟨remaining, h⟩
  case found =>
    rintro remaining ⟨p, v⟩ rest hRemains ih visited h hFinal
    have hSplit : final = (visited ++ [(v, p)]) ++ explore succ (remaining.erase v)
        (visited ++ [(v, p)]).length ((succ v).map (fun w => (visited.length, w)) ++ rest) := by
      rw [hFinal, explore_of_mem hRemains]
      simp
    exact ih _ _ (h.discover ⟨_, hSplit.symm⟩ hRemains) hSplit
  case known =>
    rintro remaining ⟨p, v⟩ rest hGone ih visited h hFinal
    rw [explore_of_not_mem hGone] at hFinal
    have hPrefix : visited <+: final := ⟨_, hFinal.symm⟩
    refine ih visited (h.skip hPrefix ?_ hGone) hFinal
    obtain ⟨hLess, hEdge, _⟩ := h.source (p, v) List.mem_cons_self
    have hMem := (mem_map_fst_iff hPrefix).mpr ⟨p, hLess, rfl⟩
    exact hRange _ (h.inside _ hMem) _ hEdge

/-- The state after the root has been discovered. -/
theorem Exploring.start {root : Nat} (hRoot : root < n)
    (hFinal : [(root, 0)] <+: final) :
    Exploring n succ final [(root, 0)] ((List.range n).erase root)
      ((succ root).map fun w => (0, w)) := by
  obtain ⟨more, rfl⟩ := hFinal
  have hVertex : vertexIn ([(root, 0)] ++ more) 0 = root := rfl
  constructor
  case nonempty => simp
  case distinct => simp
  case inside => simpa using hRoot
  case remaining_nodup => exact List.nodup_range.erase root
  case remaining_iff =>
    intro v
    rw [List.nodup_range.mem_erase_iff, List.mem_range]
    simp [and_comm]
  case tree =>
    intro i hi hLess
    simp only [List.length_singleton] at hLess
    omega
  case branch =>
    intro i hLess
    simp only [List.length_singleton] at hLess
    omega
  case edges =>
    intro u hu w hw
    simp only [List.length_singleton] at hu
    obtain rfl : u = 0 := by omega
    exact .inr (List.mem_map.mpr ⟨w, hVertex ▸ hw, rfl⟩)
  case source =>
    intro e he
    obtain ⟨w, hw, rfl⟩ := List.mem_map.mp he
    exact ⟨by simp, hVertex.symm ▸ hw, .refl 0⟩
  case known =>
    intro e he j hj _ hLess
    simp only [List.length_singleton] at hj
    omega
  case nested =>
    exact List.pairwise_map.mpr (List.pairwise_of_forall fun _ _ => .refl 0)

/-- The discoveries of the whole search. -/
def discoveries (a : Adjacency) (root : Nat) : List (Nat × Nat) :=
  explore a.succ (List.range a.size) 0 [(0, root)]

theorem exploring_discoveries {a : Adjacency} (hRange : a.InRange) {root : Nat}
    (hRoot : root < a.size) :
    ∃ remaining, Exploring a.size a.succ (discoveries a root) (discoveries a root) remaining [] := by
  have hFinal : discoveries a root = [(root, 0)] ++ explore a.succ
      ((List.range a.size).erase root) 1 ((a.succ root).map fun w => (0, w)) := by
    rw [discoveries, explore_of_mem (List.mem_range.mpr hRoot)]
    simp
  exact Exploring.finish hRange _ _ _ (.start hRoot ⟨_, hFinal.symm⟩) hFinal

/-- The edges of the graph between the numbers of a spanning tree. -/
def numberSucc (t : SpanningTree) (a : Adjacency) (u : Nat) : List Nat :=
  (List.range t.size).filter fun v => (a.succ (t.vertex u)).contains (t.vertex v)

theorem mem_numberSucc {t : SpanningTree} {a : Adjacency} {u v : Nat} :
    v ∈ t.numberSucc a u ↔ v < t.size ∧ t.vertex v ∈ a.succ (t.vertex u) := by
  simp [numberSucc]

theorem mem_predecessors {t : SpanningTree} {a : Adjacency} {u v : Nat} (hv : v < t.size) :
    u ∈ t.predecessors a v ↔ u < t.size ∧ v ∈ t.numberSucc a u := by
  simp [predecessors, numberSucc, hv]

/-- What a spanning tree has to be for its numbers to stand for the vertices that can be
reached from a root. -/
structure Spans (t : SpanningTree) (a : Adjacency) (root : Nat) : Prop where
  positive : 0 < t.size
  vertex_zero : t.vertex 0 = root
  vertex_lt : ∀ i, i < t.size → t.vertex i < a.size
  injective : ∀ i j, i < t.size → j < t.size → t.vertex i = t.vertex j → i = j
  closed : ∀ i, i < t.size → ∀ w ∈ a.succ (t.vertex i), ∃ j, j < t.size ∧ t.vertex j = w
  depthFirst : DepthFirst t.size (t.numberSucc a) t.parent

theorem size_ofRoot (a : Adjacency) (root : Nat) :
    (ofRoot a root).size = (discoveries a root).length := by
  simp [ofRoot, size, discoveries]

theorem vertex_ofRoot (a : Adjacency) (root : Nat) :
    (ofRoot a root).vertex = vertexIn (discoveries a root) := by
  funext i
  simp [ofRoot, vertex, vertexIn, discoveries, Array.getD_eq_getD_getElem?,
    List.getD_eq_getElem?_getD]

theorem parent_ofRoot (a : Adjacency) (root : Nat) :
    (ofRoot a root).parent = parentIn (discoveries a root) := by
  funext i
  simp [ofRoot, parent, parentIn, discoveries, Array.getD_eq_getD_getElem?,
    List.getD_eq_getElem?_getD]

theorem vertexIn_injective {found : List (Nat × Nat)} (h : (found.map Prod.fst).Nodup) {i j : Nat}
    (hi : i < found.length) (hj : j < found.length) (hEq : vertexIn found i = vertexIn found j) :
    i = j := by
  have hi' : i < (found.map Prod.fst).length := by simpa using hi
  have hj' : j < (found.map Prod.fst).length := by simpa using hj
  rw [vertexIn, vertexIn, List.getD_eq_getElem _ _ hi', List.getD_eq_getElem _ _ hj'] at hEq
  exact h.getElem_inj_iff.mp hEq

/-- Once no edge is pending, every edge leads to a discovery, and down the tree if it leads to
a later one. -/
theorem Exploring.closed (h : Exploring n succ final final remaining []) {u : Nat}
    (hu : u < final.length) {w : Nat} (hw : w ∈ succ (vertexIn final u)) :
    ∃ j, j < final.length ∧ vertexIn final j = w ∧ (u < j → Ancestor (parentIn final) u j) := by
  simpa using h.edges u hu w hw

theorem depthFirst_ofRoot {a : Adjacency} {root : Nat} {remaining : List Nat}
    (h : Exploring a.size a.succ (discoveries a root) (discoveries a root) remaining []) :
    DepthFirst (ofRoot a root).size ((ofRoot a root).numberSucc a) (ofRoot a root).parent := by
  have hSize := size_ofRoot a root
  constructor
  case parent_lt =>
    rw [hSize, parent_ofRoot]
    exact fun i hi hLess => (h.tree i hi hLess).1
  case parent_edge =>
    intro i hi hLess
    rw [mem_numberSucc, vertex_ofRoot, parent_ofRoot]
    exact ⟨hLess, (h.tree i hi (hSize ▸ hLess)).2⟩
  case next_parent =>
    rw [hSize, parent_ofRoot]
    exact h.branch
  case edge_down =>
    intro u v hu hEdge hLess
    rw [mem_numberSucc, vertex_ofRoot, hSize] at hEdge
    obtain ⟨j, hj, hEq, hAnc⟩ := h.closed (hSize ▸ hu) hEdge.2
    obtain rfl := vertexIn_injective h.distinct hj hEdge.1 hEq
    rw [parent_ofRoot]
    exact hAnc hLess
  case succ_lt => exact fun u _ v hv => (mem_numberSucc.mp hv).1

theorem spans_ofRoot {a : Adjacency} (hRange : a.InRange) {root : Nat} (hRoot : root < a.size) :
    (ofRoot a root).Spans a root := by
  obtain ⟨remaining, h⟩ := exploring_discoveries hRange hRoot
  have hSize := size_ofRoot a root
  constructor
  case positive => exact hSize ▸ h.nonempty
  case vertex_zero =>
    rw [vertex_ofRoot, discoveries, explore_of_mem (List.mem_range.mpr hRoot)]
    rfl
  case vertex_lt =>
    intro i hi
    rw [vertex_ofRoot]
    exact h.inside _ ((mem_map_fst_iff (List.prefix_refl _)).mpr ⟨i, hSize ▸ hi, rfl⟩)
  case injective =>
    rw [hSize, vertex_ofRoot]
    exact fun i j hi hj hEq => vertexIn_injective h.distinct hi hj hEq
  case closed =>
    rw [hSize, vertex_ofRoot]
    intro i hi w hw
    obtain ⟨j, hj, hEq, _⟩ := h.closed hi hw
    exact ⟨j, hj, hEq⟩
  case depthFirst => exact depthFirst_ofRoot h

end SpanningTree

end RefElision
