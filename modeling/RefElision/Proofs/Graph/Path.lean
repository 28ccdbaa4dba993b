import RefElision.Graph.Digraph

/-! Paths in a graph, as the lists of the nodes that they pass. Nodes may repeat, so a
path may go around a cycle any number of times. -/
namespace RefElision

/-- The nodes that are passed on a way from one node to another along edges. Both ends
are listed. A node alone is a path from it to itself. -/
inductive Path {α : Type} (succ : α → List α) : α → α → List α → Prop where
  | single (x : α) : Path succ x x [x]
  | step {x y z : α} {p : List α} (edge : y ∈ succ x) (rest : Path succ y z p) :
      Path succ x z (x :: p)

namespace Path

variable {α : Type} {succ : α → List α} {x y z : α} {p q : List α}

theorem start_mem (h : Path succ x y p) : x ∈ p := by
  cases h with
  | single => exact List.mem_singleton_self _
  | step => exact List.mem_cons_self

theorem finish_mem (h : Path succ x y p) : y ∈ p := by
  induction h with
  | single => exact List.mem_singleton_self _
  | step _ _ ih => exact List.mem_cons_of_mem _ ih

theorem ne_nil (h : Path succ x y p) : p ≠ [] :=
  List.ne_nil_of_mem h.start_mem

/-- Two paths are joined by an edge between them. -/
theorem join {w : α} (h : Path succ x y p) (hEdge : z ∈ succ y) (hRest : Path succ z w q) :
    Path succ x w (p ++ q) := by
  induction h with
  | single => exact .step hEdge hRest
  | step edge _ ih => exact .step edge (ih hEdge)

theorem concat (h : Path succ x y p) (hEdge : z ∈ succ y) : Path succ x z (p ++ [z]) :=
  h.join hEdge (.single z)

/-- A path splits at each of its nodes into a path that ends there and one that starts
there. -/
theorem split {before after : List α} (h : Path succ x z p) (hEq : p = before ++ y :: after) :
    Path succ x y (before ++ [y]) ∧ Path succ y z (y :: after) := by
  induction h generalizing before with
  | single x =>
      obtain ⟨rfl, rfl, rfl⟩ : before = [] ∧ y = x ∧ after = [] := by
        cases before <;> simp_all
      exact ⟨.single _, .single _⟩
  | @step x t z p edge rest ih =>
      cases before with
      | nil =>
          obtain ⟨rfl, rfl⟩ : x = y ∧ p = after := by simpa using hEq
          exact ⟨.single _, .step edge rest⟩
      | cons b before =>
          obtain ⟨rfl, rfl⟩ : x = b ∧ p = before ++ y :: after := by simpa using hEq
          obtain ⟨hFront, hBack⟩ := ih rfl
          exact ⟨.step edge hFront, hBack⟩

/-- What follows the first node of a path, if anything does, is a path from one of its
successors. -/
theorem tail (h : Path succ x z (x :: p)) (hne : p ≠ []) :
    ∃ t ∈ succ x, Path succ t z p := by
  cases h with
  | single => exact (hne rfl).elim
  | step edge rest => exact ⟨_, edge, rest⟩

/-- What is passed behind a node is reached from there by what lies in between. -/
theorem exists_between {w : α} {front between back : List α}
    (h : Path succ x z (front ++ y :: (between ++ back))) (hMem : w ∈ between) :
    ∃ t ∈ succ y, ∃ q, Path succ t w q ∧ q ⊆ between := by
  obtain ⟨before, after, rfl⟩ := List.append_of_mem hMem
  have hBehind : Path succ y z ((y :: before) ++ w :: (after ++ back)) := by
    simpa using (h.split rfl).2
  obtain ⟨t, hEdge, hPath⟩ := (hBehind.split rfl).1.tail (by simp)
  refine ⟨t, hEdge, before ++ [w], hPath, ?_⟩
  intro a ha
  rw [List.mem_append, List.mem_singleton] at ha
  rw [List.mem_append, List.mem_cons]
  exact ha.imp_right .inl

theorem trans (h : Path succ x y p) (hRest : Path succ y z q) :
    Path succ x z (p ++ q.tail) := by
  cases hRest with
  | single => simpa using h
  | step edge rest => exact h.join edge rest

/-- If two nodes are met equally often on all ways from one node to another, then so they are on
a cycle that such a way can go around once more. -/
theorem count_cycle [DecidableEq α] {root t a c : α} {r : List α} (hFront : Path succ root x p)
    (hEdge : t ∈ succ x) (hCycle : Path succ t x q) (hBack : Path succ x z r)
    (hEqual : ∀ p, Path succ root z p → p.count a = p.count c) : q.count a = q.count c := by
  have hShort := hEqual _ (hFront.trans hBack)
  have hLong := hEqual _ ((hFront.join hEdge hCycle).trans hBack)
  simp only [List.count_append] at hShort hLong
  omega

/-- The part of a path up to one of its nodes. -/
theorem exists_to (h : Path succ x z p) (hMem : y ∈ p) :
    ∃ q, Path succ x y q ∧ q ⊆ p := by
  obtain ⟨before, after, hEq⟩ := List.append_of_mem hMem
  refine ⟨before ++ [y], (h.split hEq).1, ?_⟩
  intro t ht
  rw [hEq]
  rcases List.mem_append.mp ht with hBefore | hLast
  · exact List.mem_append_left _ hBefore
  · exact List.mem_append_right _ (List.mem_cons.mpr (.inl (List.mem_singleton.mp hLast)))

/-- The part of a path up to a node other than its last one is shorter. -/
theorem exists_shorter (h : Path succ x z p) (hMem : y ∈ p) (hne : y ≠ z) :
    ∃ q, Path succ x y q ∧ q.length < p.length := by
  obtain ⟨before, after, hEq⟩ := List.append_of_mem hMem
  obtain ⟨hFront, hBack⟩ := h.split hEq
  refine ⟨before ++ [y], hFront, ?_⟩
  cases after with
  | nil =>
      have hLast : z ∈ [y] := hBack.finish_mem
      exact (hne (List.mem_singleton.mp hLast).symm).elim
  | cons t after =>
      rw [hEq]
      simp only [List.length_append, List.length_cons, List.length_nil]
      omega

/-- The part of a path from one of its nodes on. -/
theorem exists_from (h : Path succ x z p) (hMem : y ∈ p) :
    ∃ q, Path succ y z q ∧ q ⊆ p := by
  obtain ⟨before, after, hEq⟩ := List.append_of_mem hMem
  refine ⟨y :: after, (h.split hEq).2, ?_⟩
  intro t ht
  rw [hEq]
  exact List.mem_append_right _ ht

/-- A path is a node alone or ends with an edge. -/
theorem last_cases (h : Path succ x z p) :
    (x = z ∧ p = [z]) ∨ ∃ y q, p = q ++ [z] ∧ Path succ x y q ∧ z ∈ succ y := by
  induction h with
  | single => exact .inl ⟨rfl, rfl⟩
  | @step x t z p edge rest ih =>
      rcases ih with ⟨rfl, rfl⟩ | ⟨y, q, rfl, hPath, hLast⟩
      · exact .inr ⟨x, [x], rfl, .single x, edge⟩
      · exact .inr ⟨y, x :: q, rfl, .step edge hPath, hLast⟩

theorem concat_cases (h : Path succ x z (p ++ [y])) :
    y = z ∧ (p = [] ∨ ∃ t, Path succ x t p ∧ z ∈ succ t) := by
  rcases h.last_cases with ⟨_, hAlone⟩ | ⟨t, q, hSplit, hFront, hLast⟩
  · obtain ⟨rfl, rfl⟩ : p = [] ∧ y = z := by cases p <;> simp_all
    exact ⟨rfl, .inl rfl⟩
  · obtain ⟨rfl, rfl⟩ : p = q ∧ y = z := by simpa using hSplit
    exact ⟨rfl, .inr ⟨t, hFront, hLast⟩⟩

/-- A path stays where its edges stay. -/
theorem mem_of_closed {inside : α → Prop} (h : Path succ x z p) (hStart : inside x)
    (hClosed : ∀ a, inside a → ∀ b ∈ succ a, inside b) : ∀ y ∈ p, inside y := by
  induction h with
  | single => simpa using hStart
  | step edge _ ih =>
      intro y hy
      rcases List.mem_cons.mp hy with rfl | hy
      · exact hStart
      · exact ih (hClosed _ hStart _ edge) y hy

/-- Turning all edges around turns a path around. -/
theorem reverse {pred : α → List α} (h : Path succ x z p)
    (hEdges : ∀ a ∈ p, ∀ b ∈ p, b ∈ succ a → a ∈ pred b) : Path pred z x p.reverse := by
  induction h with
  | single => exact .single _
  | step edge rest ih =>
      rw [List.reverse_cons]
      refine (ih ?_).concat ?_
      · exact fun a ha b hb => hEdges a (List.mem_cons_of_mem _ ha) b (List.mem_cons_of_mem _ hb)
      · exact hEdges _ List.mem_cons_self _ (List.mem_cons_of_mem _ rest.start_mem) edge

/-- A path to another node can be cut so that it does not pass a given node: either it
never did, or the rest after the last visit leaves that node by an edge. -/
theorem bypass [DecidableEq α] {c : α} (h : Path succ x z p) (hFinish : z ≠ c) :
    ∃ t q, (t = x ∨ t ∈ succ c) ∧ Path succ t z q ∧ q ⊆ p ∧ c ∉ q := by
  induction h with
  | single x => exact ⟨x, [x], .inl rfl, .single x, List.Subset.refl _, by simpa using hFinish.symm⟩
  | @step x y z p edge rest ih =>
      obtain ⟨t, q, hStart, hPath, hSub, hAvoid⟩ := ih hFinish
      have hSub' : q ⊆ x :: p := List.Subset.trans hSub (List.subset_cons_self _ _)
      rcases hStart with rfl | hStart
      · by_cases hx : x = c
        · exact ⟨t, q, .inr (hx ▸ edge), hPath, hSub', hAvoid⟩
        · refine ⟨x, x :: q, .inl rfl, .step edge hPath, ?_, ?_⟩
          · exact List.cons_subset_cons _ hSub
          · simp only [List.mem_cons, not_or]
            exact ⟨fun h => hx h.symm, hAvoid⟩
      · exact ⟨t, q, .inr hStart, hPath, hSub', hAvoid⟩

end Path

end RefElision
