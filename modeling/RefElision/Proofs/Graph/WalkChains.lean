import Mathlib.Data.List.Induction
import RefElision.Proofs.Graph.WalkCover

/-! The walk seen by its chains. A chain leaves the node of the walk and passes no hit before its
last node. The walk is resolved exactly if no chain comes back, gets stuck or becomes too long,
and it finds the hits at the ends of chains. -/
namespace RefElision

variable {α : Type} {succ : α → List α} {stops : α → Prop} {node x y : α} {between : List α}

/-- A path that leaves a node by at least one edge. Nothing between the node and the end of
the path stops it. -/
structure Chain (succ : α → List α) (stops : α → Prop) (node : α) (between : List α) (x : α) :
    Prop where
  path : Path succ node x (node :: (between ++ [x]))
  passes : ∀ y ∈ between, ¬ stops y

namespace Chain

theorem first (hEdge : x ∈ succ node) : Chain succ stops node [] x :=
  ⟨.step hEdge (.single x), by simp⟩

theorem next (h : Chain succ stops node between x) (hPass : ¬ stops x) (hEdge : y ∈ succ x) :
    Chain succ stops node (between ++ [x]) y := by
  constructor
  case path => exact h.path.concat hEdge
  case passes =>
    intro z hz
    rcases List.mem_append.mp hz with hBetween | hLast
    · exact h.passes z hBetween
    · exact List.mem_singleton.mp hLast ▸ hPass

/-- A chain is a single edge or goes on from a shorter chain. -/
theorem last_cases (h : Chain succ stops node between x) :
    (between = [] ∧ x ∈ succ node) ∨
      ∃ front y, between = front ++ [y] ∧ Chain succ stops node front y ∧ ¬ stops y ∧
        x ∈ succ y := by
  obtain ⟨hPath, hPasses⟩ := h
  rw [← List.cons_append] at hPath
  obtain ⟨_, hNil | ⟨y, hFront, hEdge⟩⟩ := hPath.concat_cases
  · cases hNil
  · cases between using List.reverseRecOn with
    | nil =>
        cases hFront with
        | single => exact .inl ⟨rfl, hEdge⟩
        | step _ rest => exact (rest.ne_nil rfl).elim
    | append_singleton front z =>
        rw [← List.cons_append] at hFront
        obtain rfl := hFront.concat_cases.1
        refine .inr ⟨front, z, rfl, ⟨hFront, fun t ht => ?_⟩, hPasses z (by simp), hEdge⟩
        exact hPasses t (List.mem_append_left _ ht)

/-- What holds of single edges and is kept by one more edge holds of all chains. -/
theorem induction {motive : ∀ between x, Chain succ stops node between x → Prop}
    (first : ∀ x (hEdge : x ∈ succ node), motive [] x (.first hEdge))
    (next : ∀ between x y (hChain : Chain succ stops node between x) (hPass : ¬ stops x)
      (hEdge : y ∈ succ x), motive between x hChain →
        motive (between ++ [x]) y (hChain.next hPass hEdge))
    (between : List α) (x : α) (h : Chain succ stops node between x) : motive between x h := by
  induction between using List.reverseRecOn generalizing x with
  | nil =>
      rcases h.last_cases with ⟨_, hEdge⟩ | ⟨front, y, hNil, _⟩
      · exact first x hEdge
      · simp at hNil
  | append_singleton front z ih =>
      rcases h.last_cases with ⟨hNil, _⟩ | ⟨front', y, hEq, hChain, hPass, hEdge⟩
      · simp at hNil
      · obtain ⟨rfl, rfl⟩ : front = front' ∧ z = y := by simpa using hEq
        exact next front z x hChain hPass hEdge (ih z hChain)

end Chain

namespace Walk

variable {g : Digraph α} {hit : α → Bool} {mayExpand : Nat → Bool} {found : List α}

theorem exists_leads_of_chain (h : Chain g.succ (hit · = true) node between x) {z : α}
    (hLeads : Leads g hit x z) : ∃ t ∈ g.succ node, Leads g hit t z := by
  induction between, x, h using Chain.induction with
  | first x hEdge => exact ⟨x, hEdge, hLeads⟩
  | next between x y _ hPass hEdge ih => exact ih (.on (by simpa using hPass) hEdge hLeads)

theorem exists_chain_of_leads (h : Chain g.succ (hit · = true) node between x) {z : α}
    (hLeads : Leads g hit x z) : ∃ between', Chain g.succ (hit · = true) node between' z := by
  induction hLeads generalizing between with
  | here => exact ⟨between, h⟩
  | on noHit edge _ ih => exact ih (h.next (by simp [noHit]) edge)

variable [DecidableEq α]

/-- The end of each chain is covered behind the nodes before it. -/
theorem covered_of_chain (hCovered : ∀ x ∈ g.succ node, Covered g hit mayExpand [node] x)
    (h : Chain g.succ (hit · = true) node between x) :
    Covered g hit mayExpand (between.reverse ++ [node]) x := by
  induction between, x, h using Chain.induction with
  | first x hEdge => exact hCovered x hEdge
  | next between x y _ hPass hEdge ih =>
      rw [List.reverse_append]
      cases ih with
      | stop _ isHit => exact (hPass isHit).elim
      | pass _ _ _ _ next => exact next y hEdge

/-- What is asked of the end of a chain. -/
def EndsWell (g : Digraph α) (hit : α → Bool) (mayExpand : Nat → Bool) (node : α)
    (between : List α) (x : α) : Prop :=
  x ∉ node :: between ∧
    (hit x = false → g.isEnd x = false ∧ mayExpand (between.length + 1) = true)

theorem Covered.endsWell (h : Covered g hit mayExpand (between.reverse ++ [node]) x) :
    EndsWell g hit mayExpand node between x := by
  cases h with
  | stop fresh isHit =>
      refine ⟨by simpa [and_comm] using fresh, fun noHit => ?_⟩
      rw [isHit] at noHit
      cases noHit
  | pass fresh _ goesOn expands =>
      exact ⟨by simpa [and_comm] using fresh, fun _ => ⟨goesOn, by simpa using expands⟩⟩

/-- If all chains end well, then the end of each is covered. A chain that goes on leaves fewer
nodes unused, so the induction is on their number. -/
theorem covered_of_endsWell
    (hAll : ∀ between x, Chain g.succ (hit · = true) node between x →
      EndsWell g hit mayExpand node between x)
    (h : Chain g.succ (hit · = true) node between x) :
    Covered g hit mayExpand (between.reverse ++ [node]) x := by
  generalize hUnused : unused g (between.reverse ++ [node]) = n
  induction n using Nat.strongRecOn generalizing between x with
  | ind n ih =>
      obtain ⟨hFresh, hRest⟩ := hAll between x h
      have hNew : x ∉ between.reverse ++ [node] := by simpa [and_comm] using hFresh
      cases hHit : hit x with
      | true => exact .stop hNew hHit
      | false =>
          obtain ⟨hGoesOn, hExpands⟩ := hRest hHit
          refine .pass hNew hHit hGoesOn (by simpa using hExpands) fun y hEdge => ?_
          have hLess := unused_cons_lt g (g.mem_nodes_of_isEnd hGoesOn) hNew
          have hReverse : (between ++ [x]).reverse ++ [node] =
              x :: (between.reverse ++ [node]) := by
            simp
          rw [← hReverse] at hLess ⊢
          exact ih _ (hUnused ▸ hLess) (h.next (by simp [hHit]) hEdge) rfl

/-- The walk is resolved exactly if its node has a way on that may be taken and all chains end
well. -/
theorem resolve_isSome_iff_chains :
    (∃ found, resolve g hit mayExpand node = some found) ↔
      g.isEnd node = false ∧ mayExpand 0 = true ∧
        ∀ between x, Chain g.succ (hit · = true) node between x →
          EndsWell g hit mayExpand node between x := by
  rw [resolve_isSome_iff]
  refine and_congr_right fun _ => and_congr_right fun _ => ⟨?_, ?_⟩
  · exact fun hCovered between x hChain => (covered_of_chain hCovered hChain).endsWell
  · exact fun hAll x hEdge => covered_of_endsWell hAll (.first hEdge)

/-- The walk finds the hits at the ends of chains. -/
theorem mem_of_resolve_iff_chain (h : resolve g hit mayExpand node = some found) :
    y ∈ found ↔ hit y = true ∧ ∃ between, Chain g.succ (hit · = true) node between y := by
  rw [mem_of_resolve h]
  constructor
  · rintro ⟨t, hEdge, hLeads⟩
    exact ⟨hLeads.isHit, exists_chain_of_leads (.first hEdge) hLeads⟩
  · rintro ⟨hHit, between, hChain⟩
    exact exists_leads_of_chain hChain (.here hHit)

end Walk

end RefElision
