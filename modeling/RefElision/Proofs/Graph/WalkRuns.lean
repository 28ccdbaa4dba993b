import RefElision.Graph.Walk
import RefElision.Proofs.Graph.Path

/-! The steps of a walk, one after the other. At all times the nodes on the stack are distinct
and form a path from the node that the walk has started from, and the set beside the stack holds
exactly these nodes. A walk ends even if paths may get as long as they want. -/
namespace RefElision.Walk

variable {α : Type} {g : Digraph α} {w w' : Walk α}

theorem path_of_frames {node : α} {pending : List α} {below : List (Frame α)}
    (h : w.frames = ⟨node, pending⟩ :: below) : w.path = node :: below.map Frame.node := by
  rw [Walk.path, h]
  rfl

/-- The frames of a walk that has started from a node. -/
structure Trail (g : Digraph α) (node : α) (w : Walk α) : Prop where
  onPath_eq : w.onPath = w.path
  nodup : w.path.Nodup
  /-- What is pending in a frame are successors of its node. -/
  pending : ∀ frame ∈ w.frames, frame.pending ⊆ g.succ frame.node
  leads : w.frames = [] ∨ ∃ last, Path g.succ node last w.path.reverse

theorem Trail.start (g : Digraph α) (node : α) : Trail g node (.start g node) where
  onPath_eq := rfl
  nodup := by simp [Walk.start, Walk.path]
  pending frame hFrame := by
    obtain rfl := List.mem_singleton.mp hFrame
    exact List.Subset.refl _
  leads := .inr ⟨node, .single node⟩

/-- What a trail tells of its first frame and of those below it. The path ends with the node of
the first frame. -/
theorem Trail.first_frame {node y : α} {pending : List α} {below : List (Frame α)}
    (h : Trail g node w) (hw : w.frames = ⟨y, pending⟩ :: below) :
    (y :: below.map Frame.node).Nodup ∧ pending ⊆ g.succ y ∧
      (∀ frame ∈ below, frame.pending ⊆ g.succ frame.node) ∧
      Path g.succ node y ((below.map Frame.node).reverse ++ [y]) := by
  obtain ⟨_, hNodup, hPending, hLeads⟩ := h
  rw [path_of_frames hw] at hNodup hLeads
  rw [hw, List.forall_mem_cons] at hPending
  refine ⟨hNodup, hPending.1, hPending.2, ?_⟩
  rcases hLeads with hNone | ⟨last, hPath⟩
  · rw [hw] at hNone
    cases hNone
  · rw [List.reverse_cons] at hPath
    obtain rfl := hPath.concat_cases.1
    exact hPath

variable [DecidableEq α] {hit : α → Bool} {mayExpand : Nat → Bool} {n : Nat}

/-- What one step can do. -/
theorem step_cases (h : w.step g hit mayExpand = .running w') :
    (∃ node below, w.frames = ⟨node, []⟩ :: below ∧
      w' = ⟨below, w.onPath.erase node, w.found⟩) ∨
      ∃ node x rest below, w.frames = ⟨node, x :: rest⟩ :: below ∧ x ∉ w.onPath ∧
        ((hit x = true ∧ w' = ⟨⟨node, rest⟩ :: below, w.onPath, discover w.found x⟩) ∨
          (hit x = false ∧ g.isEnd x = false ∧ mayExpand w.path.length = true ∧
            w' = ⟨⟨x, g.succ x⟩ :: ⟨node, rest⟩ :: below, w.onPath.insert x, w.found⟩)) := by
  obtain ⟨frames, onPath, found⟩ := w
  match frames with
  | [] => cases h
  | ⟨node, []⟩ :: below =>
      obtain rfl := Progress.running.inj h
      exact .inl ⟨node, below, rfl, rfl⟩
  | ⟨node, x :: rest⟩ :: below =>
      simp only [step] at h
      split at h
      case isTrue => cases h
      case isFalse hFresh =>
        refine .inr ⟨node, x, rest, below, rfl, hFresh, ?_⟩
        split at h
        case isTrue hHit => exact .inl ⟨hHit, (Progress.running.inj h).symm⟩
        case isFalse hNoHit =>
          split at h
          case isTrue => cases h
          case isFalse hGoesOn =>
            simp only [Bool.or_eq_true, not_or, Bool.not_eq_true, Bool.not_eq_false'] at hGoesOn
            exact .inr ⟨by simpa using hNoHit, hGoesOn.1, by simpa [Walk.path] using hGoesOn.2,
              (Progress.running.inj h).symm⟩

theorem step_resolved {found : List α} (h : w.step g hit mayExpand = .resolved found) :
    w.frames = [] ∧ found = w.found := by
  obtain ⟨frames, onPath, known⟩ := w
  match frames with
  | [] => exact ⟨rfl, (Progress.resolved.inj h).symm⟩
  | ⟨node, []⟩ :: below => cases h
  | ⟨node, x :: rest⟩ :: below =>
      simp only [step] at h
      split at h
      case isTrue => cases h
      case isFalse =>
        split at h
        case isTrue => cases h
        case isFalse => split at h <;> cases h

/-- Why a step fails: the next node is on the path already, or it is no hit and cannot be
entered. -/
theorem step_failed (h : w.step g hit mayExpand = .failed) :
    ∃ node x rest below, w.frames = ⟨node, x :: rest⟩ :: below ∧
      (x ∈ w.onPath ∨
        hit x = false ∧ (g.isEnd x = true ∨ mayExpand w.path.length = false)) := by
  obtain ⟨frames, onPath, found⟩ := w
  match frames with
  | [] => cases h
  | ⟨node, []⟩ :: below => cases h
  | ⟨node, x :: rest⟩ :: below =>
      refine ⟨node, x, rest, below, rfl, ?_⟩
      simp only [step] at h
      split at h
      case isTrue hKnown => exact .inl hKnown
      case isFalse =>
        split at h
        case isTrue => cases h
        case isFalse hNoHit =>
          split at h
          case isTrue hStuck =>
            simp only [Bool.or_eq_true, Bool.not_eq_true'] at hStuck
            exact .inr ⟨by simpa using hNoHit, by simpa [Walk.path] using hStuck⟩
          case isFalse => cases h

/-- Exactly `n` steps lead from one state of a walk to another. A walk that is resolved or has
failed takes no step. -/
inductive RunsFor (g : Digraph α) (hit : α → Bool) (mayExpand : Nat → Bool) :
    Walk α → Walk α → Nat → Prop where
  | zero (w : Walk α) : RunsFor g hit mayExpand w w 0
  | succ {v w w' : Walk α} {n : Nat} (first : v.step g hit mayExpand = .running w)
      (rest : RunsFor g hit mayExpand w w' n) : RunsFor g hit mayExpand v w' (n + 1)

/-- The walk takes no more steps, and this is its answer. -/
inductive Ends (g : Digraph α) (hit : α → Bool) (mayExpand : Nat → Bool) (w : Walk α) :
    Option (List α) → Prop where
  | resolved (empty : w.frames = []) (last : w.step g hit mayExpand = .resolved w.found) :
      Ends g hit mayExpand w (some w.found)
  | failed (last : w.step g hit mayExpand = .failed) : Ends g hit mayExpand w none

/-- What each step keeps holds after any number of steps. -/
theorem RunsFor.keeps (run : RunsFor g hit mayExpand w w' n) {holds : Walk α → Prop}
    (hStep : ∀ v v', v.step g hit mayExpand = .running v' → holds v → holds v')
    (hStart : holds w) : holds w' := by
  induction run with
  | zero => exact hStart
  | succ first _ ih => exact ih (hStep _ _ first hStart)

/-- The steps that have been taken and those that may be left are no more than there may have
been at first. -/
theorem RunsFor.weight_le (run : RunsFor g hit mayExpand w w' n) :
    n + weight g w'.frames w'.onPath ≤ weight g w.frames w.onPath := by
  induction run with
  | zero => exact Nat.le_of_eq (Nat.zero_add _)
  | succ first _ ih =>
      have hLess := weight_step_lt g hit mayExpand first
      omega

/-- A walk comes to a state in which it ends, with the answer of the whole run. -/
theorem exists_end (g : Digraph α) (hit : α → Bool) (mayExpand : Nat → Bool) (w : Walk α) :
    ∃ n last, RunsFor g hit mayExpand w last n ∧
      last.Ends g hit mayExpand (w.run g hit mayExpand) := by
  fun_induction run g hit mayExpand w with
  | case1 w w' hStep ih =>
      obtain ⟨n, last, hRun, hEnds⟩ := ih
      exact ⟨n + 1, last, .succ hStep hRun, hEnds⟩
  | case2 w found hResolved =>
      obtain ⟨hFrames, rfl⟩ := step_resolved hResolved
      exact ⟨0, w, .zero w, .resolved hFrames hResolved⟩
  | case3 w hFailed => exact ⟨0, w, .zero w, .failed hFailed⟩

/-- What each step keeps holds in the end, when there is no frame left. -/
theorem run_induction (holds : Walk α → Prop)
    (hStep : ∀ v v', v.step g hit mayExpand = .running v' → holds v → holds v')
    {found : List α} (h : w.run g hit mayExpand = some found) (hStart : holds w) :
    ∃ last, last.frames = [] ∧ last.found = found ∧ holds last := by
  obtain ⟨n, last, hRun, hEnds⟩ := exists_end g hit mayExpand w
  rw [h] at hEnds
  cases hEnds with
  | resolved empty _ => exact ⟨last, empty, rfl, hRun.keeps hStep hStart⟩

/-- Entering a node puts it in front of the frames and into the set, and going back takes it
from both. -/
theorem onPath_step (h : w.step g hit mayExpand = .running w') (hSet : w.onPath = w.path) :
    w'.onPath = w'.path := by
  rcases step_cases h with ⟨node, below, hw, rfl⟩ | ⟨node, x, rest, below, hw, hFresh, hNext⟩
  · rw [path_of_frames hw] at hSet
    rw [hSet, List.erase_cons_head]
    rfl
  · rw [path_of_frames hw] at hSet
    rcases hNext with ⟨_, rfl⟩ | ⟨_, _, _, rfl⟩
    · exact hSet
    · rw [List.insert_of_not_mem hFresh, hSet]
      rfl

/-- A step keeps to the trail: what is entered is a successor of the last node and is new. -/
theorem Trail.step {node : α} (h : Trail g node w) (hStep : w.step g hit mayExpand = .running w') :
    Trail g node w' := by
  have hSet := onPath_step hStep h.onPath_eq
  rcases step_cases hStep with ⟨y, below, hw, rfl⟩ | ⟨y, x, rest, below, hw, hFresh, hNext⟩
  · -- Going back leaves the path without its last node, or nothing if that was the start.
    obtain ⟨hNodup, _, hBelow, hPath⟩ := h.first_frame hw
    refine ⟨hSet, (List.nodup_cons.mp hNodup).2, hBelow, ?_⟩
    rcases hPath.concat_cases.2 with hNone | ⟨last, hFront, _⟩
    · exact .inl (by simpa using hNone)
    · exact .inr ⟨last, hFront⟩
  · -- The set was asked whether the next node is new, so it is new to the frames as well.
    obtain ⟨hNodup, hPending, hBelow, hPath⟩ := h.first_frame hw
    rw [h.onPath_eq, path_of_frames hw] at hFresh
    obtain ⟨hEdge, hRest⟩ := List.cons_subset.mp hPending
    have hLeft : ∀ frame ∈ (⟨y, rest⟩ : Frame α) :: below, frame.pending ⊆ g.succ frame.node :=
      List.forall_mem_cons.mpr ⟨hRest, hBelow⟩
    rcases hNext with ⟨_, rfl⟩ | ⟨_, _, _, rfl⟩
    · refine ⟨hSet, hNodup, hLeft, .inr ⟨y, ?_⟩⟩
      rwa [path_of_frames rfl, List.reverse_cons]
    · refine ⟨hSet, List.nodup_cons.mpr ⟨hFresh, hNodup⟩,
        List.forall_mem_cons.mpr ⟨List.Subset.refl _, hLeft⟩, .inr ⟨x, ?_⟩⟩
      rw [path_of_frames rfl, List.map_cons, List.reverse_cons, List.reverse_cons]
      exact hPath.concat hEdge

/-- How long a walk can be, told by the number of nodes and of edges that leave one. -/
theorem weight_start_le {node : α} (hNode : node ∈ g.nodes) :
    weight g (start g node).frames (start g node).onPath ≤ cost g.maxDegree g.nodes.length := by
  have hUnused : unused g [node] < g.nodes.length :=
    Nat.lt_of_lt_of_le (unused_cons_lt g hNode List.not_mem_nil) (List.length_filter_le _ _)
  obtain ⟨m, hm⟩ : ∃ m, g.nodes.length = m + 1 := ⟨_, (Nat.succ_pred_eq_of_pos (by omega)).symm⟩
  have hCost : (g.succ node).length * cost g.maxDegree (unused g [node]) ≤
      g.maxDegree * cost g.maxDegree m :=
    Nat.mul_le_mul (g.length_succ_le hNode) (cost_mono _ (by omega))
  simp only [start, weight, hm, cost]
  omega

end RefElision.Walk
