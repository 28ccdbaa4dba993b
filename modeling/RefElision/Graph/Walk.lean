import RefElision.Graph.Digraph

/-! A walk along all paths that leave a node. A path is resolved when it comes to a
hit. The walk fails at a path that comes back to itself, ends, or gets too long
before that. It goes forward in single steps on a stack of frames, which hold the
nodes of the current path and the successors still to be followed. -/
namespace RefElision

structure Frame (α : Type) where
  node : α
  pending : List α
  deriving DecidableEq, Repr

/-- The frames of the current path, the last node first, the set of the nodes on that path,
and the hits so far in the order of their discovery. The set is kept beside the frames, so
that a look at it decides whether the path comes back. -/
structure Walk (α : Type) where
  frames : List (Frame α)
  onPath : List α
  found : List α
  deriving DecidableEq, Repr

namespace Walk

inductive Progress (α : Type) where
  | running (w : Walk α)
  | resolved (found : List α)
  | failed

variable {α : Type} [DecidableEq α]

/-- The nodes of the current path, the last one first. -/
def path (w : Walk α) : List α :=
  w.frames.map Frame.node

/-- A walk that has not left its node yet. -/
def start (g : Digraph α) (node : α) : Walk α :=
  ⟨[⟨node, g.succ node⟩], [node], []⟩

/-- Adds a hit unless it is known. -/
def discover (found : List α) (x : α) : List α :=
  if x ∈ found then found else found ++ [x]

/-- Follows the next successor of the last node, or goes back by one node if there is
none left. A node is entered if it has successors and the path may get longer,
which depends on how many nodes the path has. -/
def step (g : Digraph α) (hit : α → Bool) (mayExpand : Nat → Bool) (w : Walk α) :
    Progress α :=
  match w.frames with
  | [] => .resolved w.found
  | ⟨node, []⟩ :: below => .running ⟨below, w.onPath.erase node, w.found⟩
  | ⟨node, x :: rest⟩ :: below =>
    if x ∈ w.onPath then .failed
    else if hit x then .running ⟨⟨node, rest⟩ :: below, w.onPath, discover w.found x⟩
    else if g.isEnd x || !mayExpand w.frames.length then .failed
    else .running ⟨⟨x, g.succ x⟩ :: ⟨node, rest⟩ :: below, w.onPath.insert x, w.found⟩

/-- The number of nodes that are not on a path. -/
def unused (g : Digraph α) (path : List α) : Nat :=
  (g.nodes.filter fun x => x ∉ path).length

/-- A bound on the steps that one successor can cause while some number of nodes is
not on the path. -/
def cost (degree : Nat) : Nat → Nat
  | 0 => 1
  | n + 1 => 2 + degree * cost degree n

/-- A bound on the steps that are left with some frames and some set of nodes. -/
def weight (g : Digraph α) : List (Frame α) → List α → Nat
  | [], _ => 0
  | f :: below, onPath =>
    1 + f.pending.length * cost g.maxDegree (unused g onPath) +
      weight g below (onPath.erase f.node)

theorem cost_pos (degree n : Nat) : 0 < cost degree n := by
  cases n with
  | zero => simp [cost]
  | succ n => simp only [cost]; omega

theorem cost_mono (degree : Nat) {m n : Nat} (h : m ≤ n) : cost degree m ≤ cost degree n := by
  induction n generalizing m with
  | zero =>
      obtain rfl : m = 0 := by omega
      exact Nat.le_refl _
  | succ n ih =>
      cases m with
      | zero => exact cost_pos degree (n + 1)
      | succ m =>
          have hLess := Nat.mul_le_mul_left degree (ih (m := m) (by omega))
          simp only [cost]
          omega

theorem unused_cons_lt (g : Digraph α) {x : α} {path : List α} (hNode : x ∈ g.nodes)
    (hNew : x ∉ path) : unused g (x :: path) < unused g path := by
  have hSplit : ∀ nodes : List α, x ∈ nodes →
      (nodes.filter fun y => y ∉ x :: path).length <
        (nodes.filter fun y => y ∉ path).length := by
    intro nodes hMem
    have hSub : (nodes.filter fun y => y ∉ x :: path) =
        (nodes.filter fun y => y ∉ path).filter fun y => y ≠ x := by
      rw [List.filter_filter]
      apply List.filter_congr
      intro y _
      simp [List.mem_cons, not_or]
    rw [hSub]
    apply Nat.lt_of_le_of_ne (List.length_filter_le _ _)
    intro hEq
    have hAll := List.length_filter_eq_length_iff.mp hEq x
      (List.mem_filter.mpr ⟨hMem, by simpa using hNew⟩)
    simp at hAll
  exact hSplit g.nodes hNode

theorem weight_step_lt (g : Digraph α) (hit : α → Bool) (mayExpand : Nat → Bool)
    {w w' : Walk α} (h : w.step g hit mayExpand = .running w') :
    weight g w'.frames w'.onPath < weight g w.frames w.onPath := by
  obtain ⟨frames, onPath, found⟩ := w
  match frames with
  | [] => simp [step] at h
  | ⟨node, []⟩ :: below =>
      simp only [step, Progress.running.injEq] at h
      subst h
      simp [weight]
  | ⟨node, x :: rest⟩ :: below =>
      simp only [step] at h
      split at h
      · simp at h
      · rename_i hNew
        have hPos := cost_pos g.maxDegree (unused g onPath)
        split at h
        · simp only [Progress.running.injEq] at h
          subst h
          simp only [weight, List.length_cons, Nat.add_mul]
          omega
        · split at h
          · simp at h
          · rename_i hEnd
            simp only [Progress.running.injEq] at h
            subst h
            simp only [Bool.or_eq_true, not_or, Bool.not_eq_true] at hEnd
            have hNode := g.mem_nodes_of_isEnd hEnd.1
            have hDegree := g.length_succ_le hNode
            have hUnused := unused_cons_lt g hNode hNew
            simp only [weight, List.length_cons, List.insert_of_not_mem hNew,
              List.erase_cons_head, Nat.add_mul]
            have hMul := Nat.mul_le_mul hDegree
              (cost_mono g.maxDegree (Nat.le_sub_one_of_lt hUnused))
            have hCost : cost g.maxDegree (unused g onPath) =
                2 + g.maxDegree * cost g.maxDegree (unused g onPath - 1) := by
              obtain ⟨n, hn⟩ : ∃ n, unused g onPath = n + 1 :=
                ⟨_, (Nat.succ_pred_eq_of_pos (by omega)).symm⟩
              rw [hn]
              simp [cost]
            omega

/-- Goes on until all paths are resolved or one fails. Only finitely many paths
repeat no node, so the walk ends whatever lengths are allowed. -/
def run (g : Digraph α) (hit : α → Bool) (mayExpand : Nat → Bool) (w : Walk α) :
    Option (List α) :=
  match _hStep : w.step g hit mayExpand with
  | .running w' => run g hit mayExpand w'
  | .resolved found => some found
  | .failed => none
termination_by weight g w.frames w.onPath
decreasing_by exact weight_step_lt g hit mayExpand _hStep

/-- The nearest hits on all paths that leave a node by at least one step, or nothing
if some path is not resolved. -/
def resolve (g : Digraph α) (hit : α → Bool) (mayExpand : Nat → Bool) (node : α) :
    Option (List α) :=
  if g.isEnd node || !mayExpand 0 then none
  else run g hit mayExpand (start g node)

end Walk

end RefElision
