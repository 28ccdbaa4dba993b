import RefElision.Proofs.Graph.WalkRuns

/-! When a walk is resolved and what it finds. No step changes whether the ways on that are
pending are all covered, nor which hits are known or still ahead, so the answer can be read
off the frames that a walk starts with. -/
namespace RefElision

theorem Digraph.succ_ne_nil {α : Type} [DecidableEq α] {g : Digraph α} {x : α}
    (h : g.isEnd x = false) : g.succ x ≠ [] := by
  intro hNil
  simp [isEnd, hNil] at h

namespace Walk

variable {α : Type} {g : Digraph α} {hit : α → Bool} {mayExpand : Nat → Bool} {path : List α}
  {x y z : α}

/-- A hit is the first one on some way from a node. -/
inductive Leads (g : Digraph α) (hit : α → Bool) : α → α → Prop where
  | here {x : α} (isHit : hit x = true) : Leads g hit x x
  | on {x y z : α} (noHit : hit x = false) (edge : y ∈ g.succ x) (rest : Leads g hit y z) :
      Leads g hit x z

theorem Leads.isHit (h : Leads g hit x y) : hit y = true := by
  induction h with
  | here isHit => exact isHit
  | on _ _ _ ih => exact ih

theorem leads_iff_of_hit (hHit : hit x = true) : Leads g hit x z ↔ z = x := by
  constructor
  · intro h
    cases h with
    | here => rfl
    | on noHit => rw [hHit] at noHit; cases noHit
  · rintro rfl
    exact .here hHit

theorem leads_iff_of_pass (hNoHit : hit x = false) :
    Leads g hit x z ↔ ∃ y ∈ g.succ x, Leads g hit y z := by
  constructor
  · intro h
    cases h with
    | here isHit => rw [hNoHit] at isHit; cases isHit
    | on _ edge rest => exact ⟨_, edge, rest⟩
  · rintro ⟨y, hEdge, hRest⟩
    exact .on hNoHit hEdge hRest

variable [DecidableEq α]

theorem mem_discover {found : List α} : y ∈ discover found x ↔ y ∈ found ∨ y = x := by
  unfold discover
  split
  case isTrue hKnown =>
    constructor
    · exact .inl
    · rintro (hOld | rfl)
      · exact hOld
      · exact hKnown
  case isFalse => simp

theorem nodup_discover {found : List α} (h : found.Nodup) : (discover found x).Nodup := by
  unfold discover
  split
  case isTrue => exact h
  case isFalse hNew =>
    rw [List.nodup_append]
    refine ⟨h, by simp, ?_⟩
    rintro y hy z hz rfl
    exact hNew (List.mem_singleton.mp hz ▸ hy)

/-- All ways on from a node behind a path come to a hit. Until then no node is met twice,
each has a way on, and the path may get longer. The path has the last node first. -/
inductive Covered (g : Digraph α) (hit : α → Bool) (mayExpand : Nat → Bool) :
    List α → α → Prop where
  | stop {path : List α} {x : α} (fresh : x ∉ path) (isHit : hit x = true) :
      Covered g hit mayExpand path x
  | pass {path : List α} {x : α} (fresh : x ∉ path) (noHit : hit x = false)
      (goesOn : g.isEnd x = false) (expands : mayExpand path.length = true)
      (next : ∀ y ∈ g.succ x, Covered g hit mayExpand (x :: path) y) :
      Covered g hit mayExpand path x

/-- What is pending in a frame is covered, with the nodes of the frames below as path. -/
def FramesCovered (g : Digraph α) (hit : α → Bool) (mayExpand : Nat → Bool) :
    List (Frame α) → Prop
  | [] => True
  | ⟨node, pending⟩ :: below =>
    (∀ x ∈ pending, Covered g hit mayExpand (node :: below.map Frame.node) x) ∧
      FramesCovered g hit mayExpand below

theorem covered_iff_of_hit (hFresh : x ∉ path) (hHit : hit x = true) :
    Covered g hit mayExpand path x ↔ True :=
  iff_true_intro (.stop hFresh hHit)

theorem covered_iff_of_pass (hFresh : x ∉ path) (hNoHit : hit x = false)
    (hGoesOn : g.isEnd x = false) (hExpands : mayExpand path.length = true) :
    Covered g hit mayExpand path x ↔ ∀ y ∈ g.succ x, Covered g hit mayExpand (x :: path) y := by
  constructor
  · intro h
    cases h with
    | stop _ isHit => rw [hNoHit] at isHit; cases isHit
    | pass _ _ _ _ next => exact next
  · exact .pass hFresh hNoHit hGoesOn hExpands

/-- A step changes nothing about whether all that is pending is covered. -/
theorem framesCovered_step {w w' : Walk α} (hSet : w.onPath = w.path)
    (h : w.step g hit mayExpand = .running w') :
    FramesCovered g hit mayExpand w.frames ↔ FramesCovered g hit mayExpand w'.frames := by
  rcases step_cases h with ⟨node, below, hw, rfl⟩ | ⟨node, x, rest, below, hw, hFresh, hNext⟩
  · simp [hw, FramesCovered]
  · rw [hSet, path_of_frames hw] at hFresh
    rw [path_of_frames hw] at hNext
    rcases hNext with ⟨hHit, rfl⟩ | ⟨hNoHit, hGoesOn, hExpands, rfl⟩
    · simp only [hw, FramesCovered, List.forall_mem_cons, covered_iff_of_hit hFresh hHit, true_and]
    · simp only [hw, FramesCovered, List.forall_mem_cons, List.map_cons, and_assoc,
        covered_iff_of_pass hFresh hNoHit hGoesOn hExpands]

theorem not_framesCovered_of_failed {w : Walk α} (hSet : w.onPath = w.path)
    (h : w.step g hit mayExpand = .failed) : ¬ FramesCovered g hit mayExpand w.frames := by
  obtain ⟨node, x, rest, below, hw, hWhy⟩ := step_failed h
  rw [hSet, path_of_frames hw] at hWhy
  rw [hw, FramesCovered]
  rintro ⟨hPending, _⟩
  cases hPending x List.mem_cons_self with
  | stop fresh isHit =>
      rcases hWhy with hKnown | ⟨noHit, _⟩
      · exact fresh hKnown
      · rw [isHit] at noHit
        cases noHit
  | pass fresh noHit goesOn expands =>
      rcases hWhy with hKnown | ⟨_, isEnd | tooLong⟩
      · exact fresh hKnown
      · rw [goesOn] at isEnd
        cases isEnd
      · rw [expands] at tooLong
        cases tooLong

/-- A walk is resolved exactly if all that is pending is covered. -/
theorem run_isSome_iff (w : Walk α) (hSet : w.onPath = w.path) :
    (∃ found, w.run g hit mayExpand = some found) ↔
      FramesCovered g hit mayExpand w.frames := by
  fun_induction run g hit mayExpand w with
  | case1 w w' hStep ih => rw [ih (onPath_step hStep hSet), framesCovered_step hSet hStep]
  | case2 w found hResolved => simp [(step_resolved hResolved).1, FramesCovered]
  | case3 w hFailed => simpa using not_framesCovered_of_failed hSet hFailed

/-- A hit is known, or what is pending leads to it. -/
def InReach (g : Digraph α) (hit : α → Bool) (w : Walk α) (y : α) : Prop :=
  y ∈ w.found ∨ ∃ frame ∈ w.frames, ∃ x ∈ frame.pending, Leads g hit x y

/-- A step changes nothing about which hits are in reach. -/
theorem inReach_step {w w' : Walk α} (h : w.step g hit mayExpand = .running w') (y : α) :
    InReach g hit w y ↔ InReach g hit w' y := by
  rcases step_cases h with ⟨node, below, hw, rfl⟩ | ⟨node, x, rest, below, hw, _, hNext⟩
  · simp [InReach, hw]
  · rcases hNext with ⟨hHit, rfl⟩ | ⟨hNoHit, _, _, rfl⟩
    · simp only [InReach, hw, mem_discover, List.mem_cons, exists_eq_or_imp,
        leads_iff_of_hit hHit, or_assoc]
    · simp only [InReach, hw, List.mem_cons, exists_eq_or_imp, leads_iff_of_pass hNoHit, or_assoc]

/-- A way on that is covered leads to a hit. -/
theorem Covered.exists_leads (h : Covered g hit mayExpand path x) : ∃ y, Leads g hit x y := by
  induction h with
  | stop _ isHit => exact ⟨_, .here isHit⟩
  | @pass path x _ noHit goesOn _ _ ih =>
      obtain ⟨y, hEdge⟩ := List.exists_mem_of_ne_nil _ (Digraph.succ_ne_nil goesOn)
      obtain ⟨z, hLeads⟩ := ih y hEdge
      exact ⟨z, .on noHit hEdge hLeads⟩

/-- The hit that a covered way on leads to is not on the path. -/
theorem Covered.not_mem_of_leads (h : Covered g hit mayExpand path x)
    (hLeads : Leads g hit x y) : y ∉ path := by
  induction h with
  | stop fresh isHit =>
      obtain rfl := (leads_iff_of_hit isHit).mp hLeads
      exact fresh
  | pass _ noHit _ _ _ ih =>
      obtain ⟨t, hEdge, hRest⟩ := (leads_iff_of_pass noHit).mp hLeads
      exact fun hMem => ih t hEdge hRest (List.mem_cons_of_mem _ hMem)

/-- A path along covered nodes that misses the hits neither ends nor comes back. -/
theorem Covered.not_mem {found q : List α} (h : Covered g hit mayExpand path x)
    (hFound : ∀ y, Leads g hit x y → y ∈ found) (hPath : Path g.succ x z q)
    (hMiss : ∀ y ∈ q, y ∉ found) : z ∉ path ∧ g.isEnd z = false := by
  induction h generalizing q with
  | stop _ isHit => exact (hMiss _ hPath.start_mem (hFound _ (.here isHit))).elim
  | pass fresh noHit goesOn _ _ ih =>
      cases hPath with
      | single => exact ⟨fresh, goesOn⟩
      | step edge rest =>
          obtain ⟨hOut, hGoesOn⟩ := ih _ edge (fun y hLeads => hFound y (.on noHit edge hLeads))
            rest fun y hy => hMiss y (List.mem_cons_of_mem _ hy)
          exact ⟨fun hMem => hOut (List.mem_cons_of_mem _ hMem), hGoesOn⟩

section Resolve

variable {node : α} {found : List α}

theorem resolve_isSome_iff :
    (∃ found, resolve g hit mayExpand node = some found) ↔
      g.isEnd node = false ∧ mayExpand 0 = true ∧
        ∀ x ∈ g.succ node, Covered g hit mayExpand [node] x := by
  unfold resolve
  split
  case isTrue hStuck =>
    simp only [Bool.or_eq_true, Bool.not_eq_true'] at hStuck
    simp only [reduceCtorEq, exists_false, false_iff]
    rintro ⟨hGoesOn, hExpands, _⟩
    simp [hGoesOn, hExpands] at hStuck
  case isFalse hGoesOn =>
    simp only [Bool.or_eq_true, not_or, Bool.not_eq_true, Bool.not_eq_false'] at hGoesOn
    rw [run_isSome_iff _ rfl]
    simp [start, FramesCovered, hGoesOn]

theorem run_of_resolve (h : resolve g hit mayExpand node = some found) :
    run g hit mayExpand (start g node) = some found := by
  unfold resolve at h
  split at h
  case isTrue => cases h
  case isFalse => exact h

theorem nodup_of_resolve (h : resolve g hit mayExpand node = some found) : found.Nodup := by
  have hStep : ∀ w w' : Walk α, w.step g hit mayExpand = .running w' → w.found.Nodup →
      w'.found.Nodup := by
    intro w w' hStep hNodup
    rcases step_cases hStep with ⟨_, _, _, rfl⟩ | ⟨_, _, _, _, _, _, ⟨_, rfl⟩ | ⟨_, _, _, rfl⟩⟩
    · exact hNodup
    · exact nodup_discover hNodup
    · exact hNodup
  obtain ⟨last, _, rfl, hNodup⟩ :=
    run_induction (fun w => w.found.Nodup) hStep (run_of_resolve h) List.nodup_nil
  exact hNodup

/-- The walk finds the hits that the successors of its node lead to. -/
theorem mem_of_resolve (h : resolve g hit mayExpand node = some found) :
    y ∈ found ↔ ∃ x ∈ g.succ node, Leads g hit x y := by
  obtain ⟨last, hFrames, rfl, hReach⟩ := run_induction
    (fun w => InReach g hit (start g node) y ↔ InReach g hit w y)
    (fun _ _ hStep hSame => hSame.trans (inReach_step hStep y)) (run_of_resolve h) Iff.rfl
  simpa [InReach, start, hFrames] using hReach.symm

/-- What a walk that is resolved tells: the hits are distinct nodes other than the start,
and each path that leaves the start and misses them neither ends nor comes back. -/
theorem resolve_spec (h : resolve g hit mayExpand node = some found) :
    g.isEnd node = false ∧ found.Nodup ∧ (∀ x ∈ found, hit x = true ∧ x ≠ node) ∧
      ∀ t ∈ g.succ node, ∀ z q, Path g.succ t z q → (∀ y ∈ q, y ∉ found) →
        z ≠ node ∧ g.isEnd z = false := by
  obtain ⟨hGoesOn, _, hCovered⟩ := resolve_isSome_iff.mp ⟨found, h⟩
  refine ⟨hGoesOn, nodup_of_resolve h, fun x hx => ?_, fun t ht z q hPath hMiss => ?_⟩
  · obtain ⟨t, ht, hLeads⟩ := (mem_of_resolve h).mp hx
    exact ⟨hLeads.isHit, by simpa using (hCovered t ht).not_mem_of_leads hLeads⟩
  · have hFound : ∀ y, Leads g hit t y → y ∈ found := fun y hLeads =>
      (mem_of_resolve h).mpr ⟨t, ht, hLeads⟩
    obtain ⟨hOut, hNext⟩ := (hCovered t ht).not_mem hFound hPath hMiss
    exact ⟨by simpa using hOut, hNext⟩

/-- A walk that is resolved has found something. -/
theorem ne_nil_of_resolve (h : resolve g hit mayExpand node = some found) : found ≠ [] := by
  obtain ⟨hGoesOn, _, hCovered⟩ := resolve_isSome_iff.mp ⟨found, h⟩
  obtain ⟨t, ht⟩ := List.exists_mem_of_ne_nil _ (Digraph.succ_ne_nil hGoesOn)
  obtain ⟨y, hLeads⟩ := (hCovered t ht).exists_leads
  exact List.ne_nil_of_mem ((mem_of_resolve h).mpr ⟨t, ht, hLeads⟩)

end Resolve

end Walk

end RefElision
