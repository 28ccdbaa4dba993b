import RefElision.Proofs.Dominance.Tour

/-! The times of a tour. A tour with a stack makes the visits of the walk around the tree in
their order, one at each tick of the clock, so the times at which a vertex is entered and
left tell what is below it. -/
namespace RefElision

variable {parent : Array (Option Nat)} {root a b : Nat}

namespace Tour

open DomTree

variable {w w' w'' : Tour} {v : Nat} {below : List Nat} {x : Visit} {visits more : List Visit}

/-- What the next step visits. -/
def visit? (w : Tour) : Option Visit :=
  match w.stack with
  | [] => none
  | v :: _ =>
    match w.pending.getD v [] with
    | [] => some (.leave v)
    | c :: _ => some (.enter c)

/-- The time that has been told for a visit. -/
def time (w : Tour) : Visit → Option Nat
  | .enter v => w.enter.getD v none
  | .leave v => w.leave.getD v none

/-- There is a time for each visit of so many vertices. -/
structure Sized (n : Nat) (w : Tour) : Prop where
  enter : w.enter.size = n
  leave : w.leave.size = n

/-- Steps that make some visits. -/
inductive Makes : Tour → List Visit → Tour → Prop where
  | nothing (w : Tour) : Makes w [] w
  | next {w w' w'' : Tour} {x : Visit} {visits : List Visit} (made : w.visit? = some x)
      (first : w.step = some w') (rest : Makes w' visits w'') : Makes w (x :: visits) w''

theorem getD_told {times : Array (Option Nat)} {u : Nat} (hu : u < times.size)
    (v : Nat) (told : Option Nat) :
    (times.setIfInBounds v told).getD u none = if v = u then told else times.getD u none := by
  by_cases hEq : v = u
  · subst hEq
    simp [hu]
  · simp [hEq, Array.getElem?_setIfInBounds_ne hEq]

/-- A step tells the time of one visit. -/
theorem step_spec {n : Nat} (hMade : w.visit? = some x) (hStep : w.step = some w')
    (hSized : w.Sized n) :
    w'.clock = w.clock + 1 ∧ w'.Sized n ∧
    ∀ y, y.vertex < n → w'.time y = if x = y then some (w.clock + 1) else w.time y := by
  obtain ⟨hEnter, hLeave⟩ := hSized
  cases hStack : w.stack with
  | nil => simp [visit?, hStack] at hMade
  | cons v below =>
      cases hPending : w.pending.getD v [] with
      | nil =>
          simp only [visit?, step, hStack, hPending, Option.some.injEq] at hMade hStep
          subst hMade hStep
          refine ⟨rfl, ⟨hEnter, Array.size_setIfInBounds.trans hLeave⟩, fun y hy => ?_⟩
          cases y with
          | enter u => rfl
          | leave u =>
              simp only [time, Visit.leave.injEq]
              exact getD_told (hLeave.symm ▸ hy) v _
      | cons c rest =>
          simp only [visit?, step, hStack, hPending, Option.some.injEq] at hMade hStep
          subst hMade hStep
          refine ⟨rfl, ⟨Array.size_setIfInBounds.trans hEnter, hLeave⟩, fun y hy => ?_⟩
          cases y with
          | enter u =>
              simp only [time, Visit.enter.injEq]
              exact getD_told (hEnter.symm ▸ hy) c _
          | leave u => rfl

namespace Makes

theorem trans (h : Makes w visits w') (h' : Makes w' more w'') : Makes w (visits ++ more) w'' := by
  induction h with
  | nothing => exact h'
  | next made first _ ih => exact .next made first (ih h')

theorem run_eq (h : Makes w visits w') : w.run = w'.run := by
  induction h with
  | nothing => rfl
  | next _ first _ ih =>
      rw [run, ← ih]
      split
      case h_1 hNone => rw [first] at hNone; cases hNone
      case h_2 hSome => rw [Option.some.inj (first.symm.trans hSome)]

theorem sized {n : Nat} (h : Makes w visits w') (hSized : w.Sized n) : w'.Sized n := by
  induction h with
  | nothing => exact hSized
  | next made first _ ih => exact ih (step_spec made first hSized).2.1

/-- The times are told one tick apart, if no visit is made twice. -/
theorem time_eq {n : Nat} (h : Makes w visits w') (hSized : w.Sized n) (hNodup : visits.Nodup)
    (hx : x.vertex < n) :
    w'.time x = ((visits.idxOf? x).map (w.clock + 1 + ·)).or (w.time x) := by
  induction h with
  | nothing => rfl
  | @next w w' w'' y visits made first rest ih =>
      obtain ⟨hClock, hSized, hTime⟩ := step_spec made first hSized
      obtain ⟨hFresh, hNodup⟩ := List.nodup_cons.mp hNodup
      rw [ih hSized hNodup, hTime x hx, hClock, List.idxOf?_cons]
      by_cases hEq : y = x
      · subst hEq
        simp [List.idxOf?_eq_none_iff.mpr hFresh]
      · have hTick : (fun k => w.clock + 1 + 1 + k) = (w.clock + 1 + ·) ∘ (· + 1) := by
          funext k
          show w.clock + 1 + 1 + k = w.clock + 1 + (k + 1)
          omega
        rw [if_neg hEq, if_neg (by simpa using hEq), Option.map_map, hTick]

end Makes

theorem Sized.time_eq_none {n : Nat} (h : w.Sized n) (hx : ¬ x.vertex < n) : w.time x = none := by
  cases x with
  | enter v =>
      have hOut : w.enter.size ≤ v := h.enter ▸ Nat.le_of_not_lt hx
      simp [time, hOut]
  | leave v =>
      have hOut : w.leave.size ≤ v := h.leave ▸ Nat.le_of_not_lt hx
      simp [time, hOut]

theorem run_of_empty (h : w.stack = []) : w.run = w := by
  rw [run]
  split
  case h_1 => rfl
  case h_2 hStep => simp [step, h] at hStep

/-- The tour has just entered a vertex, with everything below it still to be gone to. -/
structure Fresh (parent : Array (Option Nat)) (v : Nat) (below : List Nat) (w : Tour) : Prop where
  stack : w.stack = v :: below
  pending : ∀ u, u = v ∨ Above parent v u → w.pending.getD u [] = childrenIn parent u

/-- Some visits end when a vertex is left, and change nothing but what is below it. -/
structure GoesAround (parent : Array (Option Nat)) (v : Nat) (below : List Nat) (w : Tour)
    (visits : List Visit) (w' : Tour) : Prop where
  makes : Makes w visits w'
  stack : w'.stack = below
  frame : ∀ u, u ≠ v → ¬ Above parent v u → w'.pending.getD u [] = w.pending.getD u []

/-- Leaving a vertex that has no child left. -/
theorem goesAround_leave (hStack : w.stack = v :: below) (hDone : w.pending.getD v [] = []) :
    ∃ w', GoesAround parent v below w [.leave v] w' := by
  have hStep : w.step = some { w with
      clock := w.clock + 1
      stack := below
      leave := w.leave.setIfInBounds v (some (w.clock + 1)) } := by
    simp only [step, hStack, hDone]
  exact ⟨_, .next (by simp only [visit?, hStack, hDone]) hStep (.nothing _), rfl, fun _ _ _ => rfl⟩

/-- Going to the next child of a vertex. -/
theorem makes_enter {c : Nat} {rest : List Nat} (hStack : w.stack = v :: below)
    (hNext : w.pending.getD v [] = c :: rest) :
    ∃ w', Makes w [.enter c] w' ∧ w'.stack = c :: v :: below ∧ w'.pending.getD v [] = rest ∧
      ∀ u, u ≠ v → w'.pending.getD u [] = w.pending.getD u [] := by
  have hv : v < w.pending.size := lt_size_of_getD hNext (List.cons_ne_nil _ _)
  have hStep : w.step = some { w with
      clock := w.clock + 1
      stack := c :: v :: below
      pending := w.pending.setIfInBounds v rest
      enter := w.enter.setIfInBounds c (some (w.clock + 1)) } := by
    simp only [step, hStack, hNext]
  refine ⟨_, .next (by simp only [visit?, hStack, hNext]) hStep (.nothing _), rfl, ?_, ?_⟩
  · simp [hv]
  · intro u hu
    simp [Array.getElem?_setIfInBounds_ne hu.symm]

section

variable (h : Rooted parent root)
include h

/-- The children of a vertex are gone around one after the other. What is below one child
is not below another, so it is still fresh when its turn comes. -/
theorem goesAround_children {n depth : Nat} {children : List Nat}
    (hDepth : Depth parent root v n)
    (hChild : ∀ c w, parent.getD c none = some v → Fresh parent c (v :: below) w →
      ∃ visits w', tour (childrenIn parent) depth c = .enter c :: visits ∧
        GoesAround parent c (v :: below) w visits w')
    (hMem : ∀ c ∈ children, parent.getD c none = some v) (hNodup : children.Nodup)
    (hStack : w.stack = v :: below) (hPending : w.pending.getD v [] = children)
    (hFresh : ∀ c ∈ children, ∀ u, u = c ∨ Above parent c u →
      w.pending.getD u [] = childrenIn parent u) :
    ∃ w', GoesAround parent v below w
      (children.flatMap (tour (childrenIn parent) depth) ++ [.leave v]) w' := by
  induction children generalizing w with
  | nil => exact goesAround_leave hStack hPending
  | cons c rest ih =>
      have hBelow : ∀ d ∈ c :: rest, ∀ u, u = d ∨ Above parent d u → u ≠ v := by
        rintro d hd u hu rfl
        exact h.not_above_self hDepth (.of_child (hMem d hd) hu)
      obtain ⟨w₁, hEnter, hStack₁, hPending₁, hFrame₁⟩ := makes_enter hStack hPending
      obtain ⟨visits, w₂, hTour, hAround⟩ := hChild c w₁ (hMem c List.mem_cons_self)
        ⟨hStack₁, fun u hu => (hFrame₁ u (hBelow c List.mem_cons_self u hu)).trans
          (hFresh c List.mem_cons_self u hu)⟩
      -- beside the vertex itself, only what is below the child has changed
      have hKept : ∀ u, ¬ (u = c ∨ Above parent c u) →
          w₂.pending.getD u [] = w₁.pending.getD u [] := fun u hu =>
        hAround.frame u (fun hEq => hu (.inl hEq)) fun hAbove => hu (.inr hAbove)
      obtain ⟨hOut, hNodupRest⟩ := List.nodup_cons.mp hNodup
      have hFresh₂ : ∀ d ∈ rest, ∀ u, u = d ∨ Above parent d u →
          w₂.pending.getD u [] = childrenIn parent u := by
        intro d hd u hu
        have hdMem := List.mem_cons_of_mem c hd
        have hOther : ¬ (u = c ∨ Above parent c u) := by
          intro hc
          obtain rfl := child_unique h hDepth (hMem c List.mem_cons_self) (hMem d hdMem) hc hu
          exact hOut hd
        rw [hKept u hOther, hFrame₁ u (hBelow d hdMem u hu), hFresh d hdMem u hu]
      have hPending₂ : w₂.pending.getD v [] = rest :=
        (hKept v fun hv => hBelow c List.mem_cons_self v hv rfl).trans hPending₁
      obtain ⟨w₃, hRest⟩ := ih (fun d hd => hMem d (List.mem_cons_of_mem _ hd)) hNodupRest
        hAround.stack hPending₂ hFresh₂
      refine ⟨w₃, ?_, hRest.stack, fun u hu hAbove => ?_⟩
      · have hMakes := (hEnter.trans hAround.makes).trans hRest.makes
        rwa [List.flatMap_cons, hTour, List.append_assoc]
      · have hOther : ¬ (u = c ∨ Above parent c u) := fun hc =>
          hAbove (.of_child (hMem c List.mem_cons_self) hc)
        rw [hRest.frame u hu hAbove, hKept u hOther, hFrame₁ u hu]

/-- From a vertex just entered, the tour goes around what is below it as the walk does. -/
theorem goesAround {n depth : Nat} (hDepth : Depth parent root v n)
    (hRoom : depth + n + 1 = parent.size) (hFresh : Fresh parent v below w) :
    ∃ w', GoesAround parent v below w
      ((childrenIn parent v).flatMap (tour (childrenIn parent) depth) ++ [.leave v]) w' := by
  induction depth using Nat.strongRecOn generalizing v n w below with
  | ind depth ih =>
      refine goesAround_children h hDepth (fun c w hEntry hc => ?_) (fun c => mem_childrenIn.mp)
        (List.nodup_range.filter _) hFresh.stack (hFresh.pending v (.inl rfl))
        fun c hc u hu => hFresh.pending u (.inr (.of_child (mem_childrenIn.mp hc) hu))
      -- a child is deep enough for its part of the walk not to be cut short
      have hcDepth : Depth parent root c (n + 1) := .step hEntry hDepth
      have hLess := h.depth_lt_size hcDepth
      obtain ⟨k, rfl⟩ : ∃ k, depth = k + 1 := ⟨depth - 1, by omega⟩
      obtain ⟨w', hAround⟩ := ih k (by omega) hcDepth (by omega) hc
      exact ⟨_, w', rfl, hAround⟩

/-- At the start only the root has been entered, at time zero. -/
theorem start_time (x : Visit) :
    (start parent root).time x = if x = .enter root then some 0 else none := by
  have hNone (v : Nat) :
      ((Array.replicate parent.size none : Array (Option Nat))[v]?).getD none = none := by
    by_cases hv : v < parent.size <;> simp [hv]
  cases x with
  | enter v =>
      by_cases hEq : root = v
      · subst hEq
        simp [time, start, h.root_lt]
      · simp [time, start, Ne.symm hEq, Array.getElem?_setIfInBounds_ne hEq, hNone]
  | leave v => simp [time, start, hNone]

theorem start_fresh : Fresh parent root [] (start parent root) := by
  refine ⟨rfl, fun u hu => ?_⟩
  obtain ⟨n, hDepth⟩ := (exists_depth_iff h).mpr hu
  simp [start, h.lt_size hDepth]

end

end Tour

namespace DomTree

/-- The walk by which times are told. -/
def walk (parent : Array (Option Nat)) (root : Nat) : List Visit :=
  tour (childrenIn parent) parent.size root

section

variable (h : Rooted parent root)
include h

theorem nodup_walk : (walk parent root).Nodup :=
  nodup_tour h parent.size .root

/-- The times are the positions in the walk. -/
theorem time_run (x : Visit) :
    (Tour.start parent root).run.time x =
      if x.vertex < parent.size then (walk parent root).idxOf? x else none := by
  obtain ⟨depth, hSize⟩ : ∃ depth, depth + 0 + 1 = parent.size :=
    ⟨parent.size - 1, by have hLt := h.root_lt; omega⟩
  obtain ⟨w, hAround⟩ := Tour.goesAround h .root hSize (Tour.start_fresh h)
  have hRun : (Tour.start parent root).run = w :=
    hAround.makes.run_eq.trans (Tour.run_of_empty hAround.stack)
  have hStart : (Tour.start parent root).Sized parent.size := by
    constructor <;> simp [Tour.start]
  rw [hRun]
  split
  case isTrue hx =>
    have hNodup := nodup_walk h
    rw [walk, ← hSize, tour] at hNodup ⊢
    obtain ⟨hFresh, hNodup⟩ := List.nodup_cons.mp hNodup
    rw [hAround.makes.time_eq hStart hNodup hx, Tour.start_time h, List.idxOf?_cons]
    by_cases hEq : x = .enter root
    · subst hEq
      simp [List.idxOf?_eq_none_iff.mpr hFresh]
    · have hTick : (fun k => (Tour.start parent root).clock + 1 + k) = (· + 1) := by
        funext k
        exact Nat.add_comm 1 k
      rw [if_neg hEq, if_neg (by simpa using Ne.symm hEq), Option.or_none, hTick]
  case isFalse hx => exact (hAround.makes.sized hStart).time_eq_none hx

theorem enter?_ofParents :
    (ofParents parent root).enter? a =
      if a < parent.size then (walk parent root).idxOf? (.enter a) else none :=
  time_run h (.enter a)

theorem leave?_ofParents :
    (ofParents parent root).leave? a =
      if a < parent.size then (walk parent root).idxOf? (.leave a) else none :=
  time_run h (.leave a)

theorem tour_within_walk {n : Nat} (hDepth : Depth parent root a n) :
    tour (childrenIn parent) (parent.size - n) a <:+: walk parent root := by
  rcases (exists_depth_iff h).mp ⟨n, hDepth⟩ with rfl | hAbove
  · rw [h.depth_unique hDepth .root]
    exact List.infix_refl _
  · exact tour_within h hAbove .root hDepth

/-- The bound on the depth leaves room for the visits of a vertex in the tree. -/
theorem exists_tour_eq {n : Nat} (hDepth : Depth parent root a n) :
    ∃ below, tour (childrenIn parent) (parent.size - n) a =
      .enter a :: (below ++ [.leave a]) := by
  have hLess := h.depth_lt_size hDepth
  obtain ⟨k, hk⟩ : ∃ k, parent.size - n = k + 1 := ⟨parent.size - n - 1, by omega⟩
  exact ⟨_, by rw [hk, tour]⟩

/-- Between the times at which a vertex is entered and left, the walk meets exactly what
is below it. -/
theorem times_of_depth {n : Nat} (hDepth : Depth parent root a n) :
    ∃ i j, i < j ∧ (ofParents parent root).enter? a = some i ∧
      (ofParents parent root).leave? a = some j ∧
      (walk parent root).idxOf (.enter a) = i ∧ (walk parent root).idxOf (.leave a) = j ∧
      ∀ x, x ∈ tour (childrenIn parent) (parent.size - n) a ↔
        i ≤ (walk parent root).idxOf x ∧ (walk parent root).idxOf x ≤ j := by
  have hNodup := nodup_walk h
  obtain ⟨below, hTour⟩ := exists_tour_eq h hDepth
  obtain ⟨pre, post, hWalk⟩ := tour_within_walk h hDepth
  rw [hTour] at hWalk ⊢
  have hEnter : (walk parent root).idxOf (.enter a) = pre.length :=
    idxOf_of_split (below ++ [.leave a] ++ post) hNodup (by simp [← hWalk])
  have hLeave : (walk parent root).idxOf (.leave a) = (pre ++ .enter a :: below).length :=
    idxOf_of_split post hNodup (by simp [← hWalk])
  refine ⟨_, _, ?_, ?_, ?_, hEnter, hLeave, fun x => ?_⟩
  · simp only [List.length_append, List.length_cons]
    omega
  · rw [enter?_ofParents h, if_pos (h.lt_size hDepth), idxOf?_of_mem (by simp [← hWalk]), hEnter]
  · rw [leave?_ofParents h, if_pos (h.lt_size hDepth), idxOf?_of_mem (by simp [← hWalk]), hLeave]
  · have hBetween := mem_infix_iff (x := x) (hWalk.symm ▸ hNodup)
    rw [hWalk] at hBetween
    rw [hBetween]
    simp only [List.length_append, List.length_cons, List.length_nil]
    omega

/-- A vertex with a time is in the tree. -/
theorem exists_depth_of_enter {i : Nat} (hTime : (ofParents parent root).enter? a = some i) :
    ∃ n, Depth parent root a n := by
  rw [enter?_ofParents h] at hTime
  split at hTime
  case isTrue =>
    have hMem : .enter a ∈ walk parent root := by
      by_contra hOut
      rw [List.idxOf?_eq_none_iff.mpr hOut] at hTime
      cases hTime
    exact (exists_depth_iff h).mpr (above_of_mem_tour hMem)
  case isFalse => cases hTime

/-- The times tell which vertex is above which. -/
theorem dominates_ofParents :
    (ofParents parent root).dominates a b = true ↔ a = b ∨ Above parent a b := by
  rw [dominates, Bool.or_eq_true, beq_iff_eq]
  constructor
  · rintro (hEq | hTimes)
    · exact .inl hEq
    · split at hTimes
      case h_1 enterA leaveA enterB leaveB hEnterA hLeaveA hEnterB hLeaveB =>
        obtain ⟨n, ha⟩ := exists_depth_of_enter h hEnterA
        obtain ⟨m, hb⟩ := exists_depth_of_enter h hEnterB
        obtain ⟨i, j, _, hi, hj, _, _, hIn⟩ := times_of_depth h ha
        obtain ⟨k, l, hLess, hk, hl, hEnter, _, _⟩ := times_of_depth h hb
        obtain rfl := Option.some.inj (hEnterA.symm.trans hi)
        obtain rfl := Option.some.inj (hLeaveA.symm.trans hj)
        obtain rfl := Option.some.inj (hEnterB.symm.trans hk)
        obtain rfl := Option.some.inj (hLeaveB.symm.trans hl)
        simp only [Bool.and_eq_true, decide_eq_true_eq] at hTimes
        have hBelow := above_of_mem_tour ((hIn (.enter b)).mpr ⟨by omega, by omega⟩)
        exact hBelow.imp_left Eq.symm
      case h_2 => cases hTimes
  · rintro (hEq | hAbove)
    · exact .inl hEq
    · obtain ⟨n, ha⟩ := exists_depth_of_above h hAbove
      obtain ⟨m, hb⟩ : ∃ m, Depth parent root b m := by
        cases hAbove with
        | parent entry => exact (h.reaches _ _ entry).exists_depth
        | step entry _ => exact (h.reaches _ _ entry).exists_depth
      obtain ⟨i, j, _, hi, hj, _, _, hIn⟩ := times_of_depth h ha
      obtain ⟨k, l, hLess, hk, hl, hEnter, hLeave, hOwn⟩ := times_of_depth h hb
      have hSub := (tour_within h hAbove ha hb).subset
      have hFirst := (hIn _).mp (hSub ((hOwn (.enter b)).mpr ⟨by omega, by omega⟩))
      have hLast := (hIn _).mp (hSub ((hOwn (.leave b)).mpr ⟨by omega, by omega⟩))
      simp only [hi, hj, hk, hl, Bool.and_eq_true, decide_eq_true_eq]
      omega

end

end DomTree

end RefElision
