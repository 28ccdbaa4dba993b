import Mathlib.Data.List.Induction
import Mathlib.Data.List.Nodup
import RefElision.Proofs.Graph.Dominators

/-! Taking turns. A node opens something and some other nodes close it; on a list of nodes
the two kinds take turns if what is opened was closed and what is closed was open. -/
namespace RefElision

variable {α : Type} [DecidableEq α]

/-- Whether it is open after a node, given whether it was open before. There is no answer
if it is opened twice or closed twice. -/
def turn (opener : α) (closers : List α) (isOpen : Bool) (x : α) : Option Bool :=
  if x ∈ closers then if isOpen then some false else none
  else if x = opener then if isOpen then none else some true
  else some isOpen

/-- Whether it is open after all nodes of a list. -/
def turns (opener : α) (closers : List α) : Bool → List α → Option Bool
  | isOpen, [] => some isOpen
  | isOpen, x :: rest => (turn opener closers isOpen x).bind fun next => turns opener closers next rest

variable {opener : α} {closers : List α} {isOpen isOpen' : Bool} {p q : List α}

theorem turns_append :
    turns opener closers isOpen (p ++ q) =
      (turns opener closers isOpen p).bind fun next => turns opener closers next q := by
  induction p generalizing isOpen with
  | nil => rfl
  | cons x rest ih =>
      simp only [List.cons_append, turns, Option.bind_assoc]
      congr 1
      funext next
      exact ih

/-- Nodes of neither kind change nothing. -/
theorem turns_of_disjoint (hOpener : opener ∉ p) (hClosers : ∀ x ∈ p, x ∉ closers) :
    turns opener closers isOpen p = some isOpen := by
  induction p with
  | nil => rfl
  | cons x rest ih =>
      have hx : turn opener closers isOpen x = some isOpen := by
        have hne : x ≠ opener := fun hEq => hOpener (hEq ▸ List.mem_cons_self)
        simp [turn, hClosers x List.mem_cons_self, hne]
      rw [turns, hx]
      apply ih
      · exact fun hMem => hOpener (List.mem_cons_of_mem _ hMem)
      · exact fun y hy => hClosers y (List.mem_cons_of_mem _ hy)

/-- Only one node of a list matters if all others are of neither kind. -/
theorem turns_of_only (hNodup : p.Nodup) {x : α} (hx : x ∈ p)
    (hOnly : ∀ y ∈ p, y = opener ∨ y ∈ closers → y = x) :
    turns opener closers isOpen p = turn opener closers isOpen x := by
  obtain ⟨front, back, rfl⟩ := List.append_of_mem hx
  have hMiss : ∀ y ∈ front ++ back, y ≠ x := by
    rintro y hy rfl
    rw [List.nodup_middle, List.nodup_cons] at hNodup
    exact hNodup.1 hy
  have hNeither : ∀ y ∈ front ++ back, y ≠ opener ∧ y ∉ closers := by
    intro y hy
    have hMem : y ∈ front ++ x :: back := by
      simp only [List.mem_append, List.mem_cons] at hy ⊢
      exact hy.imp_right .inr
    exact ⟨fun hEq => hMiss y hy (hOnly y hMem (.inl hEq)),
      fun hIn => hMiss y hy (hOnly y hMem (.inr hIn))⟩
  have hFront : turns opener closers isOpen front = some isOpen :=
    turns_of_disjoint (fun hMem => (hNeither _ (List.mem_append_left _ hMem)).1 rfl)
      fun y hy => (hNeither y (List.mem_append_left _ hy)).2
  rw [turns_append, hFront, Option.bind_some, turns]
  cases turn opener closers isOpen x with
  | none => rfl
  | some next =>
      exact turns_of_disjoint (fun hMem => (hNeither _ (List.mem_append_right _ hMem)).1 rfl)
        fun y hy => (hNeither y (List.mem_append_right _ hy)).2

/-- A node that is opened and then closed once is closed in the end. -/
theorem turns_of_pair {closer : α} (hNodup : (p ++ opener :: q).Nodup) (hCloser : closer ∈ q) :
    turns opener [closer] false (p ++ opener :: q) = some false := by
  obtain ⟨_, hBack, hApart⟩ := List.nodup_append.mp hNodup
  rw [List.nodup_cons] at hBack
  have hne : opener ≠ closer := fun hEq => hBack.1 (hEq ▸ hCloser)
  have hFront : turns opener [closer] false p = some false := by
    apply turns_of_disjoint
    · exact fun hMem => hApart _ hMem _ List.mem_cons_self rfl
    · intro x hx hIn
      exact hApart x hx closer (List.mem_cons_of_mem _ hCloser) (List.mem_singleton.mp hIn)
  have hOpener : turn opener [closer] false opener = some true := by
    simp [turn, hne]
  have hOnly : ∀ y ∈ q, y = opener ∨ y ∈ [closer] → y = closer := by
    rintro y hy (rfl | hIn)
    · exact (hBack.1 hy).elim
    · exact List.mem_singleton.mp hIn
  rw [turns_append, hFront, Option.bind_some, turns, hOpener, Option.bind_some,
    turns_of_only hBack.2 hCloser hOnly]
  simp [turn]

/-- The three kinds of nodes. -/
theorem turn_cases {x : α} {next : Bool} (h : turn opener closers isOpen x = some next) :
    (x ∈ closers ∧ isOpen = true ∧ next = false) ∨
      (x ∉ closers ∧ x = opener ∧ isOpen = false ∧ next = true) ∨
      (x ∉ closers ∧ x ≠ opener ∧ next = isOpen) := by
  unfold turn at h
  by_cases hCloser : x ∈ closers
  · cases isOpen <;> simp_all
  · by_cases hOpener : x = opener
    · cases isOpen <;> simp_all
    · simp_all

/-- What is open was open from the start, or else was opened; it was not closed since. -/
theorem of_turns_eq_true (h : turns opener closers isOpen p = some true) :
    (isOpen = true ∧ ∀ x ∈ p, x ∉ closers) ∨
      ∃ front back, p = front ++ opener :: back ∧ ∀ x ∈ back, x ∉ closers := by
  induction p generalizing isOpen with
  | nil => exact .inl ⟨Option.some.inj h, by simp⟩
  | cons x rest ih =>
      rw [turns] at h
      obtain ⟨next, hTurn, hRest⟩ := Option.bind_eq_some_iff.mp h
      rcases ih hRest with ⟨rfl, hMiss⟩ | ⟨front, back, rfl, hMiss⟩
      · rcases turn_cases hTurn with ⟨_, _, hFalse⟩ | ⟨_, rfl, _, _⟩ | ⟨hx, _, hEq⟩
        · cases hFalse
        · exact .inr ⟨[], rest, rfl, hMiss⟩
        · exact .inl ⟨hEq.symm, List.forall_mem_cons.mpr ⟨hx, hMiss⟩⟩
      · exact .inr ⟨x :: front, back, rfl, hMiss⟩

/-- The numbers of openers and of closers differ by what is open. -/
theorem count_of_turns (hOut : opener ∉ closers)
    (h : turns opener closers isOpen p = some isOpen') :
    (p.count opener : Int) - p.countP (· ∈ closers) = isOpen'.toInt - isOpen.toInt := by
  induction p generalizing isOpen with
  | nil =>
      obtain rfl := Option.some.inj h
      simp
  | cons x rest ih =>
      rw [turns] at h
      cases hTurn : turn opener closers isOpen x with
      | none => rw [hTurn] at h; cases h
      | some next =>
          rw [hTurn, Option.bind_some] at h
          have hRest := ih h
          rw [List.count_cons, List.countP_cons]
          rcases turn_cases hTurn with ⟨hx, rfl, rfl⟩ | ⟨hx, rfl, rfl, rfl⟩ | ⟨hx, hne, rfl⟩
          · have hne : x ≠ opener := fun hEq => hOut (hEq ▸ hx)
            simp [hx, hne] at hRest ⊢
            omega
          · simp [hx] at hRest ⊢
            omega
          · simpa [hx, hne] using hRest

/-- With a single closer, what is closed in the end was opened and closed in pairs, one after
the other, and nothing else of the two kinds was passed. -/
theorem filter_of_turns {closer : α} (hne : opener ≠ closer)
    (h : turns opener [closer] isOpen p = some false) :
    ∃ n, p.filter (fun x => x == opener || x == closer) =
      (if isOpen then [closer] else []) ++ (List.replicate n [opener, closer]).flatten := by
  induction p generalizing isOpen with
  | nil =>
      obtain rfl := Option.some.inj h
      exact ⟨0, rfl⟩
  | cons x rest ih =>
      rw [turns] at h
      obtain ⟨next, hTurn, hRest⟩ := Option.bind_eq_some_iff.mp h
      obtain ⟨n, hPairs⟩ := ih hRest
      rcases turn_cases hTurn with ⟨hx, rfl, rfl⟩ | ⟨_, rfl, rfl, rfl⟩ | ⟨hx, hOther, rfl⟩
      · have hCloser : x = closer := List.mem_singleton.mp hx
        exact ⟨n, by simp [hCloser, hPairs]⟩
      · exact ⟨n + 1, by simp [hPairs, List.replicate_succ]⟩
      · have hCloser : x ≠ closer := fun hEq => hx (List.mem_singleton.mpr hEq)
        exact ⟨n, by simp [hOther, hCloser, hPairs]⟩

/-- The openers and closers in a list, in order. -/
def marks (opener : α) (closers p : List α) : List α :=
  p.filter fun x => x == opener || closers.contains x

theorem marks_cons (x : α) (p : List α) : marks opener closers (x :: p) =
    if x = opener ∨ x ∈ closers then x :: marks opener closers p else marks opener closers p := by
  simp [marks, List.filter_cons]

theorem marks_concat (p : List α) (x : α) : marks opener closers (p ++ [x]) =
    if x = opener ∨ x ∈ closers then marks opener closers p ++ [x] else marks opener closers p := by
  rw [marks, List.filter_append, ← marks, ← marks, marks_cons]
  split
  case isTrue => rfl
  case isFalse => exact List.append_nil _

/-- Openers and closers alternate along a list, and an opener comes first. -/
def Alternate (opener : α) (closers p : List α) : Prop :=
  ∀ i x, (marks opener closers p)[i]? = some x → if i % 2 = 0 then x = opener else x ∈ closers

/-- The marks alternate. What is open from the start counts as one more opener in front. -/
theorem getElem?_marks (h : turns opener closers isOpen p = some isOpen') {i : Nat} {x : α}
    (hx : (marks opener closers p)[i]? = some x) :
    if (i + isOpen.toNat) % 2 = 0 then x = opener else x ∈ closers := by
  induction p generalizing isOpen i with
  | nil => simp [marks] at hx
  | cons y rest ih =>
      rw [turns] at h
      obtain ⟨next, hTurn, hRest⟩ := Option.bind_eq_some_iff.mp h
      rw [marks_cons] at hx
      rcases turn_cases hTurn with ⟨hy, rfl, rfl⟩ | ⟨_, hy, rfl, rfl⟩ | ⟨hCloser, hOther, rfl⟩
      · rw [if_pos (.inr hy)] at hx
        cases i with
        | zero => simpa [← Option.some.inj hx] using hy
        | succ i =>
            have hParity : (i + 1 + true.toNat) % 2 = (i + false.toNat) % 2 := by simp; omega
            rw [hParity]
            exact ih hRest hx
      · rw [if_pos (.inl hy)] at hx
        cases i with
        | zero => simpa [← Option.some.inj hx] using hy
        | succ i => exact ih hRest hx
      · rw [if_neg (by simp [hCloser, hOther])] at hx
        exact ih hRest hx

theorem alternate_of_turns (h : turns opener closers false p = some isOpen') :
    Alternate opener closers p :=
  fun _ _ hx => getElem?_marks h hx

/-- The last mark tells whether it is open. -/
theorem getLast?_marks (h : turns opener closers isOpen p = some isOpen') {x : α}
    (hx : (marks opener closers p).getLast? = some x) :
    if isOpen' then x = opener else x ∈ closers := by
  induction p using List.reverseRecOn generalizing isOpen' with
  | nil => simp [marks] at hx
  | append_singleton p y ih =>
      rw [turns_append] at h
      obtain ⟨before, hFront, hLast⟩ := Option.bind_eq_some_iff.mp h
      rw [turns] at hLast
      obtain ⟨next, hTurn, hNext⟩ := Option.bind_eq_some_iff.mp hLast
      obtain rfl : next = isOpen' := Option.some.inj hNext
      rw [marks_concat] at hx
      rcases turn_cases hTurn with ⟨hy, _, rfl⟩ | ⟨_, hy, _, rfl⟩ | ⟨hCloser, hOther, rfl⟩
      · rw [if_pos (.inr hy), List.getLast?_concat] at hx
        exact Option.some.inj hx ▸ hy
      · rw [if_pos (.inl hy), List.getLast?_concat] at hx
        exact Option.some.inj hx ▸ hy
      · rw [if_neg (by simp [hCloser, hOther])] at hx
        exact ih hFront hx

/-- Along edges a node and some others take turns: the first comes before the others, and
between two visits to either kind there is one to the other kind. A path that ends
after the first was visited has visited one of the others. -/
structure TakeTurns (succ : α → List α) (root opener : α) (closers : List α) : Prop where
  distinct : opener ∉ closers
  opener_first : ∀ x ∈ closers, Dominates succ root opener x
  opener_between : ∀ x ∈ closers, ∀ t ∈ succ x, ∀ y ∈ closers, ∀ q, Path succ t y q → opener ∈ q
  closer_between : ∀ t ∈ succ opener, ∀ q, Path succ t opener q → ∃ x ∈ closers, x ∈ q
  closer_last : ∀ z q, Path succ opener z q → succ z = [] → ∃ x ∈ closers, x ∈ q

namespace TakeTurns

variable {succ : α → List α} {root z : α}

/-- What it means for a path to leave it open or closed. -/
def Left (opener : α) (closers p : List α) : Bool → Prop
  | true => ∃ front back, p = front ++ opener :: back ∧ ∀ x ∈ back, x ∉ closers
  | false => opener ∉ p ∨
      ∃ front x back, x ∈ closers ∧ p = front ++ x :: back ∧ opener ∉ back

/-- One more node on a path. -/
theorem left_concat (h : TakeTurns succ root opener closers) (hPath : Path succ root z (p ++ [z]))
    (hLeft : Left opener closers p isOpen) :
    ∃ next, turn opener closers isOpen z = some next ∧ Left opener closers (p ++ [z]) next := by
  by_cases hCloser : z ∈ closers
  · cases isOpen with
    | true => exact ⟨false, by simp [turn, hCloser], .inr ⟨p, z, [], hCloser, rfl, by simp⟩⟩
    | false =>
        have hne : opener ≠ z := fun hEq => h.distinct (hEq ▸ hCloser)
        rcases hLeft with hNever | ⟨front, x, back, hx, rfl, hBack⟩
        · have hMem := h.opener_first z hCloser _ hPath
          simp [hNever, hne] at hMem
        · rw [List.append_assoc, List.cons_append] at hPath
          obtain ⟨t, ht, hRest⟩ := (hPath.split rfl).2.tail (by simp)
          have hMem := h.opener_between x hx t ht z hCloser _ hRest
          simp [hBack, hne] at hMem
  · by_cases hOpener : z = opener
    · subst hOpener
      cases isOpen with
      | true =>
          obtain ⟨front, back, rfl, hBack⟩ := hLeft
          rw [List.append_assoc, List.cons_append] at hPath
          obtain ⟨t, ht, hRest⟩ := (hPath.split rfl).2.tail (by simp)
          obtain ⟨x, hx, hMem⟩ := h.closer_between t ht _ hRest
          rcases List.mem_append.mp hMem with hIn | hLast
          · exact (hBack x hIn hx).elim
          · exact (hCloser (List.mem_singleton.mp hLast ▸ hx)).elim
      | false => exact ⟨true, by simp [turn, hCloser], p, [], rfl, by simp⟩
    · refine ⟨isOpen, by simp [turn, hCloser, hOpener], ?_⟩
      cases isOpen with
      | true =>
          obtain ⟨front, back, rfl, hBack⟩ := hLeft
          refine ⟨front, back ++ [z], by simp, fun x hx => ?_⟩
          rcases List.mem_append.mp hx with hIn | hLast
          · exact hBack x hIn
          · exact List.mem_singleton.mp hLast ▸ hCloser
      | false =>
          rcases hLeft with hNever | ⟨front, x, back, hx, rfl, hBack⟩
          · exact .inl (by simp [hNever, Ne.symm hOpener])
          · exact .inr ⟨front, x, back ++ [z], hx, by simp, by simp [hBack, Ne.symm hOpener]⟩

/-- On every path from the root the two kinds take turns. -/
theorem turns_of_path (h : TakeTurns succ root opener closers) (hPath : Path succ root z p) :
    ∃ last, turns opener closers false p = some last ∧ Left opener closers p last := by
  induction p using List.reverseRecOn generalizing z with
  | nil => exact (hPath.ne_nil rfl).elim
  | append_singleton p x ih =>
      obtain ⟨rfl, hCases⟩ := hPath.concat_cases
      have hFront : ∃ before, turns opener closers false p = some before ∧
          Left opener closers p before := by
        rcases hCases with rfl | ⟨y, hFront, _⟩
        · exact ⟨false, rfl, .inl (by simp)⟩
        · exact ih hFront
      obtain ⟨before, hTurns, hLeft⟩ := hFront
      obtain ⟨next, hTurn, hNext⟩ := h.left_concat hPath hLeft
      refine ⟨next, ?_, hNext⟩
      rw [turns_append, hTurns, Option.bind_some, turns, hTurn]
      rfl

/-- A path that ends leaves it closed. -/
theorem turns_of_complete (h : TakeTurns succ root opener closers) (hPath : Path succ root z p)
    (hEnd : succ z = []) : turns opener closers false p = some false := by
  obtain ⟨last, hTurns, hLeft⟩ := h.turns_of_path hPath
  cases last with
  | false => exact hTurns
  | true =>
      obtain ⟨front, back, hSplit, hBack⟩ := hLeft
      obtain ⟨x, hx, hMem⟩ := h.closer_last z _ (hPath.split hSplit).2 hEnd
      rcases List.mem_cons.mp hMem with rfl | hIn
      · exact (h.distinct hx).elim
      · exact (hBack x hIn hx).elim

end TakeTurns

end RefElision
