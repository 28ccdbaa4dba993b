import RefElision.Proofs.Refs.Counting
import RefElision.Proofs.Refs.Delays

/-! Executing a function along a path. A value may be read only while its count is at least
one; an execution that keeps to this is safe. Delaying decrefs keeps it safe, and so
does erasing steps if a decref that is left never runs while the count is behind. -/
namespace RefElision

/-- What is executed: the instructions of a block and at last its terminator. -/
inductive Step where
  | instr (i : Instr)
  | term (t : Terminator Value)
  deriving DecidableEq, Repr

namespace Step

def uses : Step → List Value
  | .instr i => i.uses
  | .term t => t.uses

def effect (s : Symbols) (v : Value) : Step → Int
  | .instr i => s.effect v i
  | .term _ => 0

def instr? : Step → Option Instr
  | .instr i => some i
  | .term _ => none

/-- By how much steps change the count of a value together. -/
def net (s : Symbols) (v : Value) (steps : List Step) : Int :=
  (steps.map (effect s v)).sum

end Step

/-- Starting with a count, the count is at least one before each step that reads the value. -/
def Safe (s : Symbols) (v : Value) : Int → List Step → Prop
  | _, [] => True
  | n, x :: rest => (v ∈ x.uses → 1 ≤ n) ∧ Safe s v (n + x.effect s v) rest

instance Safe.decidable (s : Symbols) (v : Value) :
    (n : Int) → (steps : List Step) → Decidable (Safe s v n steps)
  | _, [] => .isTrue trivial
  | n, x :: rest =>
    have : Decidable (Safe s v (n + x.effect s v) rest) := Safe.decidable s v _ rest
    inferInstanceAs (Decidable (_ ∧ _))

namespace Func

/-- The steps of a block, none if there is no such block. -/
def stepsAt (f : Func) (l : Label) : List Step :=
  ((f.block? l).map fun b => b.body.map .instr ++ [.term b.term]).getD []

/-- The steps along a path. -/
def steps (f : Func) (p : List Label) : List Step :=
  p.flatMap f.stepsAt

end Func

namespace Symbols

variable {s : Symbols} {v w : Value} {i : Instr} {kind : RefKind}

theorem uses_of_classify (h : s.classify i = some (kind, w)) : i.uses = [w] := by
  rw [classify] at h
  split at h
  case h_1 callee v _ hArgs =>
    rw [Instr.uses, hArgs]
    split at h
    case isTrue => simp_all
    case isFalse =>
      split at h
      case isTrue => simp_all
      case isFalse => cases h
  case h_2 => cases h

/-- An instruction that changes the count of a value is an operation on it. -/
theorem classify_of_effect (h : s.effect v i ≠ 0) :
    ∃ kind, s.classify i = some (kind, v) ∧ s.effect v i = kind.change := by
  rw [effect] at h ⊢
  cases hClassify : s.classify i with
  | none => simp [hClassify] at h
  | some x =>
      obtain ⟨kind, w⟩ := x
      rw [hClassify] at h
      by_cases hw : w = v
      · exact ⟨kind, by rw [hw], by simp [hw]⟩
      · simp [hw] at h

theorem mem_uses_of_effect (h : s.effect v i ≠ 0) : v ∈ i.uses := by
  obtain ⟨kind, hClassify, _⟩ := classify_of_effect h
  simp [uses_of_classify hClassify]

theorem classify_of_effect_neg (h : s.effect v i < 0) : s.classify i = some (.decref, v) := by
  obtain ⟨kind, hClassify, hChange⟩ := classify_of_effect (Int.ne_of_lt h)
  cases kind with
  | incref =>
      rw [hChange, RefKind.change] at h
      omega
  | decref => exact hClassify

theorem neg_one_le_effect (s : Symbols) (v : Value) (i : Instr) : -1 ≤ s.effect v i := by
  by_cases h : s.effect v i = 0
  · omega
  · obtain ⟨kind, _, hChange⟩ := classify_of_effect h
    rw [hChange]
    cases kind <;> simp [RefKind.change]

/-- A decref takes one from the count of its value, which is all that it reads. -/
theorem effect_of_isDecref (h : s.isDecref i = true) (v : Value) :
    s.effect v i = if v ∈ i.uses then -1 else 0 := by
  rw [isDecref] at h
  cases hClassify : s.classify i with
  | none => rw [hClassify] at h; cases h
  | some x =>
      obtain ⟨kind, w⟩ := x
      obtain rfl : kind = .decref := by simpa [hClassify] using h
      rw [effect, hClassify, uses_of_classify hClassify]
      simp [RefKind.change, eq_comm]

end Symbols

namespace Safe

variable {s : Symbols} {v : Value} {n : Int}

/-- What comes after some steps may be replaced. -/
theorem append_congr {back back' : List Step} (h : ∀ m, Safe s v m back → Safe s v m back')
    (front : List Step) (hSafe : Safe s v n (front ++ back)) : Safe s v n (front ++ back') := by
  induction front generalizing n with
  | nil => exact h n hSafe
  | cons x rest ih => exact ⟨hSafe.1, ih hSafe.2⟩

/-- Delaying a decref keeps an execution safe: what it was moved behind is executed with a
larger count than before. -/
theorem swap {d : Instr} (hd : s.isDecref d = true) (i : Instr) {rest : List Step}
    (hSafe : Safe s v n (.instr d :: .instr i :: rest)) :
    Safe s v n (.instr i :: .instr d :: rest) := by
  obtain ⟨hFirst, hSecond, hRest⟩ := hSafe
  simp only [Step.uses, Step.effect] at hFirst hSecond hRest
  have hEffect := Symbols.effect_of_isDecref hd v
  have hLow := Symbols.neg_one_le_effect s v i
  refine ⟨fun hUse => ?_, fun hUse => ?_, ?_⟩
  · have hAfter := hSecond hUse
    split at hEffect <;> omega
  · simp only [Step.uses] at hUse
    have hBefore := hFirst hUse
    rw [if_pos hUse] at hEffect
    by_cases hZero : s.effect v i = 0
    · simp only [Step.effect, hZero]
      omega
    · have hAfter := hSecond (Symbols.mem_uses_of_effect hZero)
      simp only [Step.effect]
      omega
  · simp only [Step.effect]
    rwa [Int.add_right_comm]

theorem delays {xs ys : List Instr} (h : Delays s xs ys) {rest : List Step}
    (hSafe : Safe s v n (xs.map .instr ++ rest)) : Safe s v n (ys.map .instr ++ rest) := by
  induction h generalizing n with
  | refl xs => exact hSafe
  | swap i tail hd => exact Safe.swap hd i hSafe
  | cons i _ ih => exact ⟨hSafe.1, ih hSafe.2⟩
  | trans _ _ ihFirst ihSecond => exact ihSecond (ihFirst hSafe)

end Safe

namespace Step

variable {s : Symbols} {v : Value}

theorem mem_uses_of_effect {x : Step} (h : x.effect s v ≠ 0) : v ∈ x.uses := by
  cases x with
  | instr i => exact Symbols.mem_uses_of_effect h
  | term t => exact (h rfl).elim

theorem net_append (front back : List Step) :
    net s v (front ++ back) = net s v front + net s v back := by
  rw [net, List.map_append, List.sum_append]
  rfl

theorem net_concat (steps : List Step) (x : Step) :
    net s v (steps ++ [x]) = net s v steps + x.effect s v := by
  rw [net_append]
  simp [net]

/-- A step that is erased does not count. -/
theorem net_filter_concat (keep : Step → Bool) (steps : List Step) (x : Step) :
    net s v ((steps ++ [x]).filter keep) =
      net s v (steps.filter keep) + if keep x then x.effect s v else 0 := by
  rw [List.filter_append, net_append]
  cases hx : keep x <;> simp [net, hx]

theorem net_eq (steps : List Step) : net s v steps = s.net v (steps.filterMap instr?) := by
  induction steps with
  | nil => rfl
  | cons x rest ih =>
      have hHead : net s v (x :: rest) = x.effect s v + net s v rest := rfl
      rw [hHead, ih]
      cases x with
      | instr i => rfl
      | term t => exact Int.zero_add _

end Step

section Filter

variable {s : Symbols} {v : Value} {n : Int} {keep : Step → Bool}

/-- The steps that come next, given what has been executed already. The invariant is that
the count with steps erased is at least one whenever it is behind. -/
theorem Safe.filter_rest {rest : List Step} (done : List Step)
    (hSafe : Safe s v (n + Step.net s v done) rest)
    (hBehind : Step.net s v (done.filter keep) < Step.net s v done →
      1 ≤ n + Step.net s v (done.filter keep))
    (hNever : ∀ front back, rest = front ++ back →
      Step.net s v ((done ++ front).filter keep) ≤ Step.net s v (done ++ front))
    (hKept : ∀ front x back, rest = front ++ x :: back → keep x = true →
      Step.net s v ((done ++ front).filter keep) < Step.net s v (done ++ front) →
      0 ≤ x.effect s v) :
    Safe s v (n + Step.net s v (done.filter keep)) (rest.filter keep) := by
  induction rest generalizing done with
  | nil => trivial
  | cons x rest ih =>
      have hNow := hNever [] (x :: rest) rfl
      rw [List.append_nil] at hNow
      have hLater := ih (done ++ [x]) (by rw [Step.net_concat, ← Int.add_assoc]; exact hSafe.2)
      rw [Step.net_concat, Step.net_filter_concat] at hLater
      simp only [List.append_assoc, List.singleton_append] at hLater
      have hNeverLater : ∀ front back, rest = front ++ back →
          Step.net s v ((done ++ x :: front).filter keep) ≤ Step.net s v (done ++ x :: front) :=
        fun front back hSplit => hNever (x :: front) back (by rw [hSplit]; rfl)
      have hKeptLater : ∀ front y back, rest = front ++ y :: back → keep y = true →
          Step.net s v ((done ++ x :: front).filter keep) < Step.net s v (done ++ x :: front) →
          0 ≤ y.effect s v :=
        fun front y back hSplit => hKept (x :: front) y back (by rw [hSplit]; rfl)
      cases hx : keep x with
      | true =>
          have hStep := hKept [] x rest rfl hx
          rw [List.append_nil] at hStep
          rw [if_pos hx] at hLater
          rw [List.filter_cons_of_pos hx]
          refine ⟨fun hUse => ?_, ?_⟩
          · have hBefore := hSafe.1 hUse
            omega
          · rw [Int.add_assoc]
            refine hLater (fun hLess => ?_) hNeverLater hKeptLater
            have hSmaller : Step.net s v (done.filter keep) < Step.net s v done := by omega
            have hOne := hBehind hSmaller
            have hUp := hStep hSmaller
            omega
      | false =>
          rw [if_neg (by simp [hx]), Int.add_zero] at hLater
          rw [List.filter_cons_of_neg (by simp [hx])]
          refine hLater (fun hLess => ?_) hNeverLater hKeptLater
          by_cases hSmaller : Step.net s v (done.filter keep) < Step.net s v done
          · exact hBehind hSmaller
          · have hUp : x.effect s v ≠ 0 := by omega
            have hBefore := hSafe.1 (Step.mem_uses_of_effect hUp)
            omega

/-- Erasing steps keeps an execution safe if the count never gets ahead that way, and no
decref that is left runs while the count is behind. -/
theorem Safe.filter {steps : List Step} (hSafe : Safe s v n steps)
    (hNever : ∀ front back, steps = front ++ back →
      Step.net s v (front.filter keep) ≤ Step.net s v front)
    (hKept : ∀ front x back, steps = front ++ x :: back → keep x = true →
      Step.net s v (front.filter keep) < Step.net s v front → 0 ≤ x.effect s v) :
    Safe s v n (steps.filter keep) := by
  have hStart : Step.net s v [] = 0 := rfl
  have hRun : Safe s v (n + Step.net s v ([].filter keep)) (steps.filter keep) :=
    Safe.filter_rest [] (by rwa [hStart, Int.add_zero])
      (fun hLess => (Int.lt_irrefl _ hLess).elim) hNever hKept
  rwa [List.filter_nil, hStart, Int.add_zero] at hRun

end Filter

/-- Whether a step is left when tags are erased. -/
def Step.isKept (tags : List Nat) : Step → Bool
  | .instr i => !tags.contains i.tag
  | .term _ => true

/-- Erasing steps erases their instructions. -/
theorem Step.filterMap_isKept (tags : List Nat) (steps : List Step) :
    (steps.filter (isKept tags)).filterMap instr? =
      (steps.filterMap instr?).filter fun i => !tags.contains i.tag := by
  rw [List.filterMap_filter, List.filter_filterMap]
  congr 1
  funext x
  cases x with
  | instr i => simp [isKept, instr?, Option.filter]
  | term t => rfl

namespace Func

variable {f : Func} {o : Options} {l : Label}

theorem filterMap_stepsAt (l : Label) : (f.stepsAt l).filterMap Step.instr? = f.bodyAt l := by
  rw [stepsAt, bodyAt]
  cases f.block? l with
  | none => rfl
  | some b => simp [List.filterMap_map, Function.comp_def, Step.instr?]

/-- The instructions among the steps along a path. -/
theorem filterMap_steps (p : List Label) :
    (f.steps p).filterMap Step.instr? = f.executed p := by
  rw [steps, executed, List.filterMap_flatMap]
  congr 1
  funext l
  exact filterMap_stepsAt l

/-- Erasing tags erases steps. -/
theorem steps_erase (tags : List Nat) (p : List Label) :
    (f.mapBlocks fun b => b.erase tags).steps p = (f.steps p).filter (Step.isKept tags) := by
  rw [steps, steps, List.filter_flatMap]
  congr 1
  funext l
  rw [stepsAt, block?_mapBlocks (Block.bodyOnly_erase tags), stepsAt]
  cases f.block? l with
  | none => rfl
  | some b =>
      simp only [Option.map_some, Option.getD_some, Block.erase, List.filter_append,
        List.filter_map, Function.comp_def, Step.isKept]
      rfl

/-- The steps along a path, cut at one of them. -/
theorem steps_split {p : List Label} {front back : List Step} {x : Step}
    (hSplit : f.steps p = front ++ x :: back) :
    ∃ q l rest before after, p = q ++ l :: rest ∧ f.stepsAt l = before ++ x :: after ∧
      front = f.steps q ++ before := by
  induction p generalizing front with
  | nil => simp [steps] at hSplit
  | cons l rest ih =>
      have hCons : f.steps (l :: rest) = f.stepsAt l ++ f.steps rest := rfl
      rw [hCons] at hSplit
      rcases List.append_eq_append_iff.mp hSplit with ⟨middle, rfl, hRest⟩ | ⟨middle, hAt, hRest⟩
      · obtain ⟨q, m, tail, before, after, rfl, hAt, rfl⟩ := ih hRest
        exact ⟨l :: q, m, tail, before, after, rfl, hAt, by simp [steps]⟩
      · cases middle with
        | nil =>
            have hStart : f.steps rest = [] ++ x :: back := by simpa using hRest.symm
            obtain ⟨q, m, tail, before, after, rfl, hIn, hNil⟩ := ih hStart
            refine ⟨l :: q, m, tail, before, after, rfl, hIn, ?_⟩
            rw [List.append_nil] at hAt
            have hFront : f.steps (l :: q) = f.stepsAt l ++ f.steps q := rfl
            rw [hFront, hAt, List.append_assoc, ← hNil, List.append_nil]
        | cons y after =>
            obtain ⟨rfl, _⟩ := List.cons.inj hRest
            exact ⟨[], l, rest, front, after, rfl, hAt, rfl⟩

/-- The body of a block, cut at one of the steps of the block. -/
theorem bodyAt_of_stepsAt {before after : List Step} {i : Instr}
    (hSplit : f.stepsAt l = before ++ .instr i :: after) :
    f.bodyAt l = before.filterMap Step.instr? ++ i :: after.filterMap Step.instr? := by
  rw [← filterMap_stepsAt, hSplit, List.filterMap_append]
  rfl

/-- Bringing blocks into normal form keeps every execution safe. -/
theorem safe_normalize {v : Value} {n : Int} {p : List Label}
    (hSafe : Safe o.symbols v n (f.steps p)) :
    Safe o.symbols v n ((f.normalize o).func.steps p) := by
  induction p generalizing n with
  | nil => trivial
  | cons l rest ih =>
      have hTail := Safe.append_congr (fun m => ih (n := m)) (f.stepsAt l) hSafe
      have hHead : (f.normalize o).func.steps (l :: rest) =
          (f.normalize o).func.stepsAt l ++ (f.normalize o).func.steps rest := rfl
      rw [hHead, normalize_func, stepsAt,
        block?_mapBlocks (Normalize.bodyOnly_normalBlock o.symbols), ← normalize_func]
      rw [stepsAt] at hTail
      cases hBlock : f.block? l with
      | none => simpa [hBlock] using hTail
      | some b =>
          simp only [hBlock, Option.map_some, Option.getD_some, List.append_assoc] at hTail ⊢
          exact Safe.delays (Normalize.delays_normalBody b.body) hTail

end Func

end RefElision
