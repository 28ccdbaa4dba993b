import Mathlib.Data.List.Induction
import Mathlib.Data.List.Nodup
import RefElision.Proofs.Program.Coherence

/-! What a builder holds. Mistakes are recorded on the way and only the first of them is
kept, so the builder is compared with all the steps taken so far. As long as there is no
mistake, the steps tell which labels are placed, which targets are named, whether a block
is open, and what stands in each block. -/
namespace RefElision.Builder

namespace Step

/-- The labels that a terminator names. -/
def targets : Step → List Label
  | .terminate t => t.successors
  | _ => []

/-- Whether a step makes an instruction. One that is emitted exists already. -/
def makes : Step → Bool
  | .perform _ => true
  | .performThenName _ => true
  | _ => false

/-- The instruction that a step appends. If it is made by the step, it gets the given tag. -/
def instr? (tag : Nat) : Step → Option Instr
  | .perform o => some ⟨tag, o⟩
  | .performThenName o => some ⟨tag, o⟩
  | .emit i => some i
  | _ => none

/-- How the open block ends by a step: with its terminator, or with a jump to the label that
comes first. -/
def ending? : Step → Option (Terminator Value)
  | .label l => some (.jump l)
  | .terminate t => some t
  | _ => none

/-- Whether a step can only be taken while a block is open. -/
def isInner : Step → Bool
  | .label _ => false
  | .build => false
  | _ => true

/-- What a step reads. -/
def operands : Step → List Value
  | .perform o => o.args
  | .performThenName o => o.args
  | .emit i => i.uses
  | .emitTerminator t => t.uses
  | .terminate t => t.uses
  | _ => []

/-- The variables that a step assigns. -/
def results : Step → List String
  | .perform o => o.result.toList
  | .performThenName o => o.result.toList
  | .emit i => i.defs
  | _ => []

end Step

/-- The instructions that steps append, if tags are handed out from the given one on. -/
def instrs : Nat → List Step → List Instr
  | _, [] => []
  | tag, s :: rest =>
    (s.instr? tag).toList ++ instrs (if s.makes then tag + 1 else tag) rest

/-- The steps in front of the one that ends the open block. -/
def opened (steps : List Step) : List Step :=
  steps.takeWhile fun s => s.ending?.isNone

/-- Behind some label there is no terminator yet. -/
def InBlock (steps : List Step) : Prop :=
  ∃ before l after, steps = before ++ .label l :: after ∧ ∀ t, .terminate t ∉ after

section Steps

variable {steps : List Step} {s : Step}

theorem split_concat {before after : List Step} {r : Step}
    (h : steps ++ [s] = before ++ r :: after) :
    (after = [] ∧ before = steps ∧ r = s) ∨
      ∃ rest, after = rest ++ [s] ∧ steps = before ++ r :: rest := by
  induction after using List.reverseRecOn with
  | nil =>
      obtain ⟨hBefore, hLast⟩ := List.append_inj' h rfl
      exact .inl ⟨rfl, hBefore.symm, (List.singleton_inj.mp hLast).symm⟩
  | append_singleton rest last _ =>
      have hSplit : steps ++ [s] = (before ++ r :: rest) ++ [last] := by simpa using h
      obtain ⟨hFront, hLast⟩ := List.append_inj' hSplit rfl
      exact .inr ⟨rest, by rw [List.singleton_inj.mp hLast], hFront⟩

theorem label?_eq_some {l : Label} : s.label? = some l ↔ s = .label l := by
  cases s <;> simp [Step.label?]

theorem mem_labels_iff {l : Label} : l ∈ steps.filterMap Step.label? ↔ .label l ∈ steps := by
  simp [label?_eq_some]

/-- A label opens a block, and a terminator closes it. -/
theorem inBlock_concat :
    InBlock (steps ++ [s]) ↔ (∃ l, s = .label l) ∨ InBlock steps ∧ ∀ t, s ≠ .terminate t := by
  constructor
  · rintro ⟨before, l, after, hSplit, hNone⟩
    rcases split_concat hSplit with ⟨_, _, hLabel⟩ | ⟨rest, rfl, hSteps⟩
    · exact .inl ⟨l, hLabel.symm⟩
    · refine .inr ⟨⟨before, l, rest, hSteps, fun t ht => hNone t (by simp [ht])⟩, ?_⟩
      rintro t rfl
      exact hNone t (by simp)
  · rintro (⟨l, rfl⟩ | ⟨⟨before, l, after, rfl, hNone⟩, hOther⟩)
    · exact ⟨steps, l, [], rfl, by simp⟩
    · refine ⟨before, l, after ++ [s], by simp, fun t ht => ?_⟩
      rcases List.mem_append.mp ht with hOld | hNew
      · exact hNone t hOld
      · exact hOther t (List.mem_singleton.mp hNew).symm

theorem instrs_append (tag : Nat) (front back : List Step) :
    instrs tag (front ++ back) =
      instrs tag front ++ instrs (tag + front.countP Step.makes) back := by
  induction front generalizing tag with
  | nil => rfl
  | cons s rest ih =>
      rw [List.cons_append, instrs, instrs, ih, List.append_assoc, List.countP_cons]
      cases s.makes <;> simp [Nat.add_assoc, Nat.add_comm 1]

theorem instrs_concat (tag : Nat) :
    instrs tag (steps ++ [s]) =
      instrs tag steps ++ (s.instr? (tag + steps.countP Step.makes)).toList := by
  rw [instrs_append, instrs, instrs, List.append_nil]

section Opened

variable {t : Terminator Value}

/-- A block that has ended stays as it is. -/
theorem opened_concat_of_some (h : steps.findSome? Step.ending? = some t) :
    opened (steps ++ [s]) = opened steps := by
  induction steps with
  | nil => cases h
  | cons r rest ih =>
      rw [List.findSome?_cons] at h
      cases hEnding : r.ending? with
      | none =>
          rw [hEnding] at h
          simp only [opened, List.cons_append, List.takeWhile_cons, hEnding] at ih ⊢
          rw [ih h]
      | some t => simp [opened, hEnding]

theorem opened_concat_of_ending (h : steps.findSome? Step.ending? = none)
    (hEnding : s.ending? = some t) : opened (steps ++ [s]) = steps := by
  have hInner : ∀ r ∈ steps, r.ending?.isNone = true := fun r hr => by
    rw [List.findSome?_eq_none_iff.mp h r hr, Option.isNone_none]
  rw [opened, List.takeWhile_append_of_pos hInner]
  simp [hEnding]

end Opened

end Steps

/-- A step that appends an instruction does nothing else. -/
theorem Step.of_instr? {s : Step} {tag : Nat} {i : Instr} (h : s.instr? tag = some i) :
    s.label? = none ∧ s.targets = [] ∧ s.ending? = none ∧ s.operands = i.uses ∧
      s.results = i.defs := by
  cases s with
  | perform o => exact Option.some.inj h ▸ ⟨rfl, rfl, rfl, rfl, rfl⟩
  | performThenName o => exact Option.some.inj h ▸ ⟨rfl, rfl, rfl, rfl, rfl⟩
  | emit j => exact Option.some.inj h ▸ ⟨rfl, rfl, rfl, rfl, rfl⟩
  | _ => cases h

theorem step_of_instr {b : Builder} {block : OpenBlock} (hCurrent : b.current = some block)
    {s : Step} {i : Instr} (h : s.instr? b.nextTag = some i) :
    b.step s = { b with
      table := b.table.enterAll i.mentioned
      current := some { block with body := block.body ++ [i] }
      nextTag := b.nextTag + if s.makes then 1 else 0 } := by
  cases s with
  | perform o =>
      obtain rfl := Option.some.inj h
      simp [step, perform, emit, emitShown, reserve, intern, hCurrent, nextInstr, Step.makes]
  | performThenName o =>
      obtain rfl := Option.some.inj h
      simp [step, performThenName, emitShown, reserve, intern, hCurrent, nextInstr, Step.makes]
  | emit j =>
      obtain rfl := Option.some.inj h
      simp [step, emit, emitShown, intern, hCurrent, Step.makes]
  | _ => cases h

theorem error_step_outside {b : Builder} (hCurrent : b.current = none) {s : Step}
    (h : s.isInner = true) : (b.step s).error ≠ none := by
  cases s with
  | perform o =>
      rw [step, perform, emit, emitShown, reserve, hCurrent]
      exact error_fail _ _
  | performThenName o =>
      rw [step, performThenName, emitShown, reserve, hCurrent]
      exact error_fail _ _
  | emit i =>
      rw [step, emit, emitShown, hCurrent]
      exact error_fail _ _
  | emitTerminator t => exact error_emitTerminator t
  | terminate t =>
      simp only [step, Builder.terminate, intern, hCurrent]
      exact error_fail _ _
  | _ => cases h

/-- A step that is no mistake after the steps before it. -/
structure Allowed (steps : List Step) (s : Step) : Prop where
  label_new : ∀ l, s = .label l → .label l ∉ steps
  inside : s.isInner = true → InBlock steps
  not_emitted : ∀ t, s ≠ .emitTerminator t

/-- All operands in the order of the steps. -/
def operands (b : Builder) : List Value :=
  b.finished.flatMap (fun block => block.body.flatMap Instr.uses ++ block.term.uses) ++
    (b.current.map fun block => block.body.flatMap Instr.uses).getD []

/-- All results in the order of the steps. -/
def results (b : Builder) : List String :=
  b.finished.flatMap (fun block => block.body.flatMap Instr.defs) ++
    (b.current.map fun block => block.body.flatMap Instr.defs).getD []

/-- What a builder without a mistake holds after some steps. -/
structure Reflects (steps : List Step) (b : Builder) : Prop where
  placed : b.placedLabels = steps.filterMap Step.label?
  named : b.targets = steps.flatMap Step.targets
  is_open : b.current ≠ none ↔ InBlock steps
  next_tag : b.nextTag = steps.countP Step.makes
  operands_eq : b.operands = steps.flatMap Step.operands
  results_eq : b.results = steps.flatMap Step.results
  open_block : ∀ before l after, steps = before ++ .label l :: after →
    after.findSome? Step.ending? = none →
    ∃ block, b.current = some block ∧ block.label = l ∧
      block.body = instrs (before.countP Step.makes) after
  closed_block : ∀ before l after t, steps = before ++ .label l :: after →
    after.findSome? Step.ending? = some t →
    ∃ block ∈ b.finished, block.label = l ∧ block.term = t ∧
      block.body = instrs (before.countP Step.makes) (opened after)

theorem reflects_empty (name : String) (args : List String) : Reflects [] (empty name args) := by
  constructor
  case is_open => simp [empty, InBlock]
  case open_block => simp
  case closed_block => simp
  all_goals rfl

namespace Reflects

variable {steps : List Step} {b : Builder} {s : Step}

/-- The tag that is next, seen from a label. -/
theorem tag_eq (h : Reflects steps b) {before after : List Step} {l : Label}
    (hSplit : steps = before ++ .label l :: after) :
    before.countP Step.makes + after.countP Step.makes = b.nextTag := by
  rw [h.next_tag, hSplit, List.countP_append, List.countP_cons]
  rfl

section Blocks

variable {c : Builder} (h : Reflects steps b)
include h

/-- A block that is open after a step was opened by it, or was open before it and has
grown. -/
theorem open_concat
    (hLabel : ∀ l, s = .label l →
      ∃ block, c.current = some block ∧ block.label = l ∧ block.body = [])
    (hGrown : s.ending? = none → ∀ block, b.current = some block →
      c.current = some { block with body := block.body ++ (s.instr? b.nextTag).toList })
    {before after : List Step} {l : Label} (hSplit : steps ++ [s] = before ++ .label l :: after)
    (hOpen : after.findSome? Step.ending? = none) :
    ∃ block, c.current = some block ∧ block.label = l ∧
      block.body = instrs (before.countP Step.makes) after := by
  rcases split_concat hSplit with ⟨rfl, rfl, hNew⟩ | ⟨rest, rfl, hSteps⟩
  · exact hLabel l hNew.symm
  · rw [List.findSome?_append, Option.or_eq_none_iff] at hOpen
    obtain ⟨block, hCurrent, rfl, hBody⟩ := h.open_block before l rest hSteps hOpen.1
    refine ⟨_, hGrown (by simpa using hOpen.2) block hCurrent, rfl, ?_⟩
    rw [instrs_concat, h.tag_eq hSteps, hBody]

/-- A block that has ended after a step had ended before it, or is ended by it. -/
theorem closed_concat (hKept : b.finished ⊆ c.finished)
    (hEnded : ∀ t block, s.ending? = some t → b.current = some block → block.close t ∈ c.finished)
    {before after : List Step} {l : Label} {t : Terminator Value}
    (hSplit : steps ++ [s] = before ++ .label l :: after)
    (hClosed : after.findSome? Step.ending? = some t) :
    ∃ block ∈ c.finished, block.label = l ∧ block.term = t ∧
      block.body = instrs (before.countP Step.makes) (opened after) := by
  rcases split_concat hSplit with ⟨rfl, _⟩ | ⟨rest, rfl, hSteps⟩
  · cases hClosed
  · rw [List.findSome?_append] at hClosed
    cases hRest : rest.findSome? Step.ending? with
    | some r =>
        obtain rfl : r = t := by simpa [hRest] using hClosed
        obtain ⟨block, hMem, hBlock⟩ := h.closed_block before l rest r hSteps hRest
        exact ⟨block, hKept hMem, by rwa [opened_concat_of_some hRest]⟩
    | none =>
        have hEnding : s.ending? = some t := by simpa [hRest] using hClosed
        obtain ⟨block, hCurrent, rfl, hBody⟩ := h.open_block before l rest hSteps hRest
        refine ⟨_, hEnded t block hEnding hCurrent, rfl, rfl, ?_⟩
        rw [opened_concat_of_ending hRest hEnding]
        exact hBody

end Blocks

theorem label (h : Reflects steps b) {l : Label} (hNew : l ∉ b.placedLabels) :
    Reflects (steps ++ [.label l]) (b.label l) := by
  have hPlaced := placedLabels_label b hNew
  rw [Builder.label, if_neg hNew] at hPlaced ⊢
  constructor
  case placed => rw [hPlaced, h.placed, List.filterMap_append]; rfl
  case named => simpa [Step.targets] using h.named
  case is_open => simp [inBlock_concat]
  case next_tag => simpa [Step.makes] using h.next_tag
  case operands_eq =>
    rw [List.flatMap_append, ← h.operands_eq]
    cases hCurrent : b.current <;>
      simp [operands, hCurrent, OpenBlock.close, Terminator.uses, Step.operands]
  case results_eq =>
    rw [List.flatMap_append, ← h.results_eq]
    cases hCurrent : b.current <;> simp [results, hCurrent, OpenBlock.close, Step.results]
  case open_block =>
    intro before k after hSplit hOpen
    refine h.open_concat (fun m hm => ?_) (fun hEnding => ?_) hSplit hOpen
    · exact ⟨_, rfl, Step.label.inj hm, rfl⟩
    · cases hEnding
  case closed_block =>
    intro before k after t hSplit hClosed
    refine h.closed_concat (List.subset_append_left _ _) (fun t block hEnding hCurrent => ?_)
      hSplit hClosed
    rw [← Option.some.inj hEnding, hCurrent]
    exact List.mem_append_right _ (List.mem_singleton_self _)

theorem terminate (h : Reflects steps b) {block : OpenBlock} (hCurrent : b.current = some block)
    (t : Terminator Value) : Reflects (steps ++ [.terminate t]) (b.terminate t) := by
  have hPlaced := placedLabels_terminate b t
  have hStep : b.terminate t = { b with
      table := b.table.enterAll t.mentioned,
      finished := b.finished ++ [block.close t], current := none,
      targets := b.targets ++ t.successors } := by
    simp [Builder.terminate, intern, hCurrent]
  rw [hStep] at hPlaced ⊢
  constructor
  case placed => rw [hPlaced, h.placed, List.filterMap_append]; exact (List.append_nil _).symm
  case named => rw [List.flatMap_append, ← h.named]; simp [Step.targets]
  case is_open => simp [inBlock_concat]
  case next_tag => simpa [Step.makes] using h.next_tag
  case operands_eq =>
    rw [List.flatMap_append, ← h.operands_eq]
    simp [operands, hCurrent, OpenBlock.close, Step.operands]
  case results_eq =>
    rw [List.flatMap_append, ← h.results_eq]
    simp [results, hCurrent, OpenBlock.close, Step.results]
  case open_block =>
    intro before k after hSplit hOpen
    refine h.open_concat (fun m hm => ?_) (fun hEnding => ?_) hSplit hOpen
    · cases hm
    · cases hEnding
  case closed_block =>
    intro before k after u hSplit hClosed
    refine h.closed_concat (List.subset_append_left _ _) (fun u block' hEnding hOld => ?_)
      hSplit hClosed
    obtain rfl := Option.some.inj (hCurrent.symm.trans hOld)
    rw [← Option.some.inj hEnding]
    exact List.mem_append_right _ (List.mem_singleton_self _)

theorem instr (h : Reflects steps b) {block : OpenBlock} (hCurrent : b.current = some block)
    {i : Instr} (hInstr : s.instr? b.nextTag = some i) :
    Reflects (steps ++ [s]) (b.step s) := by
  obtain ⟨hLabel, hTargets, hEnding, hOperands, hResults⟩ := Step.of_instr? hInstr
  rw [step_of_instr hCurrent hInstr]
  constructor
  case placed =>
    rw [List.filterMap_append, ← h.placed]
    simp [placedLabels, hCurrent, hLabel]
  case named => rw [List.flatMap_append, ← h.named]; simp [hTargets]
  case is_open =>
    have hOpen : InBlock steps := h.is_open.mp (by simp [hCurrent])
    rw [inBlock_concat]
    refine iff_of_true (by simp) (.inr ⟨hOpen, ?_⟩)
    rintro t rfl
    cases hEnding
  case next_tag => rw [List.countP_append, ← h.next_tag, List.countP_singleton]
  case operands_eq =>
    rw [List.flatMap_append, ← h.operands_eq]
    simp [operands, hCurrent, hOperands]
  case results_eq =>
    rw [List.flatMap_append, ← h.results_eq]
    simp [results, hCurrent, hResults]
  case open_block =>
    intro before k after hSplit hOpen
    refine h.open_concat (fun m hm => ?_) (fun _ block' hOld => ?_) hSplit hOpen
    · rw [hm] at hEnding
      cases hEnding
    · obtain rfl := Option.some.inj (hCurrent.symm.trans hOld)
      rw [hInstr]
      rfl
  case closed_block =>
    intro before k after t hSplit hClosed
    refine h.closed_concat (List.Subset.refl _) (fun t _ hSome _ => ?_) hSplit hClosed
    rw [hEnding] at hSome
    cases hSome

theorem error_label (h : Reflects steps b) (hError : b.error = none) (l : Label) :
    (b.label l).error = none ↔ Allowed steps (.label l) := by
  have hMem : l ∈ b.placedLabels ↔ .label l ∈ steps := by rw [h.placed, mem_labels_iff]
  constructor
  · intro hNone
    constructor
    case label_new =>
      intro k hk
      obtain rfl := Step.label.inj hk
      exact fun hOld => (label_ok hNone).2 (hMem.mpr hOld)
    case inside => exact fun hInner => nomatch hInner
    case not_emitted => exact fun t ht => nomatch ht
  · intro hAllowed
    have hNew : l ∉ b.placedLabels := fun hOld => hAllowed.label_new l rfl (hMem.mp hOld)
    rw [Builder.label, if_neg hNew]
    exact hError

/-- Inside of a block nothing is wrong but to emit a terminator. -/
theorem allowed_inner (h : Reflects steps b) (hOpen : b.current ≠ none)
    (hLabel : ∀ l, s ≠ .label l) (hEmitted : ∀ t, s ≠ .emitTerminator t) : Allowed steps s where
  label_new l hl := (hLabel l hl).elim
  inside _ := h.is_open.mp hOpen
  not_emitted := hEmitted

theorem error_instr (h : Reflects steps b) (hError : b.error = none) {block : OpenBlock}
    (hCurrent : b.current = some block) {i : Instr} (hInstr : s.instr? b.nextTag = some i) :
    (b.step s).error = none ∧ Allowed steps s := by
  constructor
  · rw [step_of_instr hCurrent hInstr]
    exact hError
  · refine h.allowed_inner (by simp [hCurrent]) ?_ ?_
    · rintro l rfl
      cases hInstr
    · rintro t rfl
      cases hInstr

/-- A step that is no mistake, and what the builder holds after it. -/
theorem step (h : Reflects steps b) (hError : b.error = none) (hBuild : s ≠ .build) :
    ((b.step s).error = none ↔ Allowed steps s) ∧
      ((b.step s).error = none → Reflects (steps ++ [s]) (b.step s)) := by
  have hInstr : ∀ i, s.instr? b.nextTag = some i → b.current ≠ none →
      ((b.step s).error = none ↔ Allowed steps s) ∧
        ((b.step s).error = none → Reflects (steps ++ [s]) (b.step s)) := by
    intro i hSome hOpen
    obtain ⟨block, hCurrent⟩ := Option.ne_none_iff_exists'.mp hOpen
    obtain ⟨hNone, hAllowed⟩ := h.error_instr hError hCurrent hSome
    exact ⟨iff_of_true hNone hAllowed, fun _ => h.instr hCurrent hSome⟩
  by_cases hOutside : s.isInner = true ∧ b.current = none
  · have hMistake := error_step_outside hOutside.2 hOutside.1
    refine ⟨iff_of_false hMistake fun hAllowed => ?_, fun hNone => (hMistake hNone).elim⟩
    exact h.is_open.mpr (hAllowed.inside hOutside.1) hOutside.2
  · have hOpen : s.isInner = true → b.current ≠ none := fun hInner hNone =>
      hOutside ⟨hInner, hNone⟩
    cases s with
    | label l => exact ⟨h.error_label hError l, fun hNone => h.label (label_ok hNone).2⟩
    | perform o => exact hInstr _ rfl (hOpen rfl)
    | performThenName o => exact hInstr _ rfl (hOpen rfl)
    | emit i => exact hInstr _ rfl (hOpen rfl)
    | emitTerminator t =>
        have hMistake := error_emitTerminator (b := b) t
        exact ⟨iff_of_false hMistake fun hAllowed => hAllowed.not_emitted t rfl,
          fun hNone => (hMistake hNone).elim⟩
    | terminate t =>
        obtain ⟨block, hCurrent⟩ := Option.ne_none_iff_exists'.mp (hOpen rfl)
        have hNone : (b.terminate t).error = none := by
          simpa [Builder.terminate, intern, hCurrent]
        have hAllowed : Allowed steps (.terminate t) :=
          h.allowed_inner (hOpen rfl) (by simp) (by simp)
        exact ⟨iff_of_true hNone hAllowed, fun _ => h.terminate hCurrent t⟩
    | build => exact (hBuild rfl).elim

end Reflects

/-- No mistake is made exactly if each step is allowed after those before it. -/
theorem reflects_run (name : String) (args : List String) {steps : List Step}
    (hOnce : .build ∉ steps) :
    (((empty name args).run steps).error = none ↔
      ∀ before s after, steps = before ++ s :: after → Allowed before s) ∧
    (((empty name args).run steps).error = none →
      Reflects steps ((empty name args).run steps)) := by
  induction steps using List.reverseRecOn with
  | nil => exact ⟨by simp [run, empty], fun _ => reflects_empty name args⟩
  | append_singleton steps s ih =>
      rw [List.mem_append, List.mem_singleton, not_or] at hOnce
      obtain ⟨hIff, hReflects⟩ := ih hOnce.1
      have hRun : (empty name args).run (steps ++ [s]) = ((empty name args).run steps).step s := by
        simp [run]
      rw [hRun]
      generalize (empty name args).run steps = b at hIff hReflects ⊢
      constructor
      · constructor
        · intro hNone before r after hSplit
          have hBefore : b.error = none := (step_ok hNone).1
          rcases split_concat hSplit with ⟨_, rfl, rfl⟩ | ⟨rest, _, hSteps⟩
          · exact ((hReflects hBefore).step hBefore (Ne.symm hOnce.2)).1.mp hNone
          · exact hIff.mp hBefore before r rest hSteps
        · intro hAll
          have hBefore : b.error = none := hIff.mpr fun before r after hSteps =>
            hAll before r (after ++ [s]) (by rw [hSteps]; simp)
          exact ((hReflects hBefore).step hBefore (Ne.symm hOnce.2)).1.mpr (hAll steps s [] rfl)
      · intro hNone
        have hBefore : b.error = none := (step_ok hNone).1
        exact ((hReflects hBefore).step hBefore (Ne.symm hOnce.2)).2 hNone

end RefElision.Builder
