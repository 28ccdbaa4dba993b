import RefElision.Program.Builder

/-! Functions that come out of a builder. Whatever steps were taken, mistakes and earlier
attempts to finish included, a function that is finished is well formed. -/
namespace RefElision

namespace Func

/-- The variables that instructions and terminators read. -/
def used (f : Func) : List String :=
  f.blocks.flatMap fun b => (b.body.flatMap Instr.uses ++ b.term.uses).filterMap Value.variable?

/-- The arguments and the results of all instructions. -/
def defined (f : Func) : List String :=
  f.args ++ f.blocks.flatMap fun b => b.body.flatMap Instr.defs

/-- Blocks have distinct labels, none of them is detached, and edges stay inside of the
function. Nothing is said about bodies. -/
structure Enclosed (f : Func) : Prop where
  nonempty : f.blocks ≠ []
  labels_nodup : f.labels.Nodup
  detached_nil : f.detached = []
  targets : ∀ b ∈ f.blocks, ∀ l ∈ b.successors, l ∈ f.labels

/-- Edges stay inside of the function, and the recorded predecessors are the actual
ones. -/
structure Recorded (f : Func) : Prop extends f.Enclosed where
  preds_eq : ∀ b ∈ f.blocks, b.preds = f.predecessorsOf b.label

/-- Predecessors are recorded right, and the blocks are numbered from one in their order. -/
structure Linked (f : Func) : Prop extends f.Recorded where
  numbers : f.blocks.map Block.number = List.range' 1 f.blocks.length

theorem labels_rebuild (f : Func) : f.rebuild.labels = f.labels := by
  simp [labels, rebuild]

/-- Predecessors are read off labels and edges, and computing them anew changes neither. -/
theorem predecessorsOf_rebuild (f : Func) (l : Label) :
    f.rebuild.predecessorsOf l = f.predecessorsOf l := by
  simp [rebuild, predecessorsOf, List.filter_map, Function.comp_def, Block.successors]

theorem Enclosed.rebuild {f : Func} (h : f.Enclosed) : f.rebuild.Recorded := by
  constructor
  case toEnclosed =>
    constructor
    case nonempty => simpa [Func.rebuild] using h.nonempty
    case labels_nodup => exact f.labels_rebuild ▸ h.labels_nodup
    case detached_nil => simp [Func.rebuild, h.detached_nil]
    case targets =>
      intro b hb l hl
      obtain ⟨b, hOld, rfl⟩ := List.mem_map.mp hb
      rw [labels_rebuild]
      exact h.targets b hOld l hl
  case preds_eq =>
    intro b hb
    obtain ⟨b, _, rfl⟩ := List.mem_map.mp hb
    rw [predecessorsOf_rebuild]

/-- The blocks are linked, and each variable that is used is defined somewhere. -/
structure WellFormed (f : Func) : Prop extends f.Linked where
  defined_of_used : ∀ x ∈ f.used, x ∈ f.defined

/-- Some steps, after which finishing succeeds, give the function. -/
def IsBuilt (f : Func) : Prop :=
  ∃ name args steps, ((Builder.empty name args).run steps).build.2 = .ok f

end Func

namespace Builder

/-- What holds of a builder after any steps. A target that no terminator has named was
fallen through to, so it is placed. -/
structure Orderly (b : Builder) : Prop where
  labels_nodup : b.placedLabels.Nodup
  numbers : b.finished.map Block.number = List.range' 1 b.finished.length
  current_number : ∀ block, b.current = some block → block.number = b.finished.length + 1
  targets : ∀ block ∈ b.finished, ∀ l ∈ block.successors, l ∈ b.targets ∨ l ∈ b.placedLabels

section Placing

variable (b : Builder)

theorem placedLabels_label {l : Label} (hNew : l ∉ b.placedLabels) :
    (b.label l).placedLabels = b.placedLabels ++ [l] := by
  rw [Builder.label, if_neg hNew]
  simp only [placedLabels]
  cases b.current <;> simp [OpenBlock.close]

theorem placedLabels_emitShown (shown : Operation Value) (i : Instr) :
    (b.emitShown shown i).placedLabels = b.placedLabels := by
  rw [Builder.emitShown]
  split
  case h_1 => rfl
  case h_2 block hCurrent => simp [placedLabels, intern, hCurrent]

theorem placedLabels_terminate (t : Terminator Value) :
    (b.terminate t).placedLabels = b.placedLabels := by
  rw [Builder.terminate]
  split
  case h_1 => rfl
  case h_2 block hCurrent =>
    simp only [intern] at hCurrent
    simp [placedLabels, intern, hCurrent, OpenBlock.close]

end Placing

section Mistakes

variable {b : Builder}

theorem error_fail (b : Builder) (e : BuildError) : (b.fail e).error ≠ none := by
  cases hError : b.error <;> simp [fail, hError]

/-- A label is placed if no mistake is made. -/
theorem label_ok {l : Label} (h : (b.label l).error = none) :
    b.error = none ∧ l ∉ b.placedLabels := by
  rw [Builder.label] at h
  split at h
  case isTrue => exact (error_fail _ _ h).elim
  case isFalse hNew => exact ⟨h, hNew⟩

theorem error_of_emitShown {shown : Operation Value} {i : Instr}
    (h : (b.emitShown shown i).error = none) : b.error = none := by
  rw [Builder.emitShown] at h
  split at h
  case h_1 => exact (error_fail _ _ h).elim
  case h_2 => exact h

theorem error_emitTerminator (t : Terminator Value) : (b.emitTerminator t).error ≠ none := by
  rw [Builder.emitTerminator]
  split
  case h_1 => exact error_fail _ _
  case h_2 => exact error_fail _ _

theorem error_of_terminate {t : Terminator Value} (h : (b.terminate t).error = none) :
    b.error = none := by
  rw [Builder.terminate] at h
  split at h
  case h_1 => exact (error_fail _ _ h).elim
  case h_2 => exact h

/-- An attempt to finish that is no mistake changes nothing. -/
theorem build_eq_self (h : b.build.1.error = none) : b.build.1 = b := by
  rw [Builder.build] at h ⊢
  split at h
  case h_1 => cases h
  case h_2 => rfl

end Mistakes

/-- The label that a step places. -/
def Step.label? : Step → Option Label
  | .label l => some l
  | _ => none

/-- A step without a mistake: there was none before it, and no label is placed but its own. -/
theorem step_ok {b : Builder} {s : Step} (h : (b.step s).error = none) :
    b.error = none ∧ (b.step s).placedLabels = b.placedLabels ++ s.label?.toList := by
  cases s with
  | label l =>
      obtain ⟨hBefore, hNew⟩ := label_ok h
      exact ⟨hBefore, placedLabels_label b hNew⟩
  | perform o =>
      have hBefore : (b.reserve 1).error = none := error_of_emitShown h
      exact ⟨hBefore, (placedLabels_emitShown _ _ _).trans (List.append_nil _).symm⟩
  | performThenName o =>
      have hBefore : (b.reserve 1).error = none := error_of_emitShown h
      exact ⟨hBefore, (placedLabels_emitShown _ _ _).trans (List.append_nil _).symm⟩
  | emit i =>
      exact ⟨error_of_emitShown h, (placedLabels_emitShown _ _ _).trans (List.append_nil _).symm⟩
  | emitTerminator t => exact (error_emitTerminator t h).elim
  | terminate t =>
      exact ⟨error_of_terminate h, (placedLabels_terminate _ _).trans (List.append_nil _).symm⟩
  | build =>
      have hSame : b.step .build = b := build_eq_self h
      rw [hSame] at h ⊢
      exact ⟨h, (List.append_nil _).symm⟩

/-- If no mistake was made, then the labels are placed in the order of the steps. -/
theorem run_ok {b : Builder} {steps : List Step} (h : (b.run steps).error = none) :
    b.error = none ∧ (b.run steps).placedLabels = b.placedLabels ++ steps.filterMap Step.label? := by
  induction steps generalizing b with
  | nil => exact ⟨h, (List.append_nil _).symm⟩
  | cons s rest ih =>
      obtain ⟨hStep, hRest⟩ := ih h
      obtain ⟨hBefore, hPlaced⟩ := step_ok hStep
      refine ⟨hBefore, hRest.trans ?_⟩
      rw [hPlaced, List.append_assoc]
      cases hLabel : s.label? <;> simp [hLabel]

theorem orderly_empty (name : String) (args : List String) : (empty name args).Orderly where
  labels_nodup := by simp [placedLabels, empty]
  numbers := by simp [empty]
  current_number := by simp [empty]
  targets := by simp [empty]

namespace Orderly

variable {b : Builder}

theorem fail (h : b.Orderly) (e : BuildError) : (b.fail e).Orderly :=
  ⟨h.labels_nodup, h.numbers, h.current_number, h.targets⟩

theorem reserve (h : b.Orderly) (count : Nat) : (b.reserve count).Orderly :=
  ⟨h.labels_nodup, h.numbers, h.current_number, h.targets⟩

theorem intern (h : b.Orderly) (names : List String) : (b.intern names).Orderly :=
  ⟨h.labels_nodup, h.numbers, h.current_number, h.targets⟩

/-- Appending a block to the finished ones numbers it right. -/
theorem numbers_close (h : b.Orderly) {block : OpenBlock} (hCurrent : b.current = some block)
    (t : Terminator Value) :
    (b.finished ++ [block.close t]).map Block.number =
      List.range' 1 (b.finished ++ [block.close t]).length := by
  have hNumber := h.current_number block hCurrent
  rw [List.map_append, h.numbers, List.length_append, List.length_singleton,
    List.range'_concat]
  simp only [List.map_cons, List.map_nil, OpenBlock.close, hNumber]
  congr 2
  omega

theorem label (h : b.Orderly) (l : Label) : (b.label l).Orderly := by
  rw [Builder.label]
  split
  case isTrue => exact h.fail _
  case isFalse hNew =>
    -- A block that falls through keeps its label among those that are placed.
    have hPlaced := placedLabels_label b hNew
    rw [Builder.label, if_neg hNew] at hPlaced
    constructor
    case labels_nodup =>
      rw [hPlaced, List.nodup_append]
      refine ⟨h.labels_nodup, by simp, ?_⟩
      rintro x hx y hy rfl
      exact hNew (List.mem_singleton.mp hy ▸ hx)
    case numbers =>
      cases hCurrent : b.current with
      | none => simpa using h.numbers
      | some block => exact h.numbers_close hCurrent _
    case current_number =>
      intro block hBlock
      rw [← Option.some.inj hBlock]
    case targets =>
      intro block hBlock x hx
      rw [hPlaced, List.mem_append, List.mem_singleton]
      rcases List.mem_append.mp hBlock with hOld | hClosed
      · rcases h.targets block hOld x hx with hNamed | hOldPlaced
        · exact .inl hNamed
        · exact .inr (.inl hOldPlaced)
      · obtain ⟨current, _, rfl⟩ : ∃ current, b.current = some current ∧
            current.close (.jump l) = block := by
          simpa [Option.mem_toList] using hClosed
        exact .inr (.inr (by simpa [Block.successors, OpenBlock.close,
          Terminator.successors, Terminator.edges] using hx))

theorem emitShown (h : b.Orderly) (shown : Operation Value) (i : Instr) :
    (b.emitShown shown i).Orderly := by
  have hLabels := placedLabels_emitShown b shown i
  rw [Builder.emitShown] at hLabels ⊢
  split
  case h_1 => exact (h.intern _).fail _
  case h_2 block hCurrent =>
    simp only [hCurrent] at hLabels
    constructor
    case labels_nodup => exact hLabels ▸ h.labels_nodup
    case numbers => exact h.numbers
    case current_number =>
      rintro block' hBlock
      obtain rfl := Option.some.inj hBlock
      exact h.current_number block hCurrent
    case targets => exact hLabels ▸ h.targets

theorem emitTerminator (h : b.Orderly) (t : Terminator Value) : (b.emitTerminator t).Orderly := by
  rw [Builder.emitTerminator]
  split
  case h_1 => exact (h.intern _).fail _
  case h_2 => exact (h.intern _).fail _

theorem terminate (h : b.Orderly) (t : Terminator Value) : (b.terminate t).Orderly := by
  have hNamed : Orderly { b.intern t.mentioned with targets := b.targets ++ t.successors } :=
    ⟨h.labels_nodup, h.numbers, h.current_number, fun block hBlock l hl =>
      (h.targets block hBlock l hl).imp_left (List.mem_append_left _)⟩
  have hLabels := placedLabels_terminate b t
  rw [Builder.terminate] at hLabels ⊢
  split
  case h_1 => exact hNamed.fail _
  case h_2 block hCurrent =>
    simp only at hCurrent
    simp only [hCurrent] at hLabels
    constructor
    case labels_nodup => exact hLabels ▸ h.labels_nodup
    case numbers => exact (h.intern _).numbers_close hCurrent t
    case current_number => exact fun _ hBlock => nomatch hBlock
    case targets =>
      intro block' hBlock l hl
      rw [hLabels]
      rcases List.mem_append.mp hBlock with hOld | hClosed
      · exact hNamed.targets block' hOld l hl
      · rw [List.mem_singleton.mp hClosed] at hl
        exact .inl (List.mem_append_right _ hl)

theorem build (h : b.Orderly) : b.build.1.Orderly := by
  rw [Builder.build]
  split
  case h_1 => exact ⟨h.labels_nodup, h.numbers, h.current_number, h.targets⟩
  case h_2 => exact h

theorem step (h : b.Orderly) (s : Step) : (b.step s).Orderly := by
  cases s with
  | label l => exact h.label l
  | perform o => exact (h.reserve 1).emitShown _ _
  | performThenName o => exact (h.reserve 1).emitShown _ _
  | emit i => exact h.emitShown _ _
  | emitTerminator t => exact h.emitTerminator t
  | terminate t => exact h.terminate t
  | build => exact h.build

theorem run (h : b.Orderly) (steps : List Step) : (b.run steps).Orderly := by
  induction steps generalizing b with
  | nil => exact h
  | cons s rest ih => exact ih (h.step s)

end Orderly

theorem sorted_eq_nil {names : List String} : sorted names = [] ↔ names = [] := by
  constructor
  · intro h
    have hMem : ∀ x, x ∈ names → x ∈ sorted names := fun x hx =>
      List.mem_mergeSort.mpr (List.mem_eraseDups.mpr hx)
    rw [h] at hMem
    exact List.eq_nil_iff_forall_not_mem.mpr fun x hx => List.not_mem_nil (hMem x hx)
  · rintro rfl
    simp [sorted]

/-- Nothing is left over if all is known. -/
theorem sorted_filter_eq_nil {names known : List String} :
    sorted (names.filter fun x => !known.contains x) = [] ↔ ∀ x ∈ names, x ∈ known := by
  rw [sorted_eq_nil, List.filter_eq_nil_iff]
  simp

/-- What finishing checks. -/
theorem finalError_eq_none {b : Builder} :
    b.finalError = none ↔ b.error = none ∧ (∀ l ∈ b.targets, l ∈ b.placedLabels) ∧
      b.current = none ∧ b.finished ≠ [] ∧ ∀ x ∈ b.used, x ∈ b.defined := by
  rw [finalError, ← sorted_filter_eq_nil, ← sorted_filter_eq_nil]
  constructor
  · intro h
    split at h
    case h_1 => cases h
    case h_2 => cases h
    case h_3 => cases h
    case h_4 => cases h
    case h_5 hError hUnresolved hCurrent hFinished =>
      split at h
      case h_1 hUndefined => exact ⟨hError, hUnresolved, hCurrent, by simp [hFinished], hUndefined⟩
      case h_2 => cases h
  · rintro ⟨hError, hUnresolved, hCurrent, hFinished, hUndefined⟩
    have hLabels : b.unresolved = [] := hUnresolved
    have hVariables : b.undefined = [] := hUndefined
    cases hBlocks : b.finished with
    | nil => exact (hFinished hBlocks).elim
    | cons block rest => rw [hError, hLabels, hCurrent, hVariables]

theorem build_ok {b : Builder} {f : Func} (h : b.build.2 = .ok f) :
    b.finalError = none ∧ f = Func.rebuild ⟨b.name, b.args, b.finished, []⟩ := by
  rw [Builder.build] at h
  split at h
  case h_1 => cases h
  case h_2 hNone => exact ⟨hNone, (Except.ok.inj h).symm⟩

/-- A builder that finishes gives a well formed function. -/
theorem Orderly.wellFormed {b : Builder} (h : b.Orderly) {f : Func} (hBuild : b.build.2 = .ok f) :
    f.WellFormed := by
  obtain ⟨hNone, rfl⟩ := build_ok hBuild
  obtain ⟨_, hTargets, hCurrent, hFinished, hScoped⟩ := finalError_eq_none.mp hNone
  have hPlaced : b.placedLabels = Func.labels ⟨b.name, b.args, b.finished, []⟩ := by
    simp [placedLabels, hCurrent, Func.labels]
  have hEnclosed : Func.Enclosed ⟨b.name, b.args, b.finished, []⟩ := by
    constructor
    case nonempty => exact hFinished
    case labels_nodup => exact hPlaced ▸ h.labels_nodup
    case detached_nil => rfl
    case targets =>
      intro block hBlock l hl
      rw [← hPlaced]
      exact (h.targets block hBlock l hl).elim (hTargets l) id
  constructor
  case toLinked =>
    refine ⟨hEnclosed.rebuild, ?_⟩
    simp only [Func.rebuild, List.map_map, List.length_map]
    exact h.numbers
  case defined_of_used =>
    simp only [Func.used, Func.defined, Func.rebuild, List.flatMap_map]
    exact hScoped

end Builder

theorem Func.IsBuilt.wellFormed {f : Func} (h : f.IsBuilt) : f.WellFormed := by
  obtain ⟨name, args, steps, hBuild⟩ := h
  exact ((Builder.orderly_empty name args).run steps).wellFormed hBuild

end RefElision
