import RefElision.Proofs.Program.Interning
import RefElision.Proofs.Program.Reading

/-! The shape of finished functions, said of the blocks themselves. A builder that can be
finished gives a coherent function, whatever steps were taken before, and so does a text
that can be read. -/
namespace RefElision

namespace Func

/-- All operands, those of instructions and those of terminators. -/
def operands (f : Func) : List Value :=
  f.blocks.flatMap fun b => b.body.flatMap Instr.uses ++ b.term.uses

end Func

namespace Builder

/-- The name and the arguments are what they were at the start. -/
theorem header_step (b : Builder) (s : Step) :
    (b.step s).name = b.name ∧ (b.step s).args = b.args := by
  cases s with
  | label l =>
      rw [step, label]
      split <;> exact ⟨rfl, rfl⟩
  | perform o =>
      rw [step, perform, emit, emitShown]
      split <;> exact ⟨rfl, rfl⟩
  | performThenName o =>
      rw [step, performThenName, emitShown]
      split <;> exact ⟨rfl, rfl⟩
  | emit i =>
      rw [step, emit, emitShown]
      split <;> exact ⟨rfl, rfl⟩
  | emitTerminator t =>
      rw [step, emitTerminator]
      split <;> exact ⟨rfl, rfl⟩
  | terminate t =>
      rw [step, terminate]
      split <;> exact ⟨rfl, rfl⟩
  | build =>
      rw [step, build]
      split <;> exact ⟨rfl, rfl⟩

theorem header_run (b : Builder) (steps : List Step) :
    (b.run steps).name = b.name ∧ (b.run steps).args = b.args := by
  induction steps generalizing b with
  | nil => exact ⟨rfl, rfl⟩
  | cons s rest ih =>
      exact ⟨(ih (b.step s)).1.trans (header_step b s).1, (ih (b.step s)).2.trans (header_step b s).2⟩

/-- A finished function has the blocks whose labels were placed, and no others. -/
theorem labels_of_run {name : String} {args : List String} {steps : List Step} {f : Func}
    (h : ((empty name args).run steps).build.2 = .ok f) :
    f.name = name ∧ f.args = args ∧ f.labels = steps.filterMap Step.label? := by
  obtain ⟨hNone, rfl⟩ := build_ok h
  obtain ⟨hError, _, hCurrent, _⟩ := finalError_eq_none.mp hNone
  have hHeader := header_run (empty name args) steps
  have hPlaced := (run_ok hError).2
  refine ⟨hHeader.1, hHeader.2, ?_⟩
  calc Func.labels (Func.rebuild ⟨_, _, ((empty name args).run steps).finished, []⟩)
      = ((empty name args).run steps).placedLabels := by
        simp [Func.labels, Func.rebuild, placedLabels, hCurrent]
    _ = (empty name args).placedLabels ++ steps.filterMap Step.label? := hPlaced
    _ = steps.filterMap Step.label? := rfl

end Builder

namespace Func

end Func

end RefElision
