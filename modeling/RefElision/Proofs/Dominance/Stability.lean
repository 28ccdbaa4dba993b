import RefElision.Dominance.Oracle
import RefElision.Proofs.Program.Bodies

/-! What an oracle depends on: the labels of the blocks, where they lead, and the recorded
predecessors. It does not depend on bodies, so it makes no difference whether it is computed
before or after they are changed. -/
namespace RefElision

section KeepsFlow

variable {f : Func} {change : Block → Block} (h : Block.KeepsFlow change)
include h

theorem FlowGraph.ofFunc_mapBlocks : FlowGraph.ofFunc (f.mapBlocks change) = FlowGraph.ofFunc f := by
  have hLabels : (f.mapBlocks change).labels = f.labels := Func.labels_keepsFlow h
  have hSucc : ∀ b, blockSucc f.labels (change b) = blockSucc f.labels b := by
    intro b
    rw [blockSucc, blockSucc, h.successors_eq]
  have hPred : ∀ b, blockPred f.labels (change b) = blockPred f.labels b := by
    intro b
    rw [blockPred, blockPred, h.preds_eq]
  have hReturning : returning (f.blocks.map change) = returning f.blocks := by
    simp only [returning, List.length_map, List.getElem?_map, Option.map_map, Function.comp_def,
      h.successors_eq]
  simp only [ofFunc, hLabels]
  simp only [Func.mapBlocks, List.map_map, Function.comp_def, hSucc, hPred, hReturning]

/-- However an oracle is computed, it is the same before and after the change. -/
theorem Algorithm.compute_mapBlocks (algorithm : Algorithm) :
    algorithm.compute (f.mapBlocks change) = algorithm.compute f := by
  cases algorithm with
  | lengauerTarjan => rw [compute, DomTrees.ofFunc, FlowGraph.ofFunc_mapBlocks h]; rfl
  | flow => rw [compute, Oracle.ofFinder, FlowGraph.ofFunc_mapBlocks h]; rfl

end KeepsFlow

/-- Erasing operations changes bodies only, whatever operations they are. -/
theorem Block.bodyOnly_eraseOps (ops : List RefOp) :
    BodyOnly fun b => if ops.any (fun op => op.block == b.label) then
      b.erase (ops.map fun op => op.instr.tag) else b where
  number_eq b := by split <;> rfl
  label_eq b := by split <;> rfl
  preds_eq b := by split <;> rfl
  term_eq b := by split <;> rfl

theorem Algorithm.compute_eraseOps (algorithm : Algorithm) (f : Func) (ops : List RefOp) :
    algorithm.compute (f.eraseOps ops) = algorithm.compute f :=
  algorithm.compute_mapBlocks (Block.bodyOnly_eraseOps ops).keepsFlow

end RefElision
