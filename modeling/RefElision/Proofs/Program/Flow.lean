import RefElision.Proofs.Graph.Path
import RefElision.Proofs.Program.Building
import RefElision.Refs.RefOp

/-! The flow of control through a function: paths of blocks from the entry and to a
return. -/
namespace RefElision.Func

/-- A path of blocks from the entry to a block. -/
def FromEntry (f : Func) (l : Label) (p : List Label) : Prop :=
  ∃ entry, f.entry? = some entry ∧ Path f.graph.succ entry l p

/-- A block of the function without a way on. -/
def Returns (f : Func) (l : Label) : Prop :=
  l ∈ f.labels ∧ f.graph.succ l = []

/-- A path of blocks from a block to one that returns. -/
def ToReturn (f : Func) (l : Label) (p : List Label) : Prop :=
  ∃ last, f.Returns last ∧ Path f.graph.succ l last p

variable {f : Func}

/-- Only blocks have a way on. -/
theorem mem_nodes_of_succ {l m : Label} (h : m ∈ f.graph.succ l) : l ∈ f.graph.nodes := by
  simp only [graph] at h ⊢
  cases hBlock : f.anyBlock? l with
  | none => simp [hBlock] at h
  | some b =>
      have hLabel : b.label = l := by simpa using List.find?_some hBlock
      rw [← hLabel]
      exact List.mem_map_of_mem (List.mem_of_find?_eq_some hBlock)

theorem succ_eq_nil {l : Label} (h : l ∉ f.graph.nodes) : f.graph.succ l = [] :=
  List.eq_nil_iff_forall_not_mem.mpr fun _ hEdge => h (mem_nodes_of_succ hEdge)

namespace Enclosed

theorem exists_entry (h : f.Enclosed) : ∃ entry, f.entry? = some entry := by
  cases hBlocks : f.blocks with
  | nil => exact (h.nonempty hBlocks).elim
  | cons b rest => exact ⟨b.label, by simp [labels, hBlocks, entry?]⟩

theorem graph_nodes (h : f.Enclosed) : f.graph.nodes = f.labels := by
  simp [graph, labels, h.detached_nil]

theorem anyBlock?_label (h : f.Enclosed) {b : Block} (hb : b ∈ f.blocks) :
    f.anyBlock? b.label = some b := by
  have hFind : ∀ blocks : List Block, (blocks.map Block.label).Nodup → b ∈ blocks →
      blocks.find? (·.label == b.label) = some b := by
    intro blocks hNodup hMem
    induction blocks with
    | nil => exact (List.not_mem_nil hMem).elim
    | cons c rest ih =>
        rw [List.map_cons, List.nodup_cons] at hNodup
        rcases List.mem_cons.mp hMem with rfl | hRest
        · simp
        · have hne : c.label ≠ b.label := fun hEq =>
            hNodup.1 (hEq ▸ List.mem_map_of_mem hRest)
          rw [List.find?_cons_of_neg (by simpa using hne)]
          exact ih hNodup.2 hRest
  rw [anyBlock?, h.detached_nil, List.append_nil]
  exact hFind f.blocks h.labels_nodup hb

theorem graph_succ (h : f.Enclosed) {b : Block} (hb : b ∈ f.blocks) :
    f.graph.succ b.label = b.successors := by
  simp [graph, h.anyBlock?_label hb]

theorem graph_closed (h : f.Enclosed) {l : Label} (hl : l ∈ f.labels) :
    ∀ m ∈ f.graph.succ l, m ∈ f.labels := by
  obtain ⟨b, hb, rfl⟩ := List.mem_map.mp hl
  rw [h.graph_succ hb]
  exact h.targets b hb

theorem path_subset (h : f.Enclosed) {l m : Label} {p : List Label} (hl : l ∈ f.labels)
    (hPath : Path f.graph.succ l m p) : p ⊆ f.labels :=
  hPath.mem_of_closed hl fun _ ha => h.graph_closed ha

end Enclosed

end RefElision.Func
