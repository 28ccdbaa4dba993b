import Mathlib.Data.List.Nodup
import Mathlib.Data.List.Pairwise
import RefElision.Proofs.Program.Flow
import RefElision.Proofs.Program.Reading

/-! Functions that differ in the bodies of their blocks only have the same flow of
control. Along a path the bodies are executed one after another. -/
namespace RefElision

/-- A change of a block that leaves all but the body as it is. -/
structure Block.BodyOnly (change : Block → Block) : Prop where
  number_eq : ∀ b, (change b).number = b.number
  label_eq : ∀ b, (change b).label = b.label
  preds_eq : ∀ b, (change b).preds = b.preds
  term_eq : ∀ b, (change b).term = b.term

/-- A change of a block that leaves its place in the flow of control as it is. -/
structure Block.KeepsFlow (change : Block → Block) : Prop where
  label_eq : ∀ b, (change b).label = b.label
  preds_eq : ∀ b, (change b).preds = b.preds
  successors_eq : ∀ b, (change b).successors = b.successors

theorem Block.BodyOnly.keepsFlow {change : Block → Block} (h : BodyOnly change) :
    KeepsFlow change where
  label_eq := h.label_eq
  preds_eq := h.preds_eq
  successors_eq b := congrArg Terminator.successors (h.term_eq b)

/-- Changes of bodies can be made one after the other. -/
theorem Block.BodyOnly.comp {first second : Block → Block} (hSecond : BodyOnly second)
    (hFirst : BodyOnly first) : BodyOnly (second ∘ first) where
  number_eq b := (hSecond.number_eq _).trans (hFirst.number_eq b)
  label_eq b := (hSecond.label_eq _).trans (hFirst.label_eq b)
  preds_eq b := (hSecond.preds_eq _).trans (hFirst.preds_eq b)
  term_eq b := (hSecond.term_eq _).trans (hFirst.term_eq b)

namespace Func

variable {f : Func} {change : Block → Block}

/-- The body of a block, empty if there is no such block. -/
def bodyAt (f : Func) (l : Label) : List Instr :=
  ((f.block? l).map Block.body).getD []

/-- The instructions that are executed along a path. -/
def executed (f : Func) (p : List Label) : List Instr :=
  p.flatMap f.bodyAt

/-- No block is detached, so a block is found by its label among those of the function. -/
theorem Linked.block?_label (h : f.Linked) {b : Block} (hb : b ∈ f.blocks) :
    f.block? b.label = some b := by
  have hAny := h.anyBlock?_label hb
  rwa [anyBlock?, h.detached_nil, List.append_nil] at hAny

theorem Linked.bodyAt_label (h : f.Linked) {b : Block} (hb : b ∈ f.blocks) :
    f.bodyAt b.label = b.body := by
  simp [bodyAt, h.block?_label hb]

section KeepsFlow

variable (hFlow : Block.KeepsFlow change)
include hFlow

theorem labels_keepsFlow : (f.mapBlocks change).labels = f.labels := by
  simp [labels, mapBlocks, Function.comp_def, hFlow.label_eq]

/-- Since labels stay, looking up and changing a block can be done in either order. -/
theorem block?_keepsFlow (l : Label) : (f.mapBlocks change).block? l = (f.block? l).map change := by
  have hLabel : ∀ b, ((change b).label == l) = (b.label == l) := fun b => by rw [hFlow.label_eq]
  rw [block?, mapBlocks, List.find?_map]
  exact congrArg (Option.map change) (congrArg (f.blocks.find? ·) (funext hLabel))

/-- Nodes and edges are the same. This makes all that is read off the graph the same. -/
theorem graph_keepsFlow : (f.mapBlocks change).graph = f.graph := by
  have hNodes : (f.mapBlocks change).graph.nodes = f.graph.nodes := by
    simp [graph, mapBlocks, Function.comp_def, hFlow.label_eq]
  have hSucc : (f.mapBlocks change).graph.succ = f.graph.succ := by
    funext l
    have hBlocks : (f.mapBlocks change).blocks.find? (·.label == l) =
        (f.blocks.find? (·.label == l)).map change := block?_keepsFlow hFlow l
    have hDetached : (f.mapBlocks change).detached = f.detached := rfl
    simp only [graph, anyBlock?, List.find?_append, hBlocks, hDetached]
    cases f.blocks.find? (·.label == l) with
    | none => rfl
    | some b => simp [hFlow.successors_eq]
  exact Digraph.mk.injEq _ _ _ _ ▸ ⟨hNodes, hSucc⟩

end KeepsFlow

section BodyOnly

variable (hBody : Block.BodyOnly change)
include hBody

theorem labels_mapBlocks : (f.mapBlocks change).labels = f.labels :=
  labels_keepsFlow hBody.keepsFlow

theorem entry?_mapBlocks : Func.entry? (f.mapBlocks change) = f.entry? :=
  congrArg List.head? (labels_mapBlocks hBody)

theorem block?_mapBlocks (l : Label) : (f.mapBlocks change).block? l = (f.block? l).map change :=
  block?_keepsFlow hBody.keepsFlow l

theorem graph_mapBlocks : (f.mapBlocks change).graph = f.graph :=
  graph_keepsFlow hBody.keepsFlow

/-- The paths from the entry are the same, so executions before and after can be compared path
by path. -/
theorem fromEntry_mapBlocks : (f.mapBlocks change).FromEntry = f.FromEntry := by
  funext l p
  rw [FromEntry, FromEntry, entry?_mapBlocks hBody, graph_mapBlocks hBody]

theorem toReturn_mapBlocks : (f.mapBlocks change).ToReturn = f.ToReturn := by
  funext l p
  simp only [ToReturn, Returns, labels_mapBlocks hBody, graph_mapBlocks hBody]

/-- Numbers, labels, recorded predecessors and edges do not depend on bodies. -/
theorem Linked.mapBlocks (h : f.Linked) : (f.mapBlocks change).Linked := by
  have hSuccessors : ∀ b, (change b).successors = b.successors := hBody.keepsFlow.successors_eq
  constructor
  case toRecorded =>
    constructor
    case toEnclosed =>
      constructor
      case nonempty => simpa [Func.mapBlocks] using h.nonempty
      case labels_nodup => rw [labels_mapBlocks hBody]; exact h.labels_nodup
      case detached_nil => exact h.detached_nil
      case targets =>
        intro b hb
        obtain ⟨b, hOld, rfl⟩ := List.mem_map.mp hb
        rw [hSuccessors, labels_mapBlocks hBody]
        exact h.targets b hOld
    case preds_eq =>
      intro b hb
      obtain ⟨b, hOld, rfl⟩ := List.mem_map.mp hb
      rw [hBody.preds_eq, h.preds_eq b hOld, hBody.label_eq]
      simp [predecessorsOf, Func.mapBlocks, List.filter_map, Function.comp_def, hSuccessors,
        hBody.label_eq]
  case numbers =>
    rw [Func.mapBlocks, List.map_map, List.length_map, ← h.numbers]
    exact List.map_congr_left fun b _ => hBody.number_eq b

end BodyOnly

/-- Two instructions of a function with one tag are the same and stand in the same block. -/
theorem tag_unique (h : f.tags.Nodup) {b c : Block} (hb : b ∈ f.blocks) (hc : c ∈ f.blocks)
    {i j : Instr} (hi : i ∈ b.body) (hj : j ∈ c.body) (hTag : i.tag = j.tag) : b = c ∧ i = j := by
  obtain ⟨hEach, hApart⟩ := List.nodup_flatMap.mp h
  have hBlock : b = c := by
    by_contra hne
    have : Std.Symm (Function.onFun List.Disjoint fun b : Block => b.body.map Instr.tag) :=
      ⟨fun _ _ hApart _ hx hy => hApart hy hx⟩
    have hDisjoint := hApart.forall hb hc hne
    exact hDisjoint (List.mem_map_of_mem hi) (hTag ▸ List.mem_map_of_mem hj)
  subst hBlock
  exact ⟨rfl, List.inj_on_of_nodup_map (hEach b hb) hi hj hTag⟩

end Func

end RefElision
