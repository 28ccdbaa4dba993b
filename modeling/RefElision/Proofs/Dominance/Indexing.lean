import Mathlib.Data.List.Nodup
import Mathlib.Tactic.ByContra
import RefElision.Dominance.FlowGraph
import RefElision.Proofs.Dominance.Exploration
import RefElision.Proofs.Graph.Dominators
import RefElision.Proofs.Program.Flow

/-! The index form of a function. Its edges are those between the blocks, and one from
each returning block to the virtual exit; the predecessor lists give the same edges
turned around. So paths of indices are paths of blocks. -/
namespace RefElision.Func.Recorded

variable {f : Func} {i j : Nat} {l m : Label}

theorem idxOf?_iff (h : f.Recorded) : f.labels.idxOf? l = some i ↔ f.labels[i]? = some l := by
  rw [List.idxOf?_eq_some_iff, List.getElem?_eq_some_iff]
  constructor
  · rintro ⟨hi, hEq, _⟩
    exact ⟨hi, hEq⟩
  · rintro ⟨hi, hEq⟩
    refine ⟨hi, hEq, fun k hk hSame => ?_⟩
    have hIndex := (h.labels_nodup.getElem_inj_iff).mp (hSame.trans hEq.symm)
    omega

theorem index_unique (h : f.Recorded) (hi : f.labels[i]? = some l) (hj : f.labels[j]? = some l) :
    i = j := by
  rw [← h.idxOf?_iff] at hi hj
  exact Option.some.inj (hi.symm.trans hj)

theorem exists_index (hl : l ∈ f.labels) : ∃ i : Nat, f.labels[i]? = some l :=
  List.mem_iff_getElem?.mp hl

theorem index_lt (hi : f.labels[i]? = some l) : i < f.labels.length :=
  (List.getElem?_eq_some_iff.mp hi).1

/-- An index is that of a block or of the virtual exit. -/
theorem index_cases (hi : i ≤ f.labels.length) :
    (∃ l, f.labels[i]? = some l) ∨ i = f.labels.length := by
  rcases Nat.lt_or_eq_of_le hi with hLess | hEq
  · exact .inl ⟨_, List.getElem?_eq_getElem hLess⟩
  · exact .inr hEq

/-- The block behind an index. -/
theorem exists_block (hi : f.labels[i]? = some l) :
    ∃ b ∈ f.blocks, f.blocks[i]? = some b ∧ b.label = l := by
  rw [labels, List.getElem?_map] at hi
  cases hBlock : f.blocks[i]? with
  | none => rw [hBlock] at hi; cases hi
  | some b =>
      rw [hBlock] at hi
      exact ⟨b, List.mem_of_getElem? hBlock, rfl, Option.some.inj hi⟩

/-- An entry of a list with one more entry behind the blocks. -/
theorem adjacency_block {entry : Block → List Nat} {last : List Nat} {b : Block}
    (hb : f.blocks[i]? = some b) :
    Adjacency.succ (f.blocks.map entry ++ [last]).toArray i = entry b := by
  obtain ⟨hi, rfl⟩ := List.getElem?_eq_some_iff.mp hb
  simp [Adjacency.succ, List.getElem?_append_left, hi]

theorem adjacency_last {entry : Block → List Nat} {last : List Nat} :
    Adjacency.succ (f.blocks.map entry ++ [last]).toArray f.labels.length = last := by
  simp [Adjacency.succ, labels]

theorem succ_exit : (FlowGraph.ofFunc f).succ.succ f.labels.length = [] :=
  adjacency_last

theorem size_succ : (FlowGraph.ofFunc f).succ.size = f.labels.length + 1 := by
  simp [FlowGraph.ofFunc, labels]

theorem size_pred : (FlowGraph.ofFunc f).pred.size = f.labels.length + 1 := by
  simp [FlowGraph.ofFunc, labels]

theorem idxOf?_lt (h : f.labels.idxOf? l = some i) : i < f.labels.length := by
  obtain ⟨hi, _⟩ := List.idxOf?_eq_some_iff.mp h
  exact hi

/-- A target that is not part of the function counts as the entry, so no edge leads out of the
graph, whatever the function. -/
theorem succ_inRange (f : Func) : (FlowGraph.ofFunc f).succ.InRange := by
  intro i hi j hj
  rw [size_succ] at hi ⊢
  rcases index_cases (Nat.le_of_lt_succ hi) with ⟨l, hl⟩ | rfl
  · obtain ⟨b, _, hBlock, _⟩ := exists_block hl
    have hEntry : (FlowGraph.ofFunc f).succ.succ i = FlowGraph.blockSucc f.labels b :=
      adjacency_block hBlock
    rw [hEntry, FlowGraph.blockSucc] at hj
    split at hj
    case h_1 => exact List.mem_singleton.mp hj ▸ Nat.lt_succ_self _
    case h_2 =>
      obtain ⟨m, _, rfl⟩ := List.mem_map.mp (List.mem_eraseDups.mp hj)
      cases hIndex : f.labels.idxOf? m with
      | none => exact Nat.succ_pos _
      | some k => exact Nat.lt_succ_of_lt (idxOf?_lt hIndex)
  · rw [succ_exit] at hj
    exact (List.not_mem_nil hj).elim

theorem pred_inRange (f : Func) : (FlowGraph.ofFunc f).pred.InRange := by
  intro j hj i hi
  rw [size_pred] at hj ⊢
  rcases index_cases (Nat.le_of_lt_succ hj) with ⟨m, hm⟩ | rfl
  · obtain ⟨b, _, hBlock, _⟩ := exists_block hm
    have hEntry : (FlowGraph.ofFunc f).pred.succ j = FlowGraph.blockPred f.labels b :=
      adjacency_block hBlock
    rw [hEntry, FlowGraph.blockPred, List.mem_eraseDups] at hi
    obtain ⟨l, _, hIndex⟩ := List.mem_filterMap.mp hi
    exact Nat.lt_succ_of_lt (idxOf?_lt hIndex)
  · have hEntry : (FlowGraph.ofFunc f).pred.succ f.labels.length =
        FlowGraph.returning f.blocks := adjacency_last
    rw [hEntry, FlowGraph.returning, List.mem_filter, List.mem_range] at hi
    rw [labels, List.length_map]
    exact Nat.lt_succ_of_lt hi.1

section Edges

variable (h : f.Recorded)
include h

theorem mem_succ_iff (hi : f.labels[i]? = some l) :
    j ∈ (FlowGraph.ofFunc f).succ.succ i ↔
      (f.graph.succ l = [] ∧ j = f.labels.length) ∨
        ∃ m ∈ f.graph.succ l, f.labels[j]? = some m := by
  obtain ⟨b, hb, hBlock, rfl⟩ := exists_block hi
  rw [h.graph_succ hb]
  have hEntry : (FlowGraph.ofFunc f).succ.succ i = FlowGraph.blockSucc f.labels b :=
    adjacency_block hBlock
  rw [hEntry, FlowGraph.blockSucc]
  split
  case h_1 hNone => simp [hNone]
  case h_2 hSome =>
    have hTarget : ∀ m ∈ b.successors, ((f.labels.idxOf? m).getD 0 = j ↔
        f.labels[j]? = some m) := by
      intro m hm
      obtain ⟨k, hk⟩ := exists_index (h.targets b hb m hm)
      rw [h.idxOf?_iff.mpr hk, Option.getD_some]
      constructor
      · rintro rfl
        exact hk
      · exact h.index_unique hk
    rw [List.mem_eraseDups, List.mem_map]
    constructor
    · rintro ⟨m, hm, hEq⟩
      exact .inr ⟨m, hm, (hTarget m hm).mp hEq⟩
    · rintro (⟨hNone, _⟩ | ⟨m, hm, hEq⟩)
      · exact (hSome hNone).elim
      · exact ⟨m, hm, (hTarget m hm).mpr hEq⟩

theorem mem_pred_iff (hj : f.labels[j]? = some m) :
    i ∈ (FlowGraph.ofFunc f).pred.succ j ↔
      ∃ l, f.labels[i]? = some l ∧ m ∈ f.graph.succ l := by
  obtain ⟨b, hb, hBlock, rfl⟩ := exists_block hj
  have hEntry : (FlowGraph.ofFunc f).pred.succ j = FlowGraph.blockPred f.labels b :=
    adjacency_block hBlock
  rw [hEntry, FlowGraph.blockPred, List.mem_eraseDups, List.mem_filterMap, h.preds_eq b hb]
  have hPred : ∀ l, l ∈ f.predecessorsOf b.label ↔ l ∈ f.labels ∧ b.label ∈ f.graph.succ l := by
    intro l
    simp only [predecessorsOf, List.mem_map, List.mem_filter, List.contains_iff_mem, labels]
    constructor
    · rintro ⟨c, ⟨hc, hEdge⟩, rfl⟩
      exact ⟨⟨c, hc, rfl⟩, by rwa [h.graph_succ hc]⟩
    · rintro ⟨⟨c, hc, rfl⟩, hEdge⟩
      exact ⟨c, ⟨hc, by rwa [h.graph_succ hc] at hEdge⟩, rfl⟩
  constructor
  · rintro ⟨l, hl, hIndex⟩
    exact ⟨l, h.idxOf?_iff.mp hIndex, ((hPred l).mp hl).2⟩
  · rintro ⟨l, hIndex, hEdge⟩
    exact ⟨l, (hPred l).mpr ⟨List.mem_of_getElem? hIndex, hEdge⟩, h.idxOf?_iff.mpr hIndex⟩

theorem mem_pred_exit_iff :
    i ∈ (FlowGraph.ofFunc f).pred.succ f.labels.length ↔
      ∃ l, f.labels[i]? = some l ∧ f.graph.succ l = [] := by
  have hEntry : (FlowGraph.ofFunc f).pred.succ f.labels.length = FlowGraph.returning f.blocks :=
    adjacency_last
  rw [hEntry, FlowGraph.returning, List.mem_filter, List.mem_range]
  constructor
  · rintro ⟨hi, hReturns⟩
    obtain ⟨b, hb⟩ : ∃ b, f.blocks[i]? = some b := ⟨_, List.getElem?_eq_getElem hi⟩
    refine ⟨b.label, by simp [labels, hb], ?_⟩
    rw [h.graph_succ (List.mem_of_getElem? hb)]
    simpa [hb] using hReturns
  · rintro ⟨l, hl, hNone⟩
    obtain ⟨b, hb, hBlock, rfl⟩ := exists_block hl
    rw [h.graph_succ hb] at hNone
    exact ⟨(List.getElem?_eq_some_iff.mp hBlock).1, by simp [hBlock, hNone]⟩

/-- The two lists of edges are each other turned around. -/
theorem mem_pred_iff_mem_succ (hi : i ≤ f.labels.length) (hj : j ≤ f.labels.length) :
    i ∈ (FlowGraph.ofFunc f).pred.succ j ↔ j ∈ (FlowGraph.ofFunc f).succ.succ i := by
  have hExit : ∀ l, f.labels[f.labels.length]? ≠ some l := by simp
  rcases index_cases hj with ⟨m, hm⟩ | rfl
  · have hjExit : j ≠ f.labels.length := Nat.ne_of_lt (index_lt hm)
    rw [h.mem_pred_iff hm]
    rcases index_cases hi with ⟨l, hl⟩ | rfl
    · rw [h.mem_succ_iff hl]
      constructor
      · rintro ⟨l', hl', hEdge⟩
        rw [Option.some.inj (hl.symm.trans hl')]
        exact .inr ⟨m, hEdge, hm⟩
      · rintro (⟨_, hEq⟩ | ⟨m', hEdge, hm'⟩)
        · exact (hjExit hEq).elim
        · rw [Option.some.inj (hm'.symm.trans hm)] at hEdge
          exact ⟨l, hl, hEdge⟩
    · rw [succ_exit]
      simp
  · rw [h.mem_pred_exit_iff]
    rcases index_cases hi with ⟨l, hl⟩ | rfl
    · rw [h.mem_succ_iff hl]
      constructor
      · rintro ⟨l', hl', hNone⟩
        rw [Option.some.inj (hl.symm.trans hl')]
        exact .inl ⟨hNone, rfl⟩
      · rintro (⟨hNone, _⟩ | ⟨m, _, hm⟩)
        · exact ⟨l, hl, hNone⟩
        · exact (hExit m hm).elim
    · rw [succ_exit]
      simp

end Edges

/-- A list of indices that stands for a list of blocks. -/
def Indexes (f : Func) (q : List Nat) (p : List Label) : Prop :=
  q.map (fun i => f.labels[i]?) = p.map some

theorem mem_of_indexes (h : f.Recorded) {q : List Nat} {p : List Label} (hIndexes : Indexes f q p)
    (hi : f.labels[i]? = some l) : i ∈ q ↔ l ∈ p := by
  have hMap : i ∈ q ↔ some l ∈ q.map fun i => f.labels[i]? := by
    rw [List.mem_map]
    constructor
    · exact fun hMem => ⟨i, hMem, hi⟩
    · rintro ⟨j, hj, hEq⟩
      rwa [h.index_unique hi hEq]
  rw [hMap, hIndexes, List.mem_map]
  simp

section Paths

variable (h : f.Recorded)
include h

theorem index_path {p : List Label} (hPath : Path f.graph.succ l m p) (hi : f.labels[i]? = some l) :
    ∃ j q, f.labels[j]? = some m ∧ Indexes f q p ∧
      Path (FlowGraph.ofFunc f).succ.succ i j q := by
  induction hPath generalizing i with
  | single => exact ⟨i, [i], hi, by simp [Indexes, hi], .single i⟩
  | @step l t m p edge _ ih =>
      obtain ⟨k, hk⟩ := exists_index (h.graph_closed (List.mem_of_getElem? hi) t edge)
      obtain ⟨j, q, hj, hIndexes, hPath⟩ := ih hk
      refine ⟨j, i :: q, hj, ?_, .step ((h.mem_succ_iff hi).mpr (.inr ⟨t, edge, hk⟩)) hPath⟩
      rw [Indexes, List.map_cons, List.map_cons, hi, hIndexes]

/-- A path of indices that does not end in the virtual exit never comes to it. -/
theorem label_path {q : List Nat} (hPath : Path (FlowGraph.ofFunc f).succ.succ i j q)
    (hi : f.labels[i]? = some l) (hj : f.labels[j]? = some m) :
    ∃ p, Indexes f q p ∧ Path f.graph.succ l m p := by
  induction hPath generalizing l with
  | single =>
      obtain rfl := Option.some.inj (hi.symm.trans hj)
      exact ⟨[l], by simp [Indexes, hi], .single l⟩
  | @step i k j q edge rest ih =>
      rcases (h.mem_succ_iff hi).mp edge with ⟨_, rfl⟩ | ⟨t, hEdge, hk⟩
      · cases rest with
        | single => simp at hj
        | step exit _ => rw [succ_exit] at exit; cases exit
      · obtain ⟨p, hIndexes, hLabels⟩ := ih hk hj
        refine ⟨l :: p, ?_, .step hEdge hLabels⟩
        rw [Indexes, List.map_cons, List.map_cons, hi, hIndexes]

end Paths

/-- Paths of indices from a root stand for certain lists of blocks, whatever block they
lead to. -/
structure Represents (f : Func) (succ : Nat → List Nat) (root : Nat)
    (paths : Label → List Label → Prop) : Prop where
  to_labels : ∀ j m q, f.labels[j]? = some m → Path succ root j q →
    ∃ p, paths m p ∧ ∀ i l, f.labels[i]? = some l → (i ∈ q ↔ l ∈ p)
  of_labels : ∀ j m p, f.labels[j]? = some m → paths m p →
    ∃ q, Path succ root j q ∧ ∀ i l, f.labels[i]? = some l → (i ∈ q ↔ l ∈ p)

namespace Represents

variable {succ : Nat → List Nat} {root : Nat} {paths : Label → List Label → Prop}

theorem reached_iff (h : Represents f succ root paths) (hj : f.labels[j]? = some m) :
    (∃ q, Path succ root j q) ↔ ∃ p, paths m p := by
  constructor
  · rintro ⟨q, hPath⟩
    obtain ⟨p, hp, _⟩ := h.to_labels j m q hj hPath
    exact ⟨p, hp⟩
  · rintro ⟨p, hp⟩
    obtain ⟨q, hPath, _⟩ := h.of_labels j m p hj hp
    exact ⟨q, hPath⟩

theorem dominates_iff (h : Represents f succ root paths) (hi : f.labels[i]? = some l)
    (hj : f.labels[j]? = some m) :
    Dominates succ root i j ↔ ∀ p, paths m p → l ∈ p := by
  constructor
  · intro hDom p hp
    obtain ⟨q, hPath, hSame⟩ := h.of_labels j m p hj hp
    exact (hSame i l hi).mp (hDom q hPath)
  · intro hAll q hPath
    obtain ⟨p, hp, hSame⟩ := h.to_labels j m q hj hPath
    exact (hSame i l hi).mpr (hAll p hp)

end Represents

theorem represents_fromEntry (h : f.Recorded) :
    Represents f (FlowGraph.ofFunc f).succ.succ 0 f.FromEntry := by
  obtain ⟨entry, hEntry⟩ := h.exists_entry
  have hZero : f.labels[0]? = some entry := by rwa [← List.head?_eq_getElem?]
  constructor
  case to_labels =>
    intro j m q hj hPath
    obtain ⟨p, hIndexes, hLabels⟩ := h.label_path hPath hZero hj
    exact ⟨p, ⟨entry, hEntry, hLabels⟩, fun i l hi => h.mem_of_indexes hIndexes hi⟩
  case of_labels =>
    rintro j m p hj ⟨entry', hEntry', hLabels⟩
    obtain rfl := Option.some.inj (hEntry.symm.trans hEntry')
    obtain ⟨k, q, hk, hIndexes, hPath⟩ := h.index_path hLabels hZero
    obtain rfl := h.index_unique hk hj
    exact ⟨q, hPath, fun i l hi => h.mem_of_indexes hIndexes hi⟩

theorem le_of_mem_succ_path {q : List Nat}
    (hPath : Path (FlowGraph.ofFunc f).succ.succ i j q) (hi : i ≤ f.labels.length) :
    ∀ k ∈ q, k ≤ f.labels.length := by
  have hRange : ∀ k ∈ q, k < (FlowGraph.ofFunc f).succ.size := by
    apply hPath.mem_of_closed _ (succ_inRange f)
    rw [size_succ]
    exact Nat.lt_succ_of_le hi
  intro k hk
  have hLess := hRange k hk
  rw [size_succ] at hLess
  exact Nat.le_of_lt_succ hLess

theorem le_of_mem_pred_path {q : List Nat}
    (hPath : Path (FlowGraph.ofFunc f).pred.succ i j q) (hi : i ≤ f.labels.length) :
    ∀ k ∈ q, k ≤ f.labels.length := by
  have hRange : ∀ k ∈ q, k < (FlowGraph.ofFunc f).pred.size := by
    apply hPath.mem_of_closed _ (pred_inRange f)
    rw [size_pred]
    exact Nat.lt_succ_of_le hi
  intro k hk
  have hLess := hRange k hk
  rw [size_pred] at hLess
  exact Nat.le_of_lt_succ hLess

/-- Only blocks that return lead to the exit. -/
theorem returns_of_exit_edge (h : f.Recorded) (hi : i ≤ f.labels.length)
    (hEdge : f.labels.length ∈ (FlowGraph.ofFunc f).succ.succ i) :
    ∃ l, f.labels[i]? = some l ∧ f.graph.succ l = [] := by
  rcases index_cases hi with ⟨l, hl⟩ | rfl
  · rcases (h.mem_succ_iff hl).mp hEdge with ⟨hNone, _⟩ | ⟨m, _, hm⟩
    · exact ⟨l, hl, hNone⟩
    · exact (Nat.lt_irrefl _ (index_lt hm)).elim
  · rw [succ_exit] at hEdge
    cases hEdge

theorem represents_toReturn (h : f.Recorded) :
    Represents f (FlowGraph.ofFunc f).pred.succ (FlowGraph.ofFunc f).exit f.ToReturn := by
  have hExit : (FlowGraph.ofFunc f).exit = f.labels.length := rfl
  rw [hExit]
  have hNoLabel : ∀ i l, f.labels[i]? = some l → i ≠ f.labels.length := fun i l hi =>
    Nat.ne_of_lt (index_lt hi)
  constructor
  case to_labels =>
    intro j m q hj hPath
    have hBound := le_of_mem_pred_path hPath (Nat.le_refl _)
    have hBack : Path (FlowGraph.ofFunc f).succ.succ j f.labels.length q.reverse :=
      hPath.reverse fun a ha b hb hEdge =>
        (h.mem_pred_iff_mem_succ (hBound b hb) (hBound a ha)).mp hEdge
    rcases hBack.last_cases with ⟨hEq, _⟩ | ⟨k, q', hSplit, hFront, hLast⟩
    · exact (hNoLabel j m hj hEq).elim
    · have hk := le_of_mem_succ_path hFront (Nat.le_of_lt (index_lt hj)) k hFront.finish_mem
      obtain ⟨r, hr, hReturns⟩ := h.returns_of_exit_edge hk hLast
      obtain ⟨p, hIndexes, hLabels⟩ := h.label_path hFront hj hr
      refine ⟨p, ⟨r, ⟨List.mem_of_getElem? hr, hReturns⟩, hLabels⟩, fun i l hi => ?_⟩
      rw [← h.mem_of_indexes hIndexes hi, ← List.mem_reverse, hSplit, List.mem_append,
        List.mem_singleton, or_iff_left (hNoLabel i l hi)]
  case of_labels =>
    rintro j m p hj ⟨r, ⟨hMem, hReturns⟩, hLabels⟩
    obtain ⟨k, q, hk, hIndexes, hPath⟩ := h.index_path hLabels hj
    have hFull := hPath.concat ((h.mem_succ_iff hk).mpr (.inl ⟨hReturns, rfl⟩))
    have hBound := le_of_mem_succ_path hFull (Nat.le_of_lt (index_lt hj))
    refine ⟨_, hFull.reverse fun a ha b hb hEdge =>
      (h.mem_pred_iff_mem_succ (hBound a ha) (hBound b hb)).mpr hEdge, fun i l hi => ?_⟩
    rw [← h.mem_of_indexes hIndexes hi, List.mem_reverse, List.mem_append,
      List.mem_singleton, or_iff_left (hNoLabel i l hi)]

end RefElision.Func.Recorded
