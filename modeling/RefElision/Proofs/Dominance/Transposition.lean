import RefElision.Proofs.Dominance.Indexing
import RefElision.Proofs.Program.Reading
import RefElision.Proofs.Program.Rewiring

/-! The two halves of the index form. Successors are read off the terminators and predecessors
off the recorded lists, so they are the same edges only if the lists are right. They are, once
the predecessors have been computed anew, whatever was done to edges and block order before. -/
namespace RefElision

section Repetition

variable {α β : Type} [BEq α] [BEq β]

/-- Induction that takes the first entry away together with its repetitions. -/
theorem repetition_induction {motive : List α → Prop} (nil : motive [])
    (cons : ∀ x xs, motive (xs.filter fun y => !y == x) → motive (x :: xs)) (xs : List α) :
    motive xs := by
  induction hLength : xs.length using Nat.strongRecOn generalizing xs with
  | ind n ih =>
      cases xs with
      | nil => exact nil
      | cons x xs =>
          apply cons
          apply ih _ _ _ rfl
          rw [← hLength, List.length_cons]
          exact Nat.lt_succ_of_le (List.length_filter_le _ _)

variable [LawfulBEq α] [LawfulBEq β]

theorem nodup_eraseDups (xs : List α) : xs.eraseDups.Nodup := by
  induction xs using repetition_induction with
  | nil => exact List.nodup_nil
  | cons x xs ih =>
      rw [List.eraseDups_cons, List.nodup_cons]
      exact ⟨by simp, ih⟩

/-- Repetitions are the same before and after a map that tells the entries apart. -/
theorem eraseDups_map {view : α → β} {xs : List α}
    (hApart : ∀ x ∈ xs, ∀ y ∈ xs, view x = view y → x = y) :
    (xs.map view).eraseDups = xs.eraseDups.map view := by
  induction xs using repetition_induction with
  | nil => rfl
  | cons x xs ih =>
      have hFilter : ((xs.map view).filter fun y => !y == view x) =
          (xs.filter fun y => !y == x).map view := by
        rw [List.filter_map]
        congr 1
        apply List.filter_congr
        intro y hy
        have hSame : view y = view x ↔ y = x :=
          ⟨hApart y (List.mem_cons_of_mem _ hy) x List.mem_cons_self, fun hEq => hEq ▸ rfl⟩
        rw [Function.comp_apply, Bool.not_inj_iff, Bool.eq_iff_iff, beq_iff_eq, beq_iff_eq, hSame]
      have hRest := ih fun y hy z hz =>
        hApart y (List.mem_cons_of_mem _ (List.mem_filter.mp hy).1) z
          (List.mem_cons_of_mem _ (List.mem_filter.mp hz).1)
      rw [List.map_cons, List.eraseDups_cons, List.eraseDups_cons, List.map_cons, hFilter, hRest]

end Repetition

/-- Both halves of the graph are lists without repetition for the same indices, and they hold
the same edges seen from both ends. -/
structure FlowGraph.Transposed (g : FlowGraph) : Prop where
  succ_size : g.succ.size = g.exit + 1
  pred_size : g.pred.size = g.exit + 1
  succ_inRange : g.succ.InRange
  pred_inRange : g.pred.InRange
  succ_nodup : ∀ i, (g.succ.succ i).Nodup
  pred_nodup : ∀ i, (g.pred.succ i).Nodup
  mem_iff : ∀ i ≤ g.exit, ∀ j ≤ g.exit, j ∈ g.succ.succ i ↔ i ∈ g.pred.succ j

namespace Func

variable {f g : Func}

/-- What holds of the entry of each block and of the last entry holds of all entries. -/
theorem adjacency_induction {entry : Block → List Nat} {last : List Nat}
    (holds : List Nat → Prop) (hNil : holds []) (hBlock : ∀ b ∈ f.blocks, holds (entry b))
    (hLast : holds last) (i : Nat) :
    holds (Adjacency.succ (f.blocks.map entry ++ [last]).toArray i) := by
  rw [Adjacency.succ]
  cases hEntry : (f.blocks.map entry ++ [last]).toArray[i]? with
  | none => exact hNil
  | some targets =>
      rw [List.getElem?_toArray] at hEntry
      rcases List.mem_append.mp (List.mem_of_getElem? hEntry) with hMem | hMem
      · obtain ⟨b, hb, rfl⟩ := List.mem_map.mp hMem
        exact hBlock b hb
      · exact List.mem_singleton.mp hMem ▸ hLast

theorem nodup_blockSucc (labels : List Label) (b : Block) :
    (FlowGraph.blockSucc labels b).Nodup := by
  rw [FlowGraph.blockSucc]
  split
  case h_1 => exact List.nodup_singleton _
  case h_2 => exact nodup_eraseDups _

theorem nodup_succ (f : Func) (i : Nat) : ((FlowGraph.ofFunc f).succ.succ i).Nodup :=
  adjacency_induction List.Nodup List.nodup_nil
    (fun b _ => nodup_blockSucc f.labels b) List.nodup_nil i

theorem nodup_pred (f : Func) (i : Nat) : ((FlowGraph.ofFunc f).pred.succ i).Nodup :=
  adjacency_induction List.Nodup List.nodup_nil
    (fun _ _ => nodup_eraseDups _) (List.nodup_range.filter _) i

theorem succ_of_returning {i : Nat} {b : Block} (hBlock : f.blocks[i]? = some b)
    (hNone : b.successors = []) :
    (FlowGraph.ofFunc f).succ.succ i = [(FlowGraph.ofFunc f).exit] := by
  have hEntry : (FlowGraph.ofFunc f).succ.succ i = FlowGraph.blockSucc f.labels b :=
    Recorded.adjacency_block hBlock
  rw [hEntry, FlowGraph.blockSucc, hNone]
  rfl

namespace Recorded

variable (h : f.Recorded)
include h

theorem transposed : (FlowGraph.ofFunc f).Transposed where
  succ_size := size_succ
  pred_size := size_pred
  succ_inRange := Recorded.succ_inRange f
  pred_inRange := Recorded.pred_inRange f
  succ_nodup := f.nodup_succ
  pred_nodup := f.nodup_pred
  mem_iff _ hi _ hj := (h.mem_pred_iff_mem_succ hi hj).symm

/-- The successors of a block that does not return are the indices of its targets, in the order
in which the terminator names them for the first time. -/
theorem succ_of_targets {i : Nat} {b : Block} (hBlock : f.blocks[i]? = some b)
    (hSome : b.successors ≠ []) :
    ((FlowGraph.ofFunc f).succ.succ i).map (fun j => f.labels[j]?) =
      b.successors.eraseDups.map some := by
  have hIndex : ∀ m ∈ b.successors, f.labels[(f.labels.idxOf? m).getD 0]? = some m := by
    intro m hm
    obtain ⟨k, hk⟩ := exists_index (h.targets b (List.mem_of_getElem? hBlock) m hm)
    rwa [h.idxOf?_iff.mpr hk, Option.getD_some]
  have hApart : ∀ m ∈ b.successors, ∀ n ∈ b.successors,
      (f.labels.idxOf? m).getD 0 = (f.labels.idxOf? n).getD 0 → m = n := by
    intro m hm n hn hEq
    have hSame := hIndex m hm
    rw [hEq, hIndex n hn] at hSame
    exact (Option.some.inj hSame).symm
  have hEntry : (FlowGraph.ofFunc f).succ.succ i = FlowGraph.blockSucc f.labels b :=
    adjacency_block hBlock
  rw [hEntry, FlowGraph.blockSucc]
  split
  case h_1 hNone => exact (hSome hNone).elim
  case h_2 =>
    rw [eraseDups_map hApart, List.map_map]
    apply List.map_congr_left
    intro m hm
    exact hIndex m (List.mem_eraseDups.mp hm)

end Recorded

/-- After any changes to the terminators and the order of the blocks of a function that was read,
computing the predecessors anew makes both halves of its graph hold the same edges. The
successors of a block are the indices of its targets, each once and in the order of the
terminator, or the virtual exit alone if there is no target. Computing the predecessors once
more changes nothing. -/
theorem rebuild_transposes (hParsed : f.IsParsed) (hEdited : f.Edited g) :
    let graph := FlowGraph.ofFunc g.rebuild
    graph.labels.Perm f.labels ∧ graph.exit = g.rebuild.blocks.length ∧ graph.Transposed ∧
    (∀ i b, g.rebuild.blocks[i]? = some b →
      (b.successors = [] → graph.succ.succ i = [graph.exit]) ∧
      (b.successors ≠ [] → (graph.succ.succ i).map (fun j => graph.labels[j]?) =
        b.successors.eraseDups.map some)) ∧
    g.rebuild.rebuild = g.rebuild := by
  obtain ⟨hEnclosed, hPerm⟩ := hParsed.wellFormed.toEnclosed.edited hEdited
  have hRecorded : g.rebuild.Recorded := hEnclosed.rebuild
  have hLabels : g.rebuild.labels.Perm f.labels := g.labels_rebuild.symm ▸ hPerm
  refine ⟨hLabels, List.length_map _, hRecorded.transposed, ?_, hRecorded.rebuild_eq⟩
  intro i b hBlock
  exact ⟨succ_of_returning hBlock, hRecorded.succ_of_targets hBlock⟩

def forked : Func where
  name := "f"
  args := ["x"]
  blocks :=
    [⟨1, "entry", [], [], .branch (.var "x") "a" "b"⟩, ⟨2, "a", [], ["entry"], .jump "b"⟩,
      ⟨3, "b", [], ["entry", "a"], .ret []⟩]

/-- Block `b` has become the entry. It leads to `a` and to itself, to both for two reasons, and
`a` returns. -/
def reforked : Func :=
  ((forked.setTerm "b" (.switch (.var "x") (.ofList [(1, "a"), (2, "b"), (3, "a")]) "b")).setTerm
    "a" (.ret [])).move "b" 0

/-- Before the predecessors are computed anew, the edges that leave `b` are not among them. -/
theorem rebuild_transposes_reforked :
    forked.IsParsed ∧ forked.Edited reforked ∧
    (FlowGraph.ofFunc reforked).pred = #[[1, 2], [], [1], [2]] ∧
    (FlowGraph.ofFunc reforked.rebuild).succ = #[[2, 0], [2, 0], [3], []] ∧
    (FlowGraph.ofFunc reforked.rebuild).pred = #[[0, 1], [], [0, 1], [2]] ∧
    (FlowGraph.ofFunc reforked.rebuild).Transposed ∧
    reforked.rebuild.rebuild = reforked.rebuild := by
  have hRead : (Func.parse ("func @f(%x) \x7b\nentry:\nbr %x, a, b\na:\ngoto b\n" ++
      "b:\nret\n\x7d\n")).toOption = some forked := by
    decide +kernel
  have hParsed : forked.IsParsed := isParsed_of_toOption hRead
  have hEdited : forked.Edited reforked :=
    .move (.setTerm (.setTerm .unchanged "b" _ (by decide)) "a" _ (by decide)) "b" 0 (by decide)
  obtain ⟨_, _, hTransposed, _, hAgain⟩ := rebuild_transposes hParsed hEdited
  exact ⟨hParsed, hEdited, by decide, by decide, by decide, hTransposed, hAgain⟩

end Func

end RefElision
