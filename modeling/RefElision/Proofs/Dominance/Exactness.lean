import RefElision.Dominance.Oracle
import RefElision.Proofs.Dominance.ImmediateDominators
import RefElision.Proofs.Dominance.Indexing
import RefElision.Proofs.Dominance.Times
import RefElision.Proofs.Program.Reading

/-! What the oracles answer. Above a vertex in the tree of immediate dominators stand its
strict dominators, so the trees of a function answer exactly which block lies on all
paths from the entry to another, or from another to a return. -/
namespace RefElision

namespace DominatorTable

variable {succ : Nat → List Nat} {root size a b : Nat} {table : Array (Option Nat)}

theorem reached (h : DominatorTable succ root size table) {d : Nat}
    (hEntry : table.getD b none = some d) : b ≠ root ∧ ∃ p, Path succ root b p := by
  have hNot : ¬ (b = root ∨ ¬ ∃ p, Path succ root b p) := by
    rw [← h.none_iff, hEntry]
    exact fun hNone => nomatch hNone
  exact ⟨fun hEq => hNot (.inl hEq), Classical.not_not.mp fun hNone => hNot (.inr hNone)⟩

theorem dominates_of_above (h : DominatorTable succ root size table)
    (hAbove : Above table a b) : (∃ p, Path succ root b p) ∧ Dominates succ root a b := by
  induction hAbove with
  | parent entry => exact ⟨(h.reached entry).2, (h.immediate _ _ entry).dominates⟩
  | step entry _ ih => exact ⟨(h.reached entry).2, ih.2.trans (h.immediate _ _ entry).dominates⟩

/-- Strict dominators stand above. The induction is on the length of a path, which every
dominator cuts short. -/
theorem above_of_dominates (h : DominatorTable succ root size table) {p : List Nat}
    (hPath : Path succ root b p) (hne : a ≠ b) (hDom : Dominates succ root a b) :
    Above table a b := by
  generalize hLength : p.length = n
  induction n using Nat.strongRecOn generalizing b p with
  | ind n ih =>
      cases hEntry : table.getD b none with
      | none =>
          rcases (h.none_iff b).mp hEntry with rfl | hUnreached
          · exact (hne hDom.eq_root).elim
          · exact (hUnreached ⟨p, hPath⟩).elim
      | some d =>
          have hImmediate := h.immediate b d hEntry
          by_cases hEq : a = d
          · exact .parent (hEq ▸ hEntry)
          · obtain ⟨q, hShort, hLess⟩ :=
              hPath.exists_shorter (hImmediate.dominates p hPath) hImmediate.ne
            refine .step hEntry (ih q.length (by omega) hShort hEq ?_ rfl)
            exact hImmediate.nearest a hne hDom

theorem rooted (h : DominatorTable succ root size table) (hRoot : root < size) :
    Rooted table root where
  root_lt := h.size_eq.symm ▸ hRoot
  root_none := (h.none_iff root).mpr (.inl rfl)
  reaches v d hEntry := by
    obtain ⟨hne, p, hPath⟩ := h.reached hEntry
    exact h.above_of_dominates hPath (Ne.symm hne) (Dominates.root_dominates v)

/-- The tree answers which vertex dominates which. -/
theorem dominates_iff (h : DominatorTable succ root size table) (hRoot : root < size) :
    (DomTree.ofParents table root).dominates a b = true ↔
      a = b ∨ (∃ p, Path succ root b p) ∧ Dominates succ root a b := by
  rw [DomTree.dominates_ofParents (h.rooted hRoot)]
  constructor
  · rintro (hEq | hAbove)
    · exact .inl hEq
    · exact .inr (h.dominates_of_above hAbove)
  · rintro (hEq | ⟨⟨p, hPath⟩, hDom⟩)
    · exact .inl hEq
    · by_cases hEq : a = b
      · exact .inl hEq
      · exact .inr (h.above_of_dominates hPath hEq hDom)

end DominatorTable

namespace Func

/-- Blocks that lie on all paths of a kind to a block, if there is such a path, and the
block itself. -/
def OnAll (paths : Label → List Label → Prop) (a b : Label) : Prop :=
  a = b ∨ (∃ p, paths b p) ∧ ∀ p, paths b p → a ∈ p

variable {f : Func} {a b : Label}

/-- Answers about indices become answers about blocks. -/
theorem Recorded.lift_iff (h : f.Recorded) {answer : Nat → Nat → Bool} {holds : Prop}
    (ha : a ∈ f.labels) (hb : b ∈ f.labels)
    (hAnswer : ∀ i j, f.labels[i]? = some a → f.labels[j]? = some b →
      (answer i j = true ↔ holds)) :
    ((a == b ||
      match (FlowGraph.ofFunc f).index? a, (FlowGraph.ofFunc f).index? b with
      | some i, some j => answer i j
      | _, _ => false) = true) ↔ a = b ∨ holds := by
  obtain ⟨i, hi⟩ := exists_index ha
  obtain ⟨j, hj⟩ := exists_index hb
  have hIndexA : (FlowGraph.ofFunc f).index? a = some i := h.idxOf?_iff.mpr hi
  have hIndexB : (FlowGraph.ofFunc f).index? b = some j := h.idxOf?_iff.mpr hj
  rw [hIndexA, hIndexB, Bool.or_eq_true, beq_iff_eq, hAnswer i j hi hj]

/-- A tree of immediate dominators over indices answers about blocks exactly. -/
theorem Recorded.tree_iff (h : f.Recorded) {succ : Nat → List Nat} {root size : Nat}
    {table : Array (Option Nat)} {paths : Label → List Label → Prop}
    (hTable : DominatorTable succ root size table) (hRoot : root < size)
    (hPaths : Represents f succ root paths) (ha : a ∈ f.labels) (hb : b ∈ f.labels) :
    ((a == b ||
      match (FlowGraph.ofFunc f).index? a, (FlowGraph.ofFunc f).index? b with
      | some i, some j => (DomTree.ofParents table root).dominates i j
      | _, _ => false) = true) ↔ OnAll paths a b := by
  refine (h.lift_iff ha hb fun i j hi hj => ?_).trans (or_iff_right_of_imp .inl)
  rw [hTable.dominates_iff hRoot, hPaths.reached_iff hj, hPaths.dominates_iff hi hj, OnAll]
  apply or_congr_left
  constructor
  · rintro rfl
    exact Option.some.inj (hi.symm.trans hj)
  · rintro rfl
    exact h.index_unique hi hj

theorem Recorded.dominates_iff (h : f.Recorded) (ha : a ∈ f.labels) (hb : b ∈ f.labels) :
    (DomTrees.ofFunc f).oracle.dominates a b = true ↔ OnAll f.FromEntry a b := by
  have hSize : 0 < (FlowGraph.ofFunc f).succ.size := by
    rw [size_succ]
    exact Nat.succ_pos _
  exact h.tree_iff (dominatorTable_immediateDominators (succ_inRange f) hSize) hSize
    h.represents_fromEntry ha hb

theorem Recorded.postDominates_iff (h : f.Recorded) (ha : a ∈ f.labels) (hb : b ∈ f.labels) :
    (DomTrees.ofFunc f).oracle.postDominates a b = true ↔ OnAll f.ToReturn a b := by
  have hSize : (FlowGraph.ofFunc f).exit < (FlowGraph.ofFunc f).pred.size := by
    rw [size_pred]
    exact Nat.lt_succ_self _
  exact h.tree_iff (dominatorTable_immediateDominators (pred_inRange f) hSize) hSize
    h.represents_toReturn ha hb

/-- A block on a path from the entry is reached from the entry. -/
theorem FromEntry.exists_of_mem {p : List Label} (h : f.FromEntry b p) (hMem : a ∈ p) :
    ∃ q, f.FromEntry a q := by
  obtain ⟨entry, hEntry, hPath⟩ := h
  obtain ⟨q, hFront, _⟩ := hPath.exists_to hMem
  exact ⟨q, entry, hEntry, hFront⟩

/-- A return is reached from a block on a path to a return. -/
theorem ToReturn.exists_of_mem {p : List Label} (h : f.ToReturn b p) (hMem : a ∈ p) :
    ∃ q, f.ToReturn a q := by
  obtain ⟨last, hReturns, hPath⟩ := h
  obtain ⟨q, hBack, _⟩ := hPath.exists_from hMem
  exact ⟨q, last, hReturns, hBack⟩

/-- The trees of a function that was built or read answer exactly. A block that no path
from the entry comes to dominates nothing but itself and is dominated by nothing
else; so it is with post-dominance and blocks that no path leads from to a return. -/
theorem oracle_exact (hMade : f.IsBuilt ∨ f.IsParsed) (ha : a ∈ f.labels) (hb : b ∈ f.labels) :
    ((DomTrees.ofFunc f).oracle.dominates a b = true ↔
      a = b ∨ (∃ p, f.FromEntry b p) ∧ ∀ p, f.FromEntry b p → a ∈ p) ∧
    ((DomTrees.ofFunc f).oracle.postDominates a b = true ↔
      a = b ∨ (∃ p, f.ToReturn b p) ∧ ∀ p, f.ToReturn b p → a ∈ p) ∧
    ((¬ ∃ p, f.FromEntry a p) ∨ (¬ ∃ p, f.FromEntry b p) →
      (DomTrees.ofFunc f).oracle.dominates a b = decide (a = b)) ∧
    ((¬ ∃ p, f.ToReturn a p) ∨ (¬ ∃ p, f.ToReturn b p) →
      (DomTrees.ofFunc f).oracle.postDominates a b = decide (a = b)) := by
  have h : f.Linked := by
    rcases hMade with hBuilt | hParsed
    · exact hBuilt.wellFormed.toLinked
    · exact hParsed.wellFormed.toLinked
  have hDom := h.dominates_iff ha hb
  have hPost := h.postDominates_iff ha hb
  refine ⟨hDom, hPost, fun hDead => ?_, fun hStuck => ?_⟩
  · rw [Bool.eq_iff_iff, decide_eq_true_eq, hDom]
    refine or_iff_left fun ⟨⟨p, hp⟩, hAll⟩ => ?_
    rcases hDead with hA | hB
    · exact hA (hp.exists_of_mem (hAll p hp))
    · exact hB ⟨p, hp⟩
  · rw [Bool.eq_iff_iff, decide_eq_true_eq, hPost]
    refine or_iff_left fun ⟨⟨p, hp⟩, hAll⟩ => ?_
    rcases hStuck with hA | hB
    · exact hA (hp.exists_of_mem (hAll p hp))
    · exact hB ⟨p, hp⟩

/-- The blocks `a` and `b` form a cycle with two ways in, `spin` never returns, and `dead`
is never reached. -/
theorem oracle_exact_cycles :
    ∃ f : Func, f.IsParsed ∧ "a" ∈ f.labels ∧ "out" ∈ f.labels ∧
      ((DomTrees.ofFunc f).oracle.dominates "a" "out" = true ↔ OnAll f.FromEntry "a" "out") ∧
      ((DomTrees.ofFunc f).oracle.postDominates "out" "a" = true ↔ OnAll f.ToReturn "out" "a") := by
  have hLabels : (Func.parse ("func @f(%x) \x7b\nentry:\nbr %x, a, b\na:\nbr %x, b, out\n" ++
      "b:\nbr %x, a, spin\nout:\nret\nspin:\ngoto spin\ndead:\ngoto out\n\x7d\n")).toOption.map
        Func.labels = some ["entry", "a", "b", "out", "spin", "dead"] := by
    decide +kernel
  obtain ⟨f, hParse, hEq⟩ := exists_parse hLabels
  have hParsed : f.IsParsed := ⟨_, hParse⟩
  have ha : "a" ∈ f.labels := by simp [hEq]
  have hOut : "out" ∈ f.labels := by simp [hEq]
  exact ⟨f, hParsed, ha, hOut, (oracle_exact (.inr hParsed) ha hOut).1,
    (oracle_exact (.inr hParsed) hOut ha).2.1⟩

end Func

end RefElision
