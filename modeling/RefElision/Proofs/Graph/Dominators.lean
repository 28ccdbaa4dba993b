import Mathlib.Tactic.ByContra
import RefElision.Proofs.Graph.Path

/-! Dominance with respect to a root, by its meaning: a node dominates another if no
path from the root to the other misses it. -/
namespace RefElision

variable {α : Type} {succ : α → List α} {root : α}

/-- Every path from the root to `v` passes `d`. This holds for all `d` if there is no
path to `v`. -/
def Dominates (succ : α → List α) (root d v : α) : Prop :=
  ∀ p, Path succ root v p → d ∈ p

/-- The dominator of `v` other than `v` that all others of this kind dominate. -/
structure ImmediatelyDominates (succ : α → List α) (root d v : α) : Prop where
  ne : d ≠ v
  dominates : Dominates succ root d v
  nearest : ∀ e, e ≠ v → Dominates succ root e v → Dominates succ root e d

namespace Dominates

theorem trans {a b c : α} (hab : Dominates succ root a b) (hbc : Dominates succ root b c) :
    Dominates succ root a c := by
  intro p hPath
  obtain ⟨q, hPrefix, hSub⟩ := hPath.exists_to (hbc p hPath)
  exact hSub (hab q hPrefix)

theorem root_dominates (v : α) : Dominates succ root root v :=
  fun _ hPath => hPath.start_mem

/-- A dominator of a node that can be reached can be reached. -/
theorem reached {a b : α} {p : List α} (h : Dominates succ root a b)
    (hPath : Path succ root b p) : ∃ q, Path succ root a q := by
  obtain ⟨q, hPrefix, _⟩ := hPath.exists_to (h p hPath)
  exact ⟨q, hPrefix⟩

/-- A dominator of the root is the root. -/
theorem eq_root {a : α} (h : Dominates succ root a root) : a = root := by
  simpa using h [root] (.single root)

/-- If a node dominates what a path leads to, but the path misses it, then it dominates
where the path starts. -/
theorem of_path {d u w : α} {q : List α} (h : Dominates succ root d w)
    (hPath : Path succ u w q) (hAvoid : ∀ t ∈ q, t = u ∨ t ≠ d) :
    Dominates succ root d u := by
  intro p hp
  have hMem := h _ (hp.trans hPath)
  rcases List.mem_append.mp hMem with hFront | hBack
  · exact hFront
  · rcases hAvoid d (List.mem_of_mem_tail hBack) with rfl | hne
    · exact hp.finish_mem
    · exact (hne rfl).elim

/-- Of two nodes that dominate each other, one would come before the other on a shortest
path. The induction is on the length of a path. -/
theorem antisymm {a b : α} {p : List α} (hab : Dominates succ root a b)
    (hba : Dominates succ root b a) (hPath : Path succ root b p) : a = b := by
  by_contra hne
  generalize hLength : p.length = n
  induction n using Nat.strongRecOn generalizing p with
  | ind n ih =>
      obtain ⟨q, hToA, hLess⟩ := hPath.exists_shorter (hab p hPath) hne
      obtain ⟨r, hToB, hLess'⟩ := hToA.exists_shorter (hba q hToA) (Ne.symm hne)
      exact ih r.length (by omega) hToB rfl

end Dominates

theorem ImmediatelyDominates.unique {d e v : α} {p : List α}
    (hd : ImmediatelyDominates succ root d v) (he : ImmediatelyDominates succ root e v)
    (hPath : Path succ root v p) : d = e := by
  obtain ⟨q, hReached⟩ := he.dominates.reached hPath
  exact (he.nearest d hd.ne hd.dominates).antisymm (hd.nearest e he.ne he.dominates) hReached

/-! Edges from a node to itself never change dominance: a path need not take them. -/
section Loops

variable {kept : α → List α} (hKept : ∀ v w, w ∈ kept v ↔ w ∈ succ v ∧ w ≠ v)
include hKept

theorem Path.of_kept {x z : α} {p : List α} (h : Path kept x z p) : Path succ x z p := by
  induction h with
  | single x => exact .single x
  | step edge _ ih => exact .step ((hKept _ _).mp edge).1 ih

theorem Path.exists_kept {x z : α} {p : List α} (h : Path succ x z p) :
    ∃ q, Path kept x z q ∧ q ⊆ p := by
  induction h with
  | single x => exact ⟨[x], .single x, List.Subset.refl _⟩
  | @step x y z p edge _ ih =>
      obtain ⟨q, hPath, hSub⟩ := ih
      by_cases hLoop : y = x
      case pos => exact ⟨q, hLoop ▸ hPath, List.subset_cons_of_subset x hSub⟩
      case neg =>
        exact ⟨x :: q, .step ((hKept x y).mpr ⟨edge, hLoop⟩) hPath, List.cons_subset_cons x hSub⟩

theorem reached_kept_iff (v : α) : (∃ p, Path kept root v p) ↔ ∃ p, Path succ root v p := by
  constructor
  · rintro ⟨p, hPath⟩
    exact ⟨p, hPath.of_kept hKept⟩
  · rintro ⟨p, hPath⟩
    obtain ⟨q, hShort, _⟩ := hPath.exists_kept hKept
    exact ⟨q, hShort⟩

theorem dominates_kept_iff (d v : α) : Dominates kept root d v ↔ Dominates succ root d v := by
  constructor
  · intro h p hPath
    obtain ⟨q, hShort, hSub⟩ := hPath.exists_kept hKept
    exact hSub (h q hShort)
  · intro h p hPath
    exact h p (hPath.of_kept hKept)

theorem immediatelyDominates_kept_iff (d v : α) :
    ImmediatelyDominates kept root d v ↔ ImmediatelyDominates succ root d v := by
  constructor
  · rintro ⟨hne, hDom, hNearest⟩
    simp only [dominates_kept_iff hKept] at hDom hNearest
    exact ⟨hne, hDom, hNearest⟩
  · rintro ⟨hne, hDom, hNearest⟩
    simp only [← dominates_kept_iff hKept] at hDom hNearest
    exact ⟨hne, hDom, hNearest⟩

end Loops

end RefElision
