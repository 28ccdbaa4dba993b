import RefElision.Proofs.Dominance.Chains
import RefElision.Proofs.Dominance.Stability
import RefElision.Proofs.Graph.Search
import RefElision.Refs.Pipeline

/-! The ways to compute an oracle are interchangeable, and all of them can be relied on.
Removing vertices finds the immediate dominators, since a strict dominator is the nearest
one exactly if it has one strict dominator less. -/
namespace RefElision

namespace Removal

variable {a : Adjacency} {root d e v : Nat}

/-- The strict dominators of a vertex. -/
def strictOf (a : Adjacency) (root v : Nat) : List Nat :=
  (strictDominators a root).getD v []

/-- The entry of a vertex is a strict dominator that has one strict dominator less. -/
theorem getD_parents (v : Nat) :
    (parents a root).getD v none = (strictOf a root v).find? fun d =>
      (strictOf a root d).length + 1 == (strictOf a root v).length := by
  rw [parents, Array.getD_eq_getD_getElem?, Array.getElem?_map]
  cases hStrict : (strictDominators a root)[v]? with
  | none =>
      have hNone : strictOf a root v = [] := by
        rw [strictOf, Array.getD_eq_getD_getElem?, hStrict, Option.getD_none]
      rw [hNone]
      rfl
  | some above =>
      have hSome : strictOf a root v = above := by
        rw [strictOf, Array.getD_eq_getD_getElem?, hStrict, Option.getD_some]
      rw [hSome]
      rfl

section Strict

variable (hRange : a.InRange) (hRoot : root < a.size)
include hRange hRoot

theorem mem_reachedWithout_iff :
    v ∈ reachedWithout a root d ↔ ∃ p, Path a.succ root v p ∧ d ∉ p := by
  simp only [reachedWithout, Digraph.mem_gather_iff, List.mem_singleton, exists_eq_left]
  constructor
  · rintro ⟨p, hPath, hSub⟩
    exact ⟨p, hPath, fun hMem => List.nodup_range.not_mem_erase (hSub hMem)⟩
  · rintro ⟨p, hPath, hAvoid⟩
    refine ⟨p, hPath, fun w hw => ?_⟩
    have hne : w ≠ d := fun hEq => hAvoid (hEq ▸ hw)
    rw [List.mem_erase_of_ne hne, List.mem_range]
    exact hPath.mem_of_closed hRoot hRange w hw

theorem mem_gather_range_iff :
    v ∈ Digraph.gather a.succ (List.range a.size) [root] ↔ ∃ p, Path a.succ root v p := by
  simp only [Digraph.mem_gather_iff, List.mem_singleton, exists_eq_left]
  constructor
  · rintro ⟨p, hPath, _⟩
    exact ⟨p, hPath⟩
  · rintro ⟨p, hPath⟩
    exact ⟨p, hPath, fun w hw => List.mem_range.mpr (hPath.mem_of_closed hRoot hRange w hw)⟩

theorem strictOf_eq (v : Nat) :
    strictOf a root v =
      if v ∈ Digraph.gather a.succ (List.range a.size) [root] then
        (List.range a.size).filter fun d => d != v && !(reachedWithout a root d).contains v
      else [] := by
  rw [strictOf, strictDominators, Array.getD_eq_getD_getElem?, List.getElem?_toArray,
    List.getElem?_map]
  by_cases hv : v < a.size
  case pos =>
    rw [List.getElem?_range hv, Option.map_some, Option.getD_some]
    congr 1
    apply List.filter_congr
    intro d hd
    simp [Array.getD_eq_getD_getElem?, List.mem_range.mp hd]
  case neg =>
    have hOut : v ∉ Digraph.gather a.succ (List.range a.size) [root] := by
      rw [mem_gather_range_iff hRange hRoot]
      rintro ⟨p, hPath⟩
      exact hv (hPath.mem_of_closed hRoot hRange v hPath.finish_mem)
    rw [List.getElem?_eq_none (by simpa using hv), if_neg hOut]
    rfl

theorem nodup_strictOf (v : Nat) : (strictOf a root v).Nodup := by
  rw [strictOf_eq hRange hRoot]
  split
  case isTrue => exact List.nodup_range.filter _
  case isFalse => exact List.nodup_nil

theorem mem_strictOf_iff (hReached : ∃ p, Path a.succ root v p) :
    d ∈ strictOf a root v ↔ d ≠ v ∧ Dominates a.succ root d v := by
  have hDominates : v ∉ reachedWithout a root d ↔ Dominates a.succ root d v := by
    rw [mem_reachedWithout_iff hRange hRoot, Dominates]
    simp
  rw [strictOf_eq hRange hRoot, if_pos ((mem_gather_range_iff hRange hRoot).mpr hReached),
    List.mem_filter, List.mem_range, Bool.and_eq_true, bne_iff_ne, Bool.not_eq_true',
    List.contains_eq_mem, decide_eq_false_iff_not, hDominates]
  refine and_iff_right_of_imp fun hStrict => ?_
  obtain ⟨p, hPath⟩ := hReached
  exact hPath.mem_of_closed hRoot hRange d (hStrict.2 p hPath)

theorem strictOf_of_unreached (hNone : ¬ ∃ p, Path a.succ root v p) :
    strictOf a root v = [] := by
  rw [strictOf_eq hRange hRoot, if_neg]
  rwa [mem_gather_range_iff hRange hRoot]

theorem nodup_cons_strictOf (hReached : ∃ p, Path a.succ root v p) :
    (v :: strictOf a root v).Nodup := by
  refine List.nodup_cons.mpr ⟨fun hSelf => ?_, nodup_strictOf hRange hRoot v⟩
  exact ((mem_strictOf_iff hRange hRoot hReached).mp hSelf).1 rfl

/-- The strict dominators of a vertex are the nearest one and those of the nearest one. -/
theorem length_strictOf (hReached : ∃ p, Path a.succ root v p)
    (h : ImmediatelyDominates a.succ root e v) :
    (strictOf a root v).length =
      (strictOf a root e).length + 1 := by
  obtain ⟨p, hPath⟩ := hReached
  have hReachedE : ∃ q, Path a.succ root e q := h.dominates.reached hPath
  have hMem : ∀ d, d ∈ strictOf a root v ↔
      d ∈ e :: strictOf a root e := by
    intro d
    rw [mem_strictOf_iff hRange hRoot ⟨p, hPath⟩, List.mem_cons,
      mem_strictOf_iff hRange hRoot hReachedE]
    constructor
    · rintro ⟨hne, hDom⟩
      by_cases hEq : d = e
      case pos => exact .inl hEq
      case neg => exact .inr ⟨hEq, h.nearest d hne hDom⟩
    · rintro (rfl | ⟨_, hDom⟩)
      · exact ⟨h.ne, h.dominates⟩
      · refine ⟨?_, hDom.trans h.dominates⟩
        rintro rfl
        exact h.ne (h.dominates.antisymm hDom hPath)
  exact ((List.perm_ext_iff_of_nodup (nodup_strictOf hRange hRoot v)
    (nodup_cons_strictOf hRange hRoot hReachedE)).mpr hMem).length_eq

/-- A strict dominator has fewer strict dominators. -/
theorem length_lt_of_mem (hReached : ∃ p, Path a.succ root e p)
    (h : d ∈ strictOf a root e) :
    (strictOf a root d).length <
      (strictOf a root e).length := by
  obtain ⟨hne, hDom⟩ := (mem_strictOf_iff hRange hRoot hReached).mp h
  obtain ⟨p, hPath⟩ := hReached
  have hReachedD : ∃ q, Path a.succ root d q := hDom.reached hPath
  have hSub : d :: strictOf a root d ⊆ strictOf a root e := by
    refine List.cons_subset.mpr ⟨h, fun x hx => ?_⟩
    obtain ⟨hneX, hDomX⟩ := (mem_strictOf_iff hRange hRoot hReachedD).mp hx
    refine (mem_strictOf_iff hRange hRoot ⟨p, hPath⟩).mpr ⟨?_, hDomX.trans hDom⟩
    rintro rfl
    exact hne (hDom.antisymm hDomX hPath)
  exact ((nodup_cons_strictOf hRange hRoot hReachedD).subperm hSub).length_le

/-- The strict dominator that has one strict dominator fewer is the nearest one. -/
theorem eq_of_length (hReached : ∃ p, Path a.succ root v p)
    (h : ImmediatelyDominates a.succ root e v) (hd : d ∈ strictOf a root v)
    (hLength : (strictOf a root d).length + 1 = (strictOf a root v).length) : d = e := by
  by_contra hne
  obtain ⟨hneV, hDom⟩ := (mem_strictOf_iff hRange hRoot hReached).mp hd
  have hNearest := length_strictOf hRange hRoot hReached h
  obtain ⟨p, hPath⟩ := hReached
  have hReachedE : ∃ q, Path a.succ root e q := h.dominates.reached hPath
  have hLess := length_lt_of_mem hRange hRoot hReachedE
    ((mem_strictOf_iff hRange hRoot hReachedE).mpr ⟨hne, h.nearest d hneV hDom⟩)
  omega

theorem tellsDominators_parents : TellsDominators a.succ root (parents a root) where
  immediate v hv hReached := by
    have hTable := dominatorTable_immediateDominators hRange hRoot
    cases hEntry : (immediateDominators a root).getD v none with
    | none => exact (((hTable.none_iff v).mp hEntry).elim hv fun hNone => hNone hReached).elim
    | some e =>
        have hImmediate := hTable.immediate v e hEntry
        have hMem : e ∈ strictOf a root v :=
          (mem_strictOf_iff hRange hRoot hReached).mpr ⟨hImmediate.ne, hImmediate.dominates⟩
        have hLength := length_strictOf hRange hRoot hReached hImmediate
        refine ⟨e, ?_, hImmediate⟩
        rw [getD_parents]
        cases hFind : (strictOf a root v).find? fun d =>
            (strictOf a root d).length + 1 == (strictOf a root v).length with
        | none => simpa [hLength] using List.find?_eq_none.mp hFind e hMem
        | some d =>
            have hSame := List.find?_some hFind
            rw [eq_of_length hRange hRoot hReached hImmediate (List.mem_of_find?_eq_some hFind)
              (by simpa using hSame)]
  at_root := by
    have hNone : strictOf a root root = [] := by
      rw [List.eq_nil_iff_forall_not_mem]
      intro d hd
      obtain ⟨hne, hDom⟩ := (mem_strictOf_iff hRange hRoot ⟨_, .single root⟩).mp hd
      exact hne hDom.eq_root
    rw [getD_parents, hNone]
    exact .inl rfl
  unreached v hNone := by
    rw [getD_parents, strictOf_of_unreached hRange hRoot hNone]
    rfl

end Strict

theorem findsDominators_parents : FindsDominators parents :=
  fun _ _ hRange hRoot _ => tellsDominators_parents hRange hRoot

end Removal

/-- However an oracle is computed, it is the same. -/
theorem Algorithm.compute_eq (algorithm : Algorithm) (f : Func) :
    algorithm.compute f = (DomTrees.ofFunc f).oracle := by
  cases algorithm with
  | lengauerTarjan => rfl
  | flow => exact Removal.findsDominators_parents.ofFinder_eq f

/-- What the oracle says of two different blocks of the function is true. It may fail to say
that one dominates the other when it does. -/
structure Oracle.SoundFor (oracle : Oracle) (f : Func) : Prop where
  dominates : ∀ a ∈ f.labels, ∀ b ∈ f.labels, a ≠ b → oracle.dominates a b = true →
    ∀ p, f.FromEntry b p → a ∈ p
  postDominates : ∀ a ∈ f.labels, ∀ b ∈ f.labels, a ≠ b → oracle.postDominates a b = true →
    ∀ p, f.ToReturn b p → a ∈ p

/-- However an oracle is computed, it is sound. -/
theorem Func.Linked.compute_sound {f : Func} (h : f.Linked) (algorithm : Algorithm) :
    (algorithm.compute f).SoundFor f := by
  rw [algorithm.compute_eq]
  constructor
  · intro a ha b hb hne hDom
    exact (((h.dominates_iff ha hb).mp hDom).resolve_left hne).2
  · intro a ha b hb hne hPost
    exact (((h.postDominates_iff ha hb).mp hPost).resolve_left hne).2

/-- Fanning out does not depend on how an oracle is computed, once it is given. -/
theorem Prune.fanOut_dominators (g : Digraph Label) (oracle : Oracle) (o : Options)
    (algorithm : Algorithm) (live increfs : List RefOp) :
    fanOut g oracle { o with dominators := algorithm } live increfs =
      fanOut g oracle o live increfs := by
  induction increfs generalizing live with
  | nil => rfl
  | cons incref rest ih =>
      have hBlocks : Fanout.blocks? g { o with dominators := algorithm } oracle live incref =
          Fanout.blocks? g o oracle live incref := rfl
      rw [fanOut, fanOut, hBlocks]
      cases Fanout.blocks? g o oracle live incref with
      | none => exact ih live
      | some found => exact congrArg (List.cons _) (ih _)

namespace Func

variable (f : Func) (o : Options) (algorithm : Algorithm)

theorem prune_dominators (oracle : Oracle) :
    f.prune { o with dominators := algorithm } oracle = f.prune o oracle := by
  simp only [prune, Prune.fanOut_dominators]

theorem pruneWith_dominators :
    f.pruneWith { o with dominators := algorithm } none = f.prune o (DomTrees.ofFunc f).oracle := by
  rw [pruneWith, prune_dominators, Option.getD_none, Algorithm.compute_eraseOps,
    Algorithm.compute_eq]

theorem optimize_dominators :
    f.optimize { o with dominators := algorithm } =
      (f.normalize o).andThen fun g => g.prune o (DomTrees.ofFunc g).oracle := by
  have hPrune : (fun g : Func => g.pruneWith { o with dominators := algorithm }
        (some (algorithm.compute g))) = fun g => g.prune o (DomTrees.ofFunc g).oracle := by
    funext g
    rw [pruneWith, prune_dominators, Option.getD_some, Algorithm.compute_eq]
  rw [optimize, hPrune]
  rfl

/-- Oracles over chains and over trees are interchangeable, as long as immediate dominators
are found for the chains. They give the same answers about a function in whatever state,
be it edited or not, and passes that rely on one or the other come to the same outcome. -/
theorem oracles_interchangeable {find : Adjacency → Nat → Array (Option Nat)}
    (h : FindsDominators find) (f : Func) :
    (∀ a b : Label,
      (Oracle.ofFinder find f).dominates a b = (DomTrees.ofFunc f).oracle.dominates a b ∧
      (Oracle.ofFinder find f).postDominates a b = (DomTrees.ofFunc f).oracle.postDominates a b) ∧
    ∀ o : Options,
      f.prune o (.ofFinder find f) = f.pruneWith { o with dominators := .lengauerTarjan } none ∧
      (f.normalize o).andThen (fun g => g.prune o (.ofFinder find g)) =
        f.optimize { o with dominators := .lengauerTarjan } ∧
      f.pruneWith { o with dominators := .flow } none =
        f.pruneWith { o with dominators := .lengauerTarjan } none ∧
      f.optimize { o with dominators := .flow } =
        f.optimize { o with dominators := .lengauerTarjan } := by
  have hFinder : ∀ g : Func, .ofFinder find g = (DomTrees.ofFunc g).oracle := h.ofFinder_eq
  refine ⟨fun a b => ?_, fun o => ?_⟩
  · rw [hFinder f]
    exact ⟨rfl, rfl⟩
  · simp only [hFinder, pruneWith_dominators, optimize_dominators, and_self]

/-- Block `c` is a loop. -/
def staged : Func where
  name := "f"
  args := ["x"]
  blocks :=
    [⟨1, "a", [], [], .branch (.var "x") "b" "c"⟩, ⟨2, "b", [], ["a"], .jump "c"⟩,
      ⟨3, "c", [], ["a", "b", "c"], .branch (.var "x") "c" "d"⟩, ⟨4, "d", [], ["c"], .ret []⟩]

/-- Block `b` has been taken out, block `d` leads to it, and no predecessors have been computed
since. -/
def rerouted : Func :=
  (staged.detach "b").setTerm "d" (.branch (.var "x") "b" "c")

theorem oracles_interchangeable_rerouted :
    staged.IsParsed ∧ FindsDominators Removal.parents ∧
      (Oracle.ofFinder Removal.parents rerouted).dominates "c" "d" = true ∧
      (Oracle.ofFinder Removal.parents rerouted).postDominates "d" "a" = false ∧
      rerouted.optimize { dominators := .flow } = rerouted.optimize {} := by
  have hRead : (Func.parse ("func @f(%x) \x7b\na:\nbr %x, b, c\nb:\ngoto c\nc:\nbr %x, c, d\n" ++
      "d:\nret\n\x7d\n")).toOption = some staged := by
    decide +kernel
  have hFinds : FindsDominators Removal.parents := Removal.findsDominators_parents
  obtain ⟨hAnswers, hOutcomes⟩ := oracles_interchangeable hFinds rerouted
  have hDom : (DomTrees.ofFunc rerouted).oracle.dominates "c" "d" = true := by decide +kernel
  have hPost : (DomTrees.ofFunc rerouted).oracle.postDominates "d" "a" = false := by decide +kernel
  exact ⟨isParsed_of_toOption hRead, hFinds, (hAnswers "c" "d").1.trans hDom,
    (hAnswers "d" "a").2.trans hPost, (hOutcomes {}).2.2.2⟩

end Func

end RefElision
