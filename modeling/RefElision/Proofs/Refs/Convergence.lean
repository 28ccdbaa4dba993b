import RefElision.Proofs.Refs.Freshness
import RefElision.Proofs.Refs.NormalForm

/-! Optimising again and again. The first run leaves a normal form, which no pass destroys, and
from then on a run that changes the function removes operations. So at some time a run changes
nothing, and neither do the runs behind it. -/
namespace RefElision

theorem RefOp.length_ofBlock (s : Symbols) (b : Block) :
    (RefOp.ofBlock s b).length = b.body.countP fun i => (s.classify i).isSome := by
  calc (RefOp.ofBlock s b).length
      = b.body.zipIdx.countP ((fun i => (s.classify i).isSome) ∘ Prod.fst) := by
        rw [RefOp.ofBlock, List.length_filterMap_eq_countP]
        simp [Function.comp_def]
    _ = b.body.countP fun i => (s.classify i).isSome := by
        rw [← List.countP_map, List.zipIdx_map_fst]

namespace Func

variable {f : Func} {o : Options} {oracle : Oracle}

/-- A function has as many operations as instructions that count references. -/
theorem length_ofFunc (s : Symbols) (f : Func) :
    (RefOp.ofFunc s f).length = f.instrs.countP fun i => (s.classify i).isSome := by
  rw [RefOp.ofFunc, List.length_flatMap, instrs, List.countP_flatMap]
  congr 1
  exact List.map_congr_left fun b _ => RefOp.length_ofBlock s b

theorem length_ofFunc_normalize :
    (RefOp.ofFunc o.symbols (f.normalize o).func).length = (RefOp.ofFunc o.symbols f).length := by
  rw [length_ofFunc, length_ofFunc]
  exact instrs_normalize.countP_eq _

/-- Pruning leaves the operations that it does not remove. -/
theorem length_ofFunc_prune (h : f.Linked) (hTags : f.tags.Nodup) :
    (RefOp.ofFunc o.symbols f).length =
      (f.removedOps o oracle).length + (RefOp.ofFunc o.symbols (f.prune o oracle).func).length := by
  have hThins : f.Thins ((f.removedOps o oracle).map RefOp.instr) (f.prune o oracle).func :=
    thins_prune h hTags
  have hRemoved : ((f.removedOps o oracle).map RefOp.instr).countP
      (fun i => (o.symbols.classify i).isSome) = (f.removedOps o oracle).length := by
    rw [List.countP_eq_length.mpr fun i hi => isSome_classify_of_removed hi, List.length_map]
  rw [length_ofFunc, hThins.countP_eq, hRemoved, length_ofFunc]

theorem length_ofFunc_optimize_le (h : f.Processed) (o : Options) :
    (RefOp.ofFunc o.symbols (f.optimize o).func).length ≤ (RefOp.ofFunc o.symbols f).length := by
  obtain ⟨hLinked, hTags⟩ := h.linked_tags
  have hPrune := @length_ofFunc_prune (f.normalize o).func o
    (o.dominators.compute (f.normalize o).func) hLinked.normalize (thins_normalize.tags_nodup hTags)
  rw [length_ofFunc_normalize] at hPrune
  show (RefOp.ofFunc o.symbols ((f.normalize o).func.prune o
    (o.dominators.compute (f.normalize o).func)).func).length ≤ _
  omega

/-- In normal form optimising does what pruning does. -/
theorem IsNormal.optimize (h : f.IsNormal o.symbols) :
    (f.optimize o).changed = (f.prune o (o.dominators.compute f)).changed ∧
      (f.optimize o).func = (f.prune o (o.dominators.compute f)).func := by
  obtain ⟨hChanged, hFunc⟩ := h.normalize
  simp [Func.optimize, Outcome.andThen, pruneWith, hChanged, hFunc]

/-- In normal form a run that changes something removes an operation. -/
theorem IsNormal.length_ofFunc_lt (hNormal : f.IsNormal o.symbols) (h : f.Processed)
    (hChanged : (f.optimize o).changed = true) :
    (RefOp.ofFunc o.symbols (f.optimize o).func).length < (RefOp.ofFunc o.symbols f).length := by
  obtain ⟨hLinked, hTags⟩ := h.linked_tags
  rw [hNormal.optimize.1, changed_prune hLinked hTags] at hChanged
  have hSome := List.length_pos_of_ne_nil hChanged
  rw [hNormal.optimize.2, @length_ofFunc_prune f o (o.dominators.compute f) hLinked hTags]
  omega

theorem isNormal_optimize (f : Func) (o : Options) : (f.optimize o).func.IsNormal o.symbols :=
  (isNormal_normalize f o).prune o _

/-- No pass destroys the normal form. -/
theorem IsNormal.run (h : f.IsNormal o.symbols) (p : Pass) :
    (p.run o f).func.IsNormal o.symbols := by
  cases p with
  | normalize => exact isNormal_normalize f o
  | prune oracle => exact h.prune o _
  | optimize => exact isNormal_optimize f o

theorem IsNormal.of_mem_outcomes (h : f.IsNormal o.symbols) {passes : List Pass} {r : Outcome}
    (hr : r ∈ f.outcomes (passes.map fun p => (p, o))) : r.func.IsNormal o.symbols := by
  induction passes generalizing f with
  | nil => cases hr
  | cons p rest ih =>
      rcases List.mem_cons.mp hr with rfl | hRest
      · exact h.run p
      · exact ih (h.run p) hRest

/-- The outcomes of optimising a function again and again, each time what the time before has
left. -/
def optimizeTimes (f : Func) (o : Options) (n : Nat) : List Outcome :=
  f.outcomes (List.replicate n (.optimize, o))

theorem optimizeTimes_succ (f : Func) (o : Options) (n : Nat) :
    f.optimizeTimes o (n + 1) = f.optimize o :: (f.optimize o).func.optimizeTimes o n := by
  rw [optimizeTimes, List.replicate_succ]
  rfl

/-- From a normal form on, there are at most as many runs with changes as operations. -/
theorem IsNormal.countP_changed_le (hNormal : f.IsNormal o.symbols) (h : f.Processed) (n : Nat) :
    (f.optimizeTimes o n).countP Outcome.changed ≤ (RefOp.ofFunc o.symbols f).length := by
  induction n generalizing f with
  | zero => exact Nat.zero_le _
  | succ n ih =>
      have hRest := ih (isNormal_optimize f o) (h.run .optimize o)
      rw [optimizeTimes_succ, List.countP_cons]
      cases hChanged : (f.optimize o).changed with
      | false => exact hRest.trans (length_ofFunc_optimize_le h o)
      | true => exact Nat.lt_of_le_of_lt hRest (hNormal.length_ofFunc_lt h hChanged)

/-- A run without changes leaves the function as it is, so it is repeated from then on. -/
theorem eq_of_mem_optimizeTimes (h : f.Processed) (hSame : (f.optimize o).changed = false) {n : Nat}
    {r : Outcome} (hr : r ∈ f.optimizeTimes o n) : r = f.optimize o := by
  obtain ⟨hLinked, hTags⟩ := h.linked_tags
  have hFunc : (f.optimize o).func = f := by
    by_contra hOther
    rw [(changed_optimize hLinked hTags).mpr hOther] at hSame
    cases hSame
  induction n with
  | zero => cases hr
  | succ n ih =>
      rw [optimizeTimes_succ, hFunc] at hr
      rcases List.mem_cons.mp hr with rfl | hRest
      · rfl
      · exact ih hRest

theorem pairwise_optimizeTimes (h : f.Processed) (o : Options) (n : Nat) :
    (f.optimizeTimes o n).Pairwise fun r later =>
      r.changed = false → later.changed = false ∧ later.func = r.func := by
  induction n generalizing f with
  | zero => exact List.Pairwise.nil
  | succ n ih =>
      rw [optimizeTimes_succ, List.pairwise_cons]
      refine ⟨fun later hLater hSame => ?_, ih (h.run .optimize o)⟩
      have hMem : later ∈ f.optimizeTimes o (n + 1) := by
        rw [optimizeTimes_succ]
        exact List.mem_cons_of_mem _ hLater
      rw [eq_of_mem_optimizeTimes h hSame hMem]
      exact ⟨hSame, rfl⟩

/-- Of any number of runs at most one more than there are operations change the function. Once a
run changes nothing, the function stays as it is. After the first run normalising has nothing to
do, whatever passes are run in between. -/
theorem optimize_reaches_fixpoint (h : f.Processed) (o : Options) :
    (∀ n, (f.optimizeTimes o n).countP Outcome.changed ≤ (RefOp.ofFunc o.symbols f).length + 1) ∧
    (∀ n, (f.optimizeTimes o n).Pairwise fun r later =>
      r.changed = false → later.changed = false ∧ later.func = r.func) ∧
    ∀ passes : List Pass, ∀ r ∈ f.outcomes ((.optimize, o) :: passes.map fun p => (p, o)),
      (r.func.normalize o).changed = false := by
  refine ⟨fun n => ?_, pairwise_optimizeTimes h o, fun passes r hr => ?_⟩
  · cases n with
    | zero => exact Nat.zero_le _
    | succ n =>
        have hRest := (isNormal_optimize f o).countP_changed_le (h.run .optimize o) n
        have hLess := length_ofFunc_optimize_le h o
        have hFirst : [f.optimize o].countP Outcome.changed ≤ 1 := List.countP_le_length
        rw [optimizeTimes_succ, ← List.singleton_append, List.countP_append]
        exact (Nat.add_le_add hFirst (hRest.trans hLess)).trans (Nat.le_of_eq (Nat.add_comm _ _))
  · have hNormal : r.func.IsNormal o.symbols := by
      rcases List.mem_cons.mp hr with rfl | hRest
      · exact isNormal_optimize f o
      · exact (isNormal_optimize f o).of_mem_outcomes hRest
    exact hNormal.normalize.1

/-- The decref of `r` is early. The pair for `p` is refused as long as the decref of `q` is
between its blocks. -/
def nested : Func where
  name := "f"
  args := ["p", "q", "r"]
  blocks :=
    [⟨1, "a", [⟨1, none, .call "dec", [.var "r"]⟩, ⟨3, none, .call "inc", [.var "p"]⟩,
        ⟨5, none, .call "inc", [.var "q"]⟩], [], .jump "b"⟩,
      ⟨2, "b", [⟨7, none, .call "dec", [.var "q"]⟩], ["a"], .jump "c"⟩,
      ⟨3, "c", [⟨9, none, .call "dec", [.var "p"]⟩], ["b"], .ret []⟩]

theorem optimize_reaches_fixpoint_nested :
    nested.Processed ∧
      ((nested.optimizeTimes { symbols := ⟨"inc", "dec"⟩, fanout := false } 4).map
        Outcome.changed) = [true, true, false, false] ∧
      ((nested.optimizeTimes { symbols := ⟨"inc", "dec"⟩, fanout := false } 4).countP
        Outcome.changed) ≤ (RefOp.ofFunc ⟨"inc", "dec"⟩ nested).length + 1 ∧
      ((nested.optimize { symbols := ⟨"inc", "dec"⟩, fanout := false }).func.normalize
        { symbols := ⟨"inc", "dec"⟩, fanout := false }).changed = false := by
  have hRead : (Func.parse ("func @f(%p, %q, %r) \x7b\na:\ncall @dec(%r)\ncall @inc(%p)\n" ++
      "call @inc(%q)\ngoto b\nb:\ncall @dec(%q)\ngoto c\nc:\ncall @dec(%p)\nret\n" ++
      "\x7d\n")).toOption = some nested := by
    decide +kernel
  have hProcessed : nested.Processed := .parsed (isParsed_of_toOption hRead)
  have hFixpoint :=
    optimize_reaches_fixpoint hProcessed { symbols := ⟨"inc", "dec"⟩, fanout := false }
  exact ⟨hProcessed, by decide +kernel, hFixpoint.1 4, hFixpoint.2.2 [] _ List.mem_cons_self⟩

end Func

end RefElision
