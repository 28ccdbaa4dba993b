import RefElision.Proofs.Refs.Accounting

/-! Passes change nothing but bodies, so an oracle never goes stale: it may be computed before
the first pass, between passes, or while pruning is under way. The ways to run the passes
therefore come to the same outcome. -/
namespace RefElision

/-- A change of a block that takes instructions out of its body and moves others. -/
structure Block.Trims (change : Block → Block) : Prop extends Block.BodyOnly change where
  body_subperm : ∀ b, (change b).body.Subperm b.body

namespace Block.Trims

theorem comp {first second : Block → Block} (hSecond : Trims second) (hFirst : Trims first) :
    Trims (second ∘ first) where
  toBodyOnly := hSecond.toBodyOnly.comp hFirst.toBodyOnly
  body_subperm b := (hSecond.body_subperm _).trans (hFirst.body_subperm b)

theorem normalBlock (s : Symbols) : Trims (Normalize.normalBlock s) where
  toBodyOnly := Normalize.bodyOnly_normalBlock s
  body_subperm b := (Normalize.delays_normalBody b.body).perm.symm.subperm

theorem eraseOps (ops : List RefOp) :
    Trims fun b => if ops.any (fun op => op.block == b.label) then
      b.erase (ops.map fun op => op.instr.tag) else b where
  toBodyOnly := bodyOnly_eraseOps ops
  body_subperm b := by
    split
    case isTrue => exact List.filter_sublist.subperm
    case isFalse => exact List.Subperm.refl _

end Block.Trims

namespace Func

variable {f g : Func} {o : Options}

/-- The second function is the first with trimmed blocks. -/
def TrimsTo (f g : Func) : Prop :=
  ∃ change, Block.Trims change ∧ g = f.mapBlocks change

namespace TrimsTo

theorem trans {h : Func} (hFirst : f.TrimsTo g) (hSecond : g.TrimsTo h) : f.TrimsTo h := by
  obtain ⟨first, hTrimsFirst, rfl⟩ := hFirst
  obtain ⟨second, hTrimsSecond, rfl⟩ := hSecond
  exact ⟨second ∘ first, hTrimsSecond.comp hTrimsFirst, mapBlocks_mapBlocks first second⟩

theorem normalize (f : Func) (o : Options) : f.TrimsTo (f.normalize o).func :=
  ⟨_, .normalBlock o.symbols, normalize_func⟩

theorem eraseOps (f : Func) (ops : List RefOp) : f.TrimsTo (f.eraseOps ops) :=
  ⟨_, .eraseOps ops, rfl⟩

theorem prune (f : Func) (o : Options) (oracle : Oracle) : f.TrimsTo (f.prune o oracle).func :=
  ((eraseOps f _).trans (eraseOps _ _)).trans (eraseOps _ _)

/-- Each pass trims, whatever oracle it is given. -/
theorem run (f : Func) (p : Pass) (o : Options) : f.TrimsTo (p.run o f).func := by
  cases p with
  | normalize => exact normalize f o
  | prune oracle => exact prune f o _
  | optimize => exact (normalize f o).trans (prune _ o _)

theorem compute_eq (h : f.TrimsTo g) (algorithm : Algorithm) :
    algorithm.compute g = algorithm.compute f := by
  obtain ⟨change, hTrims, rfl⟩ := h
  exact algorithm.compute_mapBlocks hTrims.toBodyOnly.keepsFlow

end TrimsTo

/-- The outcomes of passes that are run one after another, each with its own options. -/
def outcomes (f : Func) : List (Pass × Options) → List Outcome
  | [] => []
  | (p, o) :: rest => p.run o f :: (p.run o f).func.outcomes rest

theorem trimsTo_of_mem_outcomes {runs : List (Pass × Options)} {r : Outcome}
    (h : r ∈ f.outcomes runs) : f.TrimsTo r.func := by
  induction runs generalizing f with
  | nil => cases h
  | cons x rest ih =>
      rcases List.mem_cons.mp h with rfl | hRest
      · exact TrimsTo.run f x.1 x.2
      · exact (TrimsTo.run f x.1 x.2).trans (ih hRest)

end Func

/-- The block stands where it stood, and its body holds instructions that it held before, none
of them twice. -/
structure Block.Retains (b c : Block) : Prop where
  number_eq : c.number = b.number
  label_eq : c.label = b.label
  preds_eq : c.preds = b.preds
  term_eq : c.term = b.term
  body_subset : c.body ⊆ b.body
  tags_nodup : (c.body.map Instr.tag).Nodup

namespace Func

variable {f g : Func}

/-- The functions have the same header and the same blocks in the same order, but for what
stands in the bodies. -/
structure Retains (f g : Func) : Prop where
  name_eq : g.name = f.name
  args_eq : g.args = f.args
  detached_eq : g.detached = f.detached
  blocks : List.Forall₂ Block.Retains f.blocks g.blocks

theorem TrimsTo.retains (h : f.TrimsTo g) (hTags : f.tags.Nodup) : f.Retains g := by
  obtain ⟨change, hTrims, rfl⟩ := h
  refine ⟨rfl, rfl, rfl, ?_⟩
  rw [mapBlocks, List.forall₂_map_right_iff, List.forall₂_same]
  intro b hb
  have hBody : (b.body.map Instr.tag).Nodup := (List.nodup_flatMap.mp hTags).1 b hb
  obtain ⟨part, hPerm, hSub⟩ := hTrims.body_subperm b
  exact
    { number_eq := hTrims.number_eq b
      label_eq := hTrims.label_eq b
      preds_eq := hTrims.preds_eq b
      term_eq := hTrims.term_eq b
      body_subset := (hTrims.body_subperm b).subset
      tags_nodup := (hPerm.map Instr.tag).nodup_iff.mp (hBody.sublist (hSub.map Instr.tag)) }

/-- After any passes in any order, with any options and oracles, a function has the blocks that
it had, and an oracle that is computed then is the one computed at the start. So it makes no
difference whether passes are run by optimising or one by one, and whether pruning is given an
oracle from the start or computes its own. -/
theorem entry_points_agree (h : f.IsParsed) :
    (∀ runs, ∀ r ∈ f.outcomes runs,
      f.Retains r.func ∧ ∀ algorithm : Algorithm, algorithm.compute r.func = algorithm.compute f) ∧
    ∀ o : Options,
      ((f.normalize o).andThen fun g => g.pruneWith o none) = f.optimize o ∧
      ((f.normalize o).andThen fun g => g.pruneWith o (some (o.dominators.compute f))) =
        f.optimize o := by
  have hTags : f.tags.Nodup := h.tags_nodup
  refine ⟨fun runs r hr => ?_, fun o => ?_⟩
  · have hTrims : f.TrimsTo r.func := trimsTo_of_mem_outcomes hr
    exact ⟨hTrims.retains hTags, hTrims.compute_eq⟩
  · -- Both oracles are the one that optimising computes between the passes.
    have hBetween : o.dominators.compute (f.normalize o).func = o.dominators.compute f :=
      (TrimsTo.normalize f o).compute_eq o.dominators
    have hLazily : ∀ g : Func, g.pruneWith o none = g.pruneWith o (some (o.dominators.compute g)) := by
      intro g
      rw [pruneWith, pruneWith, Option.getD_none, Option.getD_some, Algorithm.compute_eraseOps]
    exact ⟨by simp only [hLazily]; rfl, by simp only [optimize, Outcome.andThen, hBetween]⟩

/-- All kinds of changes happen here. The second run is given an oracle that is wrong. -/
theorem entry_points_agree_manifold :
    manifold.IsParsed ∧
      (manifold.optimize { symbols := ⟨"inc", "dec"⟩ }).counters = ⟨1, 1, 1, 0, 1, 2⟩ ∧
      ((manifold.normalize { symbols := ⟨"inc", "dec"⟩ }).andThen fun g =>
        g.pruneWith { symbols := ⟨"inc", "dec"⟩ } (some (Algorithm.lengauerTarjan.compute manifold))) =
          manifold.optimize { symbols := ⟨"inc", "dec"⟩ } ∧
      ∀ r ∈ manifold.outcomes [(.optimize, { symbols := ⟨"inc", "dec"⟩ }),
        (.prune (some overstated), { symbols := ⟨"inc", "dec"⟩ })], manifold.Retains r.func := by
  have hParsed : manifold.IsParsed := isParsed_manifold
  have hCounters : (manifold.optimize { symbols := ⟨"inc", "dec"⟩ }).counters =
      ⟨1, 1, 1, 0, 1, 2⟩ := by
    decide +kernel
  exact ⟨hParsed, hCounters,
    ((entry_points_agree hParsed).2 { symbols := ⟨"inc", "dec"⟩ }).2,
    fun r hr => ((entry_points_agree hParsed).1 _ r hr).1⟩

end Func

end RefElision
