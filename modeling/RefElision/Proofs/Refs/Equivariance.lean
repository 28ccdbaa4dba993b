import RefElision.Proofs.Program.Renaming
import RefElision.Proofs.Refs.Freshness

/-! Passes compare objects and never look at their tags otherwise. When the objects of a
function are given other tags, each to its own, the passes do the same and tell the same. What
they do is therefore determined by the text of the function. -/
namespace RefElision

variable {new : Nat → Nat}

section Classes

variable (s : Symbols)

/-- An instruction counts the same way, and the value that it counts gets its new tag. -/
theorem Symbols.classify_retag (i : Instr) :
    s.classify (i.retag new) = (s.classify i).map fun k => (k.1, k.2.retag new) := by
  obtain ⟨tag, result, action, args⟩ := i
  cases action with
  | op name => rfl
  | call callee =>
      match args with
      | [] => rfl
      | _ :: _ :: _ => rfl
      | [v] =>
          show (if callee = s.incref then some (RefKind.incref, v.retag new)
            else if callee = s.decref then some (RefKind.decref, v.retag new) else none) =
              Option.map _ (if callee = s.incref then some (RefKind.incref, v)
                else if callee = s.decref then some (RefKind.decref, v) else none)
          split
          · rfl
          · split <;> rfl

@[simp] theorem Symbols.isIncref_retag (i : Instr) : s.isIncref (i.retag new) = s.isIncref i := by
  rw [isIncref, isIncref, classify_retag, Option.any_map]

@[simp] theorem Symbols.isDecref_retag (i : Instr) : s.isDecref (i.retag new) = s.isDecref i := by
  rw [isDecref, isDecref, classify_retag, Option.any_map]

namespace Normalize

/-- Where the last incref stands does not depend on tags. -/
theorem splitAtLastIncref_map (body : List Instr) :
    splitAtLastIncref s (body.map (Instr.retag new)) =
      Prod.map (List.map (Instr.retag new)) (List.map (Instr.retag new))
        (splitAtLastIncref s body) := by
  simp only [splitAtLastIncref, ← List.map_reverse, List.dropWhile_map, List.takeWhile_map,
    Function.comp_def, Symbols.isIncref_retag, Prod.map]

theorem early_map (body : List Instr) :
    early s (body.map (Instr.retag new)) = (early s body).map (Instr.retag new) := by
  simp only [early, splitAtLastIncref_map, Prod.map, List.filter_map, Function.comp_def,
    Symbols.isDecref_retag]

theorem settled_map (body : List Instr) :
    settled s (body.map (Instr.retag new)) = (settled s body).map (Instr.retag new) := by
  simp only [settled, splitAtLastIncref_map, Prod.map, List.filter_map, Function.comp_def,
    Symbols.isDecref_retag, List.map_append]

/-- Moving decrefs down and giving new tags can be done in either order. -/
theorem normalBody_map (body : List Instr) :
    normalBody s (body.map (Instr.retag new)) = (normalBody s body).map (Instr.retag new) := by
  simp only [normalBody, settled_map, early_map, ← List.map_reverse, List.dropWhile_map,
    List.takeWhile_map, Function.comp_def, Symbols.isDecref_retag, List.map_append]

theorem normalBlock_recast (b : Block) :
    normalBlock s (b.recast new) = (normalBlock s b).recast new :=
  congrArg (fun body => { b.recast new with body }) (normalBody_map s b.body)

theorem movedIn_recast (b : Block) : movedIn s (b.recast new) = movedIn s b := by
  rw [movedIn, movedIn, Block.recast, early_map, List.length_map]

end Normalize

end Classes

/-- The operation with other tags for its instruction and the constant that it counts. -/
def RefOp.retag (new : Nat → Nat) (op : RefOp) : RefOp :=
  { op with value := op.value.retag new, instr := op.instr.retag new }

namespace RefOp

@[simp] theorem text_retag (op : RefOp) : (op.retag new).text = op.text := by
  rw [text, text, retag, Instr.text_retag]

/-- Operations that differ still differ under new tags, which is what lists of live operations
rely on. -/
theorem retag_injective (hNew : Function.Injective new) : Function.Injective (retag new) := by
  intro a b hEq
  obtain ⟨kind, value, instr, block, position⟩ := a
  obtain ⟨kind', value', instr', block', position'⟩ := b
  simp only [retag, RefOp.mk.injEq] at hEq
  obtain ⟨rfl, hValue, hInstr, rfl, rfl⟩ := hEq
  rw [Value.retag_injective hNew hValue, Instr.retag_injective hNew hInstr]

/-- The operations of a block are found at the same positions. -/
theorem ofBlock_recast (s : Symbols) (b : Block) :
    ofBlock s (b.recast new) = (ofBlock s b).map (retag new) := by
  rw [ofBlock, ofBlock, Block.recast, List.zipIdx_map, List.filterMap_map, List.map_filterMap]
  apply List.filterMap_congr
  intro x _
  show ((s.classify (x.1.retag new)).map _ : Option RefOp) = _
  rw [Symbols.classify_retag, Option.map_map, Option.map_map]
  rfl

theorem ofFunc_recast (s : Symbols) (f : Func) :
    ofFunc s (f.recast new) = (ofFunc s f).map (retag new) := by
  simp only [ofFunc, Func.recast, Func.mapBlocks, List.flatMap_map, List.map_flatMap,
    ofBlock_recast]

end RefOp

/-- Operations that are gathered from other things have the tags that these have. -/
theorem flatMap_retag {α : Type} {change : α → α} {ops : α → List RefOp}
    (h : ∀ x, ops (change x) = (ops x).map (RefOp.retag new)) (xs : List α) :
    (xs.map change).flatMap ops = (xs.flatMap ops).map (RefOp.retag new) := by
  rw [List.flatMap_map, List.map_flatMap]
  exact congrArg (xs.flatMap ·) (funext h)

/-- The three lists of operations with other tags. -/
def RefOps.retag (new : Nat → Nat) (ops : RefOps) : RefOps :=
  { null := ops.null.map (RefOp.retag new)
    increfs := ops.increfs.map (RefOp.retag new)
    decrefs := ops.decrefs.map (RefOp.retag new) }

/-- An operation stays in its list, because a null stays null. -/
theorem RefOps.ofFunc_recast (s : Symbols) (f : Func) :
    ofFunc s (f.recast new) = (ofFunc s f).retag new := by
  simp only [ofFunc, RefOps.retag, RefOp.ofFunc_recast, List.filter_map, Function.comp_def,
    RefOp.retag, Value.isNull_retag]

namespace Func

theorem size_recast (f : Func) : (f.recast new).size = f.size := by
  simp only [size, recast, mapBlocks, List.map_map, Function.comp_def, Block.recast,
    List.length_map]

theorem graph_recast (f : Func) : (f.recast new).graph = f.graph :=
  graph_keepsFlow (Block.keepsFlow_recast new)

/-- Dominance is read off the graph, which has no tags. -/
theorem compute_recast (algorithm : Algorithm) (f : Func) :
    algorithm.compute (f.recast new) = algorithm.compute f :=
  algorithm.compute_mapBlocks (Block.keepsFlow_recast new)

end Func

section Comparisons

variable (hNew : Function.Injective new)
include hNew

/-- Erasing looks for tags, so here it matters that no two tags become one. -/
theorem Block.erase_recast (tags : List Nat) (b : Block) :
    (b.recast new).erase (tags.map new) = (b.erase tags).recast new := by
  have hBody : (b.body.map (Instr.retag new)).filter (fun i => !(tags.map new).contains i.tag) =
      (b.body.filter fun i => !tags.contains i.tag).map (Instr.retag new) := by
    rw [List.filter_map]
    refine congrArg _ (List.filter_congr fun i _ => ?_)
    simp [Instr.retag, hNew.eq_iff]
  exact congrArg (fun body => { b.recast new with body }) hBody

theorem Func.eraseOps_recast (ops : List RefOp) (f : Func) :
    (f.recast new).eraseOps (ops.map (RefOp.retag new)) = (f.eraseOps ops).recast new := by
  have hAt : ∀ b : Block, (ops.map (RefOp.retag new)).any (fun op => op.block == b.label) =
      ops.any fun op => op.block == b.label := by
    intro b
    rw [List.any_map]
    rfl
  have hTags : (ops.map (RefOp.retag new)).map (fun op => op.instr.tag) =
      (ops.map fun op => op.instr.tag).map new := by
    rw [List.map_map, List.map_map]
    rfl
  rw [Func.eraseOps, Func.recast, Func.mapBlocks_mapBlocks, Func.eraseOps, Func.recast,
    Func.mapBlocks_mapBlocks, hTags]
  congr 1
  funext b
  show (if (ops.map (RefOp.retag new)).any (fun op => op.block == b.label) then
    (b.recast new).erase ((ops.map fun op => op.instr.tag).map new) else b.recast new) =
      Block.recast new (if ops.any (fun op => op.block == b.label) then
        b.erase (ops.map fun op => op.instr.tag) else b)
  rw [hAt, Block.erase_recast hNew]
  split <;> rfl

/-- Values that are the same stay the same, and others stay different. -/
theorem RefOp.related_retag (a b : RefOp) : (a.retag new).related (b.retag new) = a.related b := by
  show (a.value.retag new).same (b.value.retag new) = a.value.same b.value
  have hEq : (a.value.retag new == b.value.retag new) = (a.value == b.value) := by
    simp [(Value.retag_injective hNew).eq_iff]
  rw [Value.same, hEq, Value.isNull_retag, Value.isNull_retag, ← Value.same]

/-- The first related decref is found at the same place of the list. -/
theorem relatedDecref?_map (live : List RefOp) (l : Label) (op : RefOp) :
    relatedDecref? (live.map (RefOp.retag new)) l (op.retag new) =
      (relatedDecref? live l op).map (RefOp.retag new) := by
  simp only [relatedDecref?, List.find?_map, Function.comp_def, RefOp.related_retag hNew]
  rfl

end Comparisons

/-- Whether a block holds a live decref is read off labels. -/
theorem holdsDecref_map (live : List RefOp) :
    holdsDecref (live.map (RefOp.retag new)) = holdsDecref live := by
  funext l
  rw [holdsDecref, List.any_map]
  rfl

theorem decrefBetween_map (g : Digraph Label) (live : List RefOp) (head : Label)
    (tails : List Label) :
    decrefBetween g (live.map (RefOp.retag new)) head tails = decrefBetween g live head tails := by
  rw [decrefBetween, holdsDecref_map, decrefBetween]

namespace Fanout

variable (hNew : Function.Injective new) (g : Digraph Label) (o : Options) (oracle : Oracle)
include hNew

theorem nearest?_map (live : List RefOp) (incref : RefOp) :
    nearest? g o (live.map (RefOp.retag new)) (incref.retag new) = nearest? g o live incref := by
  simp only [nearest?, relatedDecref?_map hNew, Option.isSome_map]
  rfl

/-- A fan is accepted or not whatever the tags are, and its blocks are the same. -/
theorem blocks?_map (live : List RefOp) (incref : RefOp) :
    blocks? g o oracle (live.map (RefOp.retag new)) (incref.retag new) =
      blocks? g o oracle live incref := by
  rw [blocks?, nearest?_map hNew, blocks?]
  simp only [decrefBetween_map]
  rfl

end Fanout

/-- The event with other tags for the objects that it is about. -/
def Event.retag (new : Nat → Nat) : Event → Event
  | .movedDecrefs block count => .movedDecrefs block count
  | .droppedNull op => .droppedNull (op.retag new)
  | .rejectedPair incref decref objection =>
    .rejectedPair (incref.retag new) (decref.retag new) objection
  | .prunedPair incref decref => .prunedPair (incref.retag new) (decref.retag new)
  | .prunedFanout incref decrefs => .prunedFanout (incref.retag new) decrefs

namespace Prune

/-- What was found about pairs, with other tags for the objects. -/
def Pairing.retag (new : Nat → Nat) (p : Pairing) : Pairing :=
  { live := p.live.map (RefOp.retag new)
    pairs := p.pairs.map (Prod.map (RefOp.retag new) (RefOp.retag new))
    unpaired := p.unpaired.map (RefOp.retag new)
    rejected := p.rejected
    events := p.events.map (Event.retag new) }

variable (hNew : Function.Injective new) (g : Digraph Label) (oracle : Oracle)

theorem objection?_retag (live : List RefOp) (incref decref : RefOp) :
    objection? g (live.map (RefOp.retag new)) (incref.retag new) (decref.retag new) =
      objection? g live incref decref := by
  simp only [objection?, decrefBetween_map]
  rfl

include hNew

theorem balances_retag (incref decref : RefOp) :
    balances oracle (incref.retag new) (decref.retag new) = balances oracle incref decref := by
  rw [balances, RefOp.related_retag hNew]
  rfl

/-- The search for a partner refuses and finds the same decrefs, under their new tags. -/
theorem partner_map (live : List RefOp) (incref : RefOp) (candidates : List RefOp) :
    partner g oracle (live.map (RefOp.retag new)) (incref.retag new)
        (candidates.map (RefOp.retag new)) =
      Prod.map (List.map (Prod.map (RefOp.retag new) id)) (Option.map (RefOp.retag new))
        (partner g oracle live incref candidates) := by
  induction candidates with
  | nil => rfl
  | cons decref rest ih =>
      rw [List.map_cons, partner, partner, balances_retag hNew, objection?_retag, ih]
      by_cases hBalances : balances oracle incref decref = true
      · rw [if_pos hBalances, if_pos hBalances]
        cases objection? g live incref decref <;> rfl
      · rw [if_neg hBalances, if_neg hBalances]

/-- By induction on the increfs: the decref that a pair uses up is erased from the live ones
under either tags. -/
theorem pair_map (live increfs : List RefOp) :
    pair g oracle (live.map (RefOp.retag new)) (increfs.map (RefOp.retag new)) =
      (pair g oracle live increfs).retag new := by
  induction increfs generalizing live with
  | nil => rfl
  | cons incref rest ih =>
      have hErase : ∀ decref, (live.map (RefOp.retag new)).erase (decref.retag new) =
          (live.erase decref).map (RefOp.retag new) := fun decref =>
        (List.map_erase (RefOp.retag_injective hNew) live).symm
      rw [List.map_cons, pair, pair, partner_map hNew]
      cases partner g oracle live incref live with
      | mk refused found =>
          cases found with
          | none =>
              simp only [Prod.map, Option.map_none, ih, Pairing.retag]
              simp [Function.comp_def, Event.retag]
          | some decref =>
              simp only [Prod.map, Option.map_some, hErase, ih, Pairing.retag]
              simp [Function.comp_def, Event.retag]

/-- The same for fans, which use up several decrefs at once. -/
theorem fanOut_map (o : Options) (live increfs : List RefOp) :
    fanOut g oracle o (live.map (RefOp.retag new)) (increfs.map (RefOp.retag new)) =
      (fanOut g oracle o live increfs).map
        (Prod.map (RefOp.retag new) (List.map (RefOp.retag new))) := by
  induction increfs generalizing live with
  | nil => rfl
  | cons incref rest ih =>
      rw [List.map_cons, fanOut, fanOut, Fanout.blocks?_map hNew]
      cases Fanout.blocks? g o oracle live incref with
      | none => exact ih live
      | some found =>
          have hDecrefs : (found.filterMap fun l =>
              relatedDecref? (live.map (RefOp.retag new)) l (incref.retag new)) =
                (found.filterMap fun l => relatedDecref? live l incref).map (RefOp.retag new) := by
            simp only [relatedDecref?_map hNew, List.map_filterMap]
          have hLive : ∀ used : List RefOp,
              (live.map (RefOp.retag new)).filter
                (fun d => !(used.map (RefOp.retag new)).contains d) =
                  (live.filter fun d => !used.contains d).map (RefOp.retag new) := by
            intro used
            rw [List.filter_map]
            refine congrArg _ (List.filter_congr fun d _ => ?_)
            simp [(RefOp.retag_injective hNew).eq_iff]
          simp only [hDecrefs, hLive, ih, List.map_cons, Prod.map]

end Prune

/-- The outcome with other tags, in the function and in what is told. -/
def Outcome.recast (new : Nat → Nat) (r : Outcome) : Outcome :=
  { r with func := r.func.recast new, events := r.events.map (Event.retag new) }

namespace Func

variable (o : Options)

/-- How many decrefs move, and so the flag, the counter and the records, is not affected. -/
theorem normalize_recast (f : Func) :
    (f.recast new).normalize o = (f.normalize o).recast new := by
  have hBlocks : (f.recast new).mapBlocks (Normalize.normalBlock o.symbols) =
      (f.mapBlocks (Normalize.normalBlock o.symbols)).recast new := by
    rw [recast, mapBlocks_mapBlocks, recast, mapBlocks_mapBlocks]
    congr 1
    funext b
    exact Normalize.normalBlock_recast o.symbols b
  have hMoved : ((f.recast new).blocks.map fun b => (b.label, Normalize.movedIn o.symbols b)) =
      f.blocks.map fun b => (b.label, Normalize.movedIn o.symbols b) := by
    rw [recast, mapBlocks, List.map_map]
    apply List.map_congr_left
    intro b _
    exact congrArg (b.label, ·) (Normalize.movedIn_recast o.symbols b)
  simp only [normalize, hBlocks, hMoved, Outcome.recast, List.map_map]
  rfl

variable (hNew : Function.Injective new)
include hNew

/-- Each of the three rounds of removals is the same up to tags. -/
theorem prune_recast (oracle : Oracle) (f : Func) :
    (f.recast new).prune o oracle = (f.prune o oracle).recast new := by
  have hPairs : ∀ pairs : List (RefOp × RefOp),
      (pairs.map (Prod.map (RefOp.retag new) (RefOp.retag new))).flatMap (fun x => [x.1, x.2]) =
        (pairs.flatMap fun x => [x.1, x.2]).map (RefOp.retag new) :=
    flatMap_retag fun _ => rfl
  have hFanned : ∀ fans : List (RefOp × List RefOp),
      (fans.map (Prod.map (RefOp.retag new) (List.map (RefOp.retag new)))).flatMap
        (fun x => x.1 :: x.2) = (fans.flatMap fun x => x.1 :: x.2).map (RefOp.retag new) :=
    flatMap_retag fun _ => rfl
  have hFans : ∀ live unpaired : List RefOp,
      (if o.fanout then Prune.fanOut f.graph oracle o (live.map (RefOp.retag new))
        (unpaired.map (RefOp.retag new)) else []) =
          (if o.fanout then Prune.fanOut f.graph oracle o live unpaired else []).map
            (Prod.map (RefOp.retag new) (List.map (RefOp.retag new))) := by
    intro live unpaired
    split
    · exact Prune.fanOut_map hNew f.graph oracle o live unpaired
    · rfl
  simp only [prune, RefOps.ofFunc_recast, RefOps.retag, eraseOps_recast hNew, size_recast,
    graph_recast, Prune.pair_map hNew, Prune.Pairing.retag, hPairs, hFans, hFanned,
    List.length_map, Outcome.recast, List.map_append, List.map_map, Function.comp_def, Prod.map,
    Event.retag]

theorem pruneWith_recast (oracle : Option Oracle) (f : Func) :
    (f.recast new).pruneWith o oracle = (f.pruneWith o oracle).recast new := by
  rw [pruneWith, pruneWith, prune_recast o hNew, Algorithm.compute_eraseOps, compute_recast,
    Algorithm.compute_eraseOps]

theorem optimize_recast (f : Func) : (f.recast new).optimize o = (f.optimize o).recast new := by
  simp only [optimize, normalize_recast, Outcome.andThen, Outcome.recast, compute_recast,
    pruneWith_recast o hNew, List.map_append]

/-- Each pass does the same whatever the tags are. -/
theorem run_recast (p : Pass) (f : Func) : p.run o (f.recast new) = (p.run o f).recast new := by
  cases p with
  | normalize => exact normalize_recast o f
  | prune oracle => exact pruneWith_recast o hNew oracle f
  | optimize => exact optimize_recast o hNew f

omit o in
theorem outcomes_recast (runs : List (Pass × Options)) (f : Func) :
    (f.recast new).outcomes runs = (f.outcomes runs).map (Outcome.recast new) := by
  induction runs generalizing f with
  | nil => rfl
  | cons x rest ih =>
      rw [outcomes, run_recast x.2 hNew, outcomes, List.map_cons]
      exact congrArg _ (ih (x.1.run x.2 f).func)

end Func

/-- What can be seen of an outcome: the text of the function, the flag, the growth of the
counters, and the level, message and fields of each record. -/
structure Report where
  text : String
  changed : Bool
  counters : Counters
  records : List (String × String × List (String × Event.Field))

def Outcome.report (r : Outcome) : Report where
  text := r.func.text
  changed := r.changed
  counters := r.counters
  records := r.events.map fun e => (e.level, e.message, e.fields r.func.name)

theorem Event.message_retag (e : Event) : (e.retag new).message = e.message := by
  cases e <;> rfl

/-- Records show texts and counts, and no tags. -/
theorem Event.fields_retag (function : String) (e : Event) :
    (e.retag new).fields function = e.fields function := by
  cases e <;> simp [Event.retag, Event.fields]

/-- Nothing of a report depends on tags. -/
theorem Outcome.report_recast (r : Outcome) : (r.recast new).report = r.report := by
  have hRecords : (r.recast new).report.records = r.report.records := by
    show (r.events.map (Event.retag new)).map _ = r.events.map _
    rw [List.map_map]
    apply List.map_congr_left
    intro e _
    show (Event.level _, Event.message _, Event.fields _ _) = _
    rw [Event.message_retag, Event.fields_retag]
    rfl
  rw [Report.mk.injEq]
  exact ⟨r.func.text_recast new, rfl, rfl, hRecords⟩

namespace Func

variable {f g : Func}

/-- A function and its canonical form are not told apart by any runs. -/
theorem reports_canonical (f : Func) (runs : List (Pass × Options)) :
    (f.canonical.outcomes runs).map Outcome.report = (f.outcomes runs).map Outcome.report := by
  rw [canonical, outcomes_recast (rank_injective f.bodyTags), List.map_map]
  exact List.map_congr_left fun r _ => r.report_recast

/-- If functions that were read have the same text, then nothing tells them apart after any
passes in any order: after each of them the texts, flags, counters and records are the same. -/
theorem reports_eq_of_text_eq (hf : f.IsParsed) (hg : g.IsParsed) (hText : f.text = g.text)
    (runs : List (Pass × Options)) :
    (f.outcomes runs).map Outcome.report = (g.outcomes runs).map Outcome.report := by
  rw [← reports_canonical f, ← reports_canonical g, hf.canonical_eq hg hText]

/-- The constants `5` are two objects, so their operations are no pair. The first tag that the
second block takes depends on how the first one ends. -/
def twoFives (first : Nat) (ending : Terminator Value) : Func where
  name := "f"
  args := ["v"]
  blocks :=
    [⟨1, "entry", [], [], ending⟩,
      ⟨2, "mid", [⟨first + 1, none, .call "dec", [.var "v"]⟩,
        ⟨first + 3, none, .call "inc", [.int (first + 2) 5]⟩,
        ⟨first + 5, none, .call "dec", [.int (first + 4) 5]⟩,
        ⟨first + 7, none, .call "inc", [.null (first + 6)]⟩,
        ⟨first + 9, none, .call "inc", [.var "v"]⟩], ["entry"], .ret []⟩]

/-- A switch without cases carries a constant, and all tags behind it are others. -/
theorem reports_eq_of_text_eq_twoFives :
    (twoFives 0 (.jump "mid")).IsParsed ∧ (twoFives 1 (.switch (.int 0 7) .empty "mid")).IsParsed ∧
      (twoFives 0 (.jump "mid")).text = (twoFives 1 (.switch (.int 0 7) .empty "mid")).text ∧
      (∀ b ∈ (twoFives 0 (.jump "mid")).blocks, ∀ i ∈ b.body,
        ∀ c ∈ (twoFives 1 (.switch (.int 0 7) .empty "mid")).blocks, i ∉ c.body) ∧
      ((twoFives 0 (.jump "mid")).optimize { symbols := ⟨"inc", "dec"⟩ }).counters =
        ⟨2, 1, 1, 0, 0, 0⟩ ∧
      ((twoFives 0 (.jump "mid")).outcomes [(.normalize, { symbols := ⟨"inc", "dec"⟩ }),
        (.prune none, { symbols := ⟨"inc", "dec"⟩ }), (.optimize, {})]).map Outcome.report =
          ((twoFives 1 (.switch (.int 0 7) .empty "mid")).outcomes
            [(.normalize, { symbols := ⟨"inc", "dec"⟩ }),
              (.prune none, { symbols := ⟨"inc", "dec"⟩ }), (.optimize, {})]).map
                Outcome.report := by
  have hJump : (Func.parse ("func @f(%v) \x7b\nentry:\ngoto mid\nmid:\ncall @dec(%v)\n" ++
      "call @inc(5)\ncall @dec(5)\ncall @inc(null)\ncall @inc(%v)\nret\n\x7d\n")).toOption =
        some (twoFives 0 (.jump "mid")) := by
    decide +kernel
  have hSwitch : (Func.parse ("func @f(%v) \x7b\nentry:\nswitch 7, mid []\nmid:\n" ++
      "call @dec(%v)\ncall @inc(5)\ncall @dec(5)\ncall @inc(null)\ncall @inc(%v)\nret\n" ++
      "\x7d\n")).toOption = some (twoFives 1 (.switch (.int 0 7) .empty "mid")) := by
    decide +kernel
  have hText : (twoFives 0 (.jump "mid")).text =
      (twoFives 1 (.switch (.int 0 7) .empty "mid")).text := by
    decide +kernel
  have hCounters : ((twoFives 0 (.jump "mid")).optimize { symbols := ⟨"inc", "dec"⟩ }).counters =
      ⟨2, 1, 1, 0, 0, 0⟩ := by
    decide +kernel
  exact ⟨isParsed_of_toOption hJump, isParsed_of_toOption hSwitch, hText, by decide, hCounters,
    reports_eq_of_text_eq (isParsed_of_toOption hJump) (isParsed_of_toOption hSwitch) hText _⟩

end Func

end RefElision
