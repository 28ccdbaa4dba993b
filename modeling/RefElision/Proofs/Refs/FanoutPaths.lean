import RefElision.Proofs.Graph.WalkChains
import RefElision.Proofs.Refs.Removals
import RefElision.Proofs.Refs.Searches

/-! Fanning out, told by paths: when the walk from an incref to the nearest decrefs succeeds and
what it finds, and how the blocks of an incref that is fanned out are met on the paths of the
function. -/
namespace RefElision

/-- As long as nothing wraps around, the depth is a plain bound on lengths. -/
theorem Options.canExpand_ofNat (o : Options) {n : Nat} (hn : (n : Int) < Int64.maxValue.toInt) :
    o.canExpand (Int64.ofNat n) = true ↔ (n : Int) + 1 < o.fanoutDepth.toInt := by
  have hMax : Int64.maxValue.toInt = 9223372036854775807 := by decide
  have hSize : (Int64.ofNat n).toInt = n := Int64.toInt_ofNat_of_lt (by omega)
  have hNext : (Int64.ofNat n + 1).toInt = n + 1 := by
    rw [Int64.toInt_add, hSize]
    exact Int.bmod_eq_of_le (by simp; omega) (by simp; omega)
  rw [canExpand, decide_eq_true_eq, Int64.lt_iff_toInt_lt, hNext]

namespace Func

variable {f : Func} {o : Options} {consumed : List RefOp} {incref : RefOp} {l : Label}

theorem isEnd_graph : f.graph.isEnd l = false ↔ f.graph.succ l ≠ [] := by
  constructor
  · exact Digraph.succ_ne_nil
  · intro hOn
    obtain ⟨t, ht⟩ := List.exists_mem_of_ne_nil _ hOn
    simp [Digraph.isEnd, mem_nodes_of_succ ht, hOn]

/-- The block holds a live decref of the value that the incref counts. -/
def Resolved (f : Func) (o : Options) (consumed : List RefOp) (incref : RefOp) (l : Label) : Prop :=
  f.HoldsLive o.symbols consumed l incref.value

theorem resolved_iff :
    (relatedDecref? (f.liveDecrefs o.symbols consumed) l incref).isSome = true ↔
      f.Resolved o consumed incref l := by
  rw [Resolved, holdsLive_iff, relatedDecref?, List.find?_isSome]
  simp only [Bool.and_eq_true, beq_iff_eq]
  refine exists_congr fun d => and_congr_right fun hd => and_congr_right fun _ => ?_
  have hNull : d.value.isNull = false := (RefOps.mem_decrefs.mp (List.mem_filter.mp hd).1).2.2
  exact (Value.same_iff hNull).trans eq_comm

/-- A walk that may look past all blocks that are not resolved keeps chains shorter than the
depth. Each chain is one longer than a chain that was allowed, so no length wraps around. -/
theorem length_of_chain (hDepth : 2 ≤ o.fanoutDepth.toInt)
    (hAll : ∀ between l, Chain f.graph.succ (f.Resolved o consumed incref) incref.block between l →
      ¬ f.Resolved o consumed incref l → o.canExpand (Int64.ofNat (between.length + 1)) = true)
    {between : List Label}
    (h : Chain f.graph.succ (f.Resolved o consumed incref) incref.block between l) :
    ((between.length + 1 : Nat) : Int) < o.fanoutDepth.toInt := by
  induction between, l, h using Chain.induction with
  | first l hEdge =>
      rw [List.length_nil]
      omega
  | next between l m hChain hPass hEdge ih =>
      have hBound := Int64.toInt_le o.fanoutDepth
      have hLonger := (o.canExpand_ofNat (by omega)).mp (hAll between l hChain hPass)
      rw [List.length_append, List.length_singleton]
      omega

/-- The walk from an incref succeeds exactly if the depth is at least two, the block of the
incref has a way on, and no chain comes back to one of its blocks or ends with a block that is
not resolved and either has no way on or is too far away. A chain has one edge more than there
are blocks between its ends. The walk then finds the resolved blocks at the ends of chains, each
of them once. -/
theorem nearest?_exact (f : Func) (o : Options) (consumed : List RefOp) (incref : RefOp) :
    ((∃ found, Fanout.nearest? f.graph o (f.liveDecrefs o.symbols consumed) incref = some found) ↔
      2 ≤ o.fanoutDepth.toInt ∧ f.graph.succ incref.block ≠ [] ∧
        ∀ between l, Chain f.graph.succ (f.Resolved o consumed incref) incref.block between l →
          l ∉ incref.block :: between ∧
            (¬ f.Resolved o consumed incref l → f.graph.succ l ≠ [] ∧
              ((between.length + 1 : Nat) : Int) + 1 < o.fanoutDepth.toInt)) ∧
    ∀ found, Fanout.nearest? f.graph o (f.liveDecrefs o.symbols consumed) incref = some found →
      found.Nodup ∧ ∀ l, l ∈ found ↔ f.Resolved o consumed incref l ∧
        ∃ between, Chain f.graph.succ (f.Resolved o consumed incref) incref.block between l := by
  have hStops : (fun l =>
      (relatedDecref? (f.liveDecrefs o.symbols consumed) l incref).isSome = true) =
        f.Resolved o consumed incref := by
    funext l
    exact propext resolved_iff
  have hPasses : ∀ l, (relatedDecref? (f.liveDecrefs o.symbols consumed) l incref).isSome = false ↔
      ¬ f.Resolved o consumed incref l := by
    intro l
    rw [← resolved_iff, Bool.not_eq_true]
  have hStart : o.canExpand (Int64.ofNat 0) = true ↔ 2 ≤ o.fanoutDepth.toInt := by
    rw [o.canExpand_ofNat (by decide)]
    omega
  have hBound := Int64.toInt_le o.fanoutDepth
  constructor
  · rw [Fanout.nearest?, Walk.resolve_isSome_iff_chains, hStops, isEnd_graph, hStart]
    simp only [Walk.EndsWell, hPasses, isEnd_graph]
    constructor
    · rintro ⟨hOn, hDepth, hChains⟩
      refine ⟨hDepth, hOn, fun between l hChain => ⟨(hChains between l hChain).1, fun hPass => ?_⟩⟩
      obtain ⟨hGoesOn, hExpands⟩ := (hChains between l hChain).2 hPass
      have hShort := length_of_chain hDepth
        (fun between l hChain hPass => ((hChains between l hChain).2 hPass).2) hChain
      exact ⟨hGoesOn, (o.canExpand_ofNat (by omega)).mp hExpands⟩
    · rintro ⟨hDepth, hOn, hChains⟩
      refine ⟨hOn, hDepth, fun between l hChain => ⟨(hChains between l hChain).1, fun hPass => ?_⟩⟩
      obtain ⟨hGoesOn, hShort⟩ := (hChains between l hChain).2 hPass
      exact ⟨hGoesOn, (o.canExpand_ofNat (by omega)).mpr hShort⟩
  · intro found hFound
    refine ⟨Walk.nodup_of_resolve hFound, fun l => ?_⟩
    rw [Walk.mem_of_resolve_iff_chain hFound, hStops, resolved_iff]

/-- Two ways lead from the incref in `head` to decrefs of its value. One of them goes through a
block with another decref and may come back to `head`. -/
def unevenArms : Func where
  name := "f"
  args := ["x", "c"]
  blocks :=
    [⟨1, "entry", [], [], .branch (.var "c") "head" "out"⟩,
      ⟨2, "head", [⟨2, none, .call "inc", [.var "x"]⟩], ["entry", "left"],
        .branch (.var "c") "mid" "right"⟩,
      ⟨3, "mid", [⟨5, none, .call "dec", [.var "c"]⟩], ["head"], .jump "left"⟩,
      ⟨4, "left", [⟨7, none, .call "dec", [.var "x"]⟩], ["mid"],
        .branch (.var "c") "head" "out"⟩,
      ⟨5, "right", [⟨10, none, .call "dec", [.var "x"]⟩], ["head"], .jump "out"⟩,
      ⟨6, "out", [], ["entry", "left", "right"], .ret []⟩]

def armsOptions (depth : Int64) : Options :=
  { symbols := ⟨"inc", "dec"⟩, fanoutDepth := depth }

def armsIncref : RefOp :=
  ⟨.incref, .var "x", ⟨2, none, .call "inc", [.var "x"]⟩, "head", 0⟩

def armsDecref : RefOp :=
  ⟨.decref, .var "c", ⟨5, none, .call "dec", [.var "c"]⟩, "mid", 0⟩

/-- With depth three the walk finds the blocks at the ends of both ways. With depth two it may
not look past the block in the middle. -/
theorem nearest?_exact_unevenArms :
    armsIncref ∈ (RefOps.ofFunc (armsOptions 3).symbols unevenArms).increfs ∧
      (∀ l, l ∈ ["left", "right"] ↔ unevenArms.Resolved (armsOptions 3) [] armsIncref l ∧
        ∃ between, Chain unevenArms.graph.succ
          (unevenArms.Resolved (armsOptions 3) [] armsIncref) "head" between l) ∧
      ¬ ∃ found, Fanout.nearest? unevenArms.graph (armsOptions 2)
        (unevenArms.liveDecrefs (armsOptions 2).symbols []) armsIncref = some found := by
  have hFound : Fanout.nearest? unevenArms.graph (armsOptions 3)
      (unevenArms.liveDecrefs (armsOptions 3).symbols []) armsIncref = some ["left", "right"] := by
    decide +kernel
  have hMiddle : ¬ unevenArms.Resolved (armsOptions 2) [] armsIncref "mid" := by
    rw [← resolved_iff, Bool.not_eq_true]
    decide +kernel
  refine ⟨by decide, ((nearest?_exact unevenArms (armsOptions 3) [] armsIncref).2 _ hFound).2, ?_⟩
  rw [(nearest?_exact unevenArms (armsOptions 2) [] armsIncref).1]
  rintro ⟨_, _, hChains⟩
  have hLess := ((hChains [] "mid" (.first (by decide))).2 hMiddle).2
  exact absurd hLess (by decide)

/-- If blocks are found for an incref and the oracle tells the truth about dominance, then they
are distinct blocks other than that of the incref, each with a live decref of its value. On every
path from the entry the block of the incref and the blocks found alternate, beginning with that of
the incref; on a path to a return one of the blocks found comes last. No block between that of
the incref and the next of those found holds a live decref of any value. -/
theorem blocks?_alternate (hParsed : f.IsParsed) {oracle : Oracle}
    (hSound : ∀ a ∈ f.labels, ∀ b ∈ f.labels, a ≠ b → oracle.dominates a b = true →
      ∀ p, f.FromEntry b p → a ∈ p)
    (o : Options) (consumed : List RefOp) (incref : RefOp) {found : List Label}
    (hBlocks : Fanout.blocks? f.graph o oracle (f.liveDecrefs o.symbols consumed) incref =
      some found) :
    found ≠ [] ∧ found.Nodup ∧ incref.block ∉ found ∧
      (∀ l ∈ found, f.Resolved o consumed incref l) ∧
      ∀ last p, f.FromEntry last p →
        Alternate incref.block found p ∧
        (f.Returns last → ∀ l, (marks incref.block found p).getLast? = some l → l ∈ found) ∧
        ∀ front between back, p = front ++ incref.block :: (between ++ back) →
          (∀ l ∈ between, l ∉ found) →
            ∀ l ∈ between, ∀ v, ¬ f.HoldsLive o.symbols consumed l v := by
  have hLinked : f.Linked := hParsed.wellFormed.toLinked
  have hFound := Fanout.found_of_blocks? hBlocks
  have hResolved : ∀ l ∈ found, f.Resolved o consumed incref l := fun l hl =>
    resolved_iff.mp (Option.isSome_iff_exists.mpr (hFound.decref l hl))
  have hLabels : found ⊆ f.labels := by
    intro l hl
    obtain ⟨_, b, hb, rfl, _⟩ := hResolved l hl
    exact List.mem_map_of_mem hb
  obtain ⟨t, ht⟩ := List.exists_mem_of_ne_nil _ hFound.goes_on
  have hIncref : incref.block ∈ f.graph.nodes := mem_nodes_of_succ ht
  obtain ⟨entry, hEntry⟩ := hLinked.exists_entry
  have hTurns : TakeTurns f.graph.succ entry incref.block found :=
    takeTurns_of_found hLinked hSound hEntry (hLinked.graph_nodes ▸ hIncref) hFound hLabels
  refine ⟨hFound.nonempty, hFound.nodup, hFound.apart, hResolved, fun last p hPath => ?_⟩
  obtain ⟨entry', hEntry', hPath⟩ := hPath
  obtain rfl : entry = entry' := Option.some.inj (hEntry.symm.trans hEntry')
  obtain ⟨isOpen, hAlong, _⟩ := hTurns.turns_of_path hPath
  refine ⟨alternate_of_turns hAlong, fun hReturns l hl => ?_, ?_⟩
  · simpa using getLast?_marks (hTurns.turns_of_complete hPath hReturns.2) hl
  · rintro front between back rfl hMiss l hl v hHolds
    obtain ⟨d, hd, rfl, _⟩ := holdsLive_iff.mp hHolds
    obtain ⟨t, ht, q, hRest, hSub⟩ := hPath.exists_between hl
    exact not_mem_of_decrefBetween hLinked.closed hIncref hFound.none_between ht hRest
      (fun m hm => hMiss m (hSub hm)) hd

/-- The oracle is right about dominance and wrong about post-dominance. The decref in the middle
is consumed. The path goes round once. -/
theorem blocks?_alternate_unevenArms :
    ∃ oracle : Oracle, unevenArms.IsParsed ∧
      (∀ a ∈ unevenArms.labels, ∀ b ∈ unevenArms.labels, a ≠ b → oracle.dominates a b = true →
        ∀ p, unevenArms.FromEntry b p → a ∈ p) ∧
      Fanout.blocks? unevenArms.graph (armsOptions 3) oracle
        (unevenArms.liveDecrefs (armsOptions 3).symbols [armsDecref]) armsIncref =
          some ["left", "right"] ∧
      unevenArms.FromEntry "out" ["entry", "head", "mid", "left", "head", "right", "out"] ∧
      unevenArms.Returns "out" ∧
      Alternate "head" ["left", "right"]
        ["entry", "head", "mid", "left", "head", "right", "out"] := by
  have hRead : (Func.parse ("func @f(%x, %c) \x7b\nentry:\nbr %c, head, out\n" ++
      "head:\ncall @inc(%x)\nbr %c, mid, right\nmid:\ncall @dec(%c)\ngoto left\n" ++
      "left:\ncall @dec(%x)\nbr %c, head, out\nright:\ncall @dec(%x)\ngoto out\n" ++
      "out:\nret\n\x7d\n")).toOption = some unevenArms := by
    decide +kernel
  have hParsed : unevenArms.IsParsed := isParsed_of_toOption hRead
  have hLinked : unevenArms.Linked := hParsed.wellFormed.toLinked
  have hNone : reachesAvoiding unevenArms.graph ["entry"] ["left", "right"] (some "head") =
      false := by
    decide +kernel
  have hSound : ∀ a ∈ unevenArms.labels, ∀ b ∈ unevenArms.labels, a ≠ b →
      (a == "head" && ["left", "right"].contains b) = true →
        ∀ p, unevenArms.FromEntry b p → a ∈ p := by
    rintro a _ b _ _ hSays p ⟨entry, hEntry, hPath⟩
    rw [Bool.and_eq_true, beq_iff_eq, List.contains_iff_mem] at hSays
    obtain ⟨rfl, hb⟩ := hSays
    obtain rfl : "entry" = entry := Option.some.inj hEntry
    cases hPath with
    | single => exact absurd hb (by decide)
    | step edge rest =>
        exact List.mem_cons_of_mem _ (mem_of_reachesAvoiding hLinked.closed
          (hLinked.singleton_subset (by decide)) hNone "entry" (by decide) _ edge b hb _ rest)
  have hFound : Fanout.blocks? unevenArms.graph (armsOptions 3)
      ⟨fun a b => a == "head" && ["left", "right"].contains b, fun _ _ => true⟩
        (unevenArms.liveDecrefs (armsOptions 3).symbols [armsDecref]) armsIncref =
          some ["left", "right"] := by
    decide +kernel
  have hPath : unevenArms.FromEntry "out"
      ["entry", "head", "mid", "left", "head", "right", "out"] := by
    refine ⟨"entry", rfl, ?_⟩
    exact .step (by decide) (.step (by decide) (.step (by decide) (.step (by decide)
      (.step (by decide) (.step (by decide) (.single _))))))
  exact ⟨_, hParsed, hSound, hFound, hPath, ⟨by decide, by decide⟩,
    ((blocks?_alternate hParsed hSound (armsOptions 3) [armsDecref] armsIncref hFound).2.2.2.2
      _ _ hPath).1⟩

end Func

end RefElision
