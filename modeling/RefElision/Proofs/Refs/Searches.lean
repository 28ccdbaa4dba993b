import RefElision.Proofs.Program.Reading
import RefElision.Proofs.Refs.Crossing
import RefElision.Proofs.Refs.Operations

/-! The searches between blocks are exact: what they answer is what the paths of the function
tell, whatever cycles there are and whichever decrefs are consumed. -/
namespace RefElision.Func

variable {f : Func} {s : Symbols} {consumed : List RefOp} {l : Label} {v : Value}

/-- The decrefs that are not consumed. Those on null are never listed. -/
def liveDecrefs (f : Func) (s : Symbols) (consumed : List RefOp) : List RefOp :=
  (RefOps.ofFunc s f).decrefs.filter fun d => d ∉ consumed

/-- In the body of the block stands a decref of the value that is not consumed. The value is
not null. -/
def HoldsLive (f : Func) (s : Symbols) (consumed : List RefOp) (l : Label) (v : Value) : Prop :=
  v.isNull = false ∧ ∃ b ∈ f.blocks, b.label = l ∧ ∃ position instr,
    b.body[position]? = some instr ∧ s.classify instr = some (.decref, v) ∧
      ⟨.decref, v, instr, l, position⟩ ∉ consumed

theorem holdsLive_iff :
    f.HoldsLive s consumed l v ↔ ∃ d ∈ f.liveDecrefs s consumed, d.block = l ∧ d.value = v := by
  simp only [liveDecrefs, List.mem_filter, decide_eq_true_eq, RefOps.mem_decrefs, RefOp.mem_ofFunc]
  constructor
  · rintro ⟨hNull, b, hb, rfl, position, instr, hBody, hClassify, hLive⟩
    exact ⟨⟨.decref, v, instr, b.label, position⟩,
      ⟨⟨⟨b, hb, rfl, hBody, hClassify⟩, rfl, hNull⟩, hLive⟩, rfl, rfl⟩
  · rintro ⟨⟨kind, value, instr, block, position⟩,
      ⟨⟨⟨b, hb, hBlock, hBody, hClassify⟩, rfl, hNull⟩, hLive⟩, rfl, rfl⟩
    exact ⟨hNull, b, hb, hBlock.symm, position, instr, hBody, hClassify, hLive⟩

theorem exists_holdsLive_iff :
    (∃ v, f.HoldsLive s consumed l v) ↔ ∃ d ∈ f.liveDecrefs s consumed, d.block = l := by
  simp only [holdsLive_iff]
  constructor
  · rintro ⟨_, d, hd, hBlock, _⟩
    exact ⟨d, hd, hBlock⟩
  · rintro ⟨d, hd, hBlock⟩
    exact ⟨d.value, d, hd, hBlock, rfl⟩

/-- The search for a decref in between succeeds exactly if some path leaves the head, misses all
tails from then on, and ends in a block that holds a live decref. The path may come back to the
head if that is no tail. -/
theorem decrefBetween_exact (hParsed : f.IsParsed) (s : Symbols) (consumed : List RefOp)
    (head : Label) (tails : List Label) :
    decrefBetween f.graph (f.liveDecrefs s consumed) head tails = true ↔
      ∃ last p, p ≠ [] ∧ Path f.graph.succ head last (head :: p) ∧ (∀ l ∈ p, l ∉ tails) ∧
        ∃ v, f.HoldsLive s consumed last v := by
  have hLinked : f.Linked := hParsed.wellFormed.toLinked
  by_cases hHead : head ∈ f.graph.nodes
  case pos =>
    rw [decrefBetween_iff hLinked.closed hHead]
    simp only [exists_holdsLive_iff]
    constructor
    · rintro ⟨t, ht, q, last, hPath, hMiss, hLive⟩
      exact ⟨last, q, hPath.ne_nil, .step ht hPath, hMiss, hLive⟩
    · rintro ⟨last, p, hne, hPath, hMiss, hLive⟩
      obtain ⟨t, ht, hRest⟩ := hPath.tail hne
      exact ⟨t, ht, p, last, hRest, hMiss, hLive⟩
  case neg =>
    -- What is no block has no way on, so there is nothing to search and no such path.
    have hNone : f.graph.succ head = [] := succ_eq_nil hHead
    have hFails : decrefBetween f.graph (f.liveDecrefs s consumed) head tails = false := by
      simp [decrefBetween, Digraph.reachBeyond, Digraph.reach, Digraph.gather,
        Digraph.search_of_nil, hNone]
    rw [hFails]
    constructor
    · exact fun hFalse => (Bool.false_ne_true hFalse).elim
    · rintro ⟨last, p, hne, hPath, _⟩
      obtain ⟨t, ht, _⟩ := hPath.tail hne
      rw [hNone] at ht
      cases ht

/-- Block `loop` lies on a cycle through `head` and holds a decref. -/
def sideLoop : Func where
  name := "f"
  args := ["x", "c"]
  blocks :=
    [⟨1, "entry", [], [], .branch (.var "c") "head" "out"⟩,
      ⟨2, "head", [], ["entry", "loop"], .branch (.var "c") "loop" "out"⟩,
      ⟨3, "loop", [⟨3, none, .call "NRT_decref", [.var "x"]⟩], ["head"], .jump "head"⟩,
      ⟨4, "out", [⟨5, none, .call "NRT_decref", [.var "x"]⟩], ["entry", "head"], .ret []⟩]

/-- The decref in the loop is met before the tail. Once it is consumed there is none. -/
theorem decrefBetween_exact_sideLoop :
    sideLoop.IsParsed ∧
      decrefBetween sideLoop.graph (sideLoop.liveDecrefs ⟨"NRT_incref", "NRT_decref"⟩ []) "head"
        ["out"] = true ∧
      ¬ ∃ last p, p ≠ [] ∧ Path sideLoop.graph.succ "head" last ("head" :: p) ∧
        (∀ l ∈ p, l ∉ ["out"]) ∧ ∃ v, sideLoop.HoldsLive ⟨"NRT_incref", "NRT_decref"⟩
          [⟨.decref, .var "x", ⟨3, none, .call "NRT_decref", [.var "x"]⟩, "loop", 0⟩] last v := by
  have hRead : (Func.parse ("func @f(%x, %c) \x7b\nentry:\nbr %c, head, out\n" ++
      "head:\nbr %c, loop, out\nloop:\ncall @NRT_decref(%x)\ngoto head\n" ++
      "out:\ncall @NRT_decref(%x)\nret\n\x7d\n")).toOption = some sideLoop := by
    decide +kernel
  have hParsed : sideLoop.IsParsed := isParsed_of_toOption hRead
  have hPath : Path sideLoop.graph.succ "head" "loop" ["head", "loop"] :=
    .step (by decide) (.single _)
  have hHolds : sideLoop.HoldsLive ⟨"NRT_incref", "NRT_decref"⟩ [] "loop" (.var "x") :=
    ⟨rfl, _, .tail _ (.tail _ (.head _)), rfl, 0, _, rfl, rfl, by simp⟩
  have hNone : decrefBetween sideLoop.graph (sideLoop.liveDecrefs ⟨"NRT_incref", "NRT_decref"⟩
      [⟨.decref, .var "x", ⟨3, none, .call "NRT_decref", [.var "x"]⟩, "loop", 0⟩]) "head"
        ["out"] = false := by
    decide +kernel
  refine ⟨hParsed, (decrefBetween_exact hParsed _ _ _ _).mpr
    ⟨"loop", ["loop"], by decide, hPath, by decide, _, hHolds⟩, ?_⟩
  rw [← decrefBetween_exact hParsed, hNone]
  exact Bool.false_ne_true

theorem Linked.reachesAvoiding_iff_path (h : f.Linked) (sources targets : List Label)
    (avoid : Option Label) :
    reachesAvoiding f.graph sources targets avoid = true ↔
      ∃ x ∈ sources, ∃ y ∈ targets, ∃ p, p ≠ [] ∧ Path f.graph.succ x y (x :: p) ∧
        ∀ l ∈ p, avoid ≠ some l := by
  have hEnds : ∀ x, decide (x ∈ f.graph.nodes) = false → f.graph.succ x = [] := fun _ hx =>
    succ_eq_nil (of_decide_eq_false hx)
  have hBlocks : reachesAvoiding f.graph sources targets avoid =
      reachesAvoiding f.graph (sources.filter (· ∈ f.graph.nodes)) targets avoid := by
    rw [reachesAvoiding, reachesAvoiding, Digraph.reachBeyond_filter hEnds]
  have hSub : sources.filter (· ∈ f.graph.nodes) ⊆ f.graph.nodes := fun x hx =>
    of_decide_eq_true (List.mem_filter.mp hx).2
  rw [hBlocks, reachesAvoiding_iff h.closed hSub]
  constructor
  · rintro ⟨x, hx, t, ht, y, hy, p, hPath, hAvoid⟩
    exact ⟨x, (List.mem_filter.mp hx).1, y, hy, p, hPath.ne_nil, .step ht hPath, hAvoid⟩
  · rintro ⟨x, hx, y, hy, p, hne, hPath, hAvoid⟩
    obtain ⟨t, ht, hRest⟩ := hPath.tail hne
    have hBlock : x ∈ sources.filter (· ∈ f.graph.nodes) :=
      List.mem_filter.mpr ⟨hx, decide_eq_true (mem_nodes_of_succ ht)⟩
    exact ⟨x, hBlock, t, ht, y, hy, p, hRest, hAvoid⟩

/-- The search around a block succeeds exactly if some path leaves a source and leads to a target
by at least one edge without coming to the block that is avoided. The source itself may be that
block. A target that is that block is never reached, so it makes no difference. -/
theorem reachesAvoiding_exact (hParsed : f.IsParsed) (sources targets : List Label)
    (avoid : Option Label) :
    (reachesAvoiding f.graph sources targets avoid = true ↔
      ∃ x ∈ sources, ∃ y ∈ targets, ∃ p, p ≠ [] ∧ Path f.graph.succ x y (x :: p) ∧
        ∀ l ∈ p, avoid ≠ some l) ∧
    reachesAvoiding f.graph sources (targets.filter fun y => avoid ≠ some y) avoid =
      reachesAvoiding f.graph sources targets avoid := by
  have hPaths := hParsed.wellFormed.toLinked.reachesAvoiding_iff_path
  refine ⟨hPaths sources targets avoid, ?_⟩
  rw [Bool.eq_iff_iff, hPaths, hPaths]
  constructor
  · rintro ⟨x, hx, y, hy, hPath⟩
    exact ⟨x, hx, y, (List.mem_filter.mp hy).1, hPath⟩
  · rintro ⟨x, hx, y, hy, p, hne, hPath, hAvoid⟩
    obtain ⟨t, _, hRest⟩ := hPath.tail hne
    have hKept : y ∈ targets.filter fun y => avoid ≠ some y :=
      List.mem_filter.mpr ⟨hy, decide_eq_true (hAvoid y hRest.finish_mem)⟩
    exact ⟨x, hx, y, hKept, p, hne, hPath, hAvoid⟩

/-- Blocks `a` and `b` form a cycle that `out` follows. -/
def twoCycle : Func where
  name := "f"
  args := ["x"]
  blocks :=
    [⟨1, "a", [], ["b"], .branch (.var "x") "b" "out"⟩, ⟨2, "b", [], ["a"], .jump "a"⟩,
      ⟨3, "out", [], ["a"], .ret []⟩]

/-- The search may start at the block that is avoided, but does not come back to it. -/
theorem reachesAvoiding_exact_twoCycle :
    twoCycle.IsParsed ∧ Path twoCycle.graph.succ "a" "a" ["a", "b", "a"] ∧
      reachesAvoiding twoCycle.graph ["a"] ["a"] (some "a") = false ∧
      reachesAvoiding twoCycle.graph ["a"] ["a", "b"] (some "a") = true := by
  have hRead : (Func.parse ("func @f(%x) \x7b\na:\nbr %x, b, out\nb:\ngoto a\n" ++
      "out:\nret\n\x7d\n")).toOption = some twoCycle := by
    decide +kernel
  have hParsed : twoCycle.IsParsed := isParsed_of_toOption hRead
  have hEdge : Path twoCycle.graph.succ "a" "b" ["a", "b"] := .step (by decide) (.single _)
  refine ⟨hParsed, hEdge.concat (by decide), ?_, ?_⟩
  · rw [← Bool.not_eq_true, (reachesAvoiding_exact hParsed _ _ _).1]
    rintro ⟨x, _, y, hy, p, hne, hPath, hAvoid⟩
    obtain ⟨t, _, hRest⟩ := hPath.tail hne
    exact hAvoid y hRest.finish_mem (by rw [List.mem_singleton.mp hy])
  · exact (reachesAvoiding_exact hParsed _ _ _).1.mpr
      ⟨"a", by decide, "b", by decide, ["b"], by decide, hEdge, by decide⟩

end RefElision.Func
