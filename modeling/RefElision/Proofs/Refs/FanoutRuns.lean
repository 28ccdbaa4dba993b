import RefElision.Proofs.Graph.WalkRuns
import RefElision.Proofs.Refs.FanoutPaths

/-! The walk from an incref, step by step. A block that has been left may be entered again on
another path, so there can be many more steps than blocks. Their number is bounded all the same,
and the bound has nothing to do with the depth. -/
namespace RefElision.Func

variable (f : Func) (o : Options) (consumed : List RefOp) (incref : RefOp)

/-- The walk from an incref is in a state after some number of steps. -/
def FanoutRun (w : Walk Label) (n : Nat) : Prop :=
  Walk.RunsFor f.graph
    (fun l => (relatedDecref? (f.liveDecrefs o.symbols consumed) l incref).isSome)
    (fun length => o.canExpand (Int64.ofNat length)) (.start f.graph incref.block) w n

/-- The walk from an incref ends in a state with an answer. -/
def FanoutEnds (w : Walk Label) (answer : Option (List Label)) : Prop :=
  w.Ends f.graph (fun l => (relatedDecref? (f.liveDecrefs o.symbols consumed) l incref).isSome)
    (fun length => o.canExpand (Int64.ofNat length)) answer

/-- A bound on the steps of a walk that leaves a block. -/
def walkBound : Nat :=
  Walk.cost f.graph.maxDegree f.graph.nodes.length

theorem weight_start_le_walkBound (l : Label) :
    Walk.weight f.graph (Walk.start f.graph l).frames (Walk.start f.graph l).onPath ≤
      f.walkBound := by
  by_cases hNode : l ∈ f.graph.nodes
  case pos => exact Walk.weight_start_le hNode
  case neg =>
    have hPositive := Walk.cost_pos f.graph.maxDegree f.graph.nodes.length
    simp only [Walk.start, Walk.weight, succ_eq_nil hNode, List.length_nil, walkBound]
    omega

/-- The stack is a trail from the block of the incref at all times. -/
theorem FanoutRun.trail {f : Func} {o : Options} {consumed : List RefOp} {incref : RefOp}
    {w : Walk Label} {n : Nat} (run : f.FanoutRun o consumed incref w n) :
    Walk.Trail f.graph incref.block w :=
  Walk.RunsFor.keeps run (fun _ _ hStep hTrail => hTrail.step hStep) (.start _ _)

/-- Whatever the depth, the walk from an incref ends within a number of steps that is told by
the function's edges alone, and with the answer that the search gives if it starts a walk at all.
After any number of steps the blocks on the stack are distinct, they form a path from the block
of the incref, and they are the members of the set of blocks that the walk may not come back
to. -/
theorem nearest?_walk_ends :
    (∃ n last answer, n ≤ f.walkBound ∧ f.FanoutRun o consumed incref last n ∧
      f.FanoutEnds o consumed incref last answer ∧
      (f.graph.succ incref.block ≠ [] → 2 ≤ o.fanoutDepth.toInt →
        Fanout.nearest? f.graph o (f.liveDecrefs o.symbols consumed) incref = answer)) ∧
    ∀ n w, f.FanoutRun o consumed incref w n →
      n ≤ f.walkBound ∧ w.path.Nodup ∧
      (w.path ≠ [] → ∃ last, Path f.graph.succ incref.block last w.path.reverse) ∧
      ∀ l, l ∈ w.onPath ↔ l ∈ w.path := by
  have hBound : ∀ n w, f.FanoutRun o consumed incref w n → n ≤ f.walkBound := by
    intro n w hRun
    have hWeight := Walk.RunsFor.weight_le hRun
    have hStart := f.weight_start_le_walkBound incref.block
    omega
  constructor
  · obtain ⟨n, last, hRun, hEnds⟩ := Walk.exists_end f.graph
      (fun l => (relatedDecref? (f.liveDecrefs o.symbols consumed) l incref).isSome)
      (fun length => o.canExpand (Int64.ofNat length)) (.start f.graph incref.block)
    refine ⟨n, last, _, hBound n last hRun, hRun, hEnds, fun hOn hDepth => ?_⟩
    have hExpands : o.canExpand (Int64.ofNat 0) = true :=
      (o.canExpand_ofNat (by decide)).mpr (by omega)
    rw [Fanout.nearest?, Walk.resolve, isEnd_graph.mpr hOn, hExpands]
    rfl
  · intro n w hRun
    have hTrail := hRun.trail
    refine ⟨hBound n w hRun, hTrail.nodup, fun hSome => ?_, fun l => by rw [hTrail.onPath_eq]⟩
    refine hTrail.leads.resolve_left fun hNone => hSome ?_
    rw [Walk.path, hNone, List.map_nil]

/-- Two ways lead from the incref in `head` to `join` and on to two decrefs. Behind one of these
there is a way back. -/
def rejoined : Func where
  name := "f"
  args := ["x", "c"]
  blocks :=
    [⟨1, "head", [⟨1, none, .call "inc", [.var "x"]⟩], ["back"], .branch (.var "c") "left" "right"⟩,
      ⟨2, "left", [], ["head"], .jump "join"⟩,
      ⟨3, "right", [], ["head"], .jump "join"⟩,
      ⟨4, "join", [], ["left", "right"], .branch (.var "c") "back" "out"⟩,
      ⟨5, "back", [⟨5, none, .call "dec", [.var "x"]⟩], ["join"], .jump "head"⟩,
      ⟨6, "out", [⟨7, none, .call "dec", [.var "x"]⟩], ["join"], .ret []⟩]

def rejoinedIncref : RefOp :=
  ⟨.incref, .var "x", ⟨1, none, .call "inc", [.var "x"]⟩, "head", 0⟩

/-- With the largest depth, block `join` is on the stack after two steps and, having been left,
once more after eight. -/
theorem nearest?_walk_ends_rejoined :
    rejoined.IsParsed ∧
    rejoinedIncref ∈ (RefOps.ofFunc (armsOptions Int64.maxValue).symbols rejoined).increfs ∧
    (∃ w, rejoined.FanoutRun (armsOptions Int64.maxValue) [] rejoinedIncref w 2 ∧
      w.path = ["join", "left", "head"] ∧ w.path.Nodup) ∧
    (∃ w, rejoined.FanoutRun (armsOptions Int64.maxValue) [] rejoinedIncref w 8 ∧
      w.path = ["join", "right", "head"] ∧ w.path.Nodup ∧ (∀ l, l ∈ w.onPath ↔ l ∈ w.path)) ∧
    ∃ n last, n ≤ rejoined.walkBound ∧
      rejoined.FanoutRun (armsOptions Int64.maxValue) [] rejoinedIncref last n ∧
      rejoined.FanoutEnds (armsOptions Int64.maxValue) [] rejoinedIncref last
        (some ["back", "out"]) := by
  have hRead : (Func.parse ("func @f(%x, %c) \x7b\nhead:\ncall @inc(%x)\nbr %c, left, right\n" ++
      "left:\ngoto join\nright:\ngoto join\njoin:\nbr %c, back, out\n" ++
      "back:\ncall @dec(%x)\ngoto head\nout:\ncall @dec(%x)\nret\n\x7d\n")).toOption =
        some rejoined := by
    decide +kernel
  have hFirst : ∃ w, rejoined.FanoutRun (armsOptions Int64.maxValue) [] rejoinedIncref w 2 ∧
      w.path = ["join", "left", "head"] :=
    ⟨_, .succ rfl (.succ rfl (.zero _)), rfl⟩
  have hAgain : ∃ w, rejoined.FanoutRun (armsOptions Int64.maxValue) [] rejoinedIncref w 8 ∧
      w.path = ["join", "right", "head"] :=
    ⟨_, .succ rfl (.succ rfl (.succ rfl (.succ rfl (.succ rfl (.succ rfl (.succ rfl (.succ rfl
      (.zero _)))))))), rfl⟩
  have hFound : Fanout.nearest? rejoined.graph (armsOptions Int64.maxValue)
      (rejoined.liveDecrefs (armsOptions Int64.maxValue).symbols []) rejoinedIncref =
        some ["back", "out"] := by
    decide +kernel
  obtain ⟨⟨n, last, answer, hBound, hRun, hEnds, hAnswer⟩, hStates⟩ :=
    nearest?_walk_ends rejoined (armsOptions Int64.maxValue) [] rejoinedIncref
  obtain rfl : some ["back", "out"] = answer :=
    hFound.symm.trans (hAnswer (by decide) (by decide))
  obtain ⟨v, hv, hvPath⟩ := hFirst
  obtain ⟨w, hw, hwPath⟩ := hAgain
  refine ⟨isParsed_of_toOption hRead, by decide, ⟨v, hv, hvPath, (hStates 2 v hv).2.1⟩,
    ⟨w, hw, hwPath, (hStates 8 w hw).2.1, (hStates 8 w hw).2.2.2⟩, n, last, hBound, hRun, hEnds⟩

end RefElision.Func
