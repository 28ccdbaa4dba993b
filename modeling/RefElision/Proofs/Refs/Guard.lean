import RefElision.Proofs.Dominance.Exactness
import RefElision.Proofs.Graph.Alternation
import RefElision.Proofs.Refs.Crossing

/-! The balance guard. Two searches decide whether a block and one that closes what it opens
take turns on all paths. If a search finds a way around, then a path from the entry to a return
can go that way once more, and it passes one of the two blocks more often than the other. -/
namespace RefElision.Func

variable {f : Func} {a c entry : Label}

theorem Linked.singleton_subset (h : f.Linked) {l : Label} (hl : l ∈ f.labels) :
    [l] ⊆ f.graph.nodes := by
  rw [h.graph_nodes]
  exact List.cons_subset.mpr ⟨hl, List.nil_subset _⟩

/-- If the guard lets two blocks pass, then they take turns. The hypotheses about paths are met
also if there are no such paths. -/
theorem Linked.takeTurns_of_balanced (h : f.Linked) (hEntry : f.entry? = some entry)
    (ha : a ∈ f.labels) (hc : c ∈ f.labels) (hne : a ≠ c)
    (hDom : ∀ p, f.FromEntry c p → a ∈ p) (hPost : ∀ p, f.ToReturn a p → c ∈ p)
    (hBalanced : balanced f.graph a c = true) : TakeTurns f.graph.succ entry a [c] := by
  rw [balanced, Bool.and_eq_true, Bool.not_eq_true', Bool.not_eq_true'] at hBalanced
  constructor
  case distinct => simpa using hne
  case opener_first =>
    intro x hx p hPath
    rw [List.mem_singleton.mp hx] at hPath
    exact hDom p ⟨entry, hEntry, hPath⟩
  case opener_between =>
    exact mem_of_reachesAvoiding h.closed (h.singleton_subset hc) hBalanced.1
  case closer_between =>
    intro t ht q hPath
    refine ⟨c, List.mem_singleton_self _, ?_⟩
    exact mem_of_reachesAvoiding h.closed (h.singleton_subset ha) hBalanced.2 a
      (List.mem_singleton_self _) t ht a (List.mem_singleton_self _) q hPath
  case closer_last =>
    intro z q hPath hEnd
    have hz : z ∈ f.labels := h.path_subset ha hPath hPath.finish_mem
    exact ⟨c, List.mem_singleton_self _, hPost q ⟨z, ⟨hz, hEnd⟩, hPath⟩⟩

/-- What is known of two blocks before the guard is asked: the second is reached from the entry,
but only by way of the first, and a return is reached from the first, but only by way of the
second. -/
structure Encloses (f : Func) (a c : Label) : Prop where
  ne : a ≠ c
  reached : ∃ p, f.FromEntry c p
  dominates : ∀ p, f.FromEntry c p → a ∈ p
  returns : ∃ p, f.ToReturn a p
  postDominates : ∀ p, f.ToReturn a p → c ∈ p

namespace Encloses

variable (h : f.Encloses a c)
include h

theorem fst_reached : ∃ p, f.FromEntry a p := by
  obtain ⟨p, hPath⟩ := h.reached
  exact hPath.exists_of_mem (h.dominates p hPath)

theorem snd_returns : ∃ p, f.ToReturn c p := by
  obtain ⟨p, hPath⟩ := h.returns
  exact hPath.exists_of_mem (h.postDominates p hPath)

theorem mem_labels (hLinked : f.Linked) : a ∈ f.labels ∧ c ∈ f.labels := by
  obtain ⟨p, entry, hEntry, hPath⟩ := h.reached
  have hIn : entry ∈ f.labels := List.mem_of_mem_head? hEntry
  have hSub : p ⊆ f.labels := hLinked.path_subset hIn hPath
  exact ⟨hSub (h.dominates p ⟨entry, hEntry, hPath⟩), hSub hPath.finish_mem⟩

end Encloses

/-- Two blocks are passed equally often on every path from the entry to a return. -/
def PassedEqually (f : Func) (a c : Label) : Prop :=
  ∀ last p, f.FromEntry last p → f.Returns last → p.count a = p.count c

/-- Blocks that are passed equally often are so on a cycle through any block that lies on a way
from the entry to a return. -/
theorem PassedEqually.count_cycle (h : f.PassedEqually a c) {x t : Label} {q : List Label}
    (hReached : ∃ p, f.FromEntry x p) (hReturns : ∃ p, f.ToReturn x p)
    (hEdge : t ∈ f.graph.succ x) (hCycle : Path f.graph.succ t x q) : q.count a = q.count c := by
  obtain ⟨p, entry, hEntry, hFront⟩ := hReached
  obtain ⟨r, last, hLast, hBack⟩ := hReturns
  exact hFront.count_cycle hEdge hCycle hBack fun p hPath => h last p ⟨entry, hEntry, hPath⟩ hLast

/-- No cycle through a block misses another block that is passed equally often. -/
theorem PassedEqually.not_reachesAvoiding (hLinked : f.Linked) {x other : Label}
    (hx : x ∈ f.labels) (hReached : ∃ p, f.FromEntry x p) (hReturns : ∃ p, f.ToReturn x p)
    (h : f.PassedEqually x other) : reachesAvoiding f.graph [x] [x] (some other) = false := by
  by_contra hCycle
  rw [Bool.not_eq_false, reachesAvoiding_iff hLinked.closed (hLinked.singleton_subset hx)] at hCycle
  obtain ⟨y, hy, t, hEdge, z, hz, q, hPath, hAvoid⟩ := hCycle
  obtain rfl := List.mem_singleton.mp hy
  obtain rfl := List.mem_singleton.mp hz
  have hEqual := h.count_cycle hReached hReturns hEdge hPath
  have hMiss : q.count other = 0 := List.count_eq_zero.mpr fun hMem => hAvoid other hMem rfl
  have hPass : 0 < q.count z := List.count_pos_iff.mpr hPath.finish_mem
  omega

/-- The guard is exact for blocks that enclose each other: it lets them pass exactly if they are
passed equally often on every path from the entry to a return, whatever cycles the path goes
around. Then on each such path they take turns, beginning with the first and ending with the
second. -/
theorem balanced_exact (hParsed : f.IsParsed) (h : f.Encloses a c) :
    (balanced f.graph a c = true ↔ f.PassedEqually a c) ∧
    (balanced f.graph a c = true → ∀ last p, f.FromEntry last p → f.Returns last →
      ∃ n, p.filter (fun l => l == a || l == c) = (List.replicate n [a, c]).flatten) := by
  have hLinked : f.Linked := hParsed.wellFormed.toLinked
  obtain ⟨ha, hc⟩ := h.mem_labels hLinked
  have hTurns : balanced f.graph a c = true → ∀ last p, f.FromEntry last p → f.Returns last →
      turns a [c] false p = some false := by
    intro hBalanced last p hPath hReturns
    obtain ⟨entry, hEntry, hPath⟩ := hPath
    exact (hLinked.takeTurns_of_balanced hEntry ha hc h.ne h.dominates h.postDominates
      hBalanced).turns_of_complete hPath hReturns.2
  refine ⟨⟨fun hBalanced last p hPath hReturns => ?_, fun hEqual => ?_⟩,
    fun hBalanced last p hPath hReturns => ?_⟩
  · have hCount := count_of_turns (by simpa using h.ne) (hTurns hBalanced last p hPath hReturns)
    have hCloser : p.countP (· ∈ [c]) = p.count c := by simp [List.count, Bool.beq_eq_decide_eq]
    omega
  · have hSecond : reachesAvoiding f.graph [c] [c] (some a) = false :=
      PassedEqually.not_reachesAvoiding hLinked hc h.reached h.snd_returns
        fun last p hPath hReturns => (hEqual last p hPath hReturns).symm
    have hFirst : reachesAvoiding f.graph [a] [a] (some c) = false :=
      PassedEqually.not_reachesAvoiding hLinked ha h.fst_reached h.returns hEqual
    rw [balanced, hSecond, hFirst]
    rfl
  · obtain ⟨n, hPairs⟩ := filter_of_turns h.ne (hTurns hBalanced last p hPath hReturns)
    exact ⟨n, by simpa using hPairs⟩

/-- Block `b` is a loop between `a` and `c`, which form a loop that `d` and its own loop follow. -/
def nestedLoops : Func where
  name := "f"
  args := ["x"]
  blocks :=
    [⟨1, "a", [], ["c"], .branch (.var "x") "b" "c"⟩,
      ⟨2, "b", [], ["a", "b"], .branch (.var "x") "b" "c"⟩,
      ⟨3, "c", [], ["a", "b"], .branch (.var "x") "a" "d"⟩,
      ⟨4, "d", [], ["c", "d"], .branch (.var "x") "d" "out"⟩, ⟨5, "out", [], ["d"], .ret []⟩]

/-- Blocks `a` and `c` pass the guard. Blocks `a` and `d` do not, and indeed are not passed
equally often. -/
theorem balanced_exact_nestedLoops :
    nestedLoops.IsParsed ∧ nestedLoops.Encloses "a" "c" ∧
      balanced nestedLoops.graph "a" "c" = true ∧ nestedLoops.PassedEqually "a" "c" ∧
      nestedLoops.Encloses "a" "d" ∧ balanced nestedLoops.graph "a" "d" = false ∧
      ¬ nestedLoops.PassedEqually "a" "d" := by
  have hRead : (Func.parse ("func @f(%x) \x7b\na:\nbr %x, b, c\nb:\nbr %x, b, c\n" ++
      "c:\nbr %x, a, d\nd:\nbr %x, d, out\nout:\nret\n\x7d\n")).toOption =
        some nestedLoops := by
    decide +kernel
  have hParsed : nestedLoops.IsParsed := isParsed_of_toOption hRead
  have hLinked : nestedLoops.Linked := hParsed.wellFormed.toLinked
  have hEncloses : ∀ l, "a" ≠ l → (∃ p, nestedLoops.FromEntry l p) →
      reachesAvoiding nestedLoops.graph ["a"] ["out"] (some l) = false →
        nestedLoops.Encloses "a" l := by
    intro l hne hReached hNone
    refine ⟨hne, hReached, fun p hPath => ?_, ⟨["a", "c", "d", "out"], "out", ?_, ?_⟩, ?_⟩
    · obtain ⟨entry, hEntry, hPath⟩ := hPath
      obtain rfl : "a" = entry := Option.some.inj hEntry
      exact hPath.start_mem
    · exact ⟨by decide, by decide⟩
    · exact .step (by decide) (.step (by decide) (.step (by decide) (.single _)))
    · intro p hPath
      obtain ⟨last, ⟨hLast, hEnd⟩, hPath⟩ := hPath
      have hOut : last = "out" := (show ∀ l ∈ nestedLoops.labels, nestedLoops.graph.succ l = [] →
        l = "out" by decide) last hLast hEnd
      cases hPath with
      | single => exact absurd hOut (by decide)
      | step edge rest =>
          exact List.mem_cons_of_mem _ (mem_of_reachesAvoiding hLinked.closed
            (hLinked.singleton_subset (by decide)) hNone "a" (by decide) _ edge "out" (by decide)
            _ (hOut ▸ rest))
  have hToC : nestedLoops.FromEntry "c" ["a", "c"] := ⟨"a", rfl, .step (by decide) (.single _)⟩
  have hToD : nestedLoops.FromEntry "d" ["a", "c", "d"] :=
    ⟨"a", rfl, .step (by decide) (.step (by decide) (.single _))⟩
  have hFirst : nestedLoops.Encloses "a" "c" := hEncloses "c" (by decide) ⟨_, hToC⟩ (by decide +kernel)
  have hSecond : nestedLoops.Encloses "a" "d" := hEncloses "d" (by decide) ⟨_, hToD⟩ (by decide +kernel)
  have hPasses : balanced nestedLoops.graph "a" "c" = true := by decide +kernel
  have hFails : balanced nestedLoops.graph "a" "d" = false := by decide +kernel
  refine ⟨hParsed, hFirst, hPasses, (balanced_exact hParsed hFirst).1.mp hPasses, hSecond, hFails,
    fun hEqual => ?_⟩
  have hPassesToo := (balanced_exact hParsed hSecond).1.mpr hEqual
  rw [hFails] at hPassesToo
  cases hPassesToo

end RefElision.Func
