import RefElision.Proofs.Refs.Counting
import RefElision.Proofs.Refs.Delays
import RefElision.Refs.Pipeline

/-! The passes keep the balance: along every path that runs from the entry to a return, the
count of every value but null changes by as much after a pass as before it. -/
namespace RefElision

/-- An oracle that is sound for a function stays so if only bodies of blocks change. -/
theorem Oracle.SoundFor.mapBlocks {oracle : Oracle} {f : Func} {change : Block → Block}
    (hSound : oracle.SoundFor f) (hBody : Block.BodyOnly change) :
    oracle.SoundFor (f.mapBlocks change) := by
  constructor
  case dominates =>
    rw [Func.labels_mapBlocks hBody, Func.fromEntry_mapBlocks hBody]
    exact hSound.dominates
  case postDominates =>
    rw [Func.labels_mapBlocks hBody, Func.toReturn_mapBlocks hBody]
    exact hSound.postDominates

theorem Symbols.net_perm {s : Symbols} {v : Value} {xs ys : List Instr} (h : xs.Perm ys) :
    s.net v xs = s.net v ys :=
  (h.map _).sum_eq

namespace Func

variable {f : Func} {o : Options}

/-- Delaying decrefs within blocks keeps the count along every path. -/
theorem netCount_normalize (v : Value) (p : List Label) :
    (f.normalize o).func.netCount o.symbols v p = f.netCount o.symbols v p := by
  apply Symbols.net_perm
  apply List.Perm.flatMap_left
  intro l _
  rw [bodyAt_normalize]
  exact (Normalize.delays_normalBody (f.bodyAt l)).perm.symm

/-- Normalizing, pruning, and normalizing followed by pruning keep the count of every value
but null along every path from the entry to a return, for any oracle that is sound. -/
theorem netCount_preserved (hParsed : f.IsParsed) (o : Options) {oracle : Oracle}
    (hSound : oracle.SoundFor f) {last : Label} {p : List Label} (hPath : f.FromEntry last p)
    (hReturns : f.Returns last) {v : Value} (hv : v.isNull = false) :
    (f.normalize o).func.netCount o.symbols v p = f.netCount o.symbols v p ∧
      (f.prune o oracle).func.netCount o.symbols v p = f.netCount o.symbols v p ∧
      ((f.normalize o).andThen fun g => g.prune o oracle).func.netCount o.symbols v p =
        f.netCount o.symbols v p := by
  have h : f.Linked := hParsed.wellFormed.toLinked
  have hTags : f.tags.Nodup := hParsed.tags_nodup
  have hBody := Normalize.bodyOnly_normalBlock o.symbols
  refine ⟨netCount_normalize v p, netCount_prune h hTags hSound hv hPath hReturns, ?_⟩
  have hTagsAfter : (f.normalize o).func.tags.Nodup := tags_normalize_perm.nodup_iff.mpr hTags
  have hPathAfter : (f.normalize o).func.FromEntry last p := by
    rw [normalize_func, fromEntry_mapBlocks hBody]
    exact hPath
  have hReturnsAfter : (f.normalize o).func.Returns last := by
    rw [normalize_func, Returns, labels_mapBlocks hBody, graph_mapBlocks hBody]
    exact hReturns
  calc ((f.normalize o).andThen fun g => g.prune o oracle).func.netCount o.symbols v p
      = ((f.normalize o).func.prune o oracle).func.netCount o.symbols v p := rfl
    _ = (f.normalize o).func.netCount o.symbols v p :=
        netCount_prune h.normalize hTagsAfter (hSound.mapBlocks hBody) hv hPathAfter hReturnsAfter
    _ = f.netCount o.symbols v p := netCount_normalize v p

/-- The incref in a loop is fanned out to the two ways on. The path goes round once. -/
theorem netCount_preserved_loop :
    ∃ (f : Func) (oracle : Oracle) (p : List Label), f.IsParsed ∧ oracle.SoundFor f ∧
      p = ["entry", "head", "left", "head", "right", "out"] ∧ f.FromEntry "out" p ∧
      f.Returns "out" ∧ (Value.var "x").isNull = false ∧
      (f.normalize {}).func.netCount ⟨"NRT_incref", "NRT_decref"⟩ (.var "x") p =
        f.netCount ⟨"NRT_incref", "NRT_decref"⟩ (.var "x") p ∧
      (f.prune {} oracle).func.netCount ⟨"NRT_incref", "NRT_decref"⟩ (.var "x") p =
        f.netCount ⟨"NRT_incref", "NRT_decref"⟩ (.var "x") p ∧
      ((f.normalize {}).andThen fun g => g.prune {} oracle).func.netCount
          ⟨"NRT_incref", "NRT_decref"⟩ (.var "x") p =
        f.netCount ⟨"NRT_incref", "NRT_decref"⟩ (.var "x") p := by
  have hView : (Func.parse ("func @f(%x, %c) \x7b\nentry:\ngoto head\n" ++
      "head:\ncall @NRT_incref(%x)\nbr %c, left, right\n" ++
      "left:\ncall @NRT_decref(%x)\nbr %c, head, out\n" ++
      "right:\ncall @NRT_decref(%x)\ngoto out\nout:\nret\n\x7d\n")).toOption.map
        (fun f => (f.labels, f.labels.map f.graph.succ)) =
      some (["entry", "head", "left", "right", "out"],
        [["head"], ["left", "right"], ["head", "out"], ["out"], []]) := by
    decide +kernel
  obtain ⟨f, hParse, hEq⟩ := exists_parse hView
  obtain ⟨hLabels, hSucc⟩ := Prod.mk.inj hEq
  simp only [hLabels, List.map_cons, List.map_nil, List.cons.injEq, and_true] at hSucc
  obtain ⟨hEntry, hHead, hLeft, hRight, hOut⟩ := hSucc
  have hParsed : f.IsParsed := ⟨_, hParse⟩
  have hSound := hParsed.wellFormed.toLinked.compute_sound .lengauerTarjan
  have hPath : f.FromEntry "out" ["entry", "head", "left", "head", "right", "out"] := by
    refine ⟨"entry", by simp [hLabels, entry?], ?_⟩
    exact .step (by simp [hEntry]) (.step (by simp [hHead]) (.step (by simp [hLeft])
      (.step (by simp [hHead]) (.step (by simp [hRight]) (.single _)))))
  have hReturns : f.Returns "out" := ⟨by simp [hLabels], hOut⟩
  exact ⟨f, _, _, hParsed, hSound, rfl, hPath, hReturns, rfl,
    netCount_preserved hParsed {} hSound hPath hReturns rfl⟩

end Func

end RefElision
