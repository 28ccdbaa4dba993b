import RefElision.Proofs.Refs.NormalForm
import RefElision.Proofs.Refs.Survivors

/-! What pruning leaves in a block. An incref that is left found no partner, so there is no
decref of its value behind it. In a block in normal form there is none before it either. -/
namespace RefElision

/-- No incref stands before a decref of the same value. -/
def Symbols.Unpairable (s : Symbols) (body : List Instr) : Prop :=
  body.Pairwise fun i j => ∀ v, s.classify i = some (.incref, v) → s.classify j ≠ some (.decref, v)

/-- In normal form a body has no incref and decref of the same value at all. -/
theorem Symbols.Unpairable.apart {s : Symbols} {body : List Instr} (h : s.Unpairable body)
    (hNormal : Normalize.IsNormal s body) {i j : Instr} (hi : i ∈ body) (hj : j ∈ body) {v : Value}
    (hIncref : s.classify i = some (.incref, v)) : s.classify j ≠ some (.decref, v) := by
  obtain ⟨p, hp, rfl⟩ := List.getElem_of_mem hi
  obtain ⟨q, hq, rfl⟩ := List.getElem_of_mem hj
  intro hDecref
  -- pruning rules out one order of the two and the normal form the other one
  rcases Nat.lt_trichotomy p q with hBefore | rfl | hBehind
  · exact List.pairwise_iff_getElem.mp h p q hp hq hBefore v hIncref hDecref
  · rw [hIncref] at hDecref
    cases hDecref
  · have hFirst : s.isDecref body[q] = true := by simp [isDecref, hDecref]
    have hNot := List.pairwise_iff_getElem.mp hNormal q p hq hp hBehind hFirst
    simp [isIncref, hIncref] at hNot

namespace Func

variable {f : Func} {o : Options} {oracle : Oracle}

/-- An incref that is left found no partner. -/
theorem unpaired_of_kept {i : RefOp} (hi : i ∈ (RefOps.ofFunc o.symbols f).increfs)
    (hKept : i ∉ f.removedOps o oracle) : i ∈ (f.pairing o oracle).unpaired := by
  have hParts := (pairing_paired f o oracle).increfs_perm.mem_iff.mpr hi
  rcases List.mem_append.mp hParts with hPair | hUnpaired
  · obtain ⟨⟨i, d⟩, hMem, rfl⟩ := List.mem_map.mp hPair
    exact (hKept (mem_removedOps_of_pair hMem).1).elim
  · exact hUnpaired

/-- Of an incref and a decref of the same value behind it in its block one is removed, whatever
the oracle says. -/
theorem removed_of_behind {i e : RefOp} (hi : i ∈ RefOp.ofFunc o.symbols f)
    (hIncref : i.kind = .incref) (he : e ∈ RefOp.ofFunc o.symbols f) (hDecref : e.kind = .decref)
    (hValue : e.value = i.value) (hBlock : e.block = i.block) (hLess : i.position < e.position) :
    i ∈ f.removedOps o oracle ∨ e ∈ f.removedOps o oracle := by
  by_contra hNeither
  obtain ⟨hKeptI, hKeptE⟩ := not_or.mp hNeither
  have hCounted : i.value.isNull = false := by
    rw [← Bool.not_eq_true]
    exact fun hNull => hKeptI (List.mem_append_left _ (RefOps.mem_null.mpr ⟨hi, hNull⟩))
  have hUnpaired : i ∈ (f.pairing o oracle).unpaired :=
    unpaired_of_kept (RefOps.mem_increfs.mpr ⟨hi, hIncref, hCounted⟩) hKeptI
  have hSurvives : f.Survives o oracle e :=
    ⟨RefOps.mem_decrefs.mpr ⟨he, hDecref, hValue ▸ hCounted⟩, hKeptE⟩
  exact not_behind_of_unpaired hUnpaired hSurvives.live hValue hBlock hLess

theorem unpairable_prune (hTags : f.tags.Nodup) {c : Block}
    (hc : c ∈ (f.prune o oracle).func.blocks) : o.symbols.Unpairable c.body := by
  rw [prune_func hTags] at hc
  obtain ⟨b, hb, rfl⟩ := List.mem_map.mp hc
  rw [Symbols.Unpairable, Block.erase, List.pairwise_filter, List.pairwise_iff_getElem]
  intro p q hp hq hLess hKeptI hKeptE v hIncref hDecref
  have hi : ⟨.incref, v, b.body[p], b.label, p⟩ ∈ RefOp.ofFunc o.symbols f :=
    RefOp.mem_ofFunc.mpr ⟨b, hb, rfl, List.getElem?_eq_getElem hp, hIncref⟩
  have he : ⟨.decref, v, b.body[q], b.label, q⟩ ∈ RefOp.ofFunc o.symbols f :=
    RefOp.mem_ofFunc.mpr ⟨b, hb, rfl, List.getElem?_eq_getElem hq, hDecref⟩
  simp only [Bool.not_eq_true', List.contains_eq_mem, decide_eq_false_iff_not] at hKeptI hKeptE
  have hOne : _ ∈ f.removedOps o oracle ∨ _ ∈ f.removedOps o oracle :=
    removed_of_behind hi rfl he rfl rfl rfl hLess
  rcases hOne with hRemoved | hRemoved
  · exact hKeptI (List.mem_map.mpr ⟨_, hRemoved, rfl⟩)
  · exact hKeptE (List.mem_map.mpr ⟨_, hRemoved, rfl⟩)

/-- No operation on null is left, and no block has both an incref and a decref of one value. -/
structure IsExhausted (f : Func) (s : Symbols) : Prop where
  apart : ∀ b ∈ f.blocks, ∀ i ∈ b.body, ∀ j ∈ b.body, ∀ v,
    s.classify i = some (.incref, v) → s.classify j ≠ some (.decref, v)
  counted : ∀ i ∈ f.instrs, ∀ kind v, s.classify i = some (kind, v) → v.isNull = false

theorem IsNormal.isExhausted_prune (h : f.IsNormal o.symbols) (hTags : f.tags.Nodup)
    (oracle : Oracle) : (f.prune o oracle).func.IsExhausted o.symbols where
  apart b hb i hi j hj v hIncref :=
    (unpairable_prune hTags hb).apart (h.prune o oracle b hb) hi hj hIncref
  counted i hi kind v hClassify := by
    have hNone : (f.prune o oracle).func.countNullRefs o.symbols = 0 := countNullRefs_prune hTags
    rw [countNullRefs, List.countP_eq_zero] at hNone
    simpa [Symbols.isNullRef, hClassify] using hNone i hi

/-- After pruning with any oracle no incref stands before a decref of its value in a block.
After normalising and pruning no block has both, and no operation on null is left. -/
theorem no_pair_survives (h : f.Processed) (o : Options) :
    (∀ oracle, ∀ b ∈ (f.pruneWith o oracle).func.blocks, o.symbols.Unpairable b.body) ∧
    (f.optimize o).func.IsExhausted o.symbols ∧
    ∀ oracle,
      ((f.normalize o).andThen fun g => g.pruneWith o oracle).func.IsExhausted o.symbols := by
  obtain ⟨_, hTags⟩ := h.linked_tags
  have hNormalTags : (f.normalize o).func.tags.Nodup := thins_normalize.tags_nodup hTags
  have hBoth : ∀ oracle, ((f.normalize o).func.prune o oracle).func.IsExhausted o.symbols :=
    (isNormal_normalize f o).isExhausted_prune hNormalTags
  exact ⟨fun _ _ hb => unpairable_prune hTags hb, hBoth _, fun _ => hBoth _⟩

/-- The decref in the block listed second is the first to be taken. The one in the last block
stands before all increfs there. -/
def crowded : Func where
  name := "f"
  args := ["v"]
  blocks :=
    [⟨1, "entry", [], [], .jump "a"⟩,
      ⟨2, "c", [⟨1, none, .call "dec", [.var "v"]⟩], ["a"], .ret []⟩,
      ⟨3, "a", [⟨3, none, .call "dec", [.var "v"]⟩, ⟨5, none, .call "inc", [.var "v"]⟩,
        ⟨7, none, .call "inc", [.null 6]⟩, ⟨9, none, .call "inc", [.var "v"]⟩,
        ⟨11, none, .call "inc", [.var "v"]⟩], ["entry"], .jump "c"⟩]

/-- Pruning alone leaves the early decref with two increfs behind it. -/
theorem no_pair_survives_crowded :
    crowded.Processed ∧
      ((crowded.pruneWith { symbols := ⟨"inc", "dec"⟩ } none).func.instrs.map Instr.tag) =
        [3, 9, 11] ∧
      (∀ b ∈ (crowded.pruneWith { symbols := ⟨"inc", "dec"⟩ } none).func.blocks,
        Symbols.Unpairable ⟨"inc", "dec"⟩ b.body) ∧
      ((crowded.optimize { symbols := ⟨"inc", "dec"⟩ }).func.instrs.map Instr.tag) = [11] ∧
      (crowded.optimize { symbols := ⟨"inc", "dec"⟩ }).func.IsExhausted ⟨"inc", "dec"⟩ := by
  have hRead : (Func.parse ("func @f(%v) \x7b\nentry:\ngoto a\nc:\ncall @dec(%v)\nret\na:\n" ++
      "call @dec(%v)\ncall @inc(%v)\ncall @inc(null)\ncall @inc(%v)\ncall @inc(%v)\n" ++
      "goto c\n\x7d\n")).toOption = some crowded := by
    decide +kernel
  have hProcessed : crowded.Processed := .parsed (isParsed_of_toOption hRead)
  have hNone := no_pair_survives hProcessed { symbols := ⟨"inc", "dec"⟩ }
  exact ⟨hProcessed, by decide +kernel, hNone.1 none, by decide +kernel, hNone.2.1⟩

end Func

end RefElision
