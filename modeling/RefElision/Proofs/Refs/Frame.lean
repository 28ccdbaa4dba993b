import Mathlib.Data.List.Perm.Subperm
import RefElision.Proofs.Program.Naming
import RefElision.Proofs.Refs.Delays
import RefElision.Proofs.Refs.Removals
import RefElision.Session

/-! What passes leave as it is. They change the bodies of blocks only, and an instruction
that does not count references is never lost. -/
namespace RefElision

namespace Func

variable {f g : Func} {o : Options} {oracle : Oracle}

theorem mem_instrs {i : Instr} : i ∈ f.instrs ↔ ∃ b ∈ f.blocks, i ∈ b.body :=
  List.mem_flatMap

/-- Erasing in all blocks is a filter on all instructions. -/
theorem instrs_erase (tags : List Nat) :
    (f.mapBlocks fun b => b.erase tags).instrs = f.instrs.filter fun i => !tags.contains i.tag := by
  rw [instrs, mapBlocks, List.flatMap_map, instrs, List.filter_flatMap]
  rfl

theorem mapBlocks_mapBlocks (first second : Block → Block) :
    (f.mapBlocks first).mapBlocks second = f.mapBlocks (second ∘ first) := by
  rw [mapBlocks, mapBlocks, mapBlocks, List.map_map]

/-- The second function is the first with some instructions taken out of its blocks and
others moved. -/
structure Thins (f : Func) (removed : List Instr) (g : Func) : Prop where
  frame : ∃ change, Block.BodyOnly change ∧ g = f.mapBlocks change
  perm : (removed ++ g.instrs).Perm f.instrs

/-- Normalising moves instructions and takes none out. -/
theorem thins_normalize : f.Thins [] (f.normalize o).func where
  frame := ⟨_, Normalize.bodyOnly_normalBlock o.symbols, normalize_func⟩
  perm := instrs_normalize

theorem instr_mem {s : Symbols} {op : RefOp} (h : op ∈ RefOp.ofFunc s f) : op.instr ∈ f.instrs := by
  obtain ⟨b, hb, _, hBody, _⟩ := RefOp.mem_ofFunc.mp h
  exact mem_instrs.mpr ⟨b, hb, List.mem_of_getElem? hBody⟩

/-- Erasing the tags of operations takes out the instructions of these operations. -/
theorem thins_erase {s : Symbols} (hTags : f.tags.Nodup) {ops : List RefOp}
    (hOps : ops ⊆ RefOp.ofFunc s f) (hNodup : ops.Nodup) :
    f.Thins (ops.map RefOp.instr)
      (f.mapBlocks fun b => b.erase (ops.map fun op => op.instr.tag)) where
  frame := ⟨_, Block.bodyOnly_erase _, rfl⟩
  perm := by
    have hInstrs : f.instrs.Nodup := (tags_eq ▸ hTags).of_map _
    have hApart : (ops.map RefOp.instr).Nodup := by
      apply hNodup.map_on
      intro a ha b hb hInstr
      exact RefOp.eq_of_tag hTags (hOps ha) (hOps hb) (congrArg Instr.tag hInstr)
    have hMem : ∀ i, i ∈ ops.map RefOp.instr ↔
        i ∈ f.instrs.filter fun i => (ops.map fun op => op.instr.tag).contains i.tag := by
      intro i
      rw [List.mem_filter, List.contains_eq_mem, decide_eq_true_iff]
      constructor
      · intro hi
        obtain ⟨op, hOp, rfl⟩ := List.mem_map.mp hi
        exact ⟨instr_mem (hOps hOp), List.mem_map_of_mem hOp⟩
      · rintro ⟨hi, hTag⟩
        obtain ⟨op, hOp, hEq⟩ := List.mem_map.mp hTag
        have hSame : op.instr = i :=
          List.inj_on_of_nodup_map (tags_eq ▸ hTags) (instr_mem (hOps hOp)) hi hEq
        exact hSame ▸ List.mem_map_of_mem hOp
    rw [instrs_erase]
    exact (((List.perm_ext_iff_of_nodup hApart (hInstrs.filter _)).mpr hMem).append_right _).trans
      (List.filter_append_perm _ _)

/-- Pruning takes out the instructions of the removed operations, each once. -/
theorem thins_prune (h : f.Linked) (hTags : f.tags.Nodup) :
    f.Thins ((f.removedOps o oracle).map RefOp.instr) (f.prune o oracle).func := by
  rw [prune_func hTags]
  exact thins_erase hTags removedOps_subset (removedOps_nodup h)

/-- Only instructions that count references are removed. -/
theorem isSome_classify_of_removed {i : Instr} (h : i ∈ (f.removedOps o oracle).map RefOp.instr) :
    (o.symbols.classify i).isSome = true := by
  obtain ⟨op, hOp, rfl⟩ := List.mem_map.mp h
  obtain ⟨_, _, _, _, hClassify⟩ := RefOp.mem_ofFunc.mp (removedOps_subset hOp)
  rw [hClassify, Option.isSome_some]

namespace Thins

variable {removed later : List Instr} {h : Func}

/-- What two changes take out adds up. -/
theorem trans (hFirst : f.Thins removed g) (hSecond : g.Thins later h) :
    f.Thins (removed ++ later) h where
  frame := by
    obtain ⟨first, hBodyFirst, rfl⟩ := hFirst.frame
    obtain ⟨second, hBodySecond, rfl⟩ := hSecond.frame
    exact ⟨second ∘ first, hBodySecond.comp hBodyFirst, mapBlocks_mapBlocks first second⟩
  perm := by
    rw [List.append_assoc]
    exact (hSecond.perm.append_left removed).trans hFirst.perm

variable (hThins : f.Thins removed g)
include hThins

/-- Only bodies change, so the blocks stay linked. -/
theorem linked (hLinked : f.Linked) : g.Linked := by
  obtain ⟨change, hBody, rfl⟩ := hThins.frame
  exact hLinked.mapBlocks hBody

theorem name_eq : g.name = f.name := by
  obtain ⟨change, _, rfl⟩ := hThins.frame
  rfl

theorem args_eq : g.args = f.args := by
  obtain ⟨change, _, rfl⟩ := hThins.frame
  rfl

/-- No instruction is copied, so tags stay distinct. -/
theorem tags_nodup (hTags : f.tags.Nodup) : g.tags.Nodup := by
  rw [tags_eq] at hTags ⊢
  have hAll := (hThins.perm.map Instr.tag).nodup_iff.mpr hTags
  rw [List.map_append] at hAll
  exact hAll.of_append_right

theorem instrs_subset : g.instrs ⊆ f.instrs :=
  fun _ hi => hThins.perm.subset (List.mem_append_right _ hi)

/-- Each block of the one function has the label and the terminator of a block of the other. -/
theorem exists_block {c : Block} (hc : c ∈ g.blocks) :
    ∃ b ∈ f.blocks, b.label = c.label ∧ b.term = c.term := by
  obtain ⟨change, hBody, rfl⟩ := hThins.frame
  obtain ⟨b, hb, rfl⟩ := List.mem_map.mp hc
  exact ⟨b, hb, (hBody.label_eq b).symm, (hBody.term_eq b).symm⟩

/-- An instruction that is not taken out is still there. -/
theorem mem_or_mem {i : Instr} (hi : i ∈ f.instrs) : i ∈ removed ∨ i ∈ g.instrs :=
  List.mem_append.mp (hThins.perm.symm.subset hi)

/-- No variable is read that was not read before. -/
theorem used_subset : g.used ⊆ f.used := by
  intro x hx
  simp only [used, List.mem_flatMap, List.filterMap_append, List.filterMap_flatMap,
    List.mem_append] at hx ⊢
  obtain ⟨c, hc, ⟨i, hi, hUse⟩ | hTerm⟩ := hx
  · obtain ⟨b, hb, hIn⟩ := mem_instrs.mp (hThins.instrs_subset (mem_instrs.mpr ⟨c, hc, hi⟩))
    exact ⟨b, hb, .inl ⟨i, hIn, hUse⟩⟩
  · obtain ⟨b, hb, _, hEq⟩ := hThins.exists_block hc
    exact ⟨b, hb, .inr (hEq ▸ hTerm)⟩

theorem names_subset : g.names ⊆ f.names := by
  intro x hx
  rw [names, List.mem_append, hThins.name_eq, hThins.args_eq] at hx
  rw [names, List.mem_append]
  simp only [Block.names, List.mem_flatMap, List.mem_append, List.mem_cons] at hx ⊢
  obtain hHeader | ⟨c, hc, (hLabel | ⟨i, hi, hName⟩) | hTerm⟩ := hx
  · exact .inl hHeader
  · obtain ⟨b, hb, hEq, _⟩ := hThins.exists_block hc
    exact .inr ⟨b, hb, .inl (.inl (hEq ▸ hLabel))⟩
  · obtain ⟨b, hb, hIn⟩ := mem_instrs.mp (hThins.instrs_subset (mem_instrs.mpr ⟨c, hc, hi⟩))
    exact .inr ⟨b, hb, .inl (.inr ⟨i, hIn, hName⟩)⟩
  · obtain ⟨b, hb, _, hEq⟩ := hThins.exists_block hc
    exact .inr ⟨b, hb, .inr (hEq ▸ hTerm)⟩

/-- All names of the changed function occur in the one before, so they can still be read. -/
theorem wellNamed (hNamed : f.WellNamed) : g.WellNamed where
  idents x hx := hNamed.idents x (hThins.names_subset hx)
  opcodes x hx := by
    obtain ⟨c, hc, hOpcode⟩ := List.mem_flatMap.mp hx
    obtain ⟨i, hi, hEq⟩ := List.mem_filterMap.mp hOpcode
    obtain ⟨b, hb, hIn⟩ := mem_instrs.mp (hThins.instrs_subset (mem_instrs.mpr ⟨c, hc, hi⟩))
    exact hNamed.opcodes x
      (List.mem_flatMap.mpr ⟨b, hb, List.mem_filterMap.mpr ⟨i, hIn, hEq⟩⟩)

end Thins

end Func

/-- What a pass takes out counts references. -/
theorem Pass.thins {f : Func} (h : f.Linked) (hTags : f.tags.Nodup) (p : Pass) (o : Options) :
    ∃ removed, (∀ i ∈ removed, (o.symbols.classify i).isSome = true) ∧
      f.Thins removed (p.run o f).func := by
  cases p with
  | normalize => exact ⟨[], by simp, Func.thins_normalize⟩
  | prune oracle =>
      exact ⟨_, fun i hi => Func.isSome_classify_of_removed hi, Func.thins_prune h hTags⟩
  | optimize =>
      have hFirst : f.Thins [] (f.normalize o).func := Func.thins_normalize
      exact ⟨_, fun i hi => Func.isSome_classify_of_removed hi,
        hFirst.trans (Func.thins_prune h.normalize (hFirst.tags_nodup hTags))⟩

end RefElision
