import Mathlib.Data.List.Pairwise
import RefElision.Proofs.Program.Bodies

/-! Where the reference count operations of a function stand, in what order they are
listed, and what erasing them leaves. -/
namespace RefElision

variable {s : Symbols} {f : Func} {op : RefOp}

namespace RefOp

/-- The operations listed are the instructions that count references, each with its
place. -/
theorem mem_ofFunc : op ∈ ofFunc s f ↔
    ∃ b ∈ f.blocks, op.block = b.label ∧ b.body[op.position]? = some op.instr ∧
      s.classify op.instr = some (op.kind, op.value) := by
  simp only [ofFunc, ofBlock, List.mem_flatMap, List.mem_filterMap, Option.map_eq_some_iff,
    Prod.exists, List.mem_zipIdx_iff_getElem?]
  constructor
  · rintro ⟨b, hb, i, position, hBody, kind, value, hClassify, rfl⟩
    exact ⟨b, hb, rfl, hBody, hClassify⟩
  · rintro ⟨b, hb, hBlock, hBody, hClassify⟩
    exact ⟨b, hb, op.instr, op.position, hBody, op.kind, op.value, hClassify, by rw [← hBlock]⟩

theorem block_mem (h : op ∈ ofFunc s f) : op.block ∈ f.labels := by
  obtain ⟨b, hb, hBlock, _⟩ := mem_ofFunc.mp h
  rw [hBlock]
  exact List.mem_map_of_mem hb

/-- The first operation is listed before the second: it stands in a block that comes
first, or at an earlier place of the same block. -/
def Earlier (f : Func) (a b : RefOp) : Prop :=
  f.labels.idxOf a.block < f.labels.idxOf b.block ∨ a.block = b.block ∧ a.position < b.position

theorem Earlier.asymm {a b : RefOp} (hab : Earlier f a b) : ¬ Earlier f b a := by
  rintro (hBlock | ⟨hBlock, hPosition⟩)
  · rcases hab with hab | ⟨hEq, _⟩
    · omega
    · rw [hEq] at hBlock
      omega
  · rcases hab with hab | ⟨_, hab⟩
    · rw [hBlock] at hab
      omega
    · omega

theorem pairwise_ofBlock (b : Block) : (ofBlock s b).Pairwise (Earlier f) := by
  rw [ofBlock, List.pairwise_filterMap]
  have hPositions : b.body.zipIdx.Pairwise fun x y => x.2 < y.2 := by
    rw [← List.pairwise_map (f := Prod.snd), List.zipIdx_map_snd]
    exact List.pairwise_lt_range'
  refine hPositions.imp fun {x y} hLess op hOp op' hOp' => .inr ?_
  simp only [Option.map_eq_some_iff] at hOp hOp'
  obtain ⟨_, _, rfl⟩ := hOp
  obtain ⟨_, _, rfl⟩ := hOp'
  exact ⟨rfl, hLess⟩

/-- Operations are listed in the order of their places. -/
theorem pairwise_ofFunc (h : f.Linked) : (ofFunc s f).Pairwise (Earlier f) := by
  have hLabels : f.labels.Pairwise fun l m => f.labels.idxOf l < f.labels.idxOf m := by
    rw [List.pairwise_iff_getElem]
    intro i j hi hj hLess
    rwa [h.labels_nodup.idxOf_getElem i hi, h.labels_nodup.idxOf_getElem j hj]
  rw [Func.labels, List.pairwise_map] at hLabels
  rw [ofFunc, List.pairwise_flatMap]
  refine ⟨fun b _ => pairwise_ofBlock b, hLabels.imp fun {b c} hLess x hx y hy => .inl ?_⟩
  have hBlock : ∀ {b : Block} {op : RefOp}, op ∈ ofBlock s b → op.block = b.label := by
    intro b op hOp
    simp only [ofBlock, List.mem_filterMap, Option.map_eq_some_iff] at hOp
    obtain ⟨_, _, _, _, rfl⟩ := hOp
    rfl
  rw [hBlock hx, hBlock hy]
  exact hLess

theorem nodup_ofFunc (h : f.Linked) : (ofFunc s f).Nodup := by
  refine (pairwise_ofFunc h).imp ?_
  rintro a b hab rfl
  exact hab.asymm hab

/-- In a function without repeated instructions an operation is known by its tag. -/
theorem eq_of_tag (hTags : f.tags.Nodup) {a b : RefOp} (ha : a ∈ ofFunc s f)
    (hb : b ∈ ofFunc s f) (hTag : a.instr.tag = b.instr.tag) : a = b := by
  obtain ⟨c, hc, hBlockA, hBodyA, hClassA⟩ := mem_ofFunc.mp ha
  obtain ⟨d, hd, hBlockB, hBodyB, hClassB⟩ := mem_ofFunc.mp hb
  obtain ⟨rfl, hInstr⟩ := Func.tag_unique hTags hc hd (List.mem_of_getElem? hBodyA)
    (List.mem_of_getElem? hBodyB) hTag
  have hPosition : a.position = b.position := by
    have hNodup : c.body.Nodup := ((List.nodup_flatMap.mp hTags).1 c hc).of_map _
    apply (List.getElem?_inj (List.getElem?_eq_some_iff.mp hBodyA).1 hNodup).mp
    rw [hBodyA, hBodyB, hInstr]
  rw [hInstr, hClassB] at hClassA
  obtain ⟨hKind, hValue⟩ := Prod.mk.inj (Option.some.inj hClassA)
  cases a
  cases b
  simp_all

end RefOp

section Lists

theorem RefOps.mem_null :
    op ∈ (RefOps.ofFunc s f).null ↔ op ∈ RefOp.ofFunc s f ∧ op.value.isNull = true := by
  simp [RefOps.ofFunc]

theorem RefOps.mem_increfs :
    op ∈ (RefOps.ofFunc s f).increfs ↔
      op ∈ RefOp.ofFunc s f ∧ op.kind = .incref ∧ op.value.isNull = false := by
  simp [RefOps.ofFunc]

theorem RefOps.mem_decrefs :
    op ∈ (RefOps.ofFunc s f).decrefs ↔
      op ∈ RefOp.ofFunc s f ∧ op.kind = .decref ∧ op.value.isNull = false := by
  simp [RefOps.ofFunc]

theorem RefOps.increfs_sublist : (RefOps.ofFunc s f).increfs.Sublist (RefOp.ofFunc s f) :=
  List.filter_sublist.trans List.filter_sublist

theorem RefOps.decrefs_sublist : (RefOps.ofFunc s f).decrefs.Sublist (RefOp.ofFunc s f) :=
  List.filter_sublist.trans List.filter_sublist

end Lists

theorem Block.bodyOnly_erase (tags : List Nat) : Block.BodyOnly fun b => b.erase tags :=
  ⟨fun _ => rfl, fun _ => rfl, fun _ => rfl, fun _ => rfl⟩

/-- What is executed once tags have been erased. -/
theorem Func.executed_erase (tags : List Nat) (p : List Label) :
    (f.mapBlocks fun b => b.erase tags).executed p =
      (f.executed p).filter fun i => !tags.contains i.tag := by
  rw [executed, executed, List.filter_flatMap]
  congr 1
  funext l
  rw [bodyAt, block?_mapBlocks (Block.bodyOnly_erase tags), bodyAt]
  cases f.block? l with
  | none => rfl
  | some b => rfl

/-- Erasing operations that stand in their blocks only is erasing their tags everywhere. -/
theorem Func.eraseOps_eq {ops : List RefOp}
    (h : ∀ op ∈ ops, ∀ b ∈ f.blocks, ∀ i ∈ b.body, i.tag = op.instr.tag → op.block = b.label) :
    f.eraseOps ops = f.mapBlocks fun b => b.erase (ops.map fun op => op.instr.tag) := by
  rw [eraseOps, mapBlocks, mapBlocks]
  congr 1
  apply List.map_congr_left
  intro b hb
  split
  case isTrue => rfl
  case isFalse hNone =>
    have hBody : b.body.filter (fun i => !(ops.map fun op => op.instr.tag).contains i.tag) =
        b.body := by
      rw [List.filter_eq_self]
      intro i hi
      simp only [Bool.not_eq_true', List.contains_eq_mem, decide_eq_false_iff_not, List.mem_map,
        not_exists, not_and]
      intro op hOp hTag
      exact hNone (List.any_eq_true.mpr ⟨op, hOp, by simp [h op hOp b hb i hi hTag.symm]⟩)
    rw [Block.erase, hBody]

/-- Operations of a function are erased by their tags, also after other tags. -/
theorem Func.eraseOps_erase (hTags : f.tags.Nodup) {ops : List RefOp}
    (hOps : ops ⊆ RefOp.ofFunc s f) (tags : List Nat) :
    (f.mapBlocks fun b => b.erase tags).eraseOps ops =
      f.mapBlocks fun b => b.erase (tags ++ ops.map fun op => op.instr.tag) := by
  rw [eraseOps_eq]
  · simp only [mapBlocks, List.map_map]
    congr 1
    apply List.map_congr_left
    intro b _
    simp [Block.erase, List.filter_filter, List.contains_eq_mem, Bool.and_comm]
  · intro op hOp b hb i hi hTag
    obtain ⟨c, hc, rfl⟩ := List.mem_map.mp hb
    obtain ⟨d, hd, hBlock, hBody, _⟩ := RefOp.mem_ofFunc.mp (hOps hOp)
    have hIn : i ∈ c.body := List.mem_of_mem_filter hi
    obtain ⟨rfl, _⟩ := tag_unique hTags hc hd hIn (List.mem_of_getElem? hBody) hTag
    exact hBlock

theorem Func.erase_nil : (f.mapBlocks fun b => b.erase []) = f := by
  simp [mapBlocks, Block.erase]

theorem Func.eraseOps_listed (hTags : f.tags.Nodup) {ops : List RefOp}
    (hOps : ops ⊆ RefOp.ofFunc s f) :
    f.eraseOps ops = f.mapBlocks fun b => b.erase (ops.map fun op => op.instr.tag) := by
  have hErase := eraseOps_erase hTags hOps []
  rwa [erase_nil, List.nil_append] at hErase

end RefElision
