import RefElision.Proofs.Refs.Removals

/-! The window of a group is open from its incref to one of its decrefs. Along every path
from the entry the incref and the decrefs of a group take turns, so a window is never
opened or closed twice. -/
namespace RefElision

namespace Func

variable {f : Func} {l : Label}

theorem exists_of_mem_bodyAt {i : Instr} (hi : i ∈ f.bodyAt l) :
    ∃ b ∈ f.blocks, b.label = l ∧ i ∈ b.body := by
  rw [bodyAt] at hi
  cases hBlock : f.block? l with
  | none => simp [hBlock] at hi
  | some b =>
      have hLabel : b.label = l := by simpa using List.find?_some hBlock
      exact ⟨b, List.mem_of_find?_eq_some hBlock, hLabel, by simpa [hBlock] using hi⟩

theorem exists_of_mem_executed {p : List Label} {i : Instr} (hi : i ∈ f.executed p) :
    ∃ b ∈ f.blocks, i ∈ b.body := by
  obtain ⟨l, _, hBody⟩ := List.mem_flatMap.mp hi
  obtain ⟨b, hb, _, hMem⟩ := exists_of_mem_bodyAt hBody
  exact ⟨b, hb, hMem⟩

theorem nodup_bodyAt (hTags : f.tags.Nodup) (l : Label) :
    ((f.bodyAt l).map Instr.tag).Nodup := by
  rw [bodyAt]
  cases hBlock : f.block? l with
  | none => simp
  | some b => exact (List.nodup_flatMap.mp hTags).1 b (List.mem_of_find?_eq_some hBlock)

end Func

namespace RefOp

variable {s : Symbols} {f : Func} {op : RefOp} {l : Label}

theorem bodyAt_position (h : f.Linked) (hOp : op ∈ ofFunc s f) :
    (f.bodyAt op.block)[op.position]? = some op.instr := by
  obtain ⟨b, hb, hBlock, hBody, _⟩ := mem_ofFunc.mp hOp
  rw [hBlock, h.bodyAt_label hb]
  exact hBody

/-- The body of its block, cut at an operation. -/
theorem bodyAt_split (h : f.Linked) (hOp : op ∈ ofFunc s f) :
    ∃ front back, f.bodyAt op.block = front ++ op.instr :: back ∧ front.length = op.position := by
  obtain ⟨hLess, hInstr⟩ := List.getElem?_eq_some_iff.mp (bodyAt_position h hOp)
  refine ⟨(f.bodyAt op.block).take op.position, (f.bodyAt op.block).drop (op.position + 1), ?_, ?_⟩
  · rw [← hInstr, ← List.drop_eq_getElem_cons hLess, List.take_append_drop]
  · rw [List.length_take, Nat.min_eq_left (Nat.le_of_lt hLess)]

/-- The instruction of an operation stands in the block of the operation only. -/
theorem tag_mem_bodyAt (h : f.Linked) (hTags : f.tags.Nodup) (hOp : op ∈ ofFunc s f) :
    op.instr.tag ∈ (f.bodyAt l).map Instr.tag ↔ op.block = l := by
  constructor
  · intro hMem
    obtain ⟨i, hi, hTag⟩ := List.mem_map.mp hMem
    obtain ⟨b, hb, rfl, hBody⟩ := Func.exists_of_mem_bodyAt hi
    obtain ⟨c, hc, hBlock, hPlace, _⟩ := mem_ofFunc.mp hOp
    obtain ⟨rfl, _⟩ := Func.tag_unique hTags hb hc hBody (List.mem_of_getElem? hPlace) hTag
    exact hBlock
  · rintro rfl
    exact List.mem_map_of_mem (List.mem_of_getElem? (bodyAt_position h hOp))

/-- The first part of a body holds the operations with smaller positions. -/
theorem tag_mem_front (h : f.Linked) (hTags : f.tags.Nodup) (hOp : op ∈ ofFunc s f)
    {front back : List Instr} (hSplit : f.bodyAt op.block = front ++ back) :
    op.instr.tag ∈ front.map Instr.tag ↔ op.position < front.length := by
  have hPlace := bodyAt_position h hOp
  have hNodup := Func.nodup_bodyAt hTags op.block
  rw [hSplit] at hPlace hNodup
  constructor
  · intro hMem
    obtain ⟨k, hk, hTag⟩ := List.mem_iff_getElem.mp hMem
    rw [List.length_map] at hk
    have hSame : ((front ++ back).map Instr.tag)[k]? =
        ((front ++ back).map Instr.tag)[op.position]? := by
      rw [List.getElem?_map, List.getElem?_map, hPlace, List.getElem?_append_left hk,
        List.getElem?_eq_getElem hk]
      simpa using hTag
    have hLess : k < ((front ++ back).map Instr.tag).length := by
      rw [List.length_map, List.length_append]
      omega
    exact (List.getElem?_inj hLess hNodup).mp hSame ▸ hk
  · intro hLess
    rw [List.getElem?_append_left hLess] at hPlace
    exact List.mem_map_of_mem (List.mem_of_getElem? hPlace)

end RefOp

/-- An incref and the decrefs that balance it, as they stand in a function. -/
structure Group (s : Symbols) (f : Func) (r : RefOp × List RefOp) : Prop where
  opener_mem : r.1 ∈ RefOp.ofFunc s f
  opener_kind : r.1.kind = .incref
  closer_mem : ∀ d ∈ r.2, d ∈ RefOp.ofFunc s f
  closer_kind : ∀ d ∈ r.2, d.kind = .decref
  values_eq : ∀ d ∈ r.2, d.value = r.1.value
  blocks_nodup : (r.2.map RefOp.block).Nodup

/-- Whether the window of a group is open after instructions. -/
def window (r : RefOp × List RefOp) (isOpen : Bool) (instrs : List Instr) : Option Bool :=
  turns r.1.instr.tag (r.2.map fun d => d.instr.tag) isOpen (instrs.map Instr.tag)

theorem window_append (r : RefOp × List RefOp) (isOpen : Bool) (front back : List Instr) :
    window r isOpen (front ++ back) =
      (window r isOpen front).bind fun next => window r next back := by
  rw [window, List.map_append, turns_append]
  rfl

namespace Group

variable {s : Symbols} {f : Func} {r : RefOp × List RefOp} {isOpen : Bool}

/-- The incref is none of the decrefs, and the decrefs are distinct. -/
theorem tags_nodup (hGroup : Group s f r) (hTags : f.tags.Nodup) :
    (r.1.instr.tag :: r.2.map fun d => d.instr.tag).Nodup := by
  rw [List.nodup_cons]
  constructor
  · intro hMem
    obtain ⟨d, hd, hTag⟩ := List.mem_map.mp hMem
    have hEq := RefOp.eq_of_tag hTags (hGroup.closer_mem d hd) hGroup.opener_mem hTag
    have hKind := hGroup.closer_kind d hd
    rw [hEq, hGroup.opener_kind] at hKind
    cases hKind
  · refine (hGroup.blocks_nodup.of_map _).map_on fun a ha b hb hTag => ?_
    exact RefOp.eq_of_tag hTags (hGroup.closer_mem a ha) (hGroup.closer_mem b hb) hTag

/-- The operations of a group whose tags stand in a body. -/
theorem tag_cases (hGroup : Group s f r) (h : f.Linked) (hTags : f.tags.Nodup) {l : Label}
    {t : Nat} (ht : t ∈ (f.bodyAt l).map Instr.tag)
    (hMember : t = r.1.instr.tag ∨ t ∈ r.2.map fun d => d.instr.tag) :
    ∃ op, (op = r.1 ∨ op ∈ r.2) ∧ op.block = l ∧ op.instr.tag = t := by
  rcases hMember with rfl | hCloser
  · exact ⟨r.1, .inl rfl, (RefOp.tag_mem_bodyAt h hTags hGroup.opener_mem).mp ht, rfl⟩
  · obtain ⟨d, hd, rfl⟩ := List.mem_map.mp hCloser
    exact ⟨d, .inr hd, (RefOp.tag_mem_bodyAt h hTags (hGroup.closer_mem d hd)).mp ht, rfl⟩

/-- A body with none of the operations changes nothing. -/
theorem window_bodyAt_other (hGroup : Group s f r) (h : f.Linked) (hTags : f.tags.Nodup)
    {l : Label} (hOpener : l ≠ r.1.block) (hCloser : l ∉ r.2.map RefOp.block) :
    window r isOpen (f.bodyAt l) = some isOpen := by
  have hNone : ∀ t ∈ (f.bodyAt l).map Instr.tag,
      ¬ (t = r.1.instr.tag ∨ t ∈ r.2.map fun d => d.instr.tag) := by
    intro t ht hMember
    obtain ⟨op, rfl | hOp, hBlock, _⟩ := hGroup.tag_cases h hTags ht hMember
    · exact hOpener hBlock.symm
    · exact hCloser (hBlock ▸ List.mem_map_of_mem hOp)
  exact turns_of_disjoint (fun hMem => hNone _ hMem (.inl rfl))
    fun t ht hMem => hNone t ht (.inr hMem)

/-- A body opens or closes the window of a group over several blocks as its block does. -/
theorem window_bodyAt (hGroup : Group s f r) (h : f.Linked) (hTags : f.tags.Nodup)
    (hApart : r.1.block ∉ r.2.map RefOp.block) (l : Label) :
    window r isOpen (f.bodyAt l) = turn r.1.block (r.2.map RefOp.block) isOpen l := by
  have hNodup := Func.nodup_bodyAt hTags l
  by_cases hCloser : l ∈ r.2.map RefOp.block
  · obtain ⟨d, hd, rfl⟩ := List.mem_map.mp hCloser
    have hOnly : ∀ t ∈ (f.bodyAt d.block).map Instr.tag,
        t = r.1.instr.tag ∨ t ∈ (r.2.map fun d => d.instr.tag) → t = d.instr.tag := by
      intro t ht hMember
      obtain ⟨op, rfl | hOp, hBlock, rfl⟩ := hGroup.tag_cases h hTags ht hMember
      · exact (hApart (hBlock ▸ hCloser)).elim
      · rw [List.inj_on_of_nodup_map hGroup.blocks_nodup hOp hd hBlock]
    have hMem := (RefOp.tag_mem_bodyAt h hTags (hGroup.closer_mem d hd)).mpr rfl
    rw [window, turns_of_only hNodup hMem hOnly, turn, turn, if_pos hCloser,
      if_pos (List.mem_map_of_mem hd)]
  · by_cases hOpener : l = r.1.block
    · subst hOpener
      have hOnly : ∀ t ∈ (f.bodyAt r.1.block).map Instr.tag,
          t = r.1.instr.tag ∨ t ∈ (r.2.map fun d => d.instr.tag) → t = r.1.instr.tag := by
        intro t ht hMember
        obtain ⟨op, rfl | hOp, hBlock, rfl⟩ := hGroup.tag_cases h hTags ht hMember
        · rfl
        · exact (hCloser (hBlock ▸ List.mem_map_of_mem hOp)).elim
      have hMem := (RefOp.tag_mem_bodyAt h hTags hGroup.opener_mem).mpr rfl
      rw [window, turns_of_only hNodup hMem hOnly, turn, turn, if_neg hCloser, if_pos rfl,
        if_neg (List.nodup_cons.mp (hGroup.tags_nodup hTags)).1, if_pos rfl]
    · rw [hGroup.window_bodyAt_other h hTags hOpener hCloser]
      simp [turn, hCloser, hOpener]

/-- Along a path the window of a group over several blocks opens and closes as the blocks
are visited. -/
theorem window_executed (hGroup : Group s f r) (h : f.Linked) (hTags : f.tags.Nodup)
    (hApart : r.1.block ∉ r.2.map RefOp.block) (p : List Label) :
    window r isOpen (f.executed p) = turns r.1.block (r.2.map RefOp.block) isOpen p := by
  induction p generalizing isOpen with
  | nil => rfl
  | cons l rest ih =>
      have hCons : f.executed (l :: rest) = f.bodyAt l ++ f.executed rest := rfl
      rw [hCons, window_append, hGroup.window_bodyAt h hTags hApart, turns]
      congr 1
      funext next
      exact ih

/-- Within one block the window is open from the incref to the decref. -/
theorem window_bodyAt_within (hGroup : Group s f r) (h : f.Linked) (hTags : f.tags.Nodup)
    (hWithin : Func.Within r) (l : Label) : window r false (f.bodyAt l) = some false := by
  obtain ⟨d, hEq, hBlock, hLess⟩ := hWithin
  have hDecref := hGroup.closer_mem d (hEq ▸ List.mem_singleton_self d)
  by_cases hl : l = r.1.block
  · subst hl
    obtain ⟨front, back, hSplit, hLength⟩ := RefOp.bodyAt_split h hGroup.opener_mem
    have hNodup := Func.nodup_bodyAt hTags r.1.block
    have hIn := (RefOp.tag_mem_bodyAt h hTags hDecref).mpr hBlock
    rw [hSplit, List.map_append, List.map_cons] at hNodup hIn
    -- The decref stands behind the incref, so it is in the second part and not in the first.
    have hFrontOut : d.instr.tag ∉ front.map Instr.tag := by
      rw [RefOp.tag_mem_front h hTags hDecref (hBlock ▸ hSplit)]
      omega
    have hTagNe : d.instr.tag ≠ r.1.instr.tag := by
      have hApart := (List.nodup_cons.mp (hGroup.tags_nodup hTags)).1
      rw [hEq, List.map_singleton, List.mem_singleton] at hApart
      exact Ne.symm hApart
    rw [List.mem_append, List.mem_cons] at hIn
    have hBackIn := (hIn.resolve_left hFrontOut).resolve_left hTagNe
    rw [window, hEq, List.map_singleton, hSplit, List.map_append, List.map_cons]
    exact turns_of_pair hNodup hBackIn
  · apply hGroup.window_bodyAt_other h hTags hl
    rw [hEq, List.map_singleton, List.mem_singleton, hBlock]
    exact hl

theorem window_executed_within (hGroup : Group s f r) (h : f.Linked) (hTags : f.tags.Nodup)
    (hWithin : Func.Within r) (p : List Label) : window r false (f.executed p) = some false := by
  induction p with
  | nil => rfl
  | cons l rest ih =>
      have hCons : f.executed (l :: rest) = f.bodyAt l ++ f.executed rest := rfl
      rw [hCons, window_append, hGroup.window_bodyAt_within h hTags hWithin]
      exact ih

end Group

namespace Func

variable {f : Func} {o : Options} {oracle : Oracle} {r : RefOp × List RefOp}

theorem group_of_removal (h : f.Linked) (hSound : oracle.SoundFor f)
    (hr : r ∈ f.removals o oracle) : Group o.symbols f r := by
  obtain ⟨entry, hEntry⟩ := h.exists_entry
  obtain ⟨hValues, hBlocks, _⟩ := removal_cases h hSound hEntry hr
  have hOpener := RefOps.mem_increfs.mp (removals_fst_subset (List.mem_map_of_mem hr))
  have hCloser : ∀ d ∈ r.2, d ∈ RefOp.ofFunc o.symbols f ∧ d.kind = .decref ∧ _ := fun d hd =>
    RefOps.mem_decrefs.mp (removals_snd_subset (List.mem_flatMap.mpr ⟨r, hr, hd⟩))
  exact ⟨hOpener.1, hOpener.2.1, fun d hd => (hCloser d hd).1, fun d hd => (hCloser d hd).2.1,
    hValues, hBlocks⟩

/-- On a path from the entry the window of what is removed is opened and closed in turn.
It is closed at a return. -/
theorem window_of_path (h : f.Linked) (hTags : f.tags.Nodup) (hSound : oracle.SoundFor f)
    (hr : r ∈ f.removals o oracle) {last : Label} {p : List Label} (hPath : f.FromEntry last p) :
    ∃ isOpen, window r false (f.executed p) = some isOpen ∧ (f.Returns last → isOpen = false) := by
  obtain ⟨entry, hEntry, hPath⟩ := hPath
  have hGroup := group_of_removal h hSound hr
  obtain ⟨_, _, hWithin | hTurns⟩ := removal_cases h hSound hEntry hr
  · exact ⟨false, hGroup.window_executed_within h hTags hWithin p, fun _ => rfl⟩
  · rw [hGroup.window_executed h hTags hTurns.distinct]
    obtain ⟨isOpen, hLast, _⟩ := hTurns.turns_of_path hPath
    refine ⟨isOpen, hLast, fun hReturns => ?_⟩
    rw [hTurns.turns_of_complete hPath hReturns.2] at hLast
    exact (Option.some.inj hLast).symm

end Func

end RefElision
