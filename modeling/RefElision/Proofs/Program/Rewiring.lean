import Mathlib.Data.List.Nodup
import Mathlib.Data.List.Perm.Basic
import RefElision.Proofs.Program.Building

/-! Functions whose edges or block order are changed by hand. No such change loses a block or
lets an edge lead out of the function. The recorded predecessors may become wrong, until they
are computed anew. -/
namespace RefElision.Func

variable {f g : Func} {l : Label} {position : Nat}

/-- The second function comes out of the first by any number of changes: new terminators, whose
targets are blocks of the function, blocks put elsewhere, and predecessors computed anew. -/
inductive Edited (f : Func) : Func → Prop where
  | unchanged : Edited f f
  | setTerm {g : Func} (prior : Edited f g) (l : Label) (t : Terminator Value)
      (inside : ∀ m ∈ t.successors, m ∈ g.labels) : Edited f (g.setTerm l t)
  | move {g : Func} (prior : Edited f g) (l : Label) (position : Nat)
      (fits : position < g.blocks.length) : Edited f (g.move l position)
  | rebuild {g : Func} (prior : Edited f g) : Edited f g.rebuild

theorem labels_setTerm (f : Func) (l : Label) (t : Terminator Value) :
    (f.setTerm l t).labels = f.labels := by
  simp only [setTerm, modify, labels, List.map_map]
  apply List.map_congr_left
  intro b _
  simp only [Function.comp_apply]
  split <;> rfl

/-- Computing predecessors that are right anyway changes nothing. -/
theorem Recorded.rebuild_eq (h : f.Recorded) : f.rebuild = f := by
  have hSame : ∀ b ∈ f.blocks, { b with preds := f.predecessorsOf b.label } = b := by
    intro b hb
    rw [← h.preds_eq b hb]
  rw [Func.rebuild, List.map_congr_left hSame, List.map_id', h.detached_nil, List.map_nil,
    ← h.detached_nil]

namespace Enclosed

variable (h : f.Enclosed)
include h

theorem setTerm {t : Terminator Value} (hInside : ∀ m ∈ t.successors, m ∈ f.labels) :
    (f.setTerm l t).Enclosed := by
  constructor
  case nonempty => simpa [Func.setTerm, modify] using h.nonempty
  case labels_nodup => exact f.labels_setTerm l t ▸ h.labels_nodup
  case detached_nil => simp [Func.setTerm, modify, h.detached_nil]
  case targets =>
    intro b hb m hm
    rw [labels_setTerm]
    obtain ⟨c, hc, rfl⟩ := List.mem_map.mp hb
    split at hm
    case isTrue => exact hInside m hm
    case isFalse => exact h.targets c hc m hm

theorem of_perm (hPerm : g.blocks.Perm f.blocks) (hDetached : g.detached = f.detached) :
    g.Enclosed := by
  have hLabels : g.labels.Perm f.labels := hPerm.map Block.label
  constructor
  case nonempty => exact fun hNil => h.nonempty (List.nil_perm.mp (hNil ▸ hPerm))
  case labels_nodup => exact hLabels.nodup_iff.mpr h.labels_nodup
  case detached_nil => rw [hDetached, h.detached_nil]
  case targets =>
    intro b hb m hm
    exact hLabels.mem_iff.mpr (h.targets b (hPerm.mem_iff.mp hb) m hm)

/-- The other blocks are what is left without the one block of a label. -/
theorem filter_label_ne {b : Block} (hb : b ∈ f.blocks) :
    (f.blocks.filter fun c => c.label != b.label) = f.blocks.erase b := by
  have hNodup : f.blocks.Nodup := h.labels_nodup.of_map _
  rw [hNodup.erase_eq_filter]
  apply List.filter_congr
  intro c hc
  have hSame : c.label = b.label ↔ c = b :=
    ⟨fun hEq => List.inj_on_of_nodup_map h.labels_nodup hc hb hEq, fun hEq => hEq ▸ rfl⟩
  rw [Bool.eq_iff_iff, bne_iff_ne, bne_iff_ne, ne_eq, ne_eq, hSame]

/-- A block that is moved is put back once. -/
theorem perm_move (hFits : position < f.blocks.length) :
    (f.move l position).blocks.Perm f.blocks := by
  rw [Func.move]
  split
  case h_1 => exact .refl _
  case h_2 b hFind =>
    rw [anyBlock?, h.detached_nil, List.append_nil] at hFind
    have hb : b ∈ f.blocks := List.mem_of_find?_eq_some hFind
    obtain rfl : b.label = l := by simpa using List.find?_some hFind
    have hLength := List.length_erase_of_mem hb
    rw [h.filter_label_ne hb]
    have hInserted : ((f.blocks.erase b).insertIdx position b).Perm (b :: f.blocks.erase b) :=
      List.perm_insertIdx _ _ (by omega)
    exact hInserted.trans (List.perm_cons_erase hb).symm

theorem detached_move : (f.move l position).detached = f.detached := by
  rw [Func.move]
  split
  case h_1 => rfl
  case h_2 => simp [h.detached_nil]

/-- Changes lose no block, and edges stay inside of the function. -/
theorem edited (hEdited : f.Edited g) : g.Enclosed ∧ g.labels.Perm f.labels := by
  induction hEdited with
  | unchanged => exact ⟨h, .refl _⟩
  | @setTerm g _ l t inside ih =>
      obtain ⟨hEnclosed, hPerm⟩ := ih
      exact ⟨hEnclosed.setTerm inside, g.labels_setTerm l t ▸ hPerm⟩
  | move _ l position fits ih =>
      obtain ⟨hEnclosed, hPerm⟩ := ih
      have hMoved := hEnclosed.perm_move (l := l) fits
      exact ⟨hEnclosed.of_perm hMoved hEnclosed.detached_move,
        (hMoved.map Block.label).trans hPerm⟩
  | @rebuild g _ ih =>
      obtain ⟨hEnclosed, hPerm⟩ := ih
      exact ⟨hEnclosed.rebuild.toEnclosed, g.labels_rebuild ▸ hPerm⟩

end Enclosed

end RefElision.Func
