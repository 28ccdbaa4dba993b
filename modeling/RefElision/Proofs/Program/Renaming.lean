import Mathlib.Data.List.Forall2
import RefElision.Proofs.Program.Bodies
import RefElision.Proofs.Program.RoundTrip

/-! Tags tell objects apart and mean nothing else. They can be replaced by other tags, and in
the canonical form of a function they are the places at which the objects are written. Two
functions that read the same have the same canonical form, whatever their tags. -/
namespace RefElision

/-- The value with another tag. A variable has none. -/
def Value.retag (new : Nat → Nat) : Value → Value
  | .var name => .var name
  | .null tag => .null (new tag)
  | .int tag value => .int (new tag) value

/-- The instruction with another tag, and with other tags for the constants that it reads. -/
def Instr.retag (new : Nat → Nat) (i : Instr) : Instr :=
  ⟨new i.tag, i.operation.map (Value.retag new)⟩

section Retag

variable {new : Nat → Nat}

@[simp] theorem Value.atom_retag (v : Value) : (v.retag new).atom = v.atom := by
  cases v <;> rfl

@[simp] theorem Value.isNull_retag (v : Value) : (v.retag new).isNull = v.isNull := by
  cases v <;> rfl

theorem Value.retag_injective (hNew : Function.Injective new) :
    Function.Injective (Value.retag new) := by
  intro v w hEq
  cases v <;> cases w <;> simp_all [Value.retag, hNew.eq_iff]

@[simp] theorem Instr.written_retag (i : Instr) : (i.retag new).written = i.written := by
  simp [Instr.written, Instr.retag, Operation.map, Function.comp_def]

@[simp] theorem Instr.text_retag (i : Instr) : (i.retag new).text = i.text :=
  congrArg Operation.text i.written_retag

theorem Instr.retag_injective (hNew : Function.Injective new) :
    Function.Injective (Instr.retag new) := by
  intro i j hEq
  obtain ⟨tag, result, action, args⟩ := i
  obtain ⟨tag', result', action', args'⟩ := j
  simp only [Instr.retag, Operation.map, Instr.mk.injEq, Operation.mk.injEq] at hEq
  obtain ⟨hTag, rfl, rfl, hArgs⟩ := hEq
  rw [hNew hTag, (Value.retag_injective hNew).list_map hArgs]

end Retag

/-- The block with other tags in its body. What ends it is reduced to what its text tells. -/
def Block.recast (new : Nat → Nat) (b : Block) : Block :=
  { b with body := b.body.map (Instr.retag new), term := b.ending.simplified.tagged 0 }

def Func.recast (new : Nat → Nat) (f : Func) : Func :=
  f.mapBlocks (Block.recast new)

section Recast

variable (new : Nat → Nat)

theorem Block.sameText_recast (b : Block) : b.SameText (b.recast new) where
  label_eq := rfl
  body_eq := by simp [Block.recast, Function.comp_def]
  ending_eq := Terminator.map_atom_tagged 0 _

theorem Block.keepsFlow_recast : Block.KeepsFlow (Block.recast new) where
  label_eq _ := rfl
  preds_eq _ := rfl
  successors_eq b := (b.sameText_recast new).successors_eq

theorem Func.text_recast (f : Func) : (f.recast new).text = f.text := by
  have hTexts : (f.recast new).blocks.map Block.text = f.blocks.map Block.text := by
    rw [Func.recast, Func.mapBlocks, List.map_map]
    exact List.map_congr_left fun b _ => (b.sameText_recast new).text_eq
  rw [Func.text, hTexts, Func.text]
  rfl

end Recast

/-- Things that are related differ in their tags at most: they have equally many, and they are
the same if their tags are. -/
def UpToTags {α : Type} (tags : α → List Nat) (R : α → α → Prop) : Prop :=
  ∀ x y, R x y → (tags x).length = (tags y).length ∧ (tags x = tags y → x = y)

/-- Tags in a row belong to one thing after another, and it is known how many each has. -/
theorem UpToTags.forall₂ {α : Type} {tags : α → List Nat} {R : α → α → Prop}
    (h : UpToTags tags R) : UpToTags (List.flatMap tags) (List.Forall₂ R) := by
  intro xs ys hRelated
  induction hRelated with
  | nil => exact ⟨rfl, fun _ => rfl⟩
  | @cons x y xs ys hHead _ ih =>
      have hFirst := h x y hHead
      rw [List.flatMap_cons, List.flatMap_cons]
      refine ⟨by rw [List.length_append, List.length_append, hFirst.1, ih.1], fun hTags => ?_⟩
      obtain ⟨hHeadTags, hRestTags⟩ := List.append_inj hTags hFirst.1
      rw [hFirst.2 hHeadTags, ih.2 hRestTags]

theorem forall₂_of_map_eq {α β : Type} {view : α → β} {xs ys : List α}
    (h : xs.map view = ys.map view) : List.Forall₂ (fun x y => view x = view y) xs ys := by
  have hEq : List.Forall₂ (fun x y => x = y) (xs.map view) (ys.map view) := by
    rw [List.forall₂_eq_eq_eq]
    exact h
  rwa [List.forall₂_map_left_iff, List.forall₂_map_right_iff] at hEq

theorem constantTags_eq_flatMap (values : List Value) :
    constantTags values = values.flatMap fun v => constantTags [v] := by
  induction values with
  | nil => rfl
  | cons v rest ih => cases v <;> simp_all [constantTags]

theorem constantTags_retag (new : Nat → Nat) (values : List Value) :
    constantTags (values.map (Value.retag new)) = (constantTags values).map new := by
  induction values with
  | nil => rfl
  | cons v rest ih => cases v <;> simp_all [constantTags, Value.retag]

theorem Value.upToTags : UpToTags (fun v => constantTags [v]) fun v w => v.atom = w.atom := by
  intro v w hAtom
  cases v <;> cases w <;> simp_all [constantTags, Value.atom]

theorem Instr.objectTags_retag (new : Nat → Nat) (i : Instr) :
    (i.retag new).objectTags = i.objectTags.map new := by
  rw [Instr.objectTags, Instr.objectTags, List.map_append, ← constantTags_retag]
  rfl

theorem Instr.upToTags : UpToTags Instr.objectTags fun i j => i.written = j.written := by
  intro i j hWritten
  obtain ⟨tag, result, action, args⟩ := i
  obtain ⟨tag', result', action', args'⟩ := j
  simp only [Instr.written, Operation.map, Operation.mk.injEq] at hWritten
  obtain ⟨rfl, rfl, hAtoms⟩ := hWritten
  obtain ⟨hLength, hEq⟩ := Value.upToTags.forall₂ _ _ (forall₂_of_map_eq hAtoms)
  rw [← constantTags_eq_flatMap, ← constantTags_eq_flatMap] at hLength hEq
  constructor
  · simp [Instr.objectTags, Instr.uses, hLength]
  · intro hTags
    obtain ⟨hConstants, hLast⟩ := List.append_inj hTags hLength
    have hTag : tag = tag' := List.singleton_inj.mp hLast
    rw [hEq hConstants, hTag]

/-- The tags of the objects in a body, in the order in which they are written. -/
def Block.bodyTags (b : Block) : List Nat :=
  b.body.flatMap Instr.objectTags

theorem Block.bodyTags_recast (new : Nat → Nat) (b : Block) :
    (b.recast new).bodyTags = b.bodyTags.map new := by
  simp only [Block.bodyTags, Block.recast, List.flatMap_map, List.map_flatMap,
    Instr.objectTags_retag]

/-- The blocks are the same but for what tells the objects in their bodies apart. -/
structure Block.SameOutline (b c : Block) : Prop where
  number_eq : b.number = c.number
  label_eq : b.label = c.label
  body_eq : b.body.map Instr.written = c.body.map Instr.written
  preds_eq : b.preds = c.preds
  term_eq : b.term = c.term

theorem Block.upToTags : UpToTags Block.bodyTags Block.SameOutline := by
  intro b c hOutline
  obtain ⟨hLength, hEq⟩ := Instr.upToTags.forall₂ _ _ (forall₂_of_map_eq hOutline.body_eq)
  refine ⟨hLength, fun hTags => ?_⟩
  obtain ⟨number, label, body, preds, term⟩ := b
  obtain ⟨number', label', body', preds', term'⟩ := c
  rw [Block.mk.injEq]
  exact ⟨hOutline.number_eq, hOutline.label_eq, hEq hTags, hOutline.preds_eq, hOutline.term_eq⟩

theorem Terminator.simplified_simplified {α : Type} (t : Terminator α) :
    t.simplified.simplified = t.simplified := by
  rcases t.simplified_cases with hSame | ⟨_, _, otherwise, _, _, hJump⟩
  · rw [hSame, hSame]
  · rw [hJump]
    rfl

/-- What the text does not show of a block is gone once it is recast. -/
theorem Block.Alike.sameOutline {b c : Block} (h : b.Alike c) (new new' : Nat → Nat) :
    (b.recast new).SameOutline (c.recast new') where
  number_eq := h.number_eq.symm
  label_eq := h.label_eq.symm
  body_eq := by
    rw [(b.sameText_recast new).body_eq, (c.sameText_recast new').body_eq, h.body_eq]
  preds_eq := h.preds_eq.symm
  term_eq := by
    show b.ending.simplified.tagged 0 = c.ending.simplified.tagged 0
    rw [h.ending_eq, Terminator.simplified_simplified]

/-- The place of a tag among some tags. Others are counted on behind them. -/
def rank (tags : List Nat) (tag : Nat) : Nat :=
  if tag ∈ tags then tags.idxOf tag else tags.length + tag

theorem rank_injective (tags : List Nat) : Function.Injective (rank tags) := by
  intro t u hEq
  have hBound : ∀ x ∈ tags, tags.idxOf x < tags.length := fun x => List.idxOf_lt_length_of_mem
  by_cases ht : t ∈ tags <;> by_cases hu : u ∈ tags <;>
    simp only [rank, ht, hu, if_true, if_false] at hEq
  · exact (List.idxOf_inj ht).mp hEq
  · have := hBound t ht
    omega
  · have := hBound u hu
    omega
  · omega

theorem map_rank {tags : List Nat} (h : tags.Nodup) :
    tags.map (rank tags) = List.range tags.length := by
  apply List.ext_getElem
  · simp
  · intro i hi _
    have hPlace : i < tags.length := by simpa using hi
    simp [rank, h.idxOf_getElem i hPlace]

namespace Func

variable {f g : Func}

def bodyTags (f : Func) : List Nat :=
  f.blocks.flatMap Block.bodyTags

theorem bodyTags_sublist (f : Func) : f.bodyTags.Sublist f.objectTags :=
  List.Sublist.flatMap_right _ fun _ _ => List.sublist_append_left _ _

theorem bodyTags_recast (new : Nat → Nat) (f : Func) :
    (f.recast new).bodyTags = f.bodyTags.map new := by
  simp only [bodyTags, recast, mapBlocks, List.flatMap_map, List.map_flatMap,
    Block.bodyTags_recast]

/-- The function with each object tagged by the place at which it is written. -/
def canonical (f : Func) : Func :=
  f.recast (rank f.bodyTags)

theorem bodyTags_canonical (h : f.objectTags.Nodup) :
    f.canonical.bodyTags = List.range f.bodyTags.length := by
  rw [canonical, bodyTags_recast, map_rank (h.sublist f.bodyTags_sublist)]

/-- Functions whose blocks read the same have one canonical form. -/
theorem canonical_eq_of_alike (hName : g.name = f.name) (hArgs : g.args = f.args)
    (hDetached : g.detached = f.detached) (hBlocks : List.Forall₂ Block.Alike f.blocks g.blocks)
    (hf : f.objectTags.Nodup) (hg : g.objectTags.Nodup) : f.canonical = g.canonical := by
  have hOutline : List.Forall₂ Block.SameOutline f.canonical.blocks g.canonical.blocks := by
    rw [canonical, canonical, recast, recast, mapBlocks, mapBlocks, List.forall₂_map_left_iff,
      List.forall₂_map_right_iff]
    exact hBlocks.imp fun _ _ hAlike => hAlike.sameOutline _ _
  obtain ⟨hLength, hEq⟩ := Block.upToTags.forall₂ _ _ hOutline
  have hTags : f.canonical.bodyTags = g.canonical.bodyTags := by
    have hCount : f.canonical.bodyTags.length = g.canonical.bodyTags.length := hLength
    rw [bodyTags_canonical hf, bodyTags_canonical hg, List.length_range, List.length_range] at hCount
    rw [bodyTags_canonical hf, bodyTags_canonical hg, hCount]
  have hAll : f.canonical.blocks = g.canonical.blocks := hEq hTags
  show Func.mk f.name f.args f.canonical.blocks f.detached =
    Func.mk g.name g.args g.canonical.blocks g.detached
  rw [hName, hArgs, hAll, hDetached]

/-- A function that was read has the canonical form of what its text is read as. -/
theorem IsParsed.exists_canonical (h : f.IsParsed) :
    ∃ k, Func.parse f.text = .ok k ∧ f.canonical = k.canonical := by
  obtain ⟨k, hParse, hName, hArgs, hDetached, hBlocks⟩ :=
    h.wellFormed.exists_parse_text h.wellNamed
  have hRead : k.IsParsed := ⟨_, hParse⟩
  have hNone : k.detached = f.detached := by rw [hDetached, h.wellFormed.detached_nil]
  exact ⟨k, hParse, canonical_eq_of_alike hName hArgs hNone hBlocks h.objectTags_nodup
    hRead.objectTags_nodup⟩

/-- The text of a function that was read determines its canonical form. -/
theorem IsParsed.canonical_eq (hf : f.IsParsed) (hg : g.IsParsed) (hText : f.text = g.text) :
    f.canonical = g.canonical := by
  obtain ⟨k, hParse, hCanonical⟩ := hf.exists_canonical
  obtain ⟨k', hParse', hCanonical'⟩ := hg.exists_canonical
  rw [hText, hParse'] at hParse
  rw [hCanonical, hCanonical', Except.ok.inj hParse]

end Func

end RefElision
