import Mathlib.Data.List.Forall2
import RefElision.Proofs.Program.Transcripts

/-! Carrying out the lines of a function. A builder that is given the lines of a block finishes
a block that reads the same, so the lines of a function give its blocks again. Only the tags
are new, and a switch without cases has become a jump. -/
namespace RefElision

theorem Terminator.successors_tagged (start : Nat) (t : Terminator Atom) :
    (t.tagged start).successors = t.successors := by
  rw [← successors_map, map_atom_tagged]

/-- The text tells the same of both blocks, but for an operand that has no effect. -/
structure Block.SameText (b c : Block) : Prop where
  label_eq : c.label = b.label
  body_eq : c.body.map Instr.written = b.body.map Instr.written
  ending_eq : c.ending = b.ending.simplified

def Atom.variable? : Atom → Option String
  | .var name => some name
  | _ => none

theorem Value.variable?_eq (v : Value) : v.variable? = v.atom.variable? := by
  cases v <;> rfl

namespace Block

variable {c d : Block} {cs ds : List Block}

/-- The operands in a block, as the text writes them. -/
def operands (b : Block) : List Atom :=
  (b.body.map Instr.written).flatMap Operation.args ++ b.ending.uses

theorem filterMap_variable? (b : Block) :
    (b.body.flatMap Instr.uses ++ b.term.uses).filterMap Value.variable? =
      b.operands.filterMap Atom.variable? := by
  have hOperands : b.operands = (b.body.flatMap Instr.uses ++ b.term.uses).map Value.atom := by
    rw [operands, ending, Terminator.uses_map, List.map_append, List.map_flatMap, List.flatMap_map]
    rfl
  rw [hOperands, List.filterMap_map]
  exact List.filterMap_congr fun v _ => v.variable?_eq

theorem flatMap_defs (b : Block) :
    b.body.flatMap Instr.defs =
      (b.body.map Instr.written).flatMap fun o => o.result.toList := by
  rw [List.flatMap_map]
  rfl

namespace SameText

theorem edges_eq (h : c.SameText d) : d.term.edges = c.term.edges := by
  rw [← Terminator.edges_map d.term Value.atom, ← Terminator.edges_map c.term Value.atom,
    ← Terminator.edges_simplified (c.term.map Value.atom)]
  exact congrArg Terminator.edges h.ending_eq

theorem successors_eq (h : c.SameText d) : d.successors = c.successors :=
  congrArg (List.map Prod.snd) h.edges_eq

theorem text_eq (h : c.SameText d) : d.text = c.text := by
  have hBody : ∀ b : Block, b.body.map (fun i => "    " ++ i.text) =
      (b.body.map Instr.written).map fun o => "    " ++ o.text := fun b => by
    rw [List.map_map]
    rfl
  have hEnding : (d.term.map Value.atom).text = (c.term.map Value.atom).text := by
    rw [← Terminator.text_simplified (c.term.map Value.atom)]
    exact congrArg Terminator.text h.ending_eq
  rw [Block.text, Block.text, hBody, hBody, h.label_eq, h.body_eq, hEnding]

theorem operands_subset (h : c.SameText d) : d.operands ⊆ c.operands := by
  intro a ha
  rw [operands, h.body_eq, h.ending_eq] at ha
  rcases List.mem_append.mp ha with hBody | hEnding
  · exact List.mem_append_left _ hBody
  · exact List.mem_append_right _ (Terminator.uses_simplified _ hEnding)

/-- What is the same of any two blocks that read the same is so block by block. -/
theorem map_eq {β : Type} {view : Block → β} (hView : ∀ c d, SameText c d → view d = view c)
    (h : List.Forall₂ SameText cs ds) : ds.map view = cs.map view := by
  induction h with
  | nil => rfl
  | cons hSame _ ih => rw [List.map_cons, List.map_cons, hView _ _ hSame, ih]

theorem exists_of_mem (h : List.Forall₂ SameText cs ds) (hd : d ∈ ds) :
    ∃ c ∈ cs, SameText c d := by
  induction h with
  | nil => exact (List.not_mem_nil hd).elim
  | @cons first _ _ _ hSame _ ih =>
      rcases List.mem_cons.mp hd with rfl | hRest
      · exact ⟨first, List.mem_cons_self, hSame⟩
      · obtain ⟨c, hc, hSame⟩ := ih hRest
        exact ⟨c, List.mem_cons_of_mem _ hc, hSame⟩

end SameText

end Block

namespace Builder

variable {b : Builder}

theorem statement_label {l : Label} (hCurrent : b.current = none) (hNew : l ∉ b.placedLabels) :
    b.statement (.label l) = { b with current := some ⟨b.finished.length + 1, l, []⟩ } := by
  rw [statement, label, if_neg hNew]
  simp [hCurrent]

theorem statement_operation {block : OpenBlock} (hCurrent : b.current = some block)
    (o : Operation Atom) :
    b.statement (.operation o) =
      { b with
        table := b.table.enterAll
          (Instr.mentioned ⟨b.nextTag + o.args.length, o.tagged b.nextTag⟩)
        current := some { block with
          body := block.body ++ [⟨b.nextTag + o.args.length, o.tagged b.nextTag⟩] }
        nextTag := b.nextTag + o.args.length + 1 } := by
  simp [statement, perform, emit, emitShown, reserve, intern, nextInstr, hCurrent]

theorem statement_terminator {block : OpenBlock} (hCurrent : b.current = some block)
    (t : Terminator Atom) :
    b.statement (.terminator t) =
      { b with
        table := b.table.enterAll (t.tagged b.nextTag).mentioned
        finished := b.finished ++ [block.close (t.tagged b.nextTag)]
        current := none
        targets := b.targets ++ t.successors
        nextTag := b.nextTag + t.uses.length } := by
  simp [statement, terminate, reserve, intern, hCurrent, Terminator.successors_tagged]

/-- Instructions are put behind those that the open block has. -/
theorem foldl_operations {block : OpenBlock} (hCurrent : b.current = some block)
    (operations : List (Operation Atom)) :
    ∃ body table tag, (operations.map Statement.operation).foldl statement b =
        { b with
          table := table
          current := some { block with body := block.body ++ body }
          nextTag := tag } ∧
      body.map Instr.written = operations := by
  induction operations generalizing b block with
  | nil =>
      refine ⟨[], b.table, b.nextTag, ?_, rfl⟩
      rw [List.append_nil, ← hCurrent]
      rfl
  | cons o rest ih =>
      have hStep := statement_operation hCurrent o
      obtain ⟨body, table, tag, hFold, hBody⟩ := ih (congrArg current hStep)
      refine ⟨⟨b.nextTag + o.args.length, o.tagged b.nextTag⟩ :: body, table, tag, ?_, ?_⟩
      · rw [List.map_cons, List.foldl_cons, hFold, hStep]
        simp
      · rw [List.map_cons, hBody, Instr.written, Operation.map_atom_tagged]

theorem map_simplified_statements (c : Block) :
    c.statements.map Statement.simplified =
      .label c.label :: ((c.body.map Instr.written).map Statement.operation ++
        [.terminator c.ending.simplified]) := by
  simp [Block.statements, Statement.simplified, Function.comp_def]

/-- The lines of a block add a block that reads the same. -/
theorem foldl_block (hCurrent : b.current = none) {c : Block} (hNew : c.label ∉ b.placedLabels) :
    ∃ d table tag, (c.statements.map Statement.simplified).foldl statement b =
        { b with
          table := table
          finished := b.finished ++ [d]
          targets := b.targets ++ c.successors
          nextTag := tag } ∧
      d.number = b.finished.length + 1 ∧ c.SameText d := by
  obtain ⟨body, table, tag, hFold, hBody⟩ :=
    foldl_operations (b := { b with current := some ⟨b.finished.length + 1, c.label, []⟩ }) rfl
      (c.body.map Instr.written)
  refine ⟨OpenBlock.close ⟨b.finished.length + 1, c.label, body⟩ (c.ending.simplified.tagged tag),
    table.enterAll (c.ending.simplified.tagged tag).mentioned, tag + c.ending.simplified.uses.length, ?_, rfl, rfl, hBody, Terminator.map_atom_tagged tag _⟩
  have hTargets : c.ending.simplified.successors = c.successors := by
    rw [Terminator.successors_simplified, Block.ending, Terminator.successors_map]
    rfl
  rw [map_simplified_statements, List.foldl_cons, statement_label hCurrent hNew, List.foldl_append,
    hFold, List.foldl_cons, List.foldl_nil, statement_terminator rfl, hTargets, ← hCurrent]
  rfl

/-- The lines of some blocks add blocks that read the same. -/
theorem foldl_blocks (hCurrent : b.current = none) {cs : List Block}
    (hNew : (b.placedLabels ++ cs.map Block.label).Nodup) :
    ∃ ds table tag, ((cs.flatMap Block.statements).map Statement.simplified).foldl statement b =
        { b with
          table := table
          finished := b.finished ++ ds
          targets := b.targets ++ cs.flatMap Block.successors
          nextTag := tag } ∧
      ds.map Block.number = List.range' (b.finished.length + 1) cs.length ∧
      List.Forall₂ Block.SameText cs ds := by
  induction cs generalizing b with
  | nil =>
      refine ⟨[], b.table, b.nextTag, ?_, rfl, .nil⟩
      simp
  | cons c rest ih =>
      rw [List.map_cons, ← List.singleton_append, ← List.append_assoc] at hNew
      have hFresh : c.label ∉ b.placedLabels := fun hMem =>
        (List.nodup_append.mp (List.nodup_append.mp hNew).1).2.2 _ hMem _ List.mem_cons_self rfl
      obtain ⟨d, table, tag, hBlock, hNumber, hSame⟩ := foldl_block hCurrent hFresh
      have hPlaced : placedLabels { b with
          table := table
          finished := b.finished ++ [d]
          targets := b.targets ++ c.successors
          nextTag := tag } = b.placedLabels ++ [c.label] := by
        simp [placedLabels, hCurrent, hSame.label_eq]
      rw [← hPlaced] at hNew
      obtain ⟨ds, table', tag', hRest, hNumbers, hAll⟩ := ih (by exact hCurrent) hNew
      refine ⟨d :: ds, table', tag', ?_, ?_, .cons hSame hAll⟩
      · rw [List.flatMap_cons, List.map_append, List.foldl_append, hBlock, hRest]
        simp
      · rw [List.map_cons, hNumber, hNumbers]
        simp [List.range'_succ]

end Builder

namespace Func

variable {f : Func} {ds : List Block}

theorem labels_of_sameText (h : List.Forall₂ Block.SameText f.blocks ds) :
    ds.map Block.label = f.labels :=
  Block.SameText.map_eq (fun _ _ hSame => hSame.label_eq) h

theorem predecessorsOf_of_sameText (h : List.Forall₂ Block.SameText f.blocks ds) {name : String}
    {args : List String} (l : Label) :
    predecessorsOf ⟨name, args, ds, []⟩ l = f.predecessorsOf l := by
  have hView : ∀ bs : List Block, (bs.filter fun b => b.successors.contains l).map Block.label =
      ((bs.map fun b => (b.label, b.successors)).filter fun v => v.2.contains l).map Prod.fst := by
    intro bs
    simp [List.filter_map, Function.comp_def]
  have hSame : ds.map (fun b => (b.label, b.successors)) =
      f.blocks.map fun b => (b.label, b.successors) :=
    Block.SameText.map_eq (fun _ _ hSame => by rw [hSame.label_eq, hSame.successors_eq]) h
  rw [predecessorsOf, predecessorsOf, hView, hView, hSame]

theorem defined_of_sameText (h : List.Forall₂ Block.SameText f.blocks ds) :
    (ds.flatMap fun b => b.body.flatMap Instr.defs) =
      f.blocks.flatMap fun b => b.body.flatMap Instr.defs := by
  rw [List.flatMap_def, List.flatMap_def]
  apply congrArg List.flatten
  apply Block.SameText.map_eq _ h
  intro c d hSame
  rw [d.flatMap_defs, c.flatMap_defs, hSame.body_eq]

theorem used_of_sameText (h : List.Forall₂ Block.SameText f.blocks ds) {x : String}
    (hx : x ∈ ds.flatMap fun b =>
      (b.body.flatMap Instr.uses ++ b.term.uses).filterMap Value.variable?) : x ∈ f.used := by
  obtain ⟨d, hd, hxd⟩ := List.mem_flatMap.mp hx
  obtain ⟨c, hc, hSame⟩ := Block.SameText.exists_of_mem h hd
  rw [d.filterMap_variable?] at hxd
  obtain ⟨a, ha, hVariable⟩ := List.mem_filterMap.mp hxd
  rw [used, List.mem_flatMap]
  refine ⟨c, hc, ?_⟩
  rw [c.filterMap_variable?]
  exact List.mem_filterMap.mpr ⟨a, hSame.operands_subset ha, hVariable⟩

/-- The lines of a well formed function can be carried out. -/
theorem WellFormed.build_statements (h : f.WellFormed) :
    ∃ ds, List.Forall₂ Block.SameText f.blocks ds ∧
      ds.map Block.number = f.blocks.map Block.number ∧
      ((f.statements.map Statement.simplified).foldl Builder.statement
        (.empty f.name f.args)).build.2 = .ok (rebuild ⟨f.name, f.args, ds, []⟩) := by
  have hFresh : ((Builder.empty f.name f.args).placedLabels ++
      f.blocks.map Block.label).Nodup := h.labels_nodup
  obtain ⟨ds, table, tag, hFold, hNumbers, hSame⟩ := Builder.foldl_blocks rfl hFresh
  refine ⟨ds, hSame, hNumbers.trans h.numbers.symm, ?_⟩
  have hLabels := labels_of_sameText hSame
  have hDone : Builder.finalError { Builder.empty f.name f.args with
      table := table
      finished := (Builder.empty f.name f.args).finished ++ ds
      targets := (Builder.empty f.name f.args).targets ++ f.blocks.flatMap Block.successors
      nextTag := tag } = none := by
    rw [Builder.finalError_eq_none]
    refine ⟨rfl, ?_, rfl, ?_, ?_⟩
    · intro l hl
      obtain ⟨b, hb, hTarget⟩ := List.mem_flatMap.mp hl
      have hPlaced := h.targets b hb l hTarget
      rw [← hLabels] at hPlaced
      exact List.mem_append_left _ hPlaced
    · intro hNil
      apply h.nonempty
      apply List.map_eq_nil_iff.mp
      have hNone : ds = [] := hNil
      rw [← labels, ← hLabels, hNone]
      rfl
    · intro x hx
      have hDefined := h.defined_of_used x (used_of_sameText hSame hx)
      rw [defined, ← defined_of_sameText hSame] at hDefined
      exact hDefined
  rw [statements, hFold, Builder.build, hDone]
  rfl

end Func

end RefElision
