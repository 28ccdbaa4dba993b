import RefElision.Proofs.Program.Legibility
import RefElision.Proofs.Program.Rebuilding

/-! Printing and reading are inverse. The text of a function reads as a function with the same
blocks, which prints as that text again. Only the tags of instructions and constants are new,
and the operand of a switch without cases, which the text does not show, is lost. -/
namespace RefElision

/-- The block reads the same, has the same number and the same neighbours. -/
structure Block.Alike (b c : Block) : Prop extends b.SameText c where
  number_eq : c.number = b.number
  edges_eq : c.term.edges = b.term.edges
  successors_eq : c.successors = b.successors
  preds_eq : c.preds = b.preds

/-- Blocks that read the same and are numbered alike differ in their recorded predecessors
at most. -/
theorem Block.SameText.forall₂_alike {cs ds : List Block} {preds : Label → List Label}
    (h : List.Forall₂ SameText cs ds) (hNumbers : ds.map Block.number = cs.map Block.number)
    (hPreds : ∀ c ∈ cs, c.preds = preds c.label) :
    List.Forall₂ Alike cs (ds.map fun d => { d with preds := preds d.label }) := by
  induction h with
  | nil => exact .nil
  | @cons c d cs ds hSame _ ih =>
      rw [List.forall_mem_cons] at hPreds
      rw [List.map_cons, List.map_cons, List.cons.injEq] at hNumbers
      refine .cons ?_ (ih hNumbers.2 hPreds.2)
      constructor
      case toSameText => exact ⟨hSame.label_eq, hSame.body_eq, hSame.ending_eq⟩
      case number_eq => exact hNumbers.1
      case edges_eq => exact hSame.edges_eq
      case successors_eq => exact hSame.successors_eq
      case preds_eq =>
        show preds d.label = c.preds
        rw [hSame.label_eq, hPreds.1]

namespace Func

variable {f g : Func}

theorem text_eq_of_alike (hName : g.name = f.name) (hArgs : g.args = f.args)
    (hBlocks : List.Forall₂ Block.Alike f.blocks g.blocks) : g.text = f.text := by
  have hSame : List.Forall₂ Block.SameText f.blocks g.blocks :=
    hBlocks.imp fun _ _ hAlike => hAlike.toSameText
  have hTexts : g.blocks.map Block.text = f.blocks.map Block.text :=
    Block.SameText.map_eq (fun _ _ h => h.text_eq) hSame
  rw [text, text, hName, hArgs, hTexts]

/-- A well formed function is read again from its text. -/
theorem WellFormed.exists_parse_text (h : f.WellFormed) (hNamed : f.WellNamed) :
    ∃ g, Func.parse f.text = .ok g ∧ g.name = f.name ∧ g.args = f.args ∧ g.detached = [] ∧
      List.Forall₂ Block.Alike f.blocks g.blocks := by
  obtain ⟨ds, hSame, hNumbers, hBuild⟩ := h.build_statements
  have hNames : ∀ x ∈ f.name :: f.args, Text.isIdent x.toList = true := fun x hx =>
    hNamed.idents x (List.mem_append_left _ hx)
  refine ⟨_, parse_text hNames h.nonempty (hNamed.readable h.toLinked) hBuild, rfl, rfl, rfl, ?_⟩
  apply Block.SameText.forall₂_alike hSame hNumbers
  intro c hc
  rw [predecessorsOf_of_sameText hSame]
  exact h.preds_eq c hc

/-- A function that was built from names that can be read, or that was read itself, is read
again from its text. What is read has the same name, arguments and blocks, and the same text. -/
theorem parse_text_inverse (h : (f.IsBuilt ∧ f.WellNamed) ∨ f.IsParsed) :
    f.WellNamed ∧ ∃ g, Func.parse f.text = .ok g ∧ g.text = f.text ∧ g.name = f.name ∧
      g.args = f.args ∧ g.detached = [] ∧ List.Forall₂ Block.Alike f.blocks g.blocks := by
  have hWell : f.WellFormed ∧ f.WellNamed := by
    rcases h with ⟨hBuilt, hNamed⟩ | hParsed
    · exact ⟨hBuilt.wellFormed, hNamed⟩
    · exact ⟨hParsed.wellFormed, hParsed.wellNamed⟩
  obtain ⟨g, hParse, hName, hArgs, hDetached, hBlocks⟩ := hWell.1.exists_parse_text hWell.2
  exact ⟨hWell.2, g, hParse, text_eq_of_alike hName hArgs hBlocks, hName, hArgs, hDetached,
    hBlocks⟩

/-- Names in this function look like words with a meaning of their own or like numbers. The
switch of the second block has no cases. -/
def lookalikes : Func where
  name := "ret"
  args := ["x"]
  blocks := [
    { number := 1
      label := "goto"
      body := [⟨0, ⟨some "null", .op "br.x", [.null 1, .int 2 (-9223372036854775808), .var "x"]⟩⟩,
        ⟨3, ⟨none, .call "call", []⟩⟩]
      preds := ["goto"]
      term := .switch (.var "null") (.ofList [(1, "goto"), (-1, "7")]) "0x1" },
    { number := 2
      label := "7"
      body := []
      preds := ["goto", "0x1"]
      term := .switch (.int 4 5) .empty "0x1" },
    { number := 3
      label := "0x1"
      body := []
      preds := ["goto", "7"]
      term := .branch (.var "x") "7" "end" },
    { number := 4
      label := "end"
      body := []
      preds := ["0x1"]
      term := .ret [.var "x", .null 5] }]

theorem parse_text_inverse_lookalikes :
    lookalikes.IsBuilt ∧ lookalikes.WellNamed ∧
      ∃ g, Func.parse lookalikes.text = .ok g ∧ g.text = lookalikes.text ∧ g.name = "ret" ∧
        g.args = ["x"] ∧ g.detached = [] ∧ List.Forall₂ Block.Alike lookalikes.blocks g.blocks := by
  have hBuild : ((Builder.empty "ret" ["x"]).run (lookalikes.blocks.flatMap fun b =>
      .label b.label :: b.body.map .emit ++ [.terminate b.term])).build.2 = .ok lookalikes := by
    decide +kernel
  have hBuilt : lookalikes.IsBuilt := ⟨_, _, _, hBuild⟩
  have hNamed : lookalikes.WellNamed := ⟨by decide +kernel, by decide +kernel⟩
  exact ⟨hBuilt, hNamed, (parse_text_inverse (.inl ⟨hBuilt, hNamed⟩)).2⟩

end Func

end RefElision
