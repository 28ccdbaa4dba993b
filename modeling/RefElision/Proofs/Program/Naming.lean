import RefElision.Program.Statement

/-! The names that occur in a function, and which names can be printed and read again. -/
namespace RefElision

/-- Words with a meaning of their own at the start of a line. -/
def keywords : List String :=
  ["goto", "br", "switch", "ret", "call"]

def Action.name : Action → String
  | .call callee => callee
  | .op name => name

def Action.opcode? : Action → Option String
  | .call _ => none
  | .op name => some name

/-- The result, the callee or opcode, and the variables among the operands. -/
def Instr.names (i : Instr) : List String :=
  i.operation.result.toList ++ i.operation.action.name :: i.uses.filterMap Value.variable?

/-- The label, the names in the body, and the variables that the terminator reads. -/
def Block.names (b : Block) : List String :=
  b.label :: b.body.flatMap Instr.names ++ b.term.uses.filterMap Value.variable?

namespace Func

def names (f : Func) : List String :=
  f.name :: f.args ++ f.blocks.flatMap Block.names

def opcodes (f : Func) : List String :=
  f.blocks.flatMap fun b => b.body.filterMap fun i => i.operation.action.opcode?

/-- All names can be read, and no opcode is a word with another meaning. -/
structure WellNamed (f : Func) : Prop where
  idents : ∀ x ∈ f.names, Text.isIdent x.toList = true
  opcodes : ∀ x ∈ f.opcodes, x ∉ keywords

end Func

/-- A variable has a name that can be read. -/
def Atom.Readable : Atom → Prop
  | .var name => Text.isIdent name.toList = true
  | .null => True
  | .int _ => True

def Action.Readable : Action → Prop
  | .call callee => Text.isIdent callee.toList = true
  | .op name => Text.isIdent name.toList = true ∧ name ∉ keywords

structure Operation.Readable (o : Operation Atom) : Prop where
  result : ∀ x, o.result = some x → Text.isIdent x.toList = true
  action : o.action.Readable
  args : ∀ a ∈ o.args, a.Readable

structure Terminator.Readable (t : Terminator Atom) : Prop where
  uses : ∀ a ∈ t.uses, a.Readable
  targets : ∀ l ∈ t.successors, Text.isIdent l.toList = true

namespace Terminator

theorem readable_jump {target : Label} :
    (Terminator.jump target).Readable ↔ Text.isIdent target.toList = true := by
  constructor
  · exact fun h => h.targets target (by simp [successors, edges])
  · exact fun h => ⟨by simp [uses], by simpa [successors, edges] using h⟩

theorem readable_ret {values : List Atom} :
    (Terminator.ret values).Readable ↔ ∀ a ∈ values, a.Readable :=
  ⟨fun h => h.uses, fun h => ⟨h, by simp [successors, edges]⟩⟩

theorem readable_switch {scrutinee : Atom} {cases : CaseTable} {otherwise : Label} :
    (Terminator.switch scrutinee cases otherwise).Readable ↔
      scrutinee.Readable ∧ (∀ e ∈ cases.entries, Text.isIdent e.2.toList = true) ∧
        Text.isIdent otherwise.toList = true := by
  have hTargets : (Terminator.switch scrutinee cases otherwise).successors =
      cases.entries.map Prod.snd ++ [otherwise] := by
    simp [successors, edges, Function.comp_def]
  constructor
  · intro h
    have hAll := h.targets
    simp only [hTargets, List.forall_mem_append, List.forall_mem_map, List.forall_mem_singleton]
      at hAll
    exact ⟨h.uses scrutinee (by simp [uses]), hAll⟩
  · rintro ⟨hValue, hAll⟩
    refine ⟨by simpa [uses] using hValue, ?_⟩
    simp only [hTargets, List.forall_mem_append, List.forall_mem_map, List.forall_mem_singleton]
    exact hAll

end Terminator

namespace Statement

/-- What a line says can be printed so that it is read again. -/
def Readable : Statement → Prop
  | .label l => Text.isIdent l.toList = true
  | .operation o => o.Readable
  | .terminator t => t.Readable

def text : Statement → String
  | .label l => l ++ ":"
  | .operation o => o.text
  | .terminator t => t.text

end Statement

/-- A switch without cases goes to its only target whatever the operand is. -/
def Terminator.simplified {α : Type} : Terminator α → Terminator α
  | .jump target => .jump target
  | .switch scrutinee cases otherwise =>
    if cases.entries = [] then .jump otherwise else .switch scrutinee cases otherwise
  | .ret values => .ret values

/-- The statement as it reads once printed. -/
def Statement.simplified : Statement → Statement
  | .label l => .label l
  | .operation o => .operation o
  | .terminator t => .terminator t.simplified

namespace Terminator

variable {α β : Type} (t : Terminator α)

/-- Only a switch without cases reads as something else once printed. -/
theorem simplified_cases : t.simplified = t ∨ ∃ scrutinee cases otherwise,
    t = .switch scrutinee cases otherwise ∧ cases.entries = [] ∧
      t.simplified = .jump otherwise := by
  cases t with
  | jump target => exact .inl rfl
  | ret values => exact .inl rfl
  | switch scrutinee cases otherwise =>
      by_cases hNil : cases.entries = []
      · exact .inr ⟨scrutinee, cases, otherwise, rfl, hNil, if_pos hNil⟩
      · exact .inl (if_neg hNil)

theorem edges_simplified : t.simplified.edges = t.edges := by
  rcases t.simplified_cases with hSame | ⟨scrutinee, cases, otherwise, rfl, hNil, hJump⟩
  · rw [hSame]
  · rw [hJump, edges, edges, hNil, List.map_nil, List.nil_append]

theorem successors_simplified : t.simplified.successors = t.successors := by
  rw [successors, edges_simplified, successors]

theorem uses_simplified : t.simplified.uses ⊆ t.uses := by
  rcases t.simplified_cases with hSame | ⟨scrutinee, cases, otherwise, rfl, _, hJump⟩
  · rw [hSame]
    exact List.Subset.refl _
  · rw [hJump]
    exact List.nil_subset _

theorem edges_map (f : α → β) : (t.map f).edges = t.edges := by
  cases t <;> rfl

theorem successors_map (f : α → β) : (t.map f).successors = t.successors := by
  rw [successors, edges_map, successors]

theorem uses_map (f : α → β) : (t.map f).uses = t.uses.map f := by
  cases t <;> rfl

/-- Printing does not tell a switch without cases from a jump. -/
theorem text_simplified (t : Terminator Atom) : t.simplified.text = t.text := by
  rcases t.simplified_cases with hSame | ⟨scrutinee, cases, otherwise, rfl, hNil, hJump⟩
  · rw [hSame]
  · rw [hJump, text, text, hNil]

end Terminator

end RefElision
