import RefElision.Program.CaseTable
import RefElision.Program.Instr

/-! How a block ends: with a jump, a switch or a return. A two-way branch is a
switch whose only case has value one. -/
namespace RefElision

inductive Terminator (α : Type) where
  | jump (target : Label)
  | switch (scrutinee : α) (cases : CaseTable) (otherwise : Label)
  | ret (values : List α)
  deriving DecidableEq, Repr

namespace Terminator

variable {α β : Type}

/-- Goes to `yes` if the operand is one and to `no` if it is not. -/
def branch (condition : α) (yes no : Label) : Terminator α :=
  .switch condition (.singleton 1 yes) no

/-- Changes the operands and keeps the targets. -/
def map (f : α → β) : Terminator α → Terminator β
  | .jump target => .jump target
  | .switch scrutinee cases otherwise => .switch (f scrutinee) cases otherwise
  | .ret values => .ret (values.map f)

/-- The terminator on values that are tagged from the given tag on. -/
def tagged (start : Nat) : Terminator Atom → Terminator Value
  | .jump target => .jump target
  | .switch scrutinee cases otherwise => .switch (scrutinee.value start) cases otherwise
  | .ret values => .ret (Atom.values start values)

/-- The ways out of a block, each with the case value that it is taken for. Cases
come by ascending value, and the target without a case value comes last. -/
def edges : Terminator α → List (Option Int64 × Label)
  | .jump target => [(none, target)]
  | .switch _ cases otherwise =>
    cases.entries.map (fun e => (some e.1, e.2)) ++ [(none, otherwise)]
  | .ret _ => []

/-- The targets in the order of the edges. A label may occur more than once. -/
def successors (t : Terminator α) : List Label :=
  t.edges.map Prod.snd

/-- The operands that the terminator reads. -/
def uses : Terminator α → List α
  | .jump _ => []
  | .switch scrutinee _ _ => [scrutinee]
  | .ret values => values

/-- The variables that the terminator reads. -/
def mentioned (t : Terminator Value) : List String :=
  t.uses.filterMap Value.variable?

def caseText (e : Int64 × Label) : String :=
  Text.decimal e.1.toInt ++ " => " ++ e.2

/-- A switch without cases reads as a jump, and one whose only case has value one
reads as a branch. -/
def text : Terminator Atom → String
  | .jump target => "goto " ++ target
  | .switch scrutinee cases otherwise =>
    match cases.entries with
    | [] => "goto " ++ otherwise
    | [(1, target)] => "br " ++ scrutinee.text ++ ", " ++ target ++ ", " ++ otherwise
    | entries =>
      "switch " ++ scrutinee.text ++ ", " ++ otherwise ++ " [" ++
        ", ".intercalate (entries.map caseText) ++ "]"
  | .ret [] => "ret"
  | .ret values => "ret " ++ atomsText values

end Terminator

/-- Walks over the edges of a terminator one at a time. Nothing is current before
the first move and behind the last edge. -/
structure Cursor where
  pending : List (Option Int64 × Label)
  current : Option (Option Int64 × Label)
  deriving Repr

namespace Cursor

def ofTerminator {α : Type} (t : Terminator α) : Cursor :=
  ⟨t.edges, none⟩

/-- Moves to the next edge and tells whether there is one. -/
def next (c : Cursor) : Cursor × Bool :=
  match c.pending with
  | [] => (⟨[], none⟩, false)
  | e :: rest => (⟨rest, some e⟩, true)

def target? (c : Cursor) : Option Label :=
  c.current.map Prod.snd

def caseValue? (c : Cursor) : Option Int64 :=
  c.current.bind Prod.fst

end Cursor

end RefElision
