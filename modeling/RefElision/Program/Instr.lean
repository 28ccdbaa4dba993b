import RefElision.Program.Operand

/-! Instructions that stand in the body of a block: calls of functions and
operations that are not interpreted. -/
namespace RefElision

/-- What an instruction does with its operands. -/
inductive Action where
  | call (callee : String)
  | op (name : String)
  deriving DecidableEq, Repr

/-- An action with its operands and the variable that receives its result, if any.
The operands are atoms in the text and values in a function. -/
structure Operation (α : Type) where
  result : Option String
  action : Action
  args : List α
  deriving DecidableEq, Repr

def Operation.map {α β : Type} (f : α → β) (o : Operation α) : Operation β :=
  { o with args := o.args.map f }

/-- The operation on values that are tagged from the given tag on. -/
def Operation.tagged (start : Nat) (o : Operation Atom) : Operation Value :=
  { o with args := Atom.values start o.args }

/-- The operation with its result forgotten. -/
def Operation.bare {α : Type} (o : Operation α) : Operation α :=
  { o with result := none }

def resultText : Option String → String
  | none => ""
  | some r => variableText r ++ " = "

/-- Operands in a row. -/
def atomsText (atoms : List Atom) : String :=
  ", ".intercalate (atoms.map Atom.text)

def Operation.text (o : Operation Atom) : String :=
  resultText o.result ++
    match o.action with
    | .call callee => "call @" ++ callee ++ "(" ++ atomsText o.args ++ ")"
    | .op name => if o.args.isEmpty then name else name ++ " " ++ atomsText o.args

/-- An instruction of a function. The tag tells apart instructions that read the
same, and an instruction that stands in two places has one tag. -/
structure Instr where
  tag : Nat
  operation : Operation Value
  deriving DecidableEq, Repr

def Instr.text (i : Instr) : String :=
  (i.operation.map Value.atom).text

/-- The operands that the instruction reads. -/
def Instr.uses (i : Instr) : List Value :=
  i.operation.args

/-- The variables that the instruction assigns. -/
def Instr.defs (i : Instr) : List String :=
  i.operation.result.toList

/-- The variables that the instruction reads or assigns. -/
def Instr.mentioned (i : Instr) : List String :=
  i.uses.filterMap Value.variable? ++ i.defs

end RefElision
