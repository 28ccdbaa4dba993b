import RefElision.Program.Func

/-! Putting a function together step by step. A step that cannot be carried out
leaves the blocks alone and records what is wrong; only the first mistake is
kept, and later steps still act. -/
namespace RefElision

/-- Why a function cannot be built. -/
inductive BuildError where
  | labelLinked (l : Label)
  | instructionOutside (o : Operation Atom)
  | terminatorOutside (t : Terminator Atom)
  | terminatorAsInstruction (t : Terminator Atom)
  | terminatorAsInstructionOutside (t : Terminator Atom)
  | unresolvedLabels (labels : List Label)
  | unterminated (l : Label)
  | noBlocks (name : String)
  | undefinedVariables (names : List String)
  deriving DecidableEq, Repr

/-- A list in brackets with blanks between its items. -/
def bracketList (items : List String) : String :=
  "[" ++ " ".intercalate items ++ "]"

def BuildError.message : BuildError → String
  | .labelLinked l => "label " ++ l ++ " has already been linked"
  | .instructionOutside o => "instruction outside of a block: " ++ o.text
  | .terminatorOutside t => "terminator outside of a block: " ++ t.text
  | .terminatorAsInstruction t => "terminator emitted as an instruction: " ++ t.text
  | .terminatorAsInstructionOutside t => "instruction outside of a block: " ++ t.text
  | .unresolvedLabels labels => "labels are not fully resolved: " ++ bracketList labels
  | .unterminated l => "basic block " ++ l ++ " does not terminate"
  | .noBlocks name => "function " ++ name ++ " has no blocks"
  | .undefinedVariables names =>
    "values are never defined: " ++ bracketList (names.map variableText)

/-- A block that has no terminator yet. -/
structure OpenBlock where
  number : Nat
  label : Label
  body : List Instr
  deriving DecidableEq, Repr

def OpenBlock.close (b : OpenBlock) (t : Terminator Value) : Block :=
  { number := b.number, label := b.label, body := b.body, preds := [], term := t }

/-- The variables that were made so far, each with its name and a number of its own.
The newest comes first. -/
abbrev VariableTable := List (String × Nat)

namespace VariableTable

/-- Asks for the variable of a name. It is made if there is none. -/
def enter (table : VariableTable) (x : String) : VariableTable :=
  match table.lookup x with
  | some _ => table
  | none => (x, table.length) :: table

def enterAll (table : VariableTable) (names : List String) : VariableTable :=
  names.foldl enter table

end VariableTable

/-- A function under construction: its variables, the finished blocks in order, the
block that is open, the labels that terminators have named, the first mistake, and a
tag above those handed out. -/
structure Builder where
  name : String
  args : List String
  table : VariableTable := []
  finished : List Block := []
  current : Option OpenBlock := none
  targets : List Label := []
  error : Option BuildError := none
  nextTag : Nat := 0
  deriving DecidableEq, Repr

namespace Builder

/-- A function of which nothing but the name and the arguments is known. -/
def empty (name : String) (args : List String) : Builder :=
  { name, args, table := VariableTable.enterAll [] args }

/-- Keeps the first mistake. -/
def fail (b : Builder) (e : BuildError) : Builder :=
  { b with error := b.error.or (some e) }

def placedLabels (b : Builder) : List Label :=
  b.finished.map Block.label ++ (b.current.map OpenBlock.label).toList

/-- Starts a block. A block that is still open falls through into it. -/
def label (b : Builder) (l : Label) : Builder :=
  if l ∈ b.placedLabels then b.fail (.labelLinked l)
  else
    let finished := b.finished ++ (b.current.map (·.close (.jump l))).toList
    { b with
      finished := finished
      current := some { number := finished.length + 1, label := l, body := [] } }

/-- Asks for the variables that a step is about. -/
def intern (b : Builder) (names : List String) : Builder :=
  { b with table := b.table.enterAll names }

/-- Appends an instruction to the open block. If there is none, the mistake shows
the given operation. -/
def emitShown (b : Builder) (shown : Operation Value) (i : Instr) : Builder :=
  match b.current with
  | none => (b.intern i.mentioned).fail (.instructionOutside (shown.map Value.atom))
  | some block =>
    { b.intern i.mentioned with current := some { block with body := block.body ++ [i] } }

/-- Appends an instruction, which may have been emitted before, to the open block. -/
def emit (b : Builder) (i : Instr) : Builder :=
  b.emitShown i.operation i

/-- A terminator is no instruction. -/
def emitTerminator (b : Builder) (t : Terminator Value) : Builder :=
  match b.current with
  | none => (b.intern t.mentioned).fail (.terminatorAsInstructionOutside (t.map Value.atom))
  | some _ => (b.intern t.mentioned).fail (.terminatorAsInstruction (t.map Value.atom))

/-- Puts tags aside for operands and instructions that are made now. -/
def reserve (b : Builder) (count : Nat) : Builder :=
  { b with nextTag := b.nextTag + count }

/-- The instruction that an operation becomes if it is performed now. -/
def nextInstr (b : Builder) (o : Operation Value) : Instr :=
  ⟨b.nextTag, o⟩

/-- Makes an instruction and appends it to the open block. -/
def perform (b : Builder) (o : Operation Value) : Builder :=
  (b.reserve 1).emit (b.nextInstr o)

/-- Makes an instruction, appends it to the open block and names its result last, so
that outside of a block it is reported without the result. -/
def performThenName (b : Builder) (o : Operation Value) : Builder :=
  (b.reserve 1).emitShown o.bare (b.nextInstr o)

/-- Ends the open block. The labels that the terminator names have to be placed in
the end, also if no block is open. -/
def terminate (b : Builder) (t : Terminator Value) : Builder :=
  let b := { b.intern t.mentioned with targets := b.targets ++ t.successors }
  match b.current with
  | none => b.fail (.terminatorOutside (t.map Value.atom))
  | some block => { b with finished := b.finished ++ [block.close t], current := none }

/-- Distinct texts in ascending order. -/
def sorted (names : List String) : List String :=
  names.eraseDups.mergeSort (fun a b => decide (a ≤ b))

/-- The labels that are named by terminators but not placed. -/
def unresolved (b : Builder) : List Label :=
  sorted (b.targets.filter fun l => !b.placedLabels.contains l)

/-- The arguments and the results of all instructions. -/
def defined (b : Builder) : List String :=
  b.args ++ b.finished.flatMap fun block => block.body.flatMap Instr.defs

/-- The variables that instructions and terminators read. -/
def used (b : Builder) : List String :=
  b.finished.flatMap fun block =>
    (block.body.flatMap Instr.uses ++ block.term.uses).filterMap Value.variable?

/-- The variables that are used but not defined. -/
def undefined (b : Builder) : List String :=
  sorted (b.used.filter fun x => !b.defined.contains x)

/-- What is wrong with a function that is to be finished now. A mistake made on the
way comes first, and variables are looked at only if all else is right. -/
def finalError (b : Builder) : Option BuildError :=
  match b.error, b.unresolved, b.current, b.finished with
  | some e, _, _, _ => some e
  | none, l :: rest, _, _ => some (.unresolvedLabels (l :: rest))
  | none, [], some block, _ => some (.unterminated block.label)
  | none, [], none, [] => some (.noBlocks b.name)
  | none, [], none, _ :: _ =>
    match b.undefined with
    | [] => none
    | names => some (.undefinedVariables names)

/-- Finishes the function, or says why it cannot be finished. The answer is recorded
as a mistake, and building may go on after it. -/
def build (b : Builder) : Builder × Except BuildError Func :=
  match b.finalError with
  | some e => ({ b with error := some e }, .error e)
  | none => (b, .ok { name := b.name, args := b.args, blocks := b.finished : Func }.rebuild)

/-- One step of building. An attempt to finish the function is a step too. -/
inductive Step where
  | label (l : Label)
  | perform (o : Operation Value)
  | performThenName (o : Operation Value)
  | emit (i : Instr)
  | emitTerminator (t : Terminator Value)
  | terminate (t : Terminator Value)
  | build
  deriving DecidableEq, Repr

def step (b : Builder) : Step → Builder
  | .label l => b.label l
  | .perform o => b.perform o
  | .performThenName o => b.performThenName o
  | .emit i => b.emit i
  | .emitTerminator t => b.emitTerminator t
  | .terminate t => b.terminate t
  | .build => b.build.1

/-- All steps in turn. -/
def run (b : Builder) (steps : List Step) : Builder :=
  steps.foldl step b

end Builder

end RefElision
