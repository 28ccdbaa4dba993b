import RefElision.Program.Terminator

/-! Blocks and functions, their text, and the edits that keep a function's blocks
but change what stands in them or where they stand. -/
namespace RefElision

/-- A block has a number and a label, a body, and a terminator. The list of its
predecessors is kept as it was last computed. -/
structure Block where
  number : Nat
  label : Label
  body : List Instr
  preds : List Label
  term : Terminator Value
  deriving DecidableEq, Repr

namespace Block

def successors (b : Block) : List Label :=
  b.term.successors

def text (b : Block) : String :=
  "\n".intercalate
    ([b.label ++ ":"] ++ b.body.map (fun i => "    " ++ i.text) ++
      ["    " ++ (b.term.map Value.atom).text])

/-- The body without the instructions that have one of the tags. -/
def erase (b : Block) (tags : List Nat) : Block :=
  { b with body := b.body.filter fun i => !tags.contains i.tag }

/-- How many instructions of the body have one of the tags. -/
def countTagged (b : Block) (tags : List Nat) : Nat :=
  b.body.countP fun i => tags.contains i.tag

/-- The first place of an instruction in the body. -/
def index? (b : Block) (i : Instr) : Option Nat :=
  b.body.findIdx? fun j => j.tag == i.tag

end Block

/-- A function with its blocks in order, the first being the entry. A block that
was taken out is detached: it is no longer part of the function, but edges may
still lead to it. -/
structure Func where
  name : String
  args : List String
  blocks : List Block
  detached : List Block := []
  deriving DecidableEq, Repr

namespace Func

def labels (f : Func) : List Label :=
  f.blocks.map Block.label

def entry? (f : Func) : Option Label :=
  f.labels.head?

/-- The largest block number, zero if there is no block. -/
def maxNumber (f : Func) : Nat :=
  f.blocks.foldl (fun n b => max n b.number) 0

/-- A block that is part of the function. -/
def block? (f : Func) (l : Label) : Option Block :=
  f.blocks.find? (·.label == l)

/-- A block of the function or a detached one. -/
def anyBlock? (f : Func) (l : Label) : Option Block :=
  (f.blocks ++ f.detached).find? (·.label == l)

def text (f : Func) : String :=
  "func @" ++ f.name ++ "(" ++ ", ".intercalate (f.args.map variableText) ++ ") \x7b\n" ++
    "\n".intercalate (f.blocks.map Block.text) ++ "\n\x7d\n"

/-- Changes every block of the function, detached ones aside. -/
def mapBlocks (f : Func) (change : Block → Block) : Func :=
  { f with blocks := f.blocks.map change }

/-- Changes the block with a label, be it detached or not. -/
def modify (f : Func) (l : Label) (change : Block → Block) : Func :=
  let atLabel := fun b => if b.label = l then change b else b
  { f with blocks := f.blocks.map atLabel, detached := f.detached.map atLabel }

/-- The blocks of the function that lead to a label, in order. -/
def predecessorsOf (f : Func) (l : Label) : List Label :=
  (f.blocks.filter fun b => b.successors.contains l).map Block.label

/-- Computes the predecessors of the function's blocks anew. A detached block keeps
those that it had, and gains the blocks that lead to it now. -/
def rebuild (f : Func) : Func :=
  { f with
    blocks := f.blocks.map fun b => { b with preds := f.predecessorsOf b.label }
    detached := f.detached.map fun b =>
      { b with
        preds := b.preds ++ (f.predecessorsOf b.label).filter fun l => !b.preds.contains l } }

def setTerm (f : Func) (l : Label) (t : Terminator Value) : Func :=
  f.modify l fun b => { b with term := t }

def append (f : Func) (l : Label) (i : Instr) : Func :=
  f.modify l fun b => { b with body := b.body ++ [i] }

/-- Takes a block out of the function. Edges to it stay. -/
def detach (f : Func) (l : Label) : Func :=
  { f with
    blocks := f.blocks.filter fun b => b.label != l
    detached := f.detached ++ f.blocks.filter fun b => b.label == l }

/-- Takes a block from where it is and puts it at a position of the function. A
detached block becomes part of the function again. -/
def move (f : Func) (l : Label) (position : Nat) : Func :=
  match f.anyBlock? l with
  | none => f
  | some b =>
    { f with
      blocks := (f.blocks.filter fun c => c.label != l).insertIdx position b
      detached := f.detached.filter fun c => c.label != l }

/-- A tag above all tags of the function. -/
def freshTag (f : Func) : Nat :=
  let valueTag : Value → Nat := fun v =>
    match v with
    | .var _ => 0
    | .null tag => tag
    | .int tag _ => tag
  let tags := (f.blocks ++ f.detached).flatMap fun b =>
    b.body.flatMap (fun i => i.tag :: i.uses.map valueTag) ++ b.term.uses.map valueTag
  tags.foldl max 0 + 1

end Func

end RefElision
