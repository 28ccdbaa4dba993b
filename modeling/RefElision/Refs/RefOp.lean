import RefElision.Options
import RefElision.Graph.Digraph

/-! Reference count operations: how they are recognised, listed and erased. -/
namespace RefElision

inductive RefKind where
  | incref
  | decref
  deriving DecidableEq, Repr

namespace RefKind

def name : RefKind → String
  | .incref => "incref"
  | .decref => "decref"

/-- The name for a number of eight bits. Zero stands for other instructions, and
numbers above two have no meaning. -/
def nameOfCode (n : UInt8) : String :=
  if n = 0 then "none"
  else if n = 1 then RefKind.incref.name
  else if n = 2 then RefKind.decref.name
  else "RefKind(" ++ Text.decimalNat n.toNat ++ ")"

end RefKind

/-- Calls of the two symbols with exactly one operand count references. If both
symbols were the same, it would mean an incref. -/
def Symbols.classify (s : Symbols) (i : Instr) : Option (RefKind × Value) :=
  match i.operation.action, i.operation.args with
  | .call callee, [v] =>
    if callee = s.incref then some (.incref, v)
    else if callee = s.decref then some (.decref, v)
    else none
  | _, _ => none

def Symbols.isIncref (s : Symbols) (i : Instr) : Bool :=
  (s.classify i).any fun k => k.1 == .incref

def Symbols.isDecref (s : Symbols) (i : Instr) : Bool :=
  (s.classify i).any fun k => k.1 == .decref

/-- A reference count operation at its place in a function: the block, and the
position in the body at the time it was found. -/
structure RefOp where
  kind : RefKind
  value : Value
  instr : Instr
  block : Label
  position : Nat
  deriving DecidableEq, Repr

namespace RefOp

def text (op : RefOp) : String :=
  op.block ++ ": " ++ op.instr.text

/-- Whether two operations count the very same value. -/
def related (a b : RefOp) : Bool :=
  a.value.same b.value

/-- The operations of a block in order. -/
def ofBlock (s : Symbols) (b : Block) : List RefOp :=
  b.body.zipIdx.filterMap fun (instr, position) =>
    (s.classify instr).map fun (kind, value) =>
      { kind, value, instr, block := b.label, position }

/-- The operations of a function in the order of blocks and instructions. -/
def ofFunc (s : Symbols) (f : Func) : List RefOp :=
  f.blocks.flatMap (ofBlock s)

end RefOp

/-- The operations of a function, those on null apart from the others. -/
structure RefOps where
  null : List RefOp
  increfs : List RefOp
  decrefs : List RefOp

def RefOps.ofFunc (s : Symbols) (f : Func) : RefOps :=
  let ops := RefOp.ofFunc s f
  let counted := ops.filter fun op => !op.value.isNull
  { null := ops.filter fun op => op.value.isNull
    increfs := counted.filter fun op => op.kind == .incref
    decrefs := counted.filter fun op => op.kind == .decref }

/-- The sum of some counts. -/
def total (counts : List Nat) : Nat :=
  counts.foldr (· + ·) 0

namespace Func

/-- Erases operations. Each block that holds one of them is swept once for all their
instructions, so one that stands twice in a swept block goes twice. -/
def eraseOps (f : Func) (ops : List RefOp) : Func :=
  f.mapBlocks fun b =>
    if ops.any (fun op => op.block == b.label) then b.erase (ops.map fun op => op.instr.tag)
    else b

/-- The number of instructions in the function. -/
def size (f : Func) : Nat :=
  total (f.blocks.map fun b => b.body.length)

/-- The blocks, detached ones included, with the edges of their terminators. -/
def graph (f : Func) : Digraph Label :=
  { nodes := (f.blocks ++ f.detached).map Block.label
    succ := fun l => ((f.anyBlock? l).map Block.successors).getD [] }

end Func

end RefElision
