import RefElision.Refs.Event

/-! The normal form of a block: no decref stands before an incref. It is reached by
delaying decrefs. Those that are moved keep their order among themselves. -/
namespace RefElision

namespace Normalize

variable (s : Symbols)

/-- The body up to and including its last incref, and the rest. Without an incref all
of the body is rest. -/
def splitAtLastIncref (body : List Instr) : List Instr × List Instr :=
  let reversed := body.reverse
  ((reversed.dropWhile fun i => !s.isIncref i).reverse,
    (reversed.takeWhile fun i => !s.isIncref i).reverse)

/-- The decrefs that stand before the last incref. -/
def early (body : List Instr) : List Instr :=
  (splitAtLastIncref s body).1.filter s.isDecref

/-- The body without the early decrefs. -/
def settled (body : List Instr) : List Instr :=
  let (front, back) := splitAtLastIncref s body
  front.filter (fun i => !s.isDecref i) ++ back

/-- The body with its early decrefs moved down to the run of decrefs that ends it.
They are put in front of that run. -/
def normalBody (body : List Instr) : List Instr :=
  let reversed := (settled s body).reverse
  (reversed.dropWhile s.isDecref).reverse ++ early s body ++
    (reversed.takeWhile s.isDecref).reverse

def normalBlock (b : Block) : Block :=
  { b with body := normalBody s b.body }

/-- How many decrefs are moved in a block. -/
def movedIn (b : Block) : Nat :=
  (early s b.body).length

end Normalize

/-- Brings every block into normal form. -/
def Func.normalize (f : Func) (o : Options) : Outcome :=
  let moved := f.blocks.map fun b => (b.label, Normalize.movedIn o.symbols b)
  let affected := moved.filter fun (_, count) => count != 0
  { func := f.mapBlocks (Normalize.normalBlock o.symbols)
    changed := !affected.isEmpty
    counters := { decrefsMoved := total (moved.map Prod.snd) }
    events := affected.map fun (block, count) => .movedDecrefs block count }

end RefElision
