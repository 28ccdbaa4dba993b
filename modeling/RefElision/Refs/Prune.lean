import RefElision.Refs.Event
import RefElision.Refs.Fanout

/-! Removing reference count operations that have no effect on any path: operations
on null, pairs of an incref and a decref, and increfs that are balanced by a decref
on every path. What is to be removed is decided on the function as it was before,
and a decref that is used up no longer counts. -/
namespace RefElision

namespace RefOp

/-- Whether one operation comes before another whenever the other is executed. -/
def dominates (oracle : Oracle) (a b : RefOp) : Bool :=
  if a.block = b.block then a.position < b.position else oracle.dominates a.block b.block

/-- Whether one operation comes after another whenever the other is executed. -/
def postDominates (oracle : Oracle) (a b : RefOp) : Bool :=
  if a.block = b.block then b.position < a.position
  else oracle.postDominates a.block b.block

end RefOp

namespace Prune

variable (g : Digraph Label) (oracle : Oracle)

/-- What speaks against a pair that balances. Nothing does within one block. -/
def objection? (live : List RefOp) (incref decref : RefOp) : Option Objection :=
  if decref.block = incref.block then none
  else if decrefBetween g live incref.block [decref.block] then some .decrefBetween
  else if !balanced g incref.block decref.block then some .unbalancedCycle
  else none

/-- Whether a decref undoes an incref on every path. -/
def balances (incref decref : RefOp) : Bool :=
  incref.related decref && incref.dominates oracle decref &&
    decref.postDominates oracle incref

/-- The first candidate that goes with an incref, and those in front of it that had to
be refused. -/
def partner (live : List RefOp) (incref : RefOp) :
    List RefOp → List (RefOp × Objection) × Option RefOp
  | [] => ([], none)
  | decref :: rest =>
    if balances oracle incref decref then
      match objection? g live incref decref with
      | none => ([], some decref)
      | some objection =>
        let (refused, found) := partner live incref rest
        ((decref, objection) :: refused, found)
    else partner live incref rest

/-- The outcome of looking for pairs. -/
structure Pairing where
  live : List RefOp
  pairs : List (RefOp × RefOp) := []
  unpaired : List RefOp := []
  rejected : Nat := 0
  events : List Event := []

/-- Looks for a partner of each incref in turn, among the decrefs that are live then. -/
def pair (live : List RefOp) : List RefOp → Pairing
  | [] => { live }
  | incref :: rest =>
    let (refused, found) := partner g oracle live incref live
    let rejections := refused.map fun (decref, objection) =>
      Event.rejectedPair incref decref objection
    match found with
    | none =>
      let p := pair live rest
      { p with
        unpaired := incref :: p.unpaired
        rejected := refused.length + p.rejected
        events := rejections ++ p.events }
    | some decref =>
      let p := pair (live.erase decref) rest
      { p with
        pairs := (incref, decref) :: p.pairs
        rejected := refused.length + p.rejected
        events := rejections ++ Event.prunedPair incref decref :: p.events }

/-- The increfs that are fanned out, each with one decref in every block found. -/
def fanOut (o : Options) (live : List RefOp) : List RefOp → List (RefOp × List RefOp)
  | [] => []
  | incref :: rest =>
    match Fanout.blocks? g o oracle live incref with
    | none => fanOut o live rest
    | some found =>
      let decrefs := found.filterMap fun l => relatedDecref? live l incref
      (incref, decrefs) :: fanOut o (live.filter fun d => !decrefs.contains d) rest

end Prune

open Prune in
/-- Removes operations on null, then pairs, then increfs that can be fanned out. -/
def Func.prune (f : Func) (o : Options) (oracle : Oracle) : Outcome :=
  let ops := RefOps.ofFunc o.symbols f
  let cleared := f.eraseOps ops.null
  let dropped := f.size - cleared.size
  let pairing := pair f.graph oracle ops.decrefs ops.increfs
  let paired := cleared.eraseOps (pairing.pairs.flatMap fun (incref, decref) => [incref, decref])
  let fans := if o.fanout then fanOut f.graph oracle o pairing.live pairing.unpaired else []
  { func := paired.eraseOps (fans.flatMap fun (incref, decrefs) => incref :: decrefs)
    changed := dropped != 0 || pairing.pairs.length + fans.length != 0
    counters :=
      { nullDropped := dropped
        pairsPruned := pairing.pairs.length
        pairsRejected := pairing.rejected
        fanoutIncrefs := fans.length
        fanoutDecrefs := total (fans.map fun (_, decrefs) => decrefs.length) }
    events :=
      ops.null.map .droppedNull ++ pairing.events ++
        fans.map fun (incref, decrefs) => .prunedFanout incref decrefs.length }

end RefElision
