import RefElision.Graph.Walk
import RefElision.Refs.Between

/-! Balancing one incref against decrefs on all paths that leave its block. -/
namespace RefElision

namespace Fanout

/-- The nearest blocks with a related decref on all paths that leave the block of an
incref, in the order of their discovery. -/
def nearest? (g : Digraph Label) (o : Options) (live : List RefOp) (incref : RefOp) :
    Option (List Label) :=
  Walk.resolve g (fun l => (relatedDecref? live l incref).isSome)
    (fun length => o.canExpand (Int64.ofNat length)) incref.block

/-- Blocks whose related decrefs balance an incref. Its block has to dominate each of
them, no other decref may come before them, and no path may lead from one of them
to another except through the block of the incref. -/
def blocks? (g : Digraph Label) (o : Options) (oracle : Oracle) (live : List RefOp)
    (incref : RefOp) : Option (List Label) :=
  match nearest? g o live incref with
  | none => none
  | some found =>
    if found.all (oracle.dominates incref.block) &&
        !decrefBetween g live incref.block found &&
        !reachesAvoiding g found found (some incref.block)
    then some found
    else none

end Fanout

end RefElision
