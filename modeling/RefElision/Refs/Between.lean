import RefElision.Refs.RefOp

/-! Questions about what can happen on the way between blocks. Decrefs are given as
the list of those that are still live. -/
namespace RefElision

/-- Whether a block holds a live decref. -/
def holdsDecref (live : List RefOp) (l : Label) : Bool :=
  live.any fun d => d.block == l

/-- The first live decref in a block that is related to an operation. -/
def relatedDecref? (live : List RefOp) (l : Label) (op : RefOp) : Option RefOp :=
  live.find? fun d => d.block == l && op.related d

/-- Whether a path that leaves the head can come to a live decref before it comes to
one of the tails. -/
def decrefBetween (g : Digraph Label) (live : List RefOp) (head : Label)
    (tails : List Label) : Bool :=
  (g.reachBeyond tails.contains [head]).any (holdsDecref live)

/-- Whether a target can be reached from a source by at least one step without coming
to the avoided block. -/
def reachesAvoiding (g : Digraph Label) (sources targets : List Label)
    (avoid : Option Label) : Bool :=
  (g.reachBeyond (fun l => avoid == some l) sources).any targets.contains

/-- Whether two blocks take turns, given that the first dominates the second and the
second post-dominates the first: no cycle through one of them misses the other. -/
def balanced (g : Digraph Label) (a c : Label) : Bool :=
  !reachesAvoiding g [c] [c] (some a) && !reachesAvoiding g [a] [a] (some c)

end RefElision
