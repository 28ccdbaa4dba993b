import RefElision.Refs.Normalize
import RefElision.Refs.Prune

/-! The passes in the order in which they are run. -/
namespace RefElision

/-- Prunes with a given oracle, or with one computed as the options say. It is computed when
it is first asked, and by then operations on null have been dropped. -/
def Func.pruneWith (f : Func) (o : Options) (oracle : Option Oracle) : Outcome :=
  f.prune o
    (oracle.getD (o.dominators.compute (f.eraseOps (RefOps.ofFunc o.symbols f).null)))

/-- Brings a function into normal form and prunes it. Pruning requires an oracle, which is
computed in between. -/
def Func.optimize (f : Func) (o : Options) : Outcome :=
  (f.normalize o).andThen fun g => g.pruneWith o (some (o.dominators.compute g))

/-- A description of a pass. -/
structure PassInfo where
  name : String
  argument : String
  requires : List Analysis
  deriving DecidableEq, Repr

/-- The passes that optimising runs. -/
def passes : List PassInfo :=
  [{ name := "normalize refops", argument := "nrtrefnormalizepass", requires := [] },
    { name := "prune refops", argument := "nrtrefprunepass",
      requires := [.domTree, .postDomTree] }]

end RefElision
