import RefElision.Program.Reader
import RefElision.Refs.Pipeline

/-! Working on one function over several runs: totals, the default fan-out depth, and
oracles that are computed once and kept. -/
namespace RefElision

/-- A kept oracle answers as it did when it was computed, whatever happens to the
function. -/
structure Session where
  func : Func
  totals : Counters := {}
  defaults : Options := {}
  oracles : List (String × Oracle) := []

/-- Which pass is run. Pruning may be given an oracle. -/
inductive Pass where
  | normalize
  | prune (oracle : Option Oracle)
  | optimize

def Pass.run (p : Pass) (o : Options) (f : Func) : Outcome :=
  match p with
  | .normalize => f.normalize o
  | .prune oracle => f.pruneWith o oracle
  | .optimize => f.optimize o

namespace Session

/-- Runs a pass with the given settings on top of the defaults. If a setting is refused
nothing is run. -/
def run (s : Session) (settings : List Setting) (p : Pass) :
    Except SettingError (Session × Outcome) :=
  match s.defaults.setAll settings with
  | .error e => .error e
  | .ok o =>
    let outcome := p.run o s.func
    .ok ({ s with func := outcome.func, totals := s.totals.add outcome.counters }, outcome)

/-- Changes the default fan-out depth without checking it, and tells the old one. -/
def setFanoutDepth (s : Session) (depth : Int64) : Session × Int64 :=
  ({ s with defaults := { s.defaults with fanoutDepth := depth } }, s.defaults.fanoutDepth)

/-- Computes an oracle for the function as it is now and keeps it under a name. -/
def keepOracle (s : Session) (name : String) (a : Algorithm) : Session :=
  { s with oracles := (name, a.compute s.func) :: s.oracles }

def oracle? (s : Session) (name : String) : Option Oracle :=
  s.oracles.lookup name

/-- Changes the function by hand. -/
def edit (s : Session) (change : Func → Func) : Session :=
  { s with func := change s.func }

/-- Reads the function again from its text. Its blocks are new ones, which no kept
oracle knows. -/
def reparse (s : Session) : Except SyntaxError Session :=
  match Func.parse s.func.text with
  | .error e => .error e
  | .ok f =>
    .ok { s with func := f, oracles := s.oracles.map fun (name, _) => (name, .unknowing) }

end Session

end RefElision
