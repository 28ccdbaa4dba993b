import RefElision.Refs.RefOp

/-! What the passes tell about their work: events in the order in which they happen,
and counters that are summed up over runs. -/
namespace RefElision

/-- Why a pair of operations that would balance each other has to stay. -/
inductive Objection where
  | decrefBetween
  | unbalancedCycle
  deriving DecidableEq, Repr

def Objection.text : Objection → String
  | .decrefBetween => "decref in between"
  | .unbalancedCycle => "unbalanced cycle"

/-- Something that a pass has done or refused to do. -/
inductive Event where
  | movedDecrefs (block : Label) (count : Nat)
  | droppedNull (op : RefOp)
  | rejectedPair (incref decref : RefOp) (objection : Objection)
  | prunedPair (incref decref : RefOp)
  | prunedFanout (incref : RefOp) (decrefs : Nat)
  deriving DecidableEq, Repr

namespace Event

def message : Event → String
  | .movedDecrefs .. => "moved decrefs after the last incref"
  | .droppedNull .. => "dropping refop on null"
  | .rejectedPair .. => "refop pair rejected"
  | .prunedPair .. => "pruned refop pair"
  | .prunedFanout .. => "pruned fan-out incref"

/-- Everything that passes tell is for debugging. -/
def level (_ : Event) : String :=
  "debug"

/-- A field of a record is a text or a number. -/
inductive Field where
  | text (s : String)
  | number (n : Nat)
  deriving DecidableEq, Repr

/-- The named fields of the record for an event in a function. -/
def fields (function : String) (e : Event) : List (String × Field) :=
  ("func", .text function) ::
    match e with
    | .movedDecrefs block count => [("block", .text block), ("count", .number count)]
    | .droppedNull op => [("refop", .text op.text)]
    | .rejectedPair incref decref objection =>
      [("incref", .text incref.text), ("decref", .text decref.text),
        ("reason", .text objection.text)]
    | .prunedPair incref decref =>
      [("incref", .text incref.text), ("decref", .text decref.text)]
    | .prunedFanout incref decrefs =>
      [("incref", .text incref.text), ("decrefs", .number decrefs)]

end Event

structure Counters where
  decrefsMoved : Nat := 0
  nullDropped : Nat := 0
  pairsPruned : Nat := 0
  pairsRejected : Nat := 0
  fanoutIncrefs : Nat := 0
  fanoutDecrefs : Nat := 0
  deriving DecidableEq, Repr

def Counters.add (a b : Counters) : Counters :=
  { decrefsMoved := a.decrefsMoved + b.decrefsMoved
    nullDropped := a.nullDropped + b.nullDropped
    pairsPruned := a.pairsPruned + b.pairsPruned
    pairsRejected := a.pairsRejected + b.pairsRejected
    fanoutIncrefs := a.fanoutIncrefs + b.fanoutIncrefs
    fanoutDecrefs := a.fanoutDecrefs + b.fanoutDecrefs }

/-- The result of a pass: the function after it, whether it did anything, by how much
the counters grow, and what happened. -/
structure Outcome where
  func : Func
  changed : Bool
  counters : Counters
  events : List Event

/-- Runs a pass on the function that another pass has left. -/
def Outcome.andThen (first : Outcome) (pass : Func → Outcome) : Outcome :=
  let second := pass first.func
  { func := second.func
    changed := first.changed || second.changed
    counters := first.counters.add second.counters
    events := first.events ++ second.events }

end RefElision
