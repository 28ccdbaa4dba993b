import Mathlib.Algebra.GroupWithZero.Nat
import RefElision.Proofs.Refs.Frame

/-! The counters of a pass are those that its records add up to. -/
namespace RefElision

/-- What one event adds to the counters. -/
def Event.tally : Event → Counters
  | .movedDecrefs _ count => { decrefsMoved := count }
  | .droppedNull _ => { nullDropped := 1 }
  | .rejectedPair .. => { pairsRejected := 1 }
  | .prunedPair .. => { pairsPruned := 1 }
  | .prunedFanout _ decrefs => { fanoutIncrefs := 1, fanoutDecrefs := decrefs }

/-- The number in a field of the record for an event, zero if there is no such field. -/
def Event.number (function key : String) (e : Event) : Nat :=
  match (e.fields function).lookup key with
  | some (.number n) => n
  | _ => 0

namespace Counters

theorem zero_add (c : Counters) : Counters.add {} c = c := by
  simp [Counters.add]

theorem add_assoc (a b c : Counters) : (a.add b).add c = a.add (b.add c) := by
  simp [Counters.add, Nat.add_assoc]

/-- How often a function was changed: decrefs that were moved, operations on null, pairs and
increfs that were fanned out. -/
def changes (c : Counters) : Nat :=
  c.decrefsMoved + c.nullDropped + c.pairsPruned + c.fanoutIncrefs

theorem changes_add (a b : Counters) : (a.add b).changes = a.changes + b.changes := by
  simp only [changes, Counters.add]
  omega

/-- What all events add to the counters. -/
def ofEvents (events : List Event) : Counters :=
  events.foldr (fun e c => e.tally.add c) {}

theorem ofEvents_append (xs ys : List Event) :
    ofEvents (xs ++ ys) = (ofEvents xs).add (ofEvents ys) := by
  induction xs with
  | nil => exact (zero_add _).symm
  | cons e rest ih =>
      show e.tally.add (ofEvents (rest ++ ys)) = (e.tally.add (ofEvents rest)).add (ofEvents ys)
      rw [ih, add_assoc]

end Counters

/-- How many records have a message. -/
def recordCount (message : String) (events : List Event) : Nat :=
  events.countP fun e => e.message == message

/-- The sum of a field over all records that have a message. -/
def recordSum (function message key : String) (events : List Event) : Nat :=
  ((events.filter fun e => e.message == message).map (Event.number function key)).sum

/-- The counters that can be told from the records of a function. -/
def Counters.ofRecords (function : String) (events : List Event) : Counters where
  decrefsMoved := recordSum function "moved decrefs after the last incref" "count" events
  nullDropped := recordCount "dropping refop on null" events
  pairsPruned := recordCount "pruned refop pair" events
  pairsRejected := recordCount "refop pair rejected" events
  fanoutIncrefs := recordCount "pruned fan-out incref" events
  fanoutDecrefs := recordSum function "pruned fan-out incref" "decrefs" events

theorem Counters.ofEvents_eq (function : String) (events : List Event) :
    ofEvents events = ofRecords function events := by
  induction events with
  | nil => rfl
  | cons e rest ih =>
      show e.tally.add (ofEvents rest) = _
      rw [ih]
      cases e <;>
        simp [Event.tally, Counters.add, ofRecords, recordSum, recordCount, Event.message,
          Event.number, Event.fields, List.lookup_cons, Nat.add_comm]

/-- All counters are those that the events add up to. -/
def Outcome.Booked (r : Outcome) : Prop :=
  r.counters = .ofEvents r.events

theorem Outcome.Booked.andThen {r : Outcome} {pass : Func → Outcome} (hFirst : r.Booked)
    (hSecond : (pass r.func).Booked) : (r.andThen pass).Booked := by
  show r.counters.add (pass r.func).counters = .ofEvents (r.events ++ (pass r.func).events)
  rw [hFirst, hSecond, Counters.ofEvents_append]

theorem total_eq_sum (counts : List Nat) : total counts = counts.sum :=
  rfl

/-- Blocks in which nothing is moved have no record. -/
theorem ofEvents_moved (moved : List (Label × Nat)) :
    Counters.ofEvents ((moved.filter fun x => x.2 != 0).map fun x => .movedDecrefs x.1 x.2) =
      { decrefsMoved := (moved.map Prod.snd).sum } := by
  induction moved with
  | nil => rfl
  | cons x rest ih =>
      by_cases hZero : x.2 = 0
      case pos => simpa [hZero] using ih
      case neg =>
        rw [List.filter_cons_of_pos (by simpa using hZero), List.map_cons, List.map_cons,
          List.sum_cons]
        show Counters.add { decrefsMoved := x.2 } (Counters.ofEvents _) = _
        rw [ih]
        rfl

theorem ofEvents_null (ops : List RefOp) :
    Counters.ofEvents (ops.map .droppedNull) = { nullDropped := ops.length } := by
  induction ops with
  | nil => rfl
  | cons op rest ih =>
      show Counters.add { nullDropped := 1 } (Counters.ofEvents (rest.map .droppedNull)) = _
      rw [ih]
      simp [Counters.add, Nat.add_comm]

theorem ofEvents_rejected (incref : RefOp) (refused : List (RefOp × Objection)) :
    Counters.ofEvents (refused.map fun x => .rejectedPair incref x.1 x.2) =
      { pairsRejected := refused.length } := by
  induction refused with
  | nil => rfl
  | cons x rest ih =>
      show Counters.add { pairsRejected := 1 } (Counters.ofEvents
        (rest.map fun x => .rejectedPair incref x.1 x.2)) = _
      rw [ih]
      simp [Counters.add, Nat.add_comm]

theorem ofEvents_fans (fans : List (RefOp × List RefOp)) :
    Counters.ofEvents (fans.map fun x => .prunedFanout x.1 x.2.length) =
      { fanoutIncrefs := fans.length, fanoutDecrefs := (fans.map fun x => x.2.length).sum } := by
  induction fans with
  | nil => rfl
  | cons x rest ih =>
      show Counters.add { fanoutIncrefs := 1, fanoutDecrefs := x.2.length } (Counters.ofEvents
        (rest.map fun x => .prunedFanout x.1 x.2.length)) = _
      rw [ih]
      simp [Counters.add, Nat.add_comm]

/-- Each pair and each refusal has its record. -/
theorem ofEvents_pair (g : Digraph Label) (oracle : Oracle) (live increfs : List RefOp) :
    Counters.ofEvents (Prune.pair g oracle live increfs).events =
      { pairsPruned := (Prune.pair g oracle live increfs).pairs.length
        pairsRejected := (Prune.pair g oracle live increfs).rejected } := by
  induction increfs generalizing live with
  | nil => rfl
  | cons incref rest ih =>
      rw [Prune.pair]
      cases hPartner : Prune.partner g oracle live incref live with
      | mk refused found =>
          cases found with
          | none =>
              simp only [Counters.ofEvents_append, ofEvents_rejected, ih]
              simp [Counters.add]
          | some decref =>
              have hPruned : ∀ events, Counters.ofEvents (.prunedPair incref decref :: events) =
                  Counters.add { pairsPruned := 1 } (.ofEvents events) := fun _ => rfl
              simp only [Counters.ofEvents_append, ofEvents_rejected, hPruned, ih]
              simp [Counters.add, Nat.add_comm]

namespace Func

variable {f : Func} {o : Options} {oracle : Oracle}

theorem booked_normalize : (f.normalize o).Booked := by
  have hMoved := ofEvents_moved
    (f.blocks.map fun b => (b.label, Normalize.movedIn o.symbols b))
  exact hMoved.symm

theorem size_eq : f.size = f.instrs.length := by
  rw [size, total_eq_sum, instrs, List.length_flatMap]

/-- As many instructions go as there are operations on null. -/
theorem size_eraseOps_null (h : f.Linked) (hTags : f.tags.Nodup) (s : Symbols) :
    f.size - (f.eraseOps (RefOps.ofFunc s f).null).size = (RefOps.ofFunc s f).null.length := by
  have hListed : (RefOps.ofFunc s f).null ⊆ RefOp.ofFunc s f := fun op hOp =>
    (RefOps.mem_null.mp hOp).1
  have hNodup : (RefOps.ofFunc s f).null.Nodup := (RefOp.nodup_ofFunc h).filter _
  have hLength := (thins_erase hTags hListed hNodup).perm.length_eq
  rw [List.length_append, List.length_map] at hLength
  rw [eraseOps_listed hTags hListed, size_eq, size_eq]
  omega

theorem counters_prune (h : f.Linked) (hTags : f.tags.Nodup) :
    (f.prune o oracle).counters =
      { nullDropped := (RefOps.ofFunc o.symbols f).null.length
        pairsPruned := (f.pairing o oracle).pairs.length
        pairsRejected := (f.pairing o oracle).rejected
        fanoutIncrefs := (f.fans o oracle).length
        fanoutDecrefs := ((f.fans o oracle).map fun x => x.2.length).sum } := by
  rw [← size_eraseOps_null h hTags]
  rfl

theorem events_prune : (f.prune o oracle).events =
    (RefOps.ofFunc o.symbols f).null.map .droppedNull ++ (f.pairing o oracle).events ++
      (f.fans o oracle).map fun x => .prunedFanout x.1 x.2.length :=
  rfl

theorem booked_prune (h : f.Linked) (hTags : f.tags.Nodup) : (f.prune o oracle).Booked := by
  rw [Outcome.Booked, counters_prune h hTags, events_prune, Counters.ofEvents_append,
    Counters.ofEvents_append, ofEvents_null, ofEvents_fans, pairing, ofEvents_pair]
  simp [Counters.add]

end Func

/-- The counters of every pass can be told from its records. -/
theorem Pass.booked {f : Func} (h : f.Linked) (hTags : f.tags.Nodup) (p : Pass) (o : Options) :
    (p.run o f).Booked := by
  cases p with
  | normalize => exact Func.booked_normalize
  | prune oracle => exact Func.booked_prune h hTags
  | optimize =>
      exact Func.booked_normalize.andThen
        (Func.booked_prune h.normalize (Func.thins_normalize.tags_nodup hTags))

end RefElision
