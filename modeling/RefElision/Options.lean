import RefElision.Dominance.Oracle
import RefElision.Text.Quoted

/-! What the passes can be told: the names of the two reference count operations,
whether and how far increfs are fanned out, and how dominance is computed. -/
namespace RefElision

/-- The callees that stand for an incref and for a decref. -/
structure Symbols where
  incref : String
  decref : String
  deriving DecidableEq, Repr

structure Options where
  symbols : Symbols := ⟨"NRT_incref", "NRT_decref"⟩
  fanout : Bool := true
  fanoutDepth : Int64 := 10
  dominators : Algorithm := .lengauerTarjan
  deriving DecidableEq, Repr

/-- Whether the fan-out walk may look past a block at distance `d` from the incref.
The arithmetic is that of sixty-four bit words and wraps around. -/
def Options.canExpand (o : Options) (d : Int64) : Bool :=
  d + 1 < o.fanoutDepth

/-- One choice. The algorithm is given by its number. -/
inductive Setting where
  | symbols (incref decref : String)
  | fanout (enabled : Bool)
  | fanoutDepth (depth : Int64)
  | dominators (code : Int64)
  deriving DecidableEq, Repr

/-- Why a choice is refused. -/
inductive SettingError where
  | symbols (incref decref : String)
  | fanoutDepth (depth : Int64)
  | dominators (code : Int64)
  deriving DecidableEq, Repr

def SettingError.message : SettingError → String
  | .symbols incref decref =>
    "refprune: invalid refop symbols: " ++ Text.quoted incref ++ ", " ++ Text.quoted decref
  | .fanoutDepth depth => "refprune: invalid fan-out depth: " ++ Text.decimal depth.toInt
  | .dominators code => "refprune: invalid dominator algorithm: " ++ Text.decimal code.toInt

/-- Makes a choice. The two symbols must not be empty and must differ, and the depth
has to be at least one. -/
def Options.set (o : Options) : Setting → Except SettingError Options
  | .symbols incref decref =>
    if incref = "" ∨ decref = "" ∨ incref = decref then .error (.symbols incref decref)
    else .ok { o with symbols := ⟨incref, decref⟩ }
  | .fanout enabled => .ok { o with fanout := enabled }
  | .fanoutDepth depth =>
    if depth < 1 then .error (.fanoutDepth depth) else .ok { o with fanoutDepth := depth }
  | .dominators code =>
    match Algorithm.ofCode? code with
    | some a => .ok { o with dominators := a }
    | none => .error (.dominators code)

/-- Makes choices one after another. The first one that is refused is reported. -/
def Options.setAll (o : Options) : List Setting → Except SettingError Options
  | [] => .ok o
  | s :: rest =>
    match o.set s with
    | .error e => .error e
    | .ok o => o.setAll rest

end RefElision
