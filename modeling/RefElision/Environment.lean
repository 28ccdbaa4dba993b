import RefElision.Options
import RefElision.Text.Numeral

/-! Defaults from environment variables. A variable with an empty value counts as
unset. -/
namespace RefElision

/-- Why the value of a variable is refused. -/
inductive EnvironmentError where
  | invalid (key : String)
  | tooSmall (key : String)
  deriving DecidableEq, Repr

def EnvironmentError.message : EnvironmentError → String
  | .invalid key => "refprune: invalid value for " ++ key
  | .tooSmall key => "refprune: value too small for " ++ key

namespace Environment

/-- The value of a variable as something reads it, or the default if it is unset. -/
def readOr {α : Type} (read? : String → Option α) (key value : String) (default : α) :
    Except EnvironmentError α :=
  if value = "" then .ok default
  else
    match read? value with
    | some a => .ok a
    | none => .error (.invalid key)

/-- An unsigned literal that is taken as a signed word, wrapping around, and that must
not be less than a minimum. The default is not held to the minimum. -/
def integer (key value : String) (default minimum : Int64) : Except EnvironmentError Int64 :=
  if value = "" then .ok default
  else
    match Text.unsigned? value.toList with
    | none => .error (.invalid key)
    | some n => if n.toInt64 < minimum then .error (.tooSmall key) else .ok n.toInt64

def truth? (s : String) : Option Bool :=
  if s ∈ ["1", "t", "T", "TRUE", "true", "True"] then some true
  else if s ∈ ["0", "f", "F", "FALSE", "false", "False"] then some false
  else none

/-- A flag is off unless it is set. -/
def flag (key value : String) : Except EnvironmentError Bool :=
  readOr truth? key value false

/-- An algorithm by its name. The default is a number, which need not stand for an
algorithm. -/
def algorithm (key value : String) (default : Int64) : Except EnvironmentError Int64 :=
  readOr (fun s => (Algorithm.ofName? s).map Algorithm.code) key value default

end Environment

end RefElision
