import RefElision.Text.Numeral

/-! Operands, as the text writes them and as a function holds them. A variable is
known by its name wherever it occurs. Each constant that is written is made anew, so
a function holds its constants under tags. -/
namespace RefElision

/-- Blocks are known by their labels, which are distinct within a function. -/
abbrev Label := String

/-- An operand as the text writes it. -/
inductive Atom where
  | var (name : String)
  | null
  | int (value : Int64)
  deriving DecidableEq, Repr

/-- An operand of a function. The tag of a constant tells which of all constants that
were made it is. That two of them can be told apart by comparing is another matter,
see `Value.same`. -/
inductive Value where
  | var (name : String)
  | null (tag : Nat)
  | int (tag : Nat) (value : Int64)
  deriving DecidableEq, Repr

def variableText (name : String) : String :=
  "%" ++ name

def Atom.text : Atom → String
  | .var name => variableText name
  | .null => "null"
  | .int value => Text.decimal value.toInt

/-- The value that an operand denotes where it is written. The tag is not used for
a variable. -/
def Atom.value (tag : Nat) : Atom → Value
  | .var name => .var name
  | .null => .null tag
  | .int value => .int tag value

/-- What the text shows of a value. -/
def Value.atom : Value → Atom
  | .var name => .var name
  | .null _ => .null
  | .int _ value => .int value

def Value.text (v : Value) : String :=
  v.atom.text

def Value.isNull : Value → Bool
  | .null _ => true
  | _ => false

/-- Whether two operands are taken for one value. Each variable and each integer that
was made differs from all others. A null has nothing in it to tell it by, so two of
them are never told apart, however often null was made. -/
def Value.same (v w : Value) : Bool :=
  v == w || v.isNull && w.isNull

def Value.variable? : Value → Option String
  | .var name => some name
  | _ => none

theorem Value.variable?_eq_some {v : Value} {x : String} :
    v.variable? = some x ↔ v = .var x := by
  cases v with
  | var y => exact ⟨fun h => congrArg Value.var (Option.some.inj h),
      fun h => congrArg some (Value.var.inj h)⟩
  | null tag => exact iff_of_false (fun h => by cases h) (fun h => by cases h)
  | int tag value => exact iff_of_false (fun h => by cases h) (fun h => by cases h)

/-- Comparing with an operand that is not null is as good as equality. -/
theorem Value.same_iff {v w : Value} (h : w.isNull = false) : v.same w = true ↔ v = w := by
  simp [same, h]

theorem Value.same_self (v : Value) : v.same v = true := by
  simp [same]

@[simp] theorem Atom.atom_value (tag : Nat) (a : Atom) : (a.value tag).atom = a := by
  cases a <;> rfl

/-- Values for operands that are written one after another. Each place takes a tag,
counted from the given one. -/
def Atom.values (start : Nat) (atoms : List Atom) : List Value :=
  atoms.mapIdx fun i a => a.value (start + i)

end RefElision
