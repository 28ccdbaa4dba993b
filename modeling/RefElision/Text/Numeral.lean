/-! Integer literals and decimal output. A literal may be signed and is written
in base ten, or in base two, eight or sixteen behind a mark; a zero in front of
other digits also means base eight. Underscores may separate digits. -/
namespace RefElision.Text

/-- The value of a digit in any base up to thirty-six. -/
def digitValue? (c : Char) : Option Nat :=
  if c.isDigit then some (c.toNat - '0'.toNat)
  else if c.isLower then some (c.toNat - 'a'.toNat + 10)
  else if c.isUpper then some (c.toNat - 'A'.toNat + 10)
  else none

/-- What stands in front of the next character of a literal. -/
inductive Preceding where
  | nothing
  | digit
  | underscore
  deriving DecidableEq, Repr

/-- Reads digits on top of a value read so far. An underscore has to follow a
digit, and a digit has to follow an underscore. -/
def readDigits? (base : Nat) : Preceding → Nat → List Char → Option Nat
  | .underscore, _, [] => none
  | _, acc, [] => some acc
  | before, acc, c :: rest =>
    if c = '_' then
      if before = .digit then readDigits? base .underscore acc rest else none
    else
      match digitValue? c with
      | none => none
      | some d =>
        if d < base then readDigits? base .digit (acc * base + d) rest else none

/-- The base that a mark behind a leading zero stands for. -/
def markedBase? (c : Char) : Option Nat :=
  if c = 'b' ∨ c = 'B' then some 2
  else if c = 'o' ∨ c = 'O' then some 8
  else if c = 'x' ∨ c = 'X' then some 16
  else none

/-- Reads an unsigned literal of any size. A base mark counts as a digit in front
of an underscore, and so does the leading zero of an octal literal. A mark with
nothing behind it is not a mark. -/
def natural? : List Char → Option Nat
  | [] => none
  | '0' :: mark :: d :: rest =>
    match markedBase? mark with
    | some base => readDigits? base .digit 0 (d :: rest)
    | none => readDigits? 8 .digit 0 (mark :: d :: rest)
  | '0' :: rest => readDigits? 8 .digit 0 rest
  | s => readDigits? 10 .nothing 0 s

/-- Reads an unsigned literal that fits into sixty-four bits. -/
def unsigned? (s : List Char) : Option UInt64 :=
  match natural? s with
  | some n => if n < 0x10000000000000000 then some (UInt64.ofNat n) else none
  | none => none

/-- Reads an unsigned literal in the signed range of sixty-four bits, which has one
number less above zero than below. -/
def nonnegative? (s : List Char) : Option Int64 :=
  match natural? s with
  | some n => if n < 0x8000000000000000 then some (Int64.ofInt n) else none
  | none => none

/-- Reads a literal with an optional sign in the signed range of sixty-four bits. -/
def signed? : List Char → Option Int64
  | '-' :: s =>
    match natural? s with
    | some n => if n ≤ 0x8000000000000000 then some (Int64.ofInt (-n)) else none
    | none => none
  | '+' :: s => nonnegative? s
  | s => nonnegative? s

/-- Decimal digits without leading zeros. -/
def decimalNat (n : Nat) : String :=
  String.ofList (Nat.toDigits 10 n)

/-- Decimal digits behind a minus sign if the number is negative. -/
def decimal (i : Int) : String :=
  match i with
  | .ofNat n => decimalNat n
  | .negSucc n => "-" ++ decimalNat (n + 1)

end RefElision.Text
