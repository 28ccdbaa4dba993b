import RefElision.Program.Statement

/-! Reading a function from text, line by line: a header, the lines of the body, a
closing brace, and nothing behind it. Blank lines and comments may stand
anywhere. -/
namespace RefElision

/-- A line that cannot be read, counted from one, and the reason. The source is the
line as it stands in the text, or empty if the text ends too early. -/
structure SyntaxError where
  line : Nat
  source : String
  reason : Reason
  deriving DecidableEq, Repr

def SyntaxError.message (e : SyntaxError) : String :=
  "Syntax error at line " ++ Text.decimalNat e.line ++ ": " ++ e.reason.message

/-- How far a text has been read. -/
inductive Reader where
  | beforeHeader
  | inBody (b : Builder)
  | done (f : Func)
  deriving DecidableEq, Repr

namespace Reader

open Text

def readArgument (s : List Char) : Except Reason String :=
  match s with
  | '%' :: name =>
    if isIdent name then .ok (String.ofList name) else .error (.argument (String.ofList s))
  | _ => .error (.argument (String.ofList s))

/-- Reads `func @name(arguments)` and an opening brace. -/
def readHeader (s : List Char) : Except Reason Builder :=
  match after? "func @".toList s with
  | none => .error .headerExpected
  | some rest =>
    if rest.getLast? = some '\x7b' then
      match bracketed? '(' ')' (trim rest.dropLast) with
      | none => .error .malformedHeader
      | some ([], _) => .error .malformedHeader
      | some (name, args) =>
        if isIdent name then do
          let args ← (listItems args).mapM readArgument
          return .empty (String.ofList name) args
        else .error (.functionName (String.ofList name))
    else .error .headerExpected

/-- Carries out a line of the body. A mistake that the builder finds is reported at
once. -/
def readBodyLine (b : Builder) (s : List Char) : Except Reason Reader :=
  match Statement.read s with
  | .error e => .error e
  | .ok statement =>
    match (b.statement statement).error with
    | some e => .error (.build e)
    | none => .ok (.inBody (b.statement statement))

/-- Reads a line that is neither blank nor a mere comment. -/
def readLine : Reader → List Char → Except Reason Reader
  | .beforeHeader, s => (readHeader s).map .inBody
  | .inBody b, s =>
    if s = ['\x7d'] then
      match b.build.2 with
      | .ok f => .ok (.done f)
      | .error e => .error (.build e)
    else readBodyLine b s
  | .done _, _ => .error .textAfterBody

/-- Reads lines, the first of which has the given number. -/
def readLines (r : Reader) (number : Nat) : List (List Char) → Except SyntaxError Reader
  | [] => .ok r
  | line :: rest =>
    match stripComment line with
    | [] => readLines r (number + 1) rest
    | s =>
      match readLine r s with
      | .error reason => .error ⟨number, String.ofList line, reason⟩
      | .ok r => readLines r (number + 1) rest

end Reader

/-- Reads a function. The text is cut into lines at line feeds only. -/
def Func.parse (source : String) : Except SyntaxError Func :=
  let lines := Text.splitOn '\n' source.toList
  match Reader.readLines .beforeHeader 1 lines with
  | .error e => .error e
  | .ok (.done f) => .ok f
  | .ok _ => .error ⟨lines.length, "", .endOfInput⟩

end RefElision
