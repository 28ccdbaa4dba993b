import RefElision.Text.Ident
import RefElision.Text.Split
import RefElision.Program.Builder

/-! The lines of a function body. A line is read without looking at the lines
around it, so what it says does not depend on where it stands. -/
namespace RefElision

/-- One line of a body. -/
inductive Statement where
  | label (l : Label)
  | operation (o : Operation Atom)
  | terminator (t : Terminator Atom)
  deriving DecidableEq, Repr

/-- Why a text cannot be read. -/
inductive Reason where
  | headerExpected
  | malformedHeader
  | functionName (name : String)
  | argument (text : String)
  | textAfterBody
  | endOfInput
  | label (text : String)
  | valueWithoutAssignment
  | resultName (text : String)
  | noResult (word : String)
  | branchOperands
  | switchCases
  | switchOperands
  | switchCase (text : String)
  | duplicateCase (text : String)
  | malformedCall (text : String)
  | callee (text : String)
  | opcode (text : String)
  | value (text : String)
  | build (e : BuildError)
  deriving DecidableEq, Repr

def Reason.message : Reason → String
  | .headerExpected => "function header expected"
  | .malformedHeader => "malformed function header"
  | .functionName name => "invalid function name: " ++ name
  | .argument text => "invalid argument: " ++ text
  | .textAfterBody => "unexpected text after the function body"
  | .endOfInput => "unexpected end of input"
  | .label text => "invalid label: " ++ text
  | .valueWithoutAssignment => "unexpected value without assignment"
  | .resultName text => "invalid result value: " ++ variableText text
  | .noResult word => word ++ " does not produce a value"
  | .branchOperands => "br expects a value and two labels"
  | .switchCases => "switch expects a case list"
  | .switchOperands => "switch expects a value and a default label"
  | .switchCase text => "invalid switch case: " ++ text
  | .duplicateCase text => "duplicated switch case: " ++ text
  | .malformedCall text => "malformed call: " ++ text
  | .callee text => "invalid callee: " ++ text
  | .opcode text => "invalid opcode: " ++ text
  | .value text => "invalid value: " ++ text
  | .build e => e.message

namespace Statement

open Text

def readLabel (s : List Char) : Except Reason Label :=
  if isIdent s then .ok (String.ofList s) else .error (.label (String.ofList s))

def readAtom (s : List Char) : Except Reason Atom :=
  if s = ['n', 'u', 'l', 'l'] then .ok .null
  else
    match s with
    | '%' :: name =>
      if isIdent name then .ok (.var (String.ofList name))
      else .error (.value (String.ofList s))
    | _ =>
      match signed? s with
      | some value => .ok (.int value)
      | none => .error (.value (String.ofList s))

/-- Operands in a row. The first that cannot be read is reported. -/
def readAtoms (s : List Char) : Except Reason (List Atom) :=
  (listItems s).mapM readAtom

def readBranch (s : List Char) : Except Reason (Terminator Atom) :=
  match listItems s with
  | [condition, yes, no] => do
    let condition ← readAtom condition
    let yes ← readLabel yes
    let no ← readLabel no
    return .branch condition yes no
  | _ => .error .branchOperands

/-- Adds the cases of a switch to those read so far. -/
def readCases (table : CaseTable) : List (List Char) → Except Reason CaseTable
  | [] => .ok table
  | item :: rest =>
    match splitArrows item with
    | [value, target] =>
      match signed? (trim value) with
      | none => .error (.switchCase (String.ofList item))
      | some value =>
        if table.contains value then .error (.duplicateCase (String.ofList item))
        else
          match readLabel (trim target) with
          | .error e => .error e
          | .ok target => readCases (table.insert value target) rest
    | _ => .error (.switchCase (String.ofList item))

def readSwitch (s : List Char) : Except Reason (Terminator Atom) :=
  match bracketed? '[' ']' s with
  | none => .error .switchCases
  | some (head, cases) =>
    match listItems head with
    | [scrutinee, otherwise] => do
      let scrutinee ← readAtom scrutinee
      let otherwise ← readLabel otherwise
      let cases ← readCases .empty (listItems cases)
      return .switch scrutinee cases otherwise
    | _ => .error .switchOperands

def readCall (result : Option String) (s : List Char) : Except Reason (Operation Atom) :=
  match (after? ['@'] s).bind (bracketed? '(' ')') with
  | none => .error (.malformedCall (String.ofList s))
  | some (callee, args) =>
    if isIdent callee then do
      let args ← readAtoms args
      return ⟨result, .call (String.ofList callee), args⟩
    else .error (.callee (String.ofList callee))

def readOp (result : Option String) (opcode s : List Char) :
    Except Reason (Operation Atom) :=
  if isIdent opcode then do
    let args ← readAtoms s
    return ⟨result, .op (String.ofList opcode), args⟩
  else .error (.opcode (String.ofList opcode))

/-- The first word of a line and the rest. Only a blank or a tab ends the word. -/
def cutOpcode (s : List Char) : List Char × List Char :=
  match cutAt? (fun c => c == ' ' || c == '\t') s with
  | none => (s, [])
  | some (opcode, rest) => (opcode, trim rest)

def readTerminator? (opcode : String) (s : List Char) :
    Option (Except Reason (Terminator Atom)) :=
  match opcode with
  | "goto" => some ((readLabel s).map .jump)
  | "br" => some (readBranch s)
  | "switch" => some (readSwitch s)
  | "ret" => some ((readAtoms s).map .ret)
  | _ => none

/-- Reads what follows the assigned variable, if there is one. A terminator assigns
nothing. -/
def readAction (result : Option String) (s : List Char) : Except Reason Statement :=
  let (opcode, rest) := cutOpcode s
  match readTerminator? (String.ofList opcode) rest with
  | some outcome =>
    if result.isSome then .error (.noResult (String.ofList opcode))
    else outcome.map .terminator
  | none =>
    if String.ofList opcode = "call" then (readCall result rest).map .operation
    else (readOp result opcode rest).map .operation

/-- Reads a line that is not blank. -/
def read (s : List Char) : Except Reason Statement :=
  if s.getLast? = some ':' then (readLabel s.dropLast).map .label
  else
    match s with
    | '%' :: assignment =>
      match cutAt? (· == '=') assignment with
      | none => .error .valueWithoutAssignment
      | some (result, action) =>
        if isIdent (trim result) then
          readAction (some (String.ofList (trim result))) (trim action)
        else .error (.resultName (String.ofList (trim result)))
    | _ => readAction none s

end Statement

/-- Carries out a line of the body. Each operand and each instruction gets a tag of
its own. -/
def Builder.statement (b : Builder) : Statement → Builder
  | .label l => b.label l
  | .operation o => (b.reserve o.args.length).perform (o.tagged b.nextTag)
  | .terminator t => (b.reserve t.uses.length).terminate (t.tagged b.nextTag)

end RefElision
