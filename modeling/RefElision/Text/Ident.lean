/-! Names of functions, variables, labels, callees and operations. -/
namespace RefElision.Text

/-- Names are written with ASCII letters and digits, underscores and dots. -/
def isIdentChar (c : Char) : Bool :=
  c.isAlphanum || c == '_' || c == '.'

/-- A name has at least one character. It may start with a digit or a dot. -/
def isIdent (s : List Char) : Bool :=
  !s.isEmpty && s.all isIdentChar

end RefElision.Text
