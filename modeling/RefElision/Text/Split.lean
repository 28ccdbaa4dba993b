import RefElision.Text.Blank

/-! Cutting a text into pieces at separators. No character is dropped but the
separators themselves, except where a function says that it trims. -/
namespace RefElision.Text

/-- Puts a character in front of the first piece. -/
def consFirst (c : Char) : List (List Char) → List (List Char)
  | [] => [[c]]
  | piece :: rest => (c :: piece) :: rest

/-- The pieces between the occurrences of a separator. There is one piece more
than there are separators. -/
def splitOn (sep : Char) (s : List Char) : List (List Char) :=
  s.foldr (fun c pieces => if c = sep then [] :: pieces else consFirst c pieces) [[]]

/-- The pieces between the arrows `=>`, which are read from the left and do not
overlap. -/
def splitArrows : List Char → List (List Char)
  | '=' :: '>' :: rest => [] :: splitArrows rest
  | c :: rest => consFirst c (splitArrows rest)
  | [] => [[]]

/-- The trimmed items of a comma separated list. A blank text is the empty list,
but an item between two commas may be empty. -/
def listItems (s : List Char) : List (List Char) :=
  if trim s = [] then [] else (splitOn ',' (trim s)).map trim

/-- What stands in front of and behind the first character with a property. -/
def cutAt? (p : Char → Bool) (s : List Char) : Option (List Char × List Char) :=
  match s.dropWhile (fun c => !p c) with
  | [] => none
  | _ :: after => some (s.takeWhile (fun c => !p c), after)

/-- Splits `head(inside)` at its first opening bracket. The closing bracket has
to be the last character; more brackets may stand inside. -/
def bracketed? (opening closing : Char) (s : List Char) :
    Option (List Char × List Char) :=
  match cutAt? (· == opening) s with
  | none => none
  | some (head, after) =>
    if after.getLast? = some closing then some (head, after.dropLast) else none

/-- The rest of a text that starts with a given text. -/
def after? : (start s : List Char) → Option (List Char)
  | [], s => some s
  | _ :: _, [] => none
  | c :: start, d :: s => if c = d then after? start s else none

end RefElision.Text
