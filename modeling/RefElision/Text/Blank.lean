/-! White space, trimming and comments on texts given as lists of characters. -/
namespace RefElision.Text

/-- White space is the `White_Space` property of Unicode. The zero width space
and the byte order mark do not have it. -/
def isBlank (c : Char) : Bool :=
  let n := c.toNat
  (9 ≤ n && n ≤ 13) || n == 0x20 || n == 0x85 || n == 0xA0 || n == 0x1680 ||
    (0x2000 ≤ n && n ≤ 0x200A) || n == 0x2028 || n == 0x2029 || n == 0x202F ||
    n == 0x205F || n == 0x3000

def trimStart (s : List Char) : List Char :=
  s.dropWhile isBlank

def trimEnd (s : List Char) : List Char :=
  (s.reverse.dropWhile isBlank).reverse

/-- The text without white space at either end. -/
def trim (s : List Char) : List Char :=
  trimEnd (trimStart s)

/-- A semicolon starts a comment that runs to the end of the line. What is left
of the line in front of it is trimmed. -/
def stripComment (line : List Char) : List Char :=
  trim (line.takeWhile (· != ';'))

end RefElision.Text
