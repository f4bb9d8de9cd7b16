/-!
# Line ends

A line feed ends a line. To those who read line ends of every kind, a carriage return does so too,
and the two together are one end.
-/
namespace Script.Text

def unifyLineEnds : List Char → List Char
  | [] => []
  | '\r' :: '\n' :: cs => '\n' :: unifyLineEnds cs
  | '\r' :: cs => '\n' :: unifyLineEnds cs
  | c :: cs => c :: unifyLineEnds cs

def linesFrom (line : List Char) (done : List String) : List Char → List String
  | [] => (if line.isEmpty then done else String.ofList line.reverse :: done).reverse
  | '\n' :: cs => linesFrom [] (String.ofList line.reverse :: done) cs
  | c :: cs => linesFrom (c :: line) done cs

/-- The lines of a text without the line feeds that end them; a last line that has no end counts if
it is not empty. -/
def linesOf (cs : List Char) : List String := linesFrom [] [] cs

def lines (text : String) : List String := linesOf (unifyLineEnds text.toList)

end Script.Text
