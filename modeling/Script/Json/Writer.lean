import Script.Json

/-!
# Writing JSON

One value per line, members and items indented by two blanks for each level. Empty lists and
objects stay on their line. Texts keep every character but the quote, the backslash and the
characters below U+0020; half of a surrogate pair is written as its escape.
-/
namespace Script.Json

open Text

def escape (c : Char) : List Char :=
  if c = '"' || c = '\\' then ['\\', c]
  else if c = '\n' then ['\\', 'n']
  else if c = '\r' then ['\\', 'r']
  else if c = '\t' then ['\\', 't']
  else if c = '\x08' then ['\\', 'b']
  else if c = '\x0c' then ['\\', 'f']
  else if c.toNat < 0x20 then '\\' :: 'u' :: hexDigits 4 c.toNat
  else [c]

def writeText (s : String) : List Char := '"' :: s.toList.flatMap escape ++ ['"']

def escapeCode : Code → List Char
  | .char c => escape c
  | .half distance => Code.halfEscape distance

def writeCodes (cs : List Code) : List Char := '"' :: cs.flatMap escapeCode ++ ['"']

def writeInteger (i : Int) : List Char :=
  if i < 0 then '-' :: digits i.natAbs else digits i.natAbs

/-- A number that is not whole keeps a point or an exponent, so that it reads back as such. -/
def writeMagnitude (m : Magnitude) : List Char :=
  if m.units = 0 then "0.0".toList
  else
    let (shown, point) := Numeral.layoutParts m.shortest
    if point ≤ -4 ∨ 16 < point then
      let exponent := digits (point - 1).natAbs
      let fraction := if shown.length ≤ 1 then [] else '.' :: shown.drop 1
      shown.take 1 ++ fraction ++ 'e' :: (if point > 1 then '+' else '-') ::
        List.replicate (2 - exponent.length) '0' ++ exponent
    else
      let body := Numeral.positional shown point
      if shown.length ≤ point then body ++ ['.', '0'] else body

def writeReal : Double → List Char
  | .nan => "NaN".toList
  | .infinite negative => if negative then "-Infinity".toList else "Infinity".toList
  | .finite negative m => if negative then '-' :: writeMagnitude m else writeMagnitude m

def lineBreak (level : Nat) : List Char := '\n' :: List.replicate (2 * level) ' '

mutual

/-- A value whose containers stand `level` levels deep. -/
def write (level : Nat) : Json → List Char
  | .null => "null".toList
  | .boolean b => (if b then "true" else "false").toList
  | .integer i => writeInteger i
  | .real x => writeReal x
  | .text s => writeText s
  | .codes cs => writeCodes cs
  | .list [] => ['[', ']']
  | .list (item :: rest) =>
      '[' :: lineBreak (level + 1) ++ write (level + 1) item ++ writeItems (level + 1) rest ++
        lineBreak level ++ [']']
  | .object [] => ['{', '}']
  | .object ((key, value) :: rest) =>
      '{' :: lineBreak (level + 1) ++ writeText key ++ ':' :: ' ' :: write (level + 1) value ++
        writeMembers (level + 1) rest ++ lineBreak level ++ ['}']

def writeItems (level : Nat) : List Json → List Char
  | [] => []
  | item :: rest => ',' :: lineBreak level ++ write level item ++ writeItems level rest

def writeMembers (level : Nat) : List (String × Json) → List Char
  | [] => []
  | (key, value) :: rest =>
      ',' :: lineBreak level ++ writeText key ++ ':' :: ' ' :: write level value ++
        writeMembers level rest

end

def render (j : Json) : String := String.ofList (write 0 j)

end Script.Json
