import Script.Text.Blank
import Script.Text.Quoted

/-!
# Code points

Escapes can put half of a surrogate pair into a text without the other half. Such a half is no
character, so the text is kept as the list of its code points. Halves stay different from each
other and from every character; they are not printable and cannot be written out.
-/
namespace Script.Text

/-- A character, or half of a surrogate pair by its distance from U+D800. -/
inductive Code where
  | char (c : Char)
  | half (distance : Fin 0x800)
  deriving DecidableEq

namespace Code

def ofText (s : String) : List Code := s.toList.map .char

def char? : Code → Option Char
  | .char c => some c
  | .half _ => none

def chars? (codes : List Code) : Option (List Char) := codes.mapM char?

def leading (codes : List Code) : List Char :=
  (codes.takeWhile (·.char?.isSome)).filterMap char?

def isBlank : Code → Bool
  | .char c => Text.isBlank c
  | .half _ => false

def halfEscape (distance : Fin 0x800) : List Char :=
  '\\' :: 'u' :: hexDigits 4 (0xd800 + distance.val)

def shownOne : Code → List Char
  | .char c => [c]
  | .half distance => halfEscape distance

/-- The text with an escape for each half. -/
def shown (codes : List Code) : String := String.ofList (codes.flatMap shownOne)

def escapedIn (quote : Char) : Code → List Char
  | .char c => escaped quote c
  | .half distance => halfEscape distance

def quoted (codes : List Code) : String :=
  let quote := quoteFor (codes.filterMap char?)
  String.ofList (quote :: codes.flatMap (escapedIn quote) ++ [quote])

end Code
end Script.Text
