import Script.Diagnosis
import Script.Token

/-!
# From text to tokens

A text is cut into segments: blanks, comments and lexemes. `segment` finds the segment at the
start of a text and `scan` walks the text once, counting lines. The segment at a position is the
longest one that any rule allows there, and a comment wins over the operators that share its
first character.
-/
namespace Script

inductive LexicalFault.Cause where
  | badNumber (text : String)
  | openString
  | badCharacter (c : Char)
  deriving DecidableEq

structure LexicalFault where
  cause : LexicalFault.Cause
  line : Int
  deriving DecidableEq

def LexicalFault.Cause.text : LexicalFault.Cause → String
  | .badNumber text => "Invalid number literal " ++ text
  | .openString => "Unterminated string"
  | .badCharacter c => "Invalid character " ++ Text.quoted (String.singleton c)

def LexicalFault.diagnosis (f : LexicalFault) : Diagnosis :=
  ⟨"LexicalError", f.cause.text, some f.line⟩

namespace Token

/-- The segment at the start of a text: its length, and what it stands for unless it is layout. -/
structure Segment where
  length : Nat
  token? : Option (Kind × String)
  deriving DecidableEq

def isLayout (c : Char) : Bool := c = ' ' || c = '\t' || c = '\r' || c = '\n'

def isWordStart (c : Char) : Bool := c.isAlpha || c = '_'

def isWordPart (c : Char) : Bool := c.isAlpha || c.isDigit || c = '_'

def isQuote (c : Char) : Bool := c = '"' || c = '\'' || c = '\x60'

def longOperators : List (List Char) :=
  ["**", "++", "--", "+=", "-=", "*=", "/=", "%=", "==", "!=", ">=", "<=", "&&", "||"].map
    String.toList

def shortSymbols : List Char := "+-*/%><!=()\x7b\x7d[],.:;".toList

/-- Digits with at most one point, which has digits on both sides. -/
def isNumeral (cs : List Char) : Bool :=
  let whole := cs.takeWhile Char.isDigit
  match cs.dropWhile Char.isDigit with
  | [] => !whole.isEmpty
  | '.' :: fraction => !whole.isEmpty && !fraction.isEmpty && fraction.all Char.isDigit
  | _ => false

/-- How many characters a block comment has whose opening is already read. -/
def commentLength : List Char → Nat
  | [] => 0
  | '*' :: '/' :: _ => 2
  | _ :: cs => commentLength cs + 1

def layout (length : Nat) : Segment := ⟨length, none⟩

def lexeme (kind : Kind) (cs : List Char) : Segment := ⟨cs.length, some (kind, String.ofList cs)⟩

/-- A numeral takes all digits and points that follow each other. -/
def numberSegment (cs : List Char) : Except LexicalFault.Cause Segment :=
  let run := cs.takeWhile fun c => c.isDigit || c = '.'
  if isNumeral run then .ok (lexeme .number run) else .error (.badNumber (String.ofList run))

/-- A string reaches to the next occurrence of its opening quote; its value is what lies between. -/
def stringSegment (quote : Char) (cs : List Char) : Except LexicalFault.Cause Segment :=
  let content := cs.takeWhile (· ≠ quote)
  if content.length < cs.length then
    .ok ⟨content.length + 2, some (.string, String.ofList content)⟩
  else .error .openString

def symbolSegment (c : Char) (cs : List Char) : Except LexicalFault.Cause Segment :=
  let long := c :: cs.take 1
  if longOperators.contains long then .ok (lexeme (.symbol (String.ofList long)) long)
  else if shortSymbols.contains c then .ok (lexeme (.symbol (String.singleton c)) [c])
  else .error (.badCharacter c)

/-- The segment at the start of the text `c :: cs`. -/
def segment (c : Char) (cs : List Char) : Except LexicalFault.Cause Segment :=
  if isLayout c then .ok (layout (cs.takeWhile isLayout).length.succ)
  else if c = '/' && cs.head? = some '/' then .ok (layout (cs.takeWhile (· ≠ '\n')).length.succ)
  else if c = '/' && cs.head? = some '*' then .ok (layout (commentLength (cs.drop 1) + 2))
  else if c.isDigit then numberSegment (c :: cs)
  else if isQuote c then stringSegment c cs
  else if isWordStart c then .ok (lexeme .ident (c :: cs.takeWhile isWordPart))
  else symbolSegment c cs

def lineAfter (line : Int) (c : Char) : Int := if c = '\n' then line + 1 else line

/-- Reads the tokens of a text that starts on `line`, its first `skip` characters being the rest
of a segment already read. -/
def scan : (skip : Nat) → (line : Int) → List Char → Except LexicalFault (List Token)
  | _, line, [] => .ok [⟨.eof, "", line⟩]
  | skip + 1, line, c :: cs => scan skip (lineAfter line c) cs
  | 0, line, c :: cs =>
      match segment c cs with
      | .error cause => .error ⟨cause, line⟩
      | .ok ⟨length, none⟩ => scan (length - 1) (lineAfter line c) cs
      | .ok ⟨length, some (kind, value)⟩ =>
          (scan (length - 1) (lineAfter line c) cs).map (⟨kind, value, line⟩ :: ·)

/-- The tokens of a source text, closed by an end token, or the first place where it has none. -/
def tokenize (source : String) : Except LexicalFault (List Token) := scan 0 1 source.toList

end Token
end Script
