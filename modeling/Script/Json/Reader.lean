import Script.Json

/-!
# Reading JSON

The whole text has to be one value with blanks around it. The words `NaN`, `Infinity` and
`-Infinity` count as numbers; a text may not hold a character below U+0020, and of two members
with one key the last one counts. Whole numbers have a limit on their digits. Every rule returns
what it read and the rest of the text, or the first thing that is wrong.
-/
namespace Script.Json

open Text (Code)

inductive ReadFault where
  | malformed
  | integerTooLong
  deriving DecidableEq

/-- What was read, and the rest of the text. -/
abbrev Reading (α : Type) := Except ReadFault (α × List Char)

def isSpace (c : Char) : Bool := c = ' ' || c = '\t' || c = '\n' || c = '\r'

def skipSpace (cs : List Char) : List Char := cs.dropWhile isSpace

def hexValue? (c : Char) : Option Nat :=
  if '0' ≤ c ∧ c ≤ '9' then some (c.toNat - 0x30)
  else if 'a' ≤ c ∧ c ≤ 'f' then some (c.toNat - 0x61 + 10)
  else if 'A' ≤ c ∧ c ≤ 'F' then some (c.toNat - 0x41 + 10)
  else none

def unit? (a b c d : Char) : Option Nat := do
  let a ← hexValue? a
  let b ← hexValue? b
  let c ← hexValue? c
  let d ← hexValue? d
  return ((a * 16 + b) * 16 + c) * 16 + d

def isHighSurrogate (n : Nat) : Bool := 0xd800 ≤ n && n < 0xdc00

def isLowSurrogate (n : Nat) : Bool := 0xdc00 ≤ n && n < 0xe000

def loneUnit (n : Nat) : Code :=
  if 0xd800 ≤ n ∧ n < 0xe000 then .half (Fin.ofNat 0x800 (n - 0xd800)) else .char (Char.ofNat n)

def pairedUnits (high low : Nat) : Code :=
  .char (Char.ofNat (0x10000 + (high - 0xd800) * 0x400 + (low - 0xdc00)))

def unescape? : Char → Option Char
  | '"' => some '"'
  | '\\' => some '\\'
  | '/' => some '/'
  | 'b' => some '\x08'
  | 'f' => some '\x0c'
  | 'n' => some '\n'
  | 'r' => some '\r'
  | 't' => some '\t'
  | _ => none

/-- Reads a text whose opening quote is gone; `seen` is what it holds so far, last first. -/
def readText (seen : List Code) : List Char → Reading (List Code)
  | [] => .error .malformed
  | '"' :: cs => .ok (seen.reverse, cs)
  | '\\' :: 'u' :: a :: b :: c :: d :: cs =>
      match unit? a b c d with
      | none => .error .malformed
      | some n =>
          if isHighSurrogate n then
            match cs with
            | '\\' :: 'u' :: e :: f :: g :: h :: rest =>
                match unit? e f g h with
                | none => .error .malformed
                | some m =>
                    if isLowSurrogate m then readText (pairedUnits n m :: seen) rest
                    else readText (loneUnit n :: seen) ('\\' :: 'u' :: e :: f :: g :: h :: rest)
            | cs => readText (loneUnit n :: seen) cs
          else readText (loneUnit n :: seen) cs
  | '\\' :: c :: cs =>
      match unescape? c with
      | some e => readText (.char e :: seen) cs
      | none => .error .malformed
  | c :: cs => if c.toNat < 0x20 then .error .malformed else readText (.char c :: seen) cs

def readFraction : List Char → List Char × List Char
  | '.' :: cs =>
      match cs.takeWhile Char.isDigit with
      | [] => ([], '.' :: cs)
      | shown => (shown, cs.dropWhile Char.isDigit)
  | cs => ([], cs)

def readNumber (negative : Bool) (cs : List Char) : Reading Json :=
  let whole :=
    match cs with
    | '0' :: _ => ['0']
    | cs => cs.takeWhile Char.isDigit
  if whole.isEmpty then .error .malformed
  else
    let rest := cs.drop whole.length
    let (fraction, afterFraction) := readFraction rest
    let (exponent, afterExponent) :=
      match afterFraction with
      | e :: more =>
          if e = 'e' ∨ e = 'E' then
            let (down, body) := Numeral.sign more
            match body.takeWhile Char.isDigit with
            | [] => (none, afterFraction)
            | shown =>
                let n : Int := Text.ofDigits shown
                (some (if down then -n else n), body.dropWhile Char.isDigit)
          else (none, afterFraction)
      | [] => (none, afterFraction)
    if fraction.isEmpty && exponent.isNone then
      if digitLimit < whole.length then .error .integerTooLong
      else
        let n : Int := Text.ofDigits whole
        .ok (.integer (if negative then -n else n), rest)
    else
      let d : Decimal := ⟨Text.ofDigits (whole ++ fraction), exponent.getD 0 - fraction.length⟩
      .ok (.real (d.toDouble negative), afterExponent)

def words : List (List Char × Json) :=
  [("null".toList, .null), ("true".toList, .boolean true), ("false".toList, .boolean false),
    ("NaN".toList, .real .nan), ("Infinity".toList, .real (.infinite false)),
    ("-Infinity".toList, .real (.infinite true))]

def readScalar (cs : List Char) : Reading Json :=
  match words.find? fun word => word.1.isPrefixOf cs with
  | some (word, value) => .ok (value, cs.drop word.length)
  | none =>
      match cs with
      | '-' :: rest => readNumber true rest
      | cs => readNumber false cs

section Containers

variable (value : List Char → Reading Json)

/-- Items up to the closing bracket, at least one. -/
def readItems : (bound : Nat) → (seen : List Json) → List Char → Reading (List Json)
  | 0, _, _ => .error .malformed
  | bound + 1, seen, cs =>
      match value cs with
      | .error fault => .error fault
      | .ok (item, rest) =>
          match skipSpace rest with
          | ']' :: rest => .ok ((item :: seen).reverse, rest)
          | ',' :: rest => readItems bound (item :: seen) (skipSpace rest)
          | _ => .error .malformed

def readMember (cs : List Char) : Reading (String × Json) :=
  match cs with
  | '"' :: cs =>
      match readText [] cs with
      | .error fault => .error fault
      | .ok (key, rest) =>
          match skipSpace rest with
          | ':' :: rest => (value (skipSpace rest)).map fun (j, rest) => ((Code.shown key, j), rest)
          | _ => .error .malformed
  | _ => .error .malformed

/-- Members up to the closing brace, at least one. -/
def readMembers : (bound : Nat) → (seen : List (String × Json)) → List Char →
    Reading (List (String × Json))
  | 0, _, _ => .error .malformed
  | bound + 1, seen, cs =>
      match readMember value cs with
      | .error fault => .error fault
      | .ok ((key, j), rest) =>
          match skipSpace rest with
          | '}' :: rest => .ok (insertMember key j seen, rest)
          | ',' :: rest => readMembers bound (insertMember key j seen) (skipSpace rest)
          | _ => .error .malformed

end Containers

/-- Reads the value at the start of a text; `bound` limits how deep and how long its containers
are, and the length of the text always suffices. -/
def readValue : (bound : Nat) → List Char → Reading Json
  | 0, _ => .error .malformed
  | bound + 1, cs =>
      match cs with
      | '"' :: rest => (readText [] rest).map fun (cs, rest) => (.ofCodes cs, rest)
      | '[' :: rest =>
          match skipSpace rest with
          | ']' :: rest => .ok (.list [], rest)
          | rest => (readItems (readValue bound) bound [] rest).map fun (js, rest) =>
              (.list js, rest)
      | '{' :: rest =>
          match skipSpace rest with
          | '}' :: rest => .ok (.object [], rest)
          | rest => (readMembers (readValue bound) bound [] rest).map fun (ms, rest) =>
              (.object ms, rest)
      | cs => readScalar cs

def parse (source : String) : Except ReadFault Json := do
  let (j, rest) ← readValue (source.length + 1) (skipSpace source.toList)
  if (skipSpace rest).isEmpty then return j else .error .malformed

end Script.Json
