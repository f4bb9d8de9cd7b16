import Script.Double.Arithmetic
import Script.Double.Decimal
import Script.Text.Blank
import Script.Text.Digit

/-!
# Numerals

Texts that stand for numbers. `format` writes a double: a whole number below `10 ^ 21` by its
exact digits, any other by the fewest digits that read back, and with an exponent only from
`10 ^ 21` upwards and below `10 ^ -6`. `ofStart` reads the longest numeral at the start of a text,
`ofWhole?` a text that is a numeral from end to end, and `literal?` the wider notation of number
literals, with marks between digits and any case of letters.
-/
namespace Script.Numeral

open Text

/-- A decimal as its digits without closing zeros, and where the point stands among them. -/
def layoutParts (d : Decimal) : List Char × Int :=
  let all := digits d.digits
  let shown := (all.reverse.dropWhile (· = '0')).reverse
  (shown, all.length + d.exponent)

def positional (shown : List Char) (point : Int) : List Char :=
  if point ≤ 0 then '0' :: '.' :: List.replicate (-point).toNat '0' ++ shown
  else if point < shown.length then shown.take point.toNat ++ '.' :: shown.drop point.toNat
  else shown ++ List.replicate (point - shown.length).toNat '0'

def exponential (shown : List Char) (point : Int) : List Char :=
  let exponent := point - 1
  let fraction := if shown.length ≤ 1 then [] else '.' :: shown.drop 1
  shown.take 1 ++ fraction ++
    'e' :: (if exponent > 0 then '+' else '-') :: digits exponent.natAbs

/-- Below this many units a number that is not whole is written with an exponent. -/
def leastPositional : Nat := ((Decimal.toMagnitude? ⟨1, -6⟩).getD .zero).units

/-- From this many units on every number is written with an exponent. -/
def leastExponential : Nat := Nat.pow 10 21 * Magnitude.one

def formatMagnitude (m : Magnitude) : List Char :=
  if m.units % Magnitude.one = 0 ∧ m.units < leastExponential then digits (m.units / Magnitude.one)
  else
    let (shown, point) := layoutParts m.shortest
    if leastPositional ≤ m.units ∧ m.units < leastExponential then positional shown point
    else exponential shown point

def format : Double → String
  | .nan => "NaN"
  | .infinite negative => if negative then "-Infinity" else "Infinity"
  | .finite negative m =>
      let text := formatMagnitude m
      String.ofList (if negative ∧ m.units ≠ 0 then '-' :: text else text)

def sign : List Char → Bool × List Char
  | '-' :: cs => (true, cs)
  | '+' :: cs => (false, cs)
  | cs => (false, cs)

/-- An exponent at the start of a text, and what follows; the text itself if it has none. -/
def exponent (cs : List Char) : Int × List Char :=
  match cs with
  | e :: rest =>
      if e = 'e' ∨ e = 'E' then
        let (negative, body) := sign rest
        let shown := body.takeWhile isDigit
        if shown.isEmpty then (0, cs)
        else
          let n : Int := ofDigits shown
          (if negative then -n else n, body.dropWhile isDigit)
      else (0, cs)
  | [] => (0, cs)

/-- The longest decimal at the start of a text, and what follows it. -/
def decimal? (cs : List Char) : Option (Decimal × List Char) :=
  let whole := cs.takeWhile isDigit
  let (fraction, rest) :=
    match cs.dropWhile isDigit with
    | '.' :: rest => (rest.takeWhile isDigit, rest.dropWhile isDigit)
    | rest => ([], rest)
  if whole.isEmpty && fraction.isEmpty then none
  else
    let (e, rest) := exponent rest
    some (⟨ofDigits (whole ++ fraction), e - fraction.length⟩, rest)

def infinityWord : List Char := "Infinity".toList

/-- The longest numeral at the start of a text, and what follows it. -/
def read? (cs : List Char) : Option (Double × List Char) :=
  let (negative, body) := sign cs
  if infinityWord.isPrefixOf body then some (.infinite negative, body.drop infinityWord.length)
  else (decimal? body).map fun (d, rest) => (d.toDouble negative, rest)

/-- The numeral a text starts with, blanks aside; not a number if there is none. -/
def ofStart (text : String) : Double :=
  match read? (trimLeft text.toList) with
  | some (x, _) => x
  | none => .nan

/-- The number that a trimmed text is from end to end. -/
def ofWhole? (cs : List Char) : Option Double :=
  match read? cs with
  | some (x, []) => some x
  | _ => none

/-- Blanks that may surround a number literal. -/
def isMargin (c : Char) : Bool := isBlank c && !(28 ≤ c.toNat && c.toNat ≤ 31)

/-- Drops the marks that stand between two digits; no other place may have one. -/
def dropMarks : (afterDigit : Bool) → List Char → Option (List Char)
  | _, [] => some []
  | afterDigit, '_' :: cs =>
      match cs with
      | d :: rest => if afterDigit && isDigit d then (dropMarks true rest).map (d :: ·) else none
      | [] => none
  | _, c :: cs => (dropMarks (isDigit c) cs).map (c :: ·)

def literal? (text : String) : Option Double := do
  let inner := ((text.toList.dropWhile isMargin).reverse.dropWhile isMargin).reverse
  let (negative, body) := sign (← dropMarks false inner)
  let word := String.ofList (body.map Char.toLower)
  if word = "inf" ∨ word = "infinity" then some (.infinite negative)
  else if word = "nan" then some .nan
  else
    match decimal? body with
    | some (d, []) => some (d.toDouble negative)
    | _ => none

end Script.Numeral
