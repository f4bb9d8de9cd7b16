import Script.Value

/-!
# Binary operators

An operator looks at the kinds of both operands; a pair of kinds that it has no rule for gives
null. Operators that make an array give it the identity they are handed.
-/
namespace Script.Operator

open Value

/-- What is left of a list when the last `n` items are dropped; a negative `n` keeps the first
`-n`. -/
def dropLast {α : Type} (n : Int) (items : List α) : List α :=
  if 0 < n then items.take (items.length - n.toNat) else items.take (-n).toNat

/-- The items from position `n` on; a negative `n` counts from the end. -/
def dropFirst {α : Type} (n : Int) (items : List α) : List α :=
  if 0 ≤ n then items.drop n.toNat else items.drop (items.length - (-n).toNat)

def strings (identity : Identity) (pieces : List Node) : Value :=
  .array identity (pieces.map .string)

def add (a b : Value) : Except Fault Value :=
  match a, b with
  | .string _, _ | _, .string _ => return .string (← Content.join (← a.content) (← b.content))
  | .number x, .number y => return ofDouble ((← readNumber x).add (← readNumber y))
  | .boolean x, .boolean y => .ok (.boolean (x || y))
  | _, _ => .ok .null

/-- Without its last characters; a count of zero leaves a string as it is. -/
def shorten (n : Int) (content : Node) : Except Fault Node :=
  if n = 0 then .ok content else Content.keep (dropLast n) content

def subtract (a b : Value) : Except Fault Value :=
  match a, b with
  | .number x, .number y => return ofDouble ((← readNumber x).sub (← readNumber y))
  | .string s, .string t => return .string (← Content.without s t)
  | .string s, .number _ => return .string (← shorten (← b.toInt) s)
  | .number _, .string s => do
      let n ← a.toInt
      return .string (← Content.keep (dropFirst n) s)
  | .boolean x, .boolean y => .ok (.boolean (x && !y))
  | .number _, .boolean _ | .boolean _, .number _ =>
      return ofDouble ((← a.toDouble).sub (← b.toDouble))
  | _, _ => .ok .null

def multiply (a b : Value) : Except Fault Value :=
  match a, b with
  | .number x, .number y => return ofDouble ((← readNumber x).mul (← readNumber y))
  | .string s, .number _ => return .string (← Content.copies (← b.toInt).toNat s)
  | .string s, .boolean x => .ok (.string (if x then s else .text ""))
  | .number _, .boolean x => .ok (if x then a else ofDouble .zero)
  | .boolean x, .boolean y => .ok (.boolean (x && y))
  | _, _ => .ok .null

/-- How often a product repeats a string, and how many parts the string has, unless it has no value
anyway. -/
def copies? (operator : String) (a b : Value) : Option (Nat × Nat) :=
  match a, b with
  | .string s, .number _ =>
      match Content.length s, b.toInt with
      | .ok length, .ok n =>
          if operator = "*" ∧ length * n.toNat < Content.copyLimit then some (n.toNat, length)
          else none
      | _, _ => none
  | _, _ => none

def divide (identity : Identity) (a b : Value) : Except Fault Value :=
  match a, b with
  | .number x, .number y => do
      let divisor ← readNumber y
      if divisor.isZero then .error (.evaluation .zeroDivision)
      else return ofDouble ((← readNumber x).div divisor)
  | .string s, .number _ => return strings identity (← Content.pairs s)
  | .string s, .string t => return strings identity (← Content.split s t)
  | _, _ => .ok .null

/-- The remainder of an infinite number by a number that is neither zero nor NaN is a fault. -/
def remainder (a b : Value) : Except Fault Value :=
  match a, b with
  | .number x, .number y => do
      let divisor ← readNumber y
      if divisor.isZero then return ofDouble .nan
      let dividend ← readNumber x
      if dividend.isInfinite && !divisor.isNaN then
        .error (@Fault.infiniteDividend dividend divisor)
      else return ofDouble (dividend.mod divisor)
  | _, _ => .ok .null

def power (a b : Value) : Except Fault Value :=
  match a, b with
  | .number x, .number y => return ofDouble ((← readNumber x).pow (← readNumber y))
  | _, _ => .ok .null

def compare (holds : Double → Double → Bool) (a b : Value) : Except Fault Value :=
  return .boolean (holds (← a.toDouble) (← b.toDouble))

/-- Applies an operator to two values; an array that it makes gets the identity. -/
def apply (identity : Identity) (operator : String) (a b : Value) : Except Fault Value :=
  match operator with
  | "+" => add a b
  | "-" => subtract a b
  | "*" => multiply a b
  | "/" => divide identity a b
  | "%" => remainder a b
  | "**" => power a b
  | "==" => .ok (.boolean (same a b))
  | "!=" => .ok (.boolean (!same a b))
  | "<" => compare Double.lt a b
  | ">" => compare (fun x y => y.lt x) a b
  | "<=" => compare Double.le a b
  | ">=" => compare (fun x y => y.le x) a b
  | _ => .error (.evaluation (.unknownOperator operator))

/-- The value after a step up or down, for values that have one. -/
def step? (operator : String) : Value → Except Fault (Option Value)
  | .number text => do
      let x ← readNumber text
      return some (ofDouble (if operator = "++" then x.add (.ofNat 1) else x.sub (.ofNat 1)))
  | .string content =>
      if operator = "--" then return some (.string (← Content.keep List.dropLast content))
      else .ok none
  | .boolean _ => .ok (if operator = "--" then some (.boolean false) else none)
  | _ => .ok none

end Script.Operator
