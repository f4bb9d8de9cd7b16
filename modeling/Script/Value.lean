import Script.Content
import Script.Name

/-!
# Values

What a program computes with. Numbers are kept as their decimal text: arithmetic reads the text,
computes with doubles and writes the result back. Strings have a content, which is a text in every
program that comes from a source text. Arrays and functions have an identity, by which alone they
are compared; an identity is given once, when the value is made.
-/
namespace Script

inductive Native where
  | print | clear | timestamp | rand | number | string | boolean | length | type | input
  deriving DecidableEq

namespace Native

def all : List Native :=
  [.print, .clear, .timestamp, .rand, .number, .string, .boolean, .length, .type, .input]

def name : Native → String
  | .print => "print"
  | .clear => "clear"
  | .timestamp => "timestamp"
  | .rand => "rand"
  | .number => "number"
  | .string => "string"
  | .boolean => "boolean"
  | .length => "length"
  | .type => "type"
  | .input => "input"

def ofName? (name : String) : Option Native := all.find? (·.name = name)

end Native

abbrev ScopeId := Nat

abbrev Identity := Nat

inductive Value where
  | number (text : String)
  | string (content : Node)
  | boolean (b : Bool)
  | null
  | array (identity : Identity) (items : List Value)
  | function (identity : Identity) (name : Name) (params body : Node) (closure : ScopeId)
  | native (function : Native)
  deriving Inhabited

namespace Value

def ofDouble (x : Double) : Value := .number (Numeral.format x)

def ofNat (n : Nat) : Value := ofDouble (.ofNat n)

def ofText (s : String) : Value := .string (.text s)

def kindName : Value → String
  | .number _ => "number"
  | .string _ => "string"
  | .boolean _ => "boolean"
  | .null => "null"
  | .array .. => "array"
  | .function .. => "function"
  | .native _ => "native_function"

def isNull : Value → Bool
  | .null => true
  | _ => false

def truth (b : Bool) : String := if b then "true" else "false"

mutual

/-- What a value is printed as and joined to strings as. -/
def content : Value → Except Fault Node
  | .number text => .ok (.text text)
  | .string content => .ok content
  | .boolean b => .ok (.text (truth b))
  | .null => .ok (.text "null")
  | .array _ items => do
      Content.line "" [.text "[", ← Content.line ", " (← contents items), .text "]"]
  | .function _ name _ _ _ => Content.line "" [.text "<function ", name.toText, .text ">"]
  | .native f => .ok (.text ("<native function " ++ f.name ++ ">"))

def contents : List Value → Except Fault (List Node)
  | [] => .ok []
  | v :: rest => return (← v.content) :: (← contents rest)

end

mutual

def describe : Value → String
  | .number text => "Number(" ++ text ++ ")"
  | .string content => "String(" ++ content.describe ++ ")"
  | .boolean b => "Boolean(" ++ truth b ++ ")"
  | .null => "null"
  | .array _ items => "Array([" ++ String.intercalate ", " (describeAll items) ++ "])"
  | .function _ name _ _ _ => "<function " ++ name.shown ++ ">"
  | .native f => "<native function " ++ f.name ++ ">"

def describeAll : List Value → List String
  | [] => []
  | item :: rest => item.describe :: describeAll rest

end

def readNumber (text : String) : Except Fault Double :=
  match Numeral.literal? text with
  | some x => .ok x
  | none => .error .badNumeral

/-- The number that ordering, indexing and mixed arithmetic see in a value. -/
def toDouble : Value → Except Fault Double
  | .number text => readNumber text
  | .string (.text s) => .ok (Numeral.ofStart s)
  | .string (.codes cs) => .ok (Numeral.ofStart (String.ofList (Text.Code.leading cs)))
  | .string _ => .error .wrongShape
  | .boolean b => .ok (if b then .ofNat 1 else .zero)
  | _ => .ok .nan

def toInt (v : Value) : Except Fault Int := return (← v.toDouble).truncate

/-- False, null, zero and the empty string are falsy. -/
def isFalsy : Value → Except Fault Bool
  | .boolean b => .ok !b
  | .null => .ok true
  | .number text => return (← readNumber text).isZero
  | .string (.text s) => .ok s.isEmpty
  | _ => .ok false

/-- Equality of values of one kind: numbers by their texts, arrays and functions by identity. -/
def same : Value → Value → Bool
  | .number a, .number b => a = b
  | .string a, .string b => a.same b
  | .boolean a, .boolean b => a = b
  | .null, .null => true
  | .array a _, .array b _ => a = b
  | .function a _ _ _ _, .function b _ _ _ _ => a = b
  | .native a, .native b => a = b
  | _, _ => false

/-- A condition holds exactly if its value is printed as `true`. -/
def holds (v : Value) : Except Fault Bool := do
  match ← v.content with
  | .text s => return s = "true"
  | _ => return false

/-- The item of an array or the part of a string at a position; null where there is none. -/
def part (i : Nat) : Value → Except Fault Value
  | .array _ items => .ok ((items[i]?).getD .null)
  | .string content => return ((← Content.part? i content).map Value.string).getD .null
  | _ => .ok .null

/-- What a value has at a position, which is cut toward zero; null where that is no position. -/
def get (target position : Value) : Except Fault Value := do
  match ← position.toDouble with
  | .nan | .infinite _ => return .null
  | x => if x.truncate < 0 then return .null else target.part x.truncate.toNat

end Value
end Script
