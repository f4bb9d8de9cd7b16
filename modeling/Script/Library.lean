import Script.Machine

/-!
# The root library

The constants and functions that every program finds in its root scope.
-/
namespace Script.Library

open Value

def one (args : List Value) : Run Value :=
  match args with
  | [] => throw (.evaluation .missingArgument)
  | v :: _ => pure v

/-- What the first argument is printed as; the empty text without one. -/
def hint (args : List Value) : Except Fault Node :=
  match args with
  | [] => .ok (.text "")
  | v :: _ => v.content

def ofText (text : String) : Double :=
  match Text.trim text.toList with
  | [] => .zero
  | inner => (Numeral.ofWhole? inner).getD .nan

def toNumber : Value → Except Fault Value
  | .number text => .ok (.number text)
  | .boolean b => .ok (ofNat (if b then 1 else 0))
  | .null => .ok (ofDouble .zero)
  | .string (.text s) => .ok (ofDouble (ofText s))
  | .string (.codes _) => .ok (ofDouble .nan)
  | .string _ => .error .missingPart
  | _ => .ok (ofDouble .nan)

def toBoolean : Value → Except Fault Bool
  | .number text => do
      let x ← readNumber text
      return !x.isNaN && !x.isZero
  | .array .. | .function .. | .native _ => .ok false
  | v => return !(← v.isFalsy)

def length : Value → Except Fault Nat
  | .string content => Content.length content
  | .number text => .ok text.length
  | .boolean _ => .ok 1
  | .function _ _ params _ _ => Content.length params
  | .array _ items => .ok items.length
  | _ => .ok 0

/-- A random number as a fraction of one, of which a number is its share of the time and a boolean
tells whether it is more than a half. A text has 52 of the bits. -/
def rand (kind : Node) : Run Value := do
  let n ← Run.random
  let fraction := (Double.ofNat n).div (.ofNat (1 <<< 53))
  match kind with
  | .text "number" => return ofDouble (fraction.mul (.ofNat (← Run.now))).nearestWhole
  | .text "boolean" => return .boolean (1 <<< 52 < n)
  | _ => return .ofText (String.ofList (Nat.toDigits 16 (n / 2)))

def call (f : Native) (args : List Value) : Run Value :=
  match f with
  | .print => do
      Run.write (← Content.line " " (← contents args))
      return .null
  | .clear => do
      Run.record .cleared
      return .null
  | .timestamp => return ofNat (← Run.now)
  | .rand => do rand (← hint args)
  | .number => do toNumber (← one args)
  | .string => return .string (← (← one args).content)
  | .boolean => return .boolean (← toBoolean (← one args))
  | .length => return ofNat (← length (← one args))
  | .type => return .ofText (← one args).kindName
  | .input => do
      let line ← Run.readLine? (← hint args)
      return .ofText (line.getD "")

def pi : Double := Decimal.toDouble false ⟨3141592653589793, -15⟩

def e : Double := Decimal.toDouble false ⟨2718281828459045, -15⟩

def version : String := "0.0.1"

def constants : List Binding :=
  [⟨.word "PI", ofDouble pi, .constant⟩, ⟨.word "E", ofDouble e, .constant⟩,
    ⟨.word "version", .ofText version, .constant⟩]

def bindings : List Binding :=
  constants ++ Native.all.map fun f => ⟨.word f.name, .native f, .function⟩

def root : Scope := { Scope.inside none with bindings }

end Script.Library
