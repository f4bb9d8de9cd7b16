import Script.Json.Writer
import Script.Node

/-!
# Trees as terms

How messages show a tree: the kind of a node with its fields, lists in brackets and texts in
quotes. The key of a tree is such a term too, but in it equal numbers look alike, whether they are
whole, fractional or a truth value.
-/
namespace Script.Node

def field (name shown : String) : String := name ++ "=" ++ shown

def term (kind : Kind) (shown : List String) : String :=
  kind.name ++ "(" ++ String.intercalate ", " (kind.fieldNames.zipWith field shown) ++ ")"

def bracketed (shown : List String) : String := "[" ++ String.intercalate ", " shown ++ "]"

def describeReal : Double → String
  | .nan => "nan"
  | .infinite negative => if negative then "-inf" else "inf"
  | x => String.ofList (Json.writeReal x)

/-- An atom as messages show it; texts are quoted. -/
def describeAtom : Node → String
  | .boolean b => if b then "True" else "False"
  | .integer i => toString i
  | .real x => describeReal x
  | .text s => Text.quoted s
  | .codes cs => Text.Code.quoted cs
  | _ => "None"

def describe : Node → String := fold describeAtom bracketed term

/-- A text as it is but with an escape for half of a pair, any other tree as a term. -/
def plain : Node → String
  | .text s => s
  | .codes cs => Text.Code.shown cs
  | n => n.describe

def toText : Node → Node
  | .text s => .text s
  | .codes cs => .codes cs
  | n => .text n.describe

/-- The number that a truth value or an integer counts as. -/
def integer? : Node → Option Int
  | .boolean b => some (if b then 1 else 0)
  | .integer i => some i
  | _ => none

def whole? : Node → Option Int
  | .real x => x.whole?
  | n => n.integer?

def keyAtom (n : Node) : String :=
  match n.whole? with
  | some i => toString i
  | none => describeAtom n

/-- Trees are equal exactly if they have the same key. -/
def key : Node → String := fold keyAtom bracketed term

/-- Equality of trees, in which a number that is not a number differs from everything. -/
def same : Node → Node → Bool
  | .text a, .text b => a = b
  | .real .nan, _ => false
  | _, .real .nan => false
  | a, b => a.key = b.key

end Script.Node
