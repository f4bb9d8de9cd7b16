import Script.Numeral
import Script.Text.Code

/-!
# JSON values

Whole numbers are kept apart from the others, which are doubles. A text that holds half of a
surrogate pair is kept apart from the texts of characters. The members of an object stand in
order, each key once.
-/
namespace Script

inductive Json where
  | null
  | boolean (b : Bool)
  | integer (i : Int)
  | real (x : Double)
  | text (s : String)
  | codes (cs : List Text.Code)
  | list (items : List Json)
  | object (members : List (String × Json))
  deriving Inhabited

namespace Json

def ofCodes (cs : List Text.Code) : Json :=
  match Text.Code.chars? cs with
  | some chars => .text (String.ofList chars)
  | none => .codes cs

/-- A whole number is read and shown with at most this many digits. -/
def digitLimit : Nat := 4300

/-- Adds a member at the end, or replaces the value that the key already has. -/
def insertMember (key : String) (value : Json) : List (String × Json) → List (String × Json)
  | [] => [(key, value)]
  | (k, v) :: rest =>
      if k = key then (k, value) :: rest else (k, v) :: insertMember key value rest

def member? (key : String) (members : List (String × Json)) : Option Json :=
  members.lookup key

end Json
end Script
