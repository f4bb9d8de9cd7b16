import Script.Fault
import Script.Node.Term
import Script.Text.Blank
import Script.Text.Cut

/-!
# Contents of strings

The content of a string is a text, unless a loaded tree has something else in a string literal.
Then the content is that tree, and an operation does with it what its shape allows: lists are cut
and joined like texts, numbers are added and multiplied, and everything else is a fault. Texts with
half of a surrogate pair are cut and joined by their code points.
-/
namespace Script.Content

open Text (Code)

def parts : Node → Except Fault (List Node)
  | .text s => .ok (s.toList.map fun c => .text (String.singleton c))
  | .codes cs => .ok (cs.map fun c => .ofCodes [c])
  | .list items => .ok items
  | _ => .error .wrongShape

def length : Node → Except Fault Nat
  | .text s => .ok s.length
  | .codes cs => .ok cs.length
  | .list items => .ok items.length
  | _ => .error .wrongShape

def part? (i : Nat) : Node → Except Fault (Option Node)
  | .text s => .ok (s.toList[i]?.map fun c => .text (String.singleton c))
  | .codes cs => .ok (cs[i]?.map fun c => .ofCodes [c])
  | .list items => .ok items[i]?
  | _ => .error .wrongShape

/-- Keeps those parts that `choose` keeps of any list. -/
def keep (choose : {α : Type} → List α → List α) : Node → Except Fault Node
  | .text s => .ok (.text (String.ofList (choose s.toList)))
  | .codes cs => .ok (.ofCodes (choose cs))
  | .list items => .ok (.list (choose items))
  | _ => .error .wrongShape

/-- The content in pieces of two parts; an odd last one stands alone. -/
def pairs : Node → Except Fault (List Node)
  | .text s => .ok ((Text.pairs s.toList).map fun piece => .text (String.ofList piece))
  | .codes cs => .ok ((Text.pairs cs).map .ofCodes)
  | .list items => .ok ((Text.pairs items).map .list)
  | _ => .error .wrongShape

/-- The double that a number is; a whole number has to be in their range. -/
def toDouble (n : Node) : Except Fault Double :=
  match n, n.integer? with
  | .real x, _ => .ok x
  | _, some i =>
      match Double.ofInt i with
      | .infinite _ => .error .numeralTooLarge
      | x => .ok x
  | _, none => .error .wrongShape

/-- The sum of two numbers; whole ones stay whole. -/
def sum : Node → Node → Except Fault Node
  | .real x, b => return .real (x.add (← toDouble b))
  | a, .real y => return .real ((← toDouble a).add y)
  | a, b =>
      match a.integer?, b.integer? with
      | some i, some j => .ok (.integer (i + j))
      | _, _ => .error .wrongShape

/-- Texts and lists are joined, numbers are added. -/
def join : Node → Node → Except Fault Node
  | .text a, .text b => .ok (.text (a ++ b))
  | .list a, .list b => .ok (.list (a ++ b))
  | a, b =>
      match a.codes?, b.codes? with
      | some x, some y => .ok (.ofCodes (x ++ y))
      | _, _ => sum a b

/-- Texts in one line, with a separator between them; nothing else can stand there. -/
def line (separator : String) (texts : List Node) : Except Fault Node :=
  match texts.mapM Node.text? with
  | some strings => .ok (.text (String.intercalate separator strings))
  | none =>
      match texts.mapM Node.codes? with
      | some all => .ok (.ofCodes ((Code.ofText separator).intercalate all))
      | none => .error .wrongShape

/-- The text that shows a content; a whole number may be too long for one. -/
def shown : Node → Except Fault Node
  | .integer i =>
      if Nat.pow 10 Json.digitLimit ≤ i.natAbs then .error .integerTooLong
      else .ok (Node.integer i).toText
  | c => .ok c.toText

/-- What is written out for a content; half of a surrogate pair cannot be. -/
def written (c : Node) : Except Fault String := do
  match ← shown c with
  | .text s => .ok s
  | _ => .error .unwritable

/-- No text is so long, no list has so many items, and nothing is repeated so often. -/
def copyLimit : Nat := 1 <<< 63

def repeatList {α : Type} (n : Nat) (items : List α) : List α :=
  if items.isEmpty then [] else (List.replicate n items).flatten

def copiesFit (n length : Nat) : Except Fault Unit :=
  if copyLimit ≤ n ∨ copyLimit ≤ length * n then .error (@Fault.tooManyCopies n length)
  else .ok ()

/-- A text or list `n` times over; numbers are multiplied. -/
def copies (n : Nat) : Node → Except Fault Node
  | .text s => do
      copiesFit n s.length
      return .text (String.ofList (repeatList n s.toList))
  | .codes cs => do
      copiesFit n cs.length
      return .ofCodes (repeatList n cs)
  | .list items =>
      if copyLimit ≤ n then .error (@Fault.tooManyCopies n items.length)
      else if copyLimit ≤ items.length * n then .error (@Fault.outOfMemory n items.length)
      else .ok (.list (repeatList n items))
  | .real x => .ok (.real (x.mul (.ofNat n)))
  | c =>
      match c.integer? with
      | some i => .ok (.integer (i * n))
      | none => .error .wrongShape

def without (c d : Node) : Except Fault Node :=
  match c, d with
  | .text s, .text t => .ok (.text (String.ofList (Text.eraseFirst t.toList s.toList)))
  | _, _ =>
      match c.codes?, d.codes? with
      | some x, some y => .ok (.ofCodes (Text.eraseFirst y x))
      | some _, none => .error .wrongShape
      | none, _ => .error .missingPart

/-- The pieces of a text between the occurrences of another that are not empty. -/
def pieces {α : Type} [DecidableEq α] (sep cs : List α) : List (List α) :=
  (Text.splitOn sep cs).filter (!·.isEmpty)

/-- The pieces between the occurrences of a separator, those that count as unset left out: the
empty text stands between all parts and null for any run of blanks. -/
def split (c sep : Node) : Except Fault (List Node) :=
  match c, sep with
  | _, .text "" => return (← parts c).filter Node.isSet
  | .text s, .text t =>
      .ok ((pieces t.toList s.toList).map fun piece => .text (String.ofList piece))
  | .text s, .null =>
      .ok ((Text.fields Text.isBlank s.toList).map fun piece => .text (String.ofList piece))
  | .codes cs, .null => .ok ((Text.fields Code.isBlank cs).map .ofCodes)
  | _, _ =>
      match c.codes?, sep.codes? with
      | some x, some y => .ok ((pieces y x).map .ofCodes)
      | some _, none => .error .wrongShape
      | none, _ => .error .missingPart

end Script.Content
