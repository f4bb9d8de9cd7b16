/-!
# Cutting texts

Taking a text apart: into pairs of characters, at the first occurrence of another text and at all
its occurrences from left to right.
-/
namespace Script.Text

variable {α : Type}

def pairsFrom (done : List (List α)) : List α → List (List α)
  | [] => done.reverse
  | [c] => ([c] :: done).reverse
  | c :: d :: cs => pairsFrom ([c, d] :: done) cs

/-- The text in pieces of two characters; an odd last one stands alone. -/
def pairs (cs : List α) : List (List α) := pairsFrom [] cs

variable [DecidableEq α]

/-- Cuts `cs` around the leftmost occurrence of `pattern`; `seen` is what stands before `cs`, last
character first. -/
def cutFrom (pattern seen : List α) : List α → Option (List α × List α)
  | [] => if pattern = [] then some (seen.reverse, []) else none
  | c :: cs =>
      if pattern.isPrefixOf (c :: cs) then some (seen.reverse, (c :: cs).drop pattern.length)
      else cutFrom pattern (c :: seen) cs

def cut? (pattern cs : List α) : Option (List α × List α) := cutFrom pattern [] cs

def eraseFirst (pattern cs : List α) : List α :=
  match cut? pattern cs with
  | some (before, after) => before ++ after
  | none => cs

/-- Splits at a separator. The first `skip` characters belong to a separator already found,
`piece` is the piece being read and `done` are the finished ones, both last first. -/
def splitFrom (sep : List α) : (skip : Nat) → (piece : List α) → (done : List (List α)) →
    List α → List (List α)
  | _, piece, done, [] => (piece.reverse :: done).reverse
  | skip + 1, piece, done, _ :: cs => splitFrom sep skip piece done cs
  | 0, piece, done, c :: cs =>
      if sep.isPrefixOf (c :: cs) then splitFrom sep (sep.length - 1) [] (piece.reverse :: done) cs
      else splitFrom sep 0 (c :: piece) done cs

/-- The pieces between the occurrences of a separator that is not empty, found from left to right
without overlap. -/
def splitOn (sep cs : List α) : List (List α) := splitFrom sep 0 [] [] cs

end Script.Text
