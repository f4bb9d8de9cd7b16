/-!
# Paths

A path is a root, which is empty for a relative path, and names. Writing a path joins the names
by single slashes; empty names and single dots are dropped on reading, double dots are kept. The
way of a text is what a disk makes of it as it stands: there a single dot, and an empty name, is a
step that stays in a directory.
-/
namespace Script

structure Path where
  root : String
  names : List String
  deriving DecidableEq

namespace Path

/-- Two slashes in front are a root of their own; any other number of them is the same as one. -/
def rootOf (text : List Char) : String :=
  match (text.takeWhile (· = '/')).length with
  | 0 => ""
  | 2 => "//"
  | _ => "/"

def pieces (text : String) : List String := (text.toList.splitOn '/').map String.ofList

def ofText (text : String) : Path where
  root := rootOf text.toList
  names := (pieces text).filter fun name => name ≠ "" ∧ name ≠ "."

def text (p : Path) : String :=
  if p.root = "" ∧ p.names = [] then "." else p.root ++ String.intercalate "/" p.names

def way (text : String) : List String :=
  (pieces text).map fun name => if name = "" then "." else name

/-- The names on the way to a path; a root counts as the first of them. -/
def steps (p : Path) : List String := if p.root = "" then p.names else p.root :: p.names

/-- The names of a file beside the named one, whose own name is longer by an ending. -/
def lengthen (names : List String) (ending : String) : List String :=
  names.dropLast ++ [names.getLast?.getD "" ++ ending]

def withEnding (p : Path) (ending : String) : Path := { p with names := lengthen p.names ending }

end Path
end Script
