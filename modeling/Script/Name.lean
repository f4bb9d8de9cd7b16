import Script.Node.Term

/-!
# Names

What scopes bind and programs refer to. In a source text every name is a word. A loaded tree may
have any tree without a list in the place of a name; such names are the same if the trees are
equal.
-/
namespace Script

inductive Name where
  | word (text : String)
  | tree (node : Node)
  deriving Inhabited

namespace Name

/-- The name that a tree stands for; a tree with a list in it stands for none. -/
def ofNode? : Node → Option Name
  | .text s => some (.word s)
  | n => if n.isListFree then some (.tree n) else none

def toNode : Name → Node
  | .word s => .text s
  | .tree n => n

def same : Name → Name → Bool
  | .word a, .word b => a = b
  | .tree a, .tree b => a.key = b.key
  | _, _ => false

def toText (name : Name) : Node := name.toNode.toText

def shown : Name → String
  | .word s => s
  | .tree n => n.plain

end Name
end Script
