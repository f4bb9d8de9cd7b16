import Script.Numeral
import Script.Text.Code

/-!
# Syntax trees

A tree is an atom, a list or a node of one of twenty-one kinds. The fields of a node are trees of
any shape: what a source text reads as is well shaped, but a saved tree that is loaded again may
hold anything anywhere, and only running it tells. A text is a `text`, or `codes` if there is half
of a surrogate pair in it.
-/
namespace Script

inductive Node where
  | null
  | boolean (b : Bool)
  | integer (i : Int)
  | real (x : Double)
  | text (s : String)
  | codes (cs : List Text.Code)
  | list (items : List Node)
  | program (body : Node)
  | numberLiteral (value : Node)
  | stringLiteral (value : Node)
  | booleanLiteral (value : Node)
  | nullLiteral
  | identifier (name : Node)
  | varDecl (name value isConst : Node)
  | assign (name value : Node)
  | unaryOp (op operand : Node)
  | binaryOp (op left right : Node)
  | block (statements : Node)
  | ifStmt (condition thenBlock elseBlock : Node)
  | whileStmt (condition body : Node)
  | forStmt (init condition update body : Node)
  | funcDecl (name params body : Node)
  | call (name args : Node)
  | returnStmt (value : Node)
  | deleteStmt (name : Node)
  | arrayLiteral (elements : Node)
  | index (target index : Node)
  | emptyStmt
  deriving Inhabited

namespace Node

inductive Kind where
  | program | numberLiteral | stringLiteral | booleanLiteral | nullLiteral | identifier
  | varDecl | assign | unaryOp | binaryOp | block | ifStmt | whileStmt | forStmt | funcDecl
  | call | returnStmt | deleteStmt | arrayLiteral | index | emptyStmt
  deriving DecidableEq

def Kind.all : List Kind :=
  [.program, .numberLiteral, .stringLiteral, .booleanLiteral, .nullLiteral, .identifier, .varDecl,
    .assign, .unaryOp, .binaryOp, .block, .ifStmt, .whileStmt, .forStmt, .funcDecl, .call,
    .returnStmt, .deleteStmt, .arrayLiteral, .index, .emptyStmt]

def Kind.name : Kind → String
  | .program => "Program"
  | .numberLiteral => "NumberLiteral"
  | .stringLiteral => "StringLiteral"
  | .booleanLiteral => "BooleanLiteral"
  | .nullLiteral => "NullLiteral"
  | .identifier => "Identifier"
  | .varDecl => "VarDecl"
  | .assign => "Assign"
  | .unaryOp => "UnaryOp"
  | .binaryOp => "BinaryOp"
  | .block => "Block"
  | .ifStmt => "IfStmt"
  | .whileStmt => "WhileStmt"
  | .forStmt => "ForStmt"
  | .funcDecl => "FuncDecl"
  | .call => "Call"
  | .returnStmt => "ReturnStmt"
  | .deleteStmt => "DeleteStmt"
  | .arrayLiteral => "ArrayLiteral"
  | .index => "Index"
  | .emptyStmt => "EmptyStmt"

def Kind.ofName? (name : String) : Option Kind := Kind.all.find? (·.name = name)

def Kind.fieldNames : Kind → List String
  | .program => ["body"]
  | .numberLiteral | .stringLiteral | .booleanLiteral | .returnStmt => ["value"]
  | .nullLiteral | .emptyStmt => []
  | .identifier | .deleteStmt => ["name"]
  | .varDecl => ["name", "value", "is_const"]
  | .assign => ["name", "value"]
  | .unaryOp => ["op", "operand"]
  | .binaryOp => ["op", "left", "right"]
  | .block => ["statements"]
  | .ifStmt => ["condition", "then_block", "else_block"]
  | .whileStmt => ["condition", "body"]
  | .forStmt => ["init", "condition", "update", "body"]
  | .funcDecl => ["name", "params", "body"]
  | .call => ["name", "args"]
  | .arrayLiteral => ["elements"]
  | .index => ["target", "index"]

/-- The kind of a node; atoms and lists have none. -/
def kind? : Node → Option Kind
  | .program _ => some .program
  | .numberLiteral _ => some .numberLiteral
  | .stringLiteral _ => some .stringLiteral
  | .booleanLiteral _ => some .booleanLiteral
  | .nullLiteral => some .nullLiteral
  | .identifier _ => some .identifier
  | .varDecl .. => some .varDecl
  | .assign .. => some .assign
  | .unaryOp .. => some .unaryOp
  | .binaryOp .. => some .binaryOp
  | .block _ => some .block
  | .ifStmt .. => some .ifStmt
  | .whileStmt .. => some .whileStmt
  | .forStmt .. => some .forStmt
  | .funcDecl .. => some .funcDecl
  | .call .. => some .call
  | .returnStmt _ => some .returnStmt
  | .deleteStmt _ => some .deleteStmt
  | .arrayLiteral _ => some .arrayLiteral
  | .index .. => some .index
  | .emptyStmt => some .emptyStmt
  | _ => none

/-- What messages call a tree that cannot be run. -/
def sort (n : Node) : String :=
  match n with
  | .null => "NoneType"
  | .boolean _ => "bool"
  | .integer _ => "int"
  | .real _ => "float"
  | .text _ | .codes _ => "str"
  | .list _ => "list"
  | n => (n.kind?.map Kind.name).getD ""

/-- The name that a node binds, reads, assigns, calls or deletes. -/
def name? : Node → Option Node
  | .identifier name | .varDecl name _ _ | .assign name _ | .funcDecl name _ _ | .call name _
  | .deleteStmt name => some name
  | _ => none

section Fold

variable {β : Type} (atom : Node → β) (list : List β → β) (node : Kind → List β → β)

mutual

/-- What a tree comes to, from its leaves up, if `atom`, `list` and `node` say what its atoms, its
lists and its nodes come to. -/
def fold : Node → β
  | .list items => list (foldAll items)
  | .program body => node .program [fold body]
  | .numberLiteral value => node .numberLiteral [fold value]
  | .stringLiteral value => node .stringLiteral [fold value]
  | .booleanLiteral value => node .booleanLiteral [fold value]
  | .nullLiteral => node .nullLiteral []
  | .identifier name => node .identifier [fold name]
  | .varDecl name value isConst => node .varDecl [fold name, fold value, fold isConst]
  | .assign name value => node .assign [fold name, fold value]
  | .unaryOp op operand => node .unaryOp [fold op, fold operand]
  | .binaryOp op left right => node .binaryOp [fold op, fold left, fold right]
  | .block statements => node .block [fold statements]
  | .ifStmt condition thenBlock elseBlock =>
      node .ifStmt [fold condition, fold thenBlock, fold elseBlock]
  | .whileStmt condition body => node .whileStmt [fold condition, fold body]
  | .forStmt init condition update body =>
      node .forStmt [fold init, fold condition, fold update, fold body]
  | .funcDecl name params body => node .funcDecl [fold name, fold params, fold body]
  | .call name args => node .call [fold name, fold args]
  | .returnStmt value => node .returnStmt [fold value]
  | .deleteStmt name => node .deleteStmt [fold name]
  | .arrayLiteral elements => node .arrayLiteral [fold elements]
  | .index target i => node .index [fold target, fold i]
  | .emptyStmt => node .emptyStmt []
  | .null => atom .null
  | .boolean b => atom (.boolean b)
  | .integer i => atom (.integer i)
  | .real x => atom (.real x)
  | .text s => atom (.text s)
  | .codes cs => atom (.codes cs)

def foldAll : List Node → List β
  | [] => []
  | item :: rest => fold item :: foldAll rest

end

end Fold

def isListFree : Node → Bool := fold (fun _ => true) (fun _ => false) fun _ parts => parts.all id

/-- Whether a field counts as set: null, false, zero and what is empty do not. -/
def isSet : Node → Bool
  | .null => false
  | .boolean b => b
  | .integer i => i ≠ 0
  | .real x => !x.isZero
  | .text s => !s.isEmpty
  | .list items => !items.isEmpty
  | _ => true

def ofCodes (cs : List Text.Code) : Node :=
  match Text.Code.chars? cs with
  | some chars => .text (String.ofList chars)
  | none => .codes cs

def text? : Node → Option String
  | .text s => some s
  | _ => none

def codes? : Node → Option (List Text.Code)
  | .text s => some (Text.Code.ofText s)
  | .codes cs => some cs
  | _ => none

end Node
end Script
