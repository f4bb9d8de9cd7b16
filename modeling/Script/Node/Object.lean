import Script.Node.Term

/-!
# Trees as JSON

A node becomes an object with its kind under the key `type` and its fields in order; atoms and
lists stay what they are. Loading reads an object the other way round: its type first, then the
fields it has in the order of its kind, then whether one is missing. Other keys are not looked
at. The mark of a constant declaration may be missing and then is false.
-/
namespace Script

inductive LoadFault where
  | unknownType (shown : String)
  | typeNotScalar
  | missingField
  deriving DecidableEq

def LoadFault.text? : LoadFault → Option String
  | .unknownType shown => some ("Unknown AST node type: " ++ shown)
  | .typeNotScalar | .missingField => none

namespace Node

def object (kind : Kind) (fields : List Json) : Json :=
  .object (("type", .text kind.name) :: kind.fieldNames.zip fields)

def atomToJson : Node → Json
  | .boolean b => .boolean b
  | .integer i => .integer i
  | .real x => .real x
  | .text s => .text s
  | .codes cs => .codes cs
  | _ => .null

def toJson : Node → Json := fold atomToJson .list object

/-- A node of a kind from its fields; only the mark of a declaration may be absent. -/
def build? : Kind → List (Option Node) → Option Node
  | .program, [some body] => some (.program body)
  | .numberLiteral, [some value] => some (.numberLiteral value)
  | .stringLiteral, [some value] => some (.stringLiteral value)
  | .booleanLiteral, [some value] => some (.booleanLiteral value)
  | .nullLiteral, [] => some .nullLiteral
  | .identifier, [some name] => some (.identifier name)
  | .varDecl, [some name, some value, isConst] =>
      some (.varDecl name value (isConst.getD (.boolean false)))
  | .assign, [some name, some value] => some (.assign name value)
  | .unaryOp, [some op, some operand] => some (.unaryOp op operand)
  | .binaryOp, [some op, some left, some right] => some (.binaryOp op left right)
  | .block, [some statements] => some (.block statements)
  | .ifStmt, [some condition, some thenBlock, some elseBlock] =>
      some (.ifStmt condition thenBlock elseBlock)
  | .whileStmt, [some condition, some body] => some (.whileStmt condition body)
  | .forStmt, [some init, some condition, some update, some body] =>
      some (.forStmt init condition update body)
  | .funcDecl, [some name, some params, some body] => some (.funcDecl name params body)
  | .call, [some name, some args] => some (.call name args)
  | .returnStmt, [some value] => some (.returnStmt value)
  | .deleteStmt, [some name] => some (.deleteStmt name)
  | .arrayLiteral, [some elements] => some (.arrayLiteral elements)
  | .index, [some target, some i] => some (.index target i)
  | .emptyStmt, [] => some .emptyStmt
  | _, _ => none

/-- The kind that the value under `type` names. -/
def kindOf : Option Json → Except LoadFault Kind
  | some (.text s) =>
      match Kind.ofName? s with
      | some kind => .ok kind
      | none => .error (.unknownType s)
  | some (.codes cs) => .error (.unknownType (Text.Code.shown cs))
  | none | some .null => .error (.unknownType "None")
  | some (.boolean b) => .error (.unknownType (if b then "True" else "False"))
  | some (.integer i) => .error (.unknownType (toString i))
  | some (.real x) => .error (.unknownType (describeReal x))
  | some (.list _) | some (.object _) => .error .typeNotScalar

/-- Collects the fields that are present, in order, or the first fault among them. -/
def collect (loaded : List (String × Except LoadFault Node)) :
    List String → Except LoadFault (List (Option Node))
  | [] => .ok []
  | name :: rest =>
      match loaded.lookup name with
      | none => (collect loaded rest).map (none :: ·)
      | some (.error fault) => .error fault
      | some (.ok node) => (collect loaded rest).map (some node :: ·)

def assemble (type? : Option Json) (loaded : List (String × Except LoadFault Node)) :
    Except LoadFault Node :=
  match kindOf type? with
  | .error fault => .error fault
  | .ok kind =>
      match collect loaded kind.fieldNames with
      | .error fault => .error fault
      | .ok fields =>
          match build? kind fields with
          | some node => .ok node
          | none => .error .missingField

mutual

def ofJson : Json → Except LoadFault Node
  | .null => .ok .null
  | .boolean b => .ok (.boolean b)
  | .integer i => .ok (.integer i)
  | .real x => .ok (.real x)
  | .text s => .ok (.text s)
  | .codes cs => .ok (.codes cs)
  | .list items => (listOfJson items).map .list
  | .object members => assemble (Json.member? "type" members) (membersOfJson members)

def listOfJson : List Json → Except LoadFault (List Node)
  | [] => .ok []
  | item :: rest =>
      match ofJson item with
      | .error fault => .error fault
      | .ok node => (listOfJson rest).map (node :: ·)

def membersOfJson : List (String × Json) → List (String × Except LoadFault Node)
  | [] => []
  | (key, value) :: rest => (key, ofJson value) :: membersOfJson rest

end

end Node
end Script
