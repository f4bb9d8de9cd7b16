import Script.Library

/-!
# Evaluation

The value of a tree in a scope. Each rule takes the evaluation of the parts as an argument, and
`evaluate` closes the circle with a bound on the depth; loops have a bound on their passes.
Blocks, branches, loop passes and `for` statements run in a scope of their own, which is released
when they are left. A call runs in a scope inside the one its function was declared in, and only a
`return` among the statements of the body itself ends it.
-/
namespace Script

namespace Evaluate

def nameOf (n : Node) : Run Name :=
  match Name.ofNode? n with
  | some name => pure name
  | none => throw .wrongShape

/-- The statements of a field that has to hold a block. -/
def statementsOf : Node → Run Node
  | .block statements => pure statements
  | _ => throw .missingPart

/-- The number in a literal: a text in literal notation, or a number of a saved tree. -/
def numberOf : Node → Except Fault Double
  | .text s => Value.readNumber s
  | .codes _ => .error .badNumeral
  | n => Content.toDouble n

def declare (name isConst : Node) (v : Value) (scope : ScopeId) : Run Value := do
  let name ← nameOf name
  let mark : Mark := if isConst.isSet then .constant else .variable
  discard (Run.scopes (Forest.define scope name v mark))
  Run.log 2 fun _ => do
    Content.line "" [.text (if isConst.isSet then "declare const " else "declare var "),
      name.toText, .text (": " ++ v.kindName ++ " = "), ← Content.shown (← v.content)]
  return v

section Rules

variable (passes : Nat) (eval : Node → ScopeId → Run Value)

def all (scope : ScopeId) : List Node → Run (List Value)
  | [] => pure []
  | n :: rest => do
      let first ← eval n scope
      let others ← all scope rest
      return first :: others

def sequence (scope : ScopeId) : List Node → Run Unit
  | [] => pure ()
  | n :: rest => do
      discard (eval n scope)
      sequence scope rest

/-- Runs the statements of a field in a scope of their own. -/
def inOwnScope (statements : Node) (scope : ScopeId) : Run Unit :=
  Run.within scope fun inner => do sequence eval inner (← Content.parts statements)

def blockIn (block : Node) (scope : ScopeId) : Run Unit := do
  inOwnScope eval (← statementsOf block) scope

def blockIfAny (block : Node) (scope : ScopeId) : Run Unit :=
  match block with
  | .null => pure ()
  | block => blockIn eval block scope

/-- The value of a tree that may be missing; null if it is. -/
def valueIfAny (value : Node) (scope : ScopeId) : Run Value :=
  match value with
  | .null => pure .null
  | value => eval value scope

/-- Runs the passes of a loop and counts them on from `count`. -/
def loop (condition : Run Bool) (body : Run Unit) : (passes : Nat) → (count : Nat) → Run Nat
  | 0, _ => throw .unfinished
  | passes + 1, count => do
      if ← condition then
        body
        loop condition body passes (count + 1)
      else return count

def condition (node : Node) (scope : ScopeId) : Run Bool := do (← eval node scope).holds

def varDecl (name value isConst : Node) (scope : ScopeId) : Run Value := do
  declare name isConst (← valueIfAny eval value scope) scope

def assign (name value : Node) (scope : ScopeId) : Run Value := do
  let v ← eval value scope
  Run.scopes (Forest.set scope (← nameOf name) v)

def ifStmt (test thenBlock elseBlock : Node) (scope : ScopeId) : Run Value := do
  let v ← eval test scope
  let holds ← v.holds
  Run.log 3 fun _ => do
    Content.line "" [.text "if condition ", ← Content.shown (← v.content),
      .text (if holds then " -> True" else " -> False")]
  if holds then blockIn eval thenBlock scope else blockIfAny eval elseBlock scope
  return .null

def whileStmt (test body : Node) (scope : ScopeId) : Run Value := do
  let count ← loop (condition eval test scope) (blockIn eval body scope) passes 0
  Run.log 3 fun _ => .ok (.text ("while loop finished after " ++ toString count ++ " iterations"))
  return .null

def forStmt (init test update body : Node) (scope : ScopeId) : Run Value := do
  Run.within scope fun inner => do
    discard (eval init inner)
    let pass : Run Unit := do
      blockIn eval body inner
      discard (eval update inner)
    let count ← loop (condition eval test inner) pass passes 0
    Run.log 3 fun _ => .ok (.text ("for loop finished after " ++ toString count ++ " iterations"))
  return .null

def funcDecl (name params body : Node) (scope : ScopeId) : Run Value := do
  Run.onForest (·.capture scope)
  let name ← nameOf name
  let f : Value := .function (← Run.freshIdentity) name params body scope
  discard (Run.scopes (Forest.define scope name f .function))
  Run.log 2 fun _ => do
    Content.line "" [.text "define function ", name.toText, .text "(",
      ← Content.line ", " (← Content.parts params), .text ")"]
  return f

/-- Binds the parameters of a call; those without an argument are null. -/
def bindParams (scope : ScopeId) : List Node → List Value → Run Unit
  | [], _ => pure ()
  | param :: params, args => do
      discard (Run.scopes (Forest.define scope (← nameOf param) (args.headD .null) .variable))
      bindParams scope params args.tail

/-- Runs the statements of a function up to the first `return` among them. -/
def body (scope : ScopeId) : List Node → Run Value
  | [] => pure .null
  | .returnStmt value :: _ => eval (.returnStmt value) scope
  | n :: rest => do
      discard (eval n scope)
      body scope rest

def invoke (name : Name) (f : Value) (args : List Value) : Run Value :=
  match f with
  | .native f => Library.call f args
  | .function _ _ params block closure => do
      let scope ← Run.scopes (Forest.child closure)
      bindParams scope (← Content.parts params) args
      body eval scope (← Content.parts (← statementsOf block))
  | _ => throw (.evaluation (.notFunction name.shown))

def call (name args : Node) (scope : ScopeId) : Run Value := do
  let name ← nameOf name
  let f ← Run.scopes (Forest.get scope name)
  let args ← all eval scope (← Content.parts args)
  Run.log 4 fun _ => do
    Content.line "" [.text "call ", name.toText, .text "(",
      ← Content.line ", " (← Value.contents args), .text ")"]
  invoke eval name f args

def unary (operator operand : Node) (scope : ScopeId) : Run Value := do
  let v ← eval operand scope
  match operator.plain with
  | "!" => return .boolean (← v.isFalsy)
  | "-" =>
      match v with
      | .number text => return Value.ofDouble (← Value.readNumber text).neg
      | _ => return .null
  | operator =>
      if operator = "++" ∨ operator = "--" then
        match ← Operator.step? operator v with
        | none => return .null
        | some next =>
            match operand.name? with
            | some name => Run.scopes (Forest.set scope (← nameOf name) next)
            | none => throw .missingPart
      else throw (.evaluation (.unknownUnary operator))

def binary (operator left right : Node) (scope : ScopeId) : Run Value := do
  let a ← eval left scope
  match operator.plain with
  | "&&" =>
      if ← a.isFalsy then return .boolean false
      else return .boolean !(← (← eval right scope).isFalsy)
  | "||" =>
      if ← a.isFalsy then return .boolean !(← (← eval right scope).isFalsy)
      else return .boolean true
  | operator => do
      let b ← eval right scope
      Run.allocate (Operator.copies? operator a b)
      Operator.apply (← Run.freshIdentity) operator a b

def arrayLiteral (elems : Node) (scope : ScopeId) : Run Value := do
  let values ← all eval scope (← Content.parts elems)
  return .array (← Run.freshIdentity) values

def index (target position : Node) (scope : ScopeId) : Run Value := do
  let v ← eval target scope
  let i ← eval position scope
  v.get i

/-- The value of a tree, given the evaluation of its parts. -/
def rule (node : Node) (scope : ScopeId) : Run Value :=
  match node with
  | .numberLiteral value => return Value.ofDouble (← numberOf value)
  | .stringLiteral value => return .string value
  | .booleanLiteral value => return .boolean value.isSet
  | .nullLiteral | .emptyStmt => return .null
  | .identifier name => do Run.scopes (Forest.get scope (← nameOf name))
  | .varDecl name value isConst => varDecl eval name value isConst scope
  | .assign name value => assign eval name value scope
  | .unaryOp operator operand => unary eval operator operand scope
  | .binaryOp operator left right => binary eval operator left right scope
  | .block statements => do
      inOwnScope eval statements scope
      return .null
  | .ifStmt test thenBlock elseBlock => ifStmt eval test thenBlock elseBlock scope
  | .whileStmt test body => whileStmt passes eval test body scope
  | .forStmt init test update body => forStmt passes eval init test update body scope
  | .funcDecl name params body => funcDecl name params body scope
  | .call name args => call eval name args scope
  | .returnStmt value => valueIfAny eval value scope
  | .deleteStmt name => do Run.scopes (Forest.delete scope (← nameOf name))
  | .arrayLiteral elems => arrayLiteral eval elems scope
  | .index target position => index eval target position scope
  | node => throw (.evaluation (.notEvaluable node.sort))

end Rules

end Evaluate

def evaluate (passes : Nat) : (depth : Nat) → Node → ScopeId → Run Value
  | 0, _, _ => throw .tooDeep
  | depth + 1, node, scope => Evaluate.rule passes (evaluate passes depth) node scope

end Script
