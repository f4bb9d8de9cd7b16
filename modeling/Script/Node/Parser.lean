import Script.Node
import Script.Token.Lexer

/-!
# From tokens to trees

One rule per level of the grammar, from the loosest binding to the tightest: assignment, logical,
comparison, additive, multiplicative, unary, index, primary. Binary levels group to the left,
assignment to the right. Rules that contain expressions or statements take the rule for them as an
argument; `expression` and `statement` close the circle with a bound on the nesting, which the
number of tokens never reaches.
-/
namespace Script

/-- A place in a token list: the token there and those behind it. -/
structure Parse.Cursor where
  current : Token
  rest : List Token
  deriving DecidableEq

/-- The next place. An end token and the last token of a list are never passed. -/
def Parse.Cursor.next (c : Parse.Cursor) : Parse.Cursor :=
  match c.current.kind, c.rest with
  | .eof, _ => c
  | _, [] => c
  | _, t :: ts => ⟨t, ts⟩

inductive ParseFault.Cause where
  | expected (what : String) (found : Token)
  | expectedWord (word : String) (found : Token)
  | keyword (word : String)
  | uninitialized (name : String)
  | openBlock
  | badTarget
  | notVariable (operator : String)
  | endOfInput
  | unexpected (found : Token)
  deriving DecidableEq

/-- A misfit tells the line it reports and the place where the rule stood. -/
inductive ParseFault where
  | misfit (cause : ParseFault.Cause) (line : Int) (place : Parse.Cursor)
  | noTokens
  | unfinished
  deriving DecidableEq

def ParseFault.Cause.text : ParseFault.Cause → String
  | .expected what found => "expected " ++ what ++ ", got " ++ found.mention
  | .expectedWord word found => "expected '" ++ word ++ "', got " ++ found.mention
  | .keyword word => "unexpected keyword '" ++ word ++ "'"
  | .uninitialized name => "const variable " ++ name ++ " must be initialized"
  | .openBlock => "unterminated block, expected \x7d"
  | .badTarget => "invalid assignment target"
  | .notVariable operator => "operand of " ++ operator ++ " must be a variable"
  | .endOfInput => "unexpected end of input"
  | .unexpected found => "unexpected token " ++ found.mention

def ParseFault.diagnosis? : ParseFault → Option Diagnosis
  | .misfit cause line _ => some ⟨"ParseError", cause.text, some line⟩
  | .noTokens | .unfinished => none

/-- A rule of the grammar: reads from a place, and gives a result and the place behind it. -/
abbrev Parse := StateT Parse.Cursor (Except ParseFault)

namespace Parse

open Token (Kind)

def keywords : List String :=
  ["var", "const", "if", "else", "while", "for", "function", "return", "delete", "true", "false",
    "null"]

def fail {α : Type} (cause : ParseFault.Cause) (line : Int) : Parse α := do
  throw (.misfit cause line (← get))

def peek : Parse Token := return (← get).current

def advance : Parse Unit := modify Cursor.next

def isAt (kind : Kind) : Parse Bool := return (← peek).kind = kind

def isAtSymbol (text : String) : Parse Bool := isAt (.symbol text)

def isAtAny (texts : List String) : Parse Bool := do
  let t ← peek
  return texts.any fun text => t.kind = .symbol text

def isAtWord (word : String) : Parse Bool := do
  let t ← peek
  return t.kind = .ident && t.value = word

def take : Parse Token := do
  let t ← peek
  advance
  return t

def expect (kind : Kind) : Parse Token := do
  let t ← peek
  if t.kind = kind then take else fail (.expected kind.name t) t.line

def expectSymbol (text : String) : Parse Token := expect (.symbol text)

def expectWord (word : String) : Parse Token := do
  if ← isAtWord word then take
  else
    let t ← peek
    fail (.expectedWord word t) t.line

/-- An identifier that is no keyword. -/
def name : Parse String := do
  let t ← expect .ident
  if keywords.contains t.value then fail (.keyword t.value) t.line else return t.value

section Expressions

variable (expression : Parse Node) (bound : Nat)

/-- Further items, each behind a comma. -/
def moreItems {α : Type} (item : Parse α) : Nat → Parse (List α)
  | 0 => throw .unfinished
  | n + 1 => do
      if ← isAtSymbol "," then
        advance
        let first ← item
        let rest ← moreItems item n
        return first :: rest
      else return []

/-- Items between commas up to a closing symbol, possibly none. -/
def items {α : Type} (item : Parse α) (close : String) : Parse (List α) := do
  if ← isAtSymbol close then
    advance
    return []
  else
    let first ← item
    let rest ← moreItems item bound
    discard (expectSymbol close)
    return first :: rest

def word : Parse Node := do
  let t ← peek
  if t.value = "true" ∨ t.value = "false" then
    advance
    return .booleanLiteral (.boolean (t.value = "true"))
  else if t.value = "null" then
    advance
    return .nullLiteral
  else
    let name ← name
    if ← isAtSymbol "(" then
      advance
      let args ← items bound expression ")"
      return .call (.text name) (.list args)
    else return .identifier (.text name)

def primary : Parse Node := do
  let t ← peek
  match t.kind with
  | .number =>
      advance
      return .numberLiteral (.text t.value)
  | .string =>
      advance
      return .stringLiteral (.text t.value)
  | .ident => word expression bound
  | .eof => fail .endOfInput t.line
  | .symbol text =>
      if text = "(" then
        advance
        let inner ← expression
        discard (expectSymbol ")")
        return inner
      else if text = "[" then
        advance
        let elements ← items bound expression "]"
        return .arrayLiteral (.list elements)
      else fail (.unexpected t) t.line

def indices : Nat → Node → Parse Node
  | 0, _ => throw .unfinished
  | n + 1, target => do
      if ← isAtSymbol "[" then
        advance
        let i ← expression
        discard (expectSymbol "]")
        indices n (.index target i)
      else return target

/-- A step up or down; its operand has to be a variable. -/
def update (operator : Token) (operand : Node) : Parse Node :=
  match operand with
  | .identifier name => return .unaryOp (.text operator.value) (.identifier name)
  | _ => fail (.notVariable operator.value) operator.line

def unary : Nat → Parse Node
  | 0 => throw .unfinished
  | n + 1 => do
      if ← isAtAny ["!", "-"] then
        let operator ← take
        let operand ← unary n
        return .unaryOp (.text operator.value) operand
      else if ← isAtAny ["++", "--"] then
        let operator ← take
        let operand ← unary n
        update operator operand
      else
        let first ← primary expression bound
        let operand ← indices expression bound first
        if ← isAtAny ["++", "--"] then
          let operator ← take
          update operator operand
        else return operand

/-- Further operands of one level, grouped to the left. -/
def chain (operand : Parse Node) (operators : List String) : Nat → Node → Parse Node
  | 0, _ => throw .unfinished
  | n + 1, left => do
      if ← isAtAny operators then
        let operator ← take
        let right ← operand
        chain operand operators n (.binaryOp (.text operator.value) left right)
      else return left

def level (operators : List String) (operand : Parse Node) : Parse Node := do
  let first ← operand
  chain operand operators bound first

def multiplicative : Parse Node := level bound ["*", "/", "%", "**"] (unary expression bound bound)

def additive : Parse Node := level bound ["+", "-"] (multiplicative expression bound)

def comparison : Parse Node :=
  level bound ["==", "!=", ">", ">=", "<", "<="] (additive expression bound)

def logical : Parse Node := level bound ["&&", "||"] (comparison expression bound)

/-- The assignment symbols, each with the operator that it applies first. -/
def assignments : List (String × Option String) :=
  [("=", none), ("+=", some "+"), ("-=", some "-"), ("*=", some "*"), ("/=", some "/"),
    ("%=", some "%")]

def assigned (name value : Node) : Option String → Node
  | none => .assign name value
  | some operator => .assign name (.binaryOp (.text operator) (.identifier name) value)

def assignment : Nat → Parse Node
  | 0 => throw .unfinished
  | n + 1 => do
      let target ← logical expression bound
      let t ← peek
      match assignments.find? fun a => t.kind = .symbol a.1 with
      | none => return target
      | some (_, operator?) =>
          match target with
          | .identifier name =>
              advance
              let value ← assignment n
              return assigned name value operator?
          | _ => fail .badTarget t.line

end Expressions

def expression : Nat → Parse Node
  | 0 => throw .unfinished
  | n + 1 => assignment (expression n) n n

section Statements

variable (expression statement : Parse Node) (bound : Nat)

/-- A semicolon, which may be missing before a closing brace and at the end. -/
def endOfExpression : Parse Unit := do
  if ← isAtSymbol ";" then advance
  else if (← isAtSymbol "\x7d") || (← isAt .eof) then return ()
  else discard (expectSymbol ";")

def blockRest : Nat → Parse (List Node)
  | 0 => throw .unfinished
  | n + 1 => do
      if ← isAtSymbol "\x7d" then
        advance
        return []
      else if ← isAt .eof then fail .openBlock (← peek).line
      else
        let first ← statement
        let rest ← blockRest n
        return first :: rest

def block : Parse Node := do
  discard (expectSymbol "\x7b")
  let statements ← blockRest statement bound
  return .block (.list statements)

def varDecl : Parse Node := do
  let keyword ← expect .ident
  let isConst := keyword.value = "const"
  let name ← name
  let value ←
    if ← isAtSymbol "=" then
      advance
      expression
    else if isConst then fail (.uninitialized name) keyword.line
    else pure .null
  discard (expectSymbol ";")
  return .varDecl (.text name) value (.boolean isConst)

def funcDecl : Parse Node := do
  discard (expectWord "function")
  let name ← name
  discard (expectSymbol "(")
  let params ← items bound Parse.name ")"
  let body ← block statement bound
  return .funcDecl (.text name) (.list (params.map .text)) body

def condition : Parse Node := do
  discard (expectSymbol "(")
  let inner ← expression
  discard (expectSymbol ")")
  return inner

def ifStmt : Parse Node := do
  discard (expectWord "if")
  let condition ← condition expression
  let thenBlock ← block statement bound
  let elseBlock ←
    if ← isAtWord "else" then
      advance
      block statement bound
    else pure .null
  return .ifStmt condition thenBlock elseBlock

def whileStmt : Parse Node := do
  discard (expectWord "while")
  let condition ← condition expression
  let body ← block statement bound
  return .whileStmt condition body

def forInit : Parse Node := do
  if (← isAtWord "var") || (← isAtWord "const") then varDecl expression
  else
    let init ← expression
    discard (expectSymbol ";")
    return init

def forStmt : Parse Node := do
  discard (expectWord "for")
  discard (expectSymbol "(")
  let init ← forInit expression
  let condition ← expression
  discard (expectSymbol ";")
  let update ← expression
  discard (expectSymbol ")")
  let body ← block statement bound
  return .forStmt init condition update body

def returnStmt : Parse Node := do
  discard (expectWord "return")
  if ← isAtSymbol ";" then
    advance
    return .returnStmt .null
  else
    let value ← expression
    discard (expectSymbol ";")
    return .returnStmt value

def deleteStmt : Parse Node := do
  discard (expectWord "delete")
  let name ← name
  discard (expectSymbol ";")
  return .deleteStmt (.text name)

def expressionStmt : Parse Node := do
  let value ← expression
  endOfExpression
  return value

def statementWith : Parse Node := do
  let t ← peek
  match t.kind with
  | .ident =>
      if t.value = "var" ∨ t.value = "const" then varDecl expression
      else if t.value = "function" then funcDecl statement bound
      else if t.value = "if" then ifStmt expression statement bound
      else if t.value = "while" then whileStmt expression statement bound
      else if t.value = "for" then forStmt expression statement bound
      else if t.value = "return" then returnStmt expression
      else if t.value = "delete" then deleteStmt
      else expressionStmt expression
  | .symbol text =>
      if text = "\x7b" then block statement bound
      else if text = ";" then
        advance
        return .emptyStmt
      else expressionStmt expression
  | _ => expressionStmt expression

def statements : Nat → Parse (List Node)
  | 0 => throw .unfinished
  | n + 1 => do
      if ← isAt .eof then return []
      else
        let first ← statement
        let rest ← statements n
        return first :: rest

end Statements

def statement : Nat → Parse Node
  | 0 => throw .unfinished
  | n + 1 => statementWith (expression n) (statement n) n

def program (bound : Nat) : Parse Node := do
  let body ← statements (statement bound) bound
  return .program (.list body)

end Parse

namespace Node

/-- The program that a list of tokens closed by an end token spells. -/
def ofTokens (tokens : List Token) : Except ParseFault Node :=
  match tokens with
  | [] => .error .noTokens
  | t :: ts => (Parse.program (tokens.length + 2) ⟨t, ts⟩).map (·.1)

end Node

inductive SourceFault where
  | lexical (fault : LexicalFault)
  | parse (fault : ParseFault)
  deriving DecidableEq

def SourceFault.diagnosis? : SourceFault → Option Diagnosis
  | .lexical fault => some fault.diagnosis
  | .parse fault => fault.diagnosis?

def Node.ofSource (source : String) : Except SourceFault Node :=
  match Token.tokenize source with
  | .error fault => .error (.lexical fault)
  | .ok tokens =>
      match Node.ofTokens tokens with
      | .error fault => .error (.parse fault)
      | .ok node => .ok node

end Script
