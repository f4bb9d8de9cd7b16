import Script.Node.Parser
import Mathlib.Data.List.Basic

/-!
# The grammar

Which trees a list of lexemes spells, said without a parser. `Derives c ts e us` reads: at the
start of `ts` there is a phrase of the category `c` with the tree `e`, and `us` stands behind it.
Binary levels recur on the left, assignment and the prefix operators on the right. A lexeme is a
token without its line, so no derivation depends on lines.
-/
namespace Script

/-- A token without its line. -/
abbrev Lexeme := Token.Kind × String

def Token.bare (t : Token) : Lexeme := (t.kind, t.value)

namespace Grammar

/-- What a phrase can be. The first eight are the levels of expressions, the loosest first. -/
inductive Category where
  | assignment | logical | comparison | additive | multiplicative | unary | indexed | primary
  | name
  | items (item : Category) (close : String)
  | moreItems (item : Category) (close : String)
  | declaration | block | body | statement | program
  deriving DecidableEq

namespace Category

def tighter? : Category → Option Category
  | assignment => some logical
  | logical => some comparison
  | comparison => some additive
  | additive => some multiplicative
  | multiplicative => some unary
  | unary => some indexed
  | indexed => some primary
  | _ => none

def operators : Category → List String
  | logical => ["&&", "||"]
  | comparison => ["==", "!=", ">", ">=", "<", "<="]
  | additive => ["+", "-"]
  | multiplicative => ["*", "/", "%", "**"]
  | _ => []

end Category

def negations : List String := ["!", "-"]

def steps : List String := ["++", "--"]

/-- A word that may be a name: any but the keywords. -/
def IsName (s : String) : Prop := s ∉ Parse.keywords

/-- What may stand behind an expression that is a statement: a semicolon, which belongs to the
statement, or what closes the statements around it. -/
inductive Ends : List Lexeme → List Lexeme → Prop
  | semicolon (v : String) (us : List Lexeme) : Ends ((.symbol ";", v) :: us) us
  | brace (v : String) (us : List Lexeme) :
      Ends ((.symbol "\x7d", v) :: us) ((.symbol "\x7d", v) :: us)
  | eof (v : String) (us : List Lexeme) : Ends ((.eof, v) :: us) ((.eof, v) :: us)

open Category in
inductive Derives : Category → List Lexeme → Node → List Lexeme → Prop
  | loosen {c d ts e us} (hc : c.tighter? = some d) (h : Derives d ts e us) : Derives c ts e us
  -- primary expressions
  | number (s us) : Derives primary ((.number, s) :: us) (.numberLiteral (.text s)) us
  | string (s us) : Derives primary ((.string, s) :: us) (.stringLiteral (.text s)) us
  | isTrue (us) : Derives primary ((.ident, "true") :: us) (.booleanLiteral (.boolean true)) us
  | isFalse (us) : Derives primary ((.ident, "false") :: us) (.booleanLiteral (.boolean false)) us
  | null (us) : Derives primary ((.ident, "null") :: us) .nullLiteral us
  | identifier {s} (us) (hs : IsName s) :
      Derives primary ((.ident, s) :: us) (.identifier (.text s)) us
  | call {s ts args us} (v) (hs : IsName s) (h : Derives (items assignment ")") ts args us) :
      Derives primary ((.ident, s) :: (.symbol "(", v) :: ts) (.call (.text s) args) us
  | paren {ts e us} (v w) (h : Derives assignment ts e ((.symbol ")", w) :: us)) :
      Derives primary ((.symbol "(", v) :: ts) e us
  | array {ts es us} (v) (h : Derives (items assignment "]") ts es us) :
      Derives primary ((.symbol "[", v) :: ts) (.arrayLiteral es) us
  -- operators
  | index {ts e us i vs} (v w) (he : Derives indexed ts e ((.symbol "[", v) :: us))
      (hi : Derives assignment us i ((.symbol "]", w) :: vs)) : Derives indexed ts (.index e i) vs
  | negation {s ts e us} (v) (hs : s ∈ negations) (h : Derives unary ts e us) :
      Derives unary ((.symbol s, v) :: ts) (.unaryOp (.text v) e) us
  | stepBefore {s ts x us} (v) (hs : s ∈ steps) (h : Derives unary ts (.identifier x) us) :
      Derives unary ((.symbol s, v) :: ts) (.unaryOp (.text v) (.identifier x)) us
  | stepAfter {s v ts x us} (hs : s ∈ steps)
      (h : Derives indexed ts (.identifier x) ((.symbol s, v) :: us)) :
      Derives unary ts (.unaryOp (.text v) (.identifier x)) us
  | binary {c d s v ts a us b vs} (hc : c.tighter? = some d) (hs : s ∈ c.operators)
      (ha : Derives c ts a ((.symbol s, v) :: us)) (hb : Derives d us b vs) :
      Derives c ts (.binaryOp (.text v) a b) vs
  | assign {s f v ts x us e vs} (hs : (s, f) ∈ Parse.assignments)
      (hx : Derives logical ts (.identifier x) ((.symbol s, v) :: us))
      (he : Derives assignment us e vs) : Derives assignment ts (Parse.assigned x e f) vs
  -- names, and items between commas
  | name {s} (us) (hs : IsName s) : Derives name ((.ident, s) :: us) (.text s) us
  | noItems {c close} (v us) : Derives (items c close) ((.symbol close, v) :: us) (.list []) us
  | someItems {c close ts e us es vs} (he : Derives c ts e us)
      (hes : Derives (moreItems c close) us (.list es) vs) :
      Derives (items c close) ts (.list (e :: es)) vs
  | noMore {c close} (v us) : Derives (moreItems c close) ((.symbol close, v) :: us) (.list []) us
  | more {c close ts e us es vs} (v) (he : Derives c ts e us)
      (hes : Derives (moreItems c close) us (.list es) vs) :
      Derives (moreItems c close) ((.symbol ",", v) :: ts) (.list (e :: es)) vs
  -- statements
  | uninitialized {s} (v us) (hs : IsName s) :
      Derives declaration ((.ident, "var") :: (.ident, s) :: (.symbol ";", v) :: us)
        (.varDecl (.text s) .null (.boolean false)) us
  | initialized {k s ts e us} (v w) (hk : k = "var" ∨ k = "const") (hs : IsName s)
      (h : Derives assignment ts e ((.symbol ";", w) :: us)) :
      Derives declaration ((.ident, k) :: (.ident, s) :: (.symbol "=", v) :: ts)
        (.varDecl (.text s) e (.boolean (k = "const"))) us
  | bodyEnd (v us) : Derives body ((.symbol "\x7d", v) :: us) (.list []) us
  | bodyMore {ts e us es vs} (he : Derives statement ts e us)
      (hes : Derives body us (.list es) vs) : Derives body ts (.list (e :: es)) vs
  | block {ts es us} (v) (h : Derives body ts es us) :
      Derives block ((.symbol "\x7b", v) :: ts) (.block es) us
  | ofBlock {ts e us} (h : Derives block ts e us) : Derives statement ts e us
  | ofDeclaration {ts e us} (h : Derives declaration ts e us) : Derives statement ts e us
  | ofExpression {ts e us vs} (h : Derives assignment ts e us) (hu : Ends us vs) :
      Derives statement ts e vs
  | empty (v us) : Derives statement ((.symbol ";", v) :: us) .emptyStmt us
  | function {s ts ps us b vs} (v) (hs : IsName s) (hp : Derives (items name ")") ts ps us)
      (hb : Derives block us b vs) :
      Derives statement ((.ident, "function") :: (.ident, s) :: (.symbol "(", v) :: ts)
        (.funcDecl (.text s) ps b) vs
  | ifThen {ts e us a vs} (v w) (he : Derives assignment ts e ((.symbol ")", w) :: us))
      (ha : Derives block us a vs) :
      Derives statement ((.ident, "if") :: (.symbol "(", v) :: ts) (.ifStmt e a .null) vs
  | ifElse {ts e us a vs b ws} (v w) (he : Derives assignment ts e ((.symbol ")", w) :: us))
      (ha : Derives block us a ((.ident, "else") :: vs)) (hb : Derives block vs b ws) :
      Derives statement ((.ident, "if") :: (.symbol "(", v) :: ts) (.ifStmt e a b) ws
  | while {ts e us b vs} (v w) (he : Derives assignment ts e ((.symbol ")", w) :: us))
      (hb : Derives block us b vs) :
      Derives statement ((.ident, "while") :: (.symbol "(", v) :: ts) (.whileStmt e b) vs
  | forDeclared {ts i us e vs n ws b xs} (v w₁ w₂) (hi : Derives declaration ts i us)
      (he : Derives assignment us e ((.symbol ";", w₁) :: vs))
      (hn : Derives assignment vs n ((.symbol ")", w₂) :: ws)) (hb : Derives block ws b xs) :
      Derives statement ((.ident, "for") :: (.symbol "(", v) :: ts) (.forStmt i e n b) xs
  | forExpression {ts i us e vs n ws b xs} (v w₀ w₁ w₂)
      (hi : Derives assignment ts i ((.symbol ";", w₀) :: us))
      (he : Derives assignment us e ((.symbol ";", w₁) :: vs))
      (hn : Derives assignment vs n ((.symbol ")", w₂) :: ws)) (hb : Derives block ws b xs) :
      Derives statement ((.ident, "for") :: (.symbol "(", v) :: ts) (.forStmt i e n b) xs
  | returnNothing (v us) :
      Derives statement ((.ident, "return") :: (.symbol ";", v) :: us) (.returnStmt .null) us
  | returnValue {ts e us} (v) (h : Derives assignment ts e ((.symbol ";", v) :: us)) :
      Derives statement ((.ident, "return") :: ts) (.returnStmt e) us
  | delete {s} (v us) (hs : IsName s) :
      Derives statement ((.ident, "delete") :: (.ident, s) :: (.symbol ";", v) :: us)
        (.deleteStmt (.text s)) us
  -- programs
  | programEnd (v us) : Derives program ((.eof, v) :: us) (.list []) ((.eof, v) :: us)
  | programMore {ts e us es vs} (he : Derives statement ts e us)
      (hes : Derives program us (.list es) vs) : Derives program ts (.list (e :: es)) vs

end Grammar
end Script
