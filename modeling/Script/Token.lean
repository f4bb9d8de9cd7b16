import Script.Text.Quoted

/-!
# Tokens

A token has a kind, the text it stands for and the line it starts on. Operators and punctuation
are told apart by their own text; words are not, so `var` and `x` are both identifiers.
-/
namespace Script

inductive Token.Kind where
  | number | string | ident | eof
  | symbol (text : String)
  deriving DecidableEq, Inhabited

structure Token where
  kind : Token.Kind
  value : String
  line : Int
  deriving DecidableEq, Inhabited

namespace Token

def Kind.name : Kind → String
  | .number => "NUMBER"
  | .string => "STRING"
  | .ident => "IDENT"
  | .eof => "EOF"
  | .symbol text => text

def Kind.ofName (name : String) : Kind :=
  if name = "NUMBER" then .number
  else if name = "STRING" then .string
  else if name = "IDENT" then .ident
  else if name = "EOF" then .eof
  else .symbol name

def listing (t : Token) : String :=
  toString t.line ++ " " ++ t.kind.name ++ " " ++ t.value

def describe (t : Token) : String :=
  "Token(" ++ t.kind.name ++ ", " ++ Text.quoted t.value ++ ", line=" ++ toString t.line ++ ")"

def mention (t : Token) : String := t.kind.name ++ " " ++ Text.quoted t.value

end Token
end Script
