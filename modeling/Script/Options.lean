import Script.Text.Digit

/-!
# Command-line options

How the words of a command are read. `-v` counts and may be written several times behind one
dash; `--echo` is a switch; `--tokens`, `--emit-ast` and `--ast` take a file and exclude each
other; at most one more word names a program. A long option may be shortened as long as it stays
unique and may carry its value behind an equals sign. Behind `--` every word is plain.
-/
namespace Script

structure Options where
  verbosity : Nat := 0
  echo : Bool := false
  tokens : Option String := none
  emitAst : Option String := none
  ast : Option String := none
  program : Option String := none
  deriving DecidableEq

namespace Options

/-- Why words are no command: they do not fit the options, or they ask for help. -/
inductive Refusal where
  | usage
  | help
  deriving DecidableEq

inductive Switch where
  | help | verbose | echo | tokens | emitAst | ast
  deriving DecidableEq

def longNames : List (String × Switch) :=
  [("--help", .help), ("--echo", .echo), ("--tokens", .tokens), ("--emit-ast", .emitAst),
    ("--ast", .ast)]

/-- A word of a command: switches, a switch with a value, a word that looks like a switch and is
none, one that names a switch and does not fit it, a plain word, or the mark behind which all words
are plain. -/
inductive Word where
  | switches (several : List Switch)
  | valued (switch : Switch) (value : String)
  | unknown
  | unfit
  | plain (text : String)
  | divider
  deriving DecidableEq

/-- A dash, digits, and possibly a point with digits behind it. -/
def isNegative (cs : List Char) : Bool :=
  match cs with
  | '-' :: body =>
      let whole := body.takeWhile Text.isDigit
      match body.dropWhile Text.isDigit with
      | [] => !whole.isEmpty
      | '.' :: fraction => !fraction.isEmpty && fraction.all Text.isDigit
      | _ => false
  | _ => false

def dropLineEnd (cs : List Char) : List Char := if cs.getLast? = some '\n' then cs.dropLast else cs

/-- A word that starts with a dash and is no switch is plain if it is a negative number or has a
blank in it. -/
def otherwise (text : String) : Word :=
  if isNegative (dropLineEnd text.toList) || text.toList.contains ' ' then .plain text else .unknown

def shortSwitch? (c : Char) : Option Switch :=
  if c = 'v' then some .verbose else if c = 'h' then some .help else none

/-- More switches behind a short one, with or without an equals sign before them. -/
def shortWord (switch : Switch) (rest : List Char) : Word :=
  let others :=
    match rest with
    | '=' :: c :: cs => (c :: cs).mapM shortSwitch?
    | rest => rest.mapM shortSwitch?
  match others with
  | some others => .switches (switch :: others)
  | none => .unfit

/-- The word before the first equals sign, and the value behind it if there is one. -/
def splitValue (cs : List Char) : List Char × Option (List Char) :=
  match cs.dropWhile (· ≠ '=') with
  | [] => (cs, none)
  | _ :: value => (cs.takeWhile (· ≠ '='), some value)

/-- A long switch is one whose name a word is or, if there is none, the only one whose name starts
with it. -/
def longWord? (cs : List Char) : Except Refusal (Option Word) :=
  let (name, value?) := splitValue cs
  let exact := longNames.filter fun n => n.1.toList = name
  let matching :=
    if exact.isEmpty then longNames.filter fun n => name.isPrefixOf n.1.toList else exact
  match matching, value? with
  | [], _ => .ok none
  | [(_, switch)], none => .ok (some (.switches [switch]))
  | [(_, switch)], some value => .ok (some (.valued switch (String.ofList value)))
  | _, _ => .error .usage

/-- Reads a word on its own; only a long switch that is ambiguous is refused at once. -/
def word (text : String) : Except Refusal Word :=
  match text.toList with
  | '-' :: '-' :: cs => return (← longWord? ('-' :: '-' :: cs)).getD (otherwise text)
  | '-' :: first :: rest =>
      match shortSwitch? first with
      | some switch => .ok (shortWord switch rest)
      | none => .ok (otherwise text)
  | _ => .ok (.plain text)

def words : List String → Except Refusal (List Word)
  | [] => .ok []
  | text :: rest =>
      if text = "--" then .ok (.divider :: rest.map .plain)
      else do
        let first ← word text
        let others ← words rest
        return first :: others

def fileSwitches (o : Options) : List Switch :=
  (o.tokens.map fun _ => Switch.tokens).toList ++ (o.emitAst.map fun _ => Switch.emitAst).toList ++
    (o.ast.map fun _ => Switch.ast).toList

/-- Gives a file option its value, unless another one has been given. The mark for plain words is no
value and leaves the option empty. -/
def give (o : Options) (switch : Switch) (value : String) : Except Refusal Options :=
  let value := if value = "--" then "" else value
  if o.fileSwitches.any (· ≠ switch) then .error .usage
  else
    match switch with
    | .tokens => .ok { o with tokens := some value }
    | .emitAst => .ok { o with emitAst := some value }
    | .ast => .ok { o with ast := some value }
    | _ => .error .usage

/-- Turns on switches without a value; one that needs a value is given back. -/
def turnOn (o : Options) : List Switch → Except Refusal (Options × Option Switch)
  | [] => .ok (o, none)
  | .verbose :: rest => turnOn { o with verbosity := o.verbosity + 1 } rest
  | .echo :: rest => turnOn { o with echo := true } rest
  | .help :: _ => .error .help
  | switch :: _ => .ok (o, some switch)

/-- Reads words from left to right. `isOpen` tells whether the program may still be named, and
`isFit` whether every word so far had a place; one without a place is refused at the end. -/
def collect (o : Options) (isOpen isFit : Bool) : List Word → Except Refusal Options
  | [] => if isFit then .ok o else .error .usage
  | .switches several :: rest =>
      match turnOn o several with
      | .error refusal => .error refusal
      | .ok (o, none) => collect o isOpen isFit rest
      | .ok (o, some switch) =>
          match rest with
          | .plain value :: rest =>
              match o.give switch value with
              | .error refusal => .error refusal
              | .ok o => collect o isOpen isFit rest
          | _ => .error .usage
  | .valued switch value :: rest =>
      match o.give switch value with
      | .error refusal => .error refusal
      | .ok o => collect o isOpen isFit rest
  | .unknown :: rest => collect o isOpen false rest
  | .unfit :: _ => .error .usage
  | .plain text :: rest =>
      if isOpen then
        let o := { o with program := some text }
        match rest with
        | .divider :: rest => collect o false isFit rest
        | rest => collect o false isFit rest
      else collect o false false rest
  | .divider :: rest =>
      if isOpen then
        match rest with
        | .plain text :: rest => collect { o with program := some text } false isFit rest
        | rest => collect o false isFit rest
      else collect o false false rest

def parse (args : List String) : Except Refusal Options := do
  collect {} true true (← words args)

/-- The value of a file option; an empty one counts as absent. -/
def present (value : Option String) : Option String := value.filter (!·.isEmpty)

end Options
end Script
