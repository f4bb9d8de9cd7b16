import Script.Disk
import Script.Json.Reader
import Script.Options
import Script.Shell
import Script.Text.Lines

/-!
# Commands

Running programs from files, with standard input and output and a debug file. A command works on
a world: a disk, the text of the standard input, and what a run finds around it. It gives back how
it ended, what happened on the console and the disk afterwards. A fault that the command has no
words for escapes from it; what the host then says about it, the traceback on the standard error,
is left out, so that the complaint is empty there. Files can be written wherever the disk lets them
be written.
-/
namespace Script.Command

/-- The surroundings of a command. The standard input may come with line ends of every kind, or with
line feeds only; then a carriage return is a character like others. -/
structure World where
  disk : Disk
  input : String
  ambient : Ambient
  everyLineEnd : Bool := true

inductive Escape where
  | step (fault : Session.StepFault)
  | json (fault : Json.ReadFault)
  | directory
  | notDirectory
  | notFound
  | nameTooLong
  | badPath
  deriving DecidableEq

inductive Ending where
  | exit (code : Nat)
  | escape (cause : Escape)
  deriving DecidableEq

structure Report where
  ending : Ending
  output : String
  complaint : String
  disk : Disk
  events : List Event

def debugFile : List String := ["debug.txt"]

/-- Debug messages have a file unless something else has its name. -/
def hasDebugFile (d : Disk) : Bool := !d.isDirectory debugFile

/-- What is left when a run is over: the debug file is there from the first level on. -/
def report (w : World) (m : Machine) (ending : Ending) (complaint : String) : Report :=
  let events := m.events.toList
  { ending
    complaint
    events
    output := Console.output (!hasDebugFile w.disk) events
    disk :=
      if m.debugLevel > 0 && hasDebugFile w.disk then
        w.disk.write debugFile (Console.messages events)
      else w.disk }

def World.lines (w : World) : List String :=
  if w.everyLineEnd then Text.lines w.input else Text.linesOf w.input.toList

def machine (w : World) (level : Nat) : Machine := .fresh w.ambient level w.lines

def idle (w : World) (ending : Ending) (complaint : String) : Report :=
  report w (machine w 0) ending complaint

def printed (w : World) (lines : List String) : Report :=
  match lines.forM Run.writeText (machine w 0) with
  | .ok _ m | .error _ m => report w m (.exit 0) ""

def failed (w : World) (complaint : String) : Report := idle w (.exit 1) (complaint ++ "\n")

def decoded (text : String) : String := String.ofList (Text.unifyLineEnds text.toList)

def runSource (w : World) (level : Nat) (echo : Bool) (source : String) :
    Except Session.StepFault (List Value) × Machine × Report :=
  match Node.ofSource source with
  | .error fault =>
      (.error (.source fault), machine w 0, idle w (.escape (.step (.source fault))) "")
  | .ok node =>
      match Session.tree echo node (machine w level) with
      | (.ok values, m) => (.ok values, m, report w m (.exit 0) "")
      | (.error fault, m) => (.error fault, m, report w m (.escape (.step fault)) "")

/-- No path has the character zero in it. -/
def isPath (text : String) : Bool := text.toList.all (· ≠ '\x00')

def runFile (w : World) (level : Nat) (echo : Bool) (path : String) : Machine × Report :=
  let escaped (cause : Escape) := (machine w 0, idle w (.escape cause) "")
  if !isPath path then escaped .badPath
  else
    match w.disk.locate path with
    | .missing => escaped .notFound
    | .directory => escaped .directory
    | .notDirectory => escaped .notDirectory
    | .nameTooLong => escaped .nameTooLong
    | .file _ text => (runSource w level echo (decoded text)).2

def notFound (path : Path) : String := "Error: file " ++ path.text ++ " not found"

def withFile (w : World) (path : String) (body : List String → String → Report) : Report :=
  if !isPath path then failed w (notFound (.ofText path))
  else
    match w.disk.find (.ofText path) with
    | .missing | .notDirectory => failed w (notFound (.ofText path))
    | .directory => idle w (.escape .directory) ""
    | .nameTooLong => idle w (.escape .nameTooLong) ""
    | .file names text => body names (decoded text)

/-- What the command says about a fault of a run; it has no words for the others. -/
def complaint? : Session.StepFault → Option String
  | .run .tooDeep => some "maximum recursion depth exceeded"
  | fault => fault.diagnosis?.map (·.message)

def execute (w : World) (o : Options) (node : Node) : Report :=
  match Session.tree o.echo node (machine w o.verbosity) with
  | (.ok _, m) => report w m (.exit 0) ""
  | (.error fault, m) =>
      match complaint? fault with
      | some message => report w m (.exit 1) ("Runtime error: " ++ message ++ "\n")
      | none => report w m (.escape (.step fault)) ""

def sourceComplaint (w : World) (lead : String) (fault : SourceFault) : Report :=
  match fault.diagnosis? with
  | some d => failed w (lead ++ d.message)
  | none => idle w (.escape (.step (.source fault))) ""

def listTokens (w : World) (source : String) : Report :=
  match Token.tokenize source with
  | .ok tokens => printed w (tokens.map Token.listing)
  | .error fault => sourceComplaint w "Error: " (.lexical fault)

def treeEnding : String := ".ast.json"

def saveAt (w : World) (path : Path) (names : List String) (node : Node) : Report :=
  printed { w with disk := w.disk.write names node.toJson.render } [path.text]

/-- Saves the tree of a program in the file with the longer path, which is made beside the file of
the program if there is none, and prints where. -/
def saveTree (w : World) (path : Path) (names : List String) (source : String) : Report :=
  match Node.ofSource source with
  | .error fault => sourceComplaint w "Error: " fault
  | .ok node =>
      let target := path.withEnding treeEnding
      match w.disk.find target with
      | .directory => idle w (.escape .directory) ""
      | .nameTooLong => idle w (.escape .nameTooLong) ""
      | .file there _ => saveAt w target there node
      | .missing | .notDirectory => saveAt w target (Path.lengthen names treeEnding) node

def runTree (w : World) (o : Options) (text : String) : Report :=
  match Json.parse text with
  | .error fault => idle w (.escape (.json fault)) ""
  | .ok j =>
      match Node.ofJson j with
      | .error fault => idle w (.escape (.step (.load fault))) ""
      | .ok node => execute w o node

def runProgram (w : World) (o : Options) (source : String) : Report :=
  match Node.ofSource source with
  | .error fault => sourceComplaint w "Runtime error: " fault
  | .ok node => execute w o node

def runShell (w : World) (level : Nat) : Report :=
  match Shell.interact (machine w level) with
  | .ok _ m => report w m (.exit 0) ""
  | .error fault m => report w m (.escape (.step (.run fault))) ""

def usage : String :=
  "usage: npl [-h] [-v] [--echo]\n" ++
  "           [--tokens NPL_FILE | --emit-ast NPL_FILE | --ast AST_JSON_FILE]\n" ++
  "           [program]\n"

def helpLines : List String :=
  [usage, "NPL language interpreter", "",
    "positional arguments:",
    "  program              NPL program file (.npl) to execute", "",
    "options:",
    "  -h, --help           show this help message and exit",
    "  -v                   increase debug verbosity (can be repeated)",
    "  --echo               print the value of every top-level statement",
    "  --tokens NPL_FILE    print the tokens of the given .npl file",
    "  --emit-ast NPL_FILE  emit AST JSON for the given .npl file",
    "  --ast AST_JSON_FILE  execute AST from a JSON file"]

/-- The file that a command with options reads first, if any. -/
def fileOf (o : Options) : Option String :=
  Options.present o.tokens <|> Options.present o.emitAst <|> Options.present o.ast <|>
    Options.present o.program

/-- Carries out what options ask for: list tokens, save a tree, run a saved tree, run a program,
or start the shell. -/
def perform (w : World) (o : Options) : Report :=
  match Options.present o.tokens, Options.present o.emitAst, Options.present o.ast,
    Options.present o.program with
  | some path, _, _, _ => withFile w path fun _ source => listTokens w source
  | none, some path, _, _ => withFile w path fun names source =>
      saveTree w (.ofText path) names source
  | none, none, some path, _ => withFile w path fun _ text => runTree w o text
  | none, none, none, some path => withFile w path fun _ source => runProgram w o source
  | none, none, none, none => runShell w o.verbosity

def run (w : World) (args : List String) : Report :=
  match Options.parse args with
  | .error .usage => idle w (.exit 2) usage
  | .error .help => printed w helpLines
  | .ok o => perform w o

end Script.Command
