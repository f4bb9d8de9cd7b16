import Script.Console
import Script.Session
import Script.Text.Blank

/-!
# The shell

Reads lines and runs each as a program in one session, echoing the results. A few words at the
start of a line are commands to the shell itself. A fault of the language is reported in red and
does not end the session.
-/
namespace Script.Shell

inductive Command where
  | nothing
  | exit
  | endOfInput
  | tokens (source : String)
  | help (topic : String)
  | run (source : String)
  deriving DecidableEq

def isWordPart (c : Char) : Bool := c.isAlpha || c.isDigit || c = '_'

/-- A line without blanks around it, by its first word. -/
def Command.ofTrimmed (cs : List Char) : Command :=
  let word := String.ofList (cs.takeWhile isWordPart)
  let argument := String.ofList (Text.trim (cs.dropWhile isWordPart))
  if word = "exit" then .exit
  else if word = "EOF" then .endOfInput
  else if word = "tokens" then .tokens argument
  else if word = "help" then .help argument
  else .run (String.ofList cs)

def Command.ofLine (line : String) : Command :=
  match Text.trim line.toList with
  | [] => .nothing
  | '?' :: topic => .help (String.ofList (Text.trim topic))
  | cs => .ofTrimmed cs

def report (message : String) : Run Unit := Run.writeText (Console.red message)

/-- What the shell says about a fault; it has no words for the others. -/
def complaint? : Fault → Option String
  | .tooDeep => some "Error: maximum recursion depth exceeded"
  | fault => fault.diagnosis?.map (·.message)

def runSource (source : String) : Run Unit :=
  match Node.ofSource source with
  | .error fault =>
      match fault.diagnosis? with
      | some d => report d.message
      | none => pure ()
  | .ok node => fun m =>
      match Session.program true node m with
      | .ok _ m => .ok () m
      | .error fault m =>
          match complaint? fault with
          | some message => report message m
          | none => .error fault m

def listTokens (source : String) : Run Unit :=
  match Token.tokenize source with
  | .ok tokens => tokens.forM fun t => Run.writeText t.listing
  | .error fault => report fault.diagnosis.message

def overview : List String :=
  ["", "Documented commands (type help <topic>):", "========================================",
    "EOF  exit  help  tokens", ""]

def helpOn (topic : String) : List String :=
  if topic = "" then overview
  else if topic = "exit" ∨ topic = "EOF" then ["Exits interpreter."]
  else if topic = "tokens" then ["Prints the tokens of the given source, one per line."]
  else if topic = "help" then
    ["List available commands with \"help\" or detailed help with \"help cmd\"."]
  else ["*** No help on " ++ topic]

def carryOut : Command → Run Bool
  | .nothing => return false
  | .exit => return true
  | .endOfInput => do
      Run.writeText ""
      return true
  | .tokens source => do
      listTokens source
      return false
  | .help topic => do
      (helpOn topic).forM Run.writeText
      return false
  | .run source => do
      runSource source
      return false

def line (text : String) : Run Bool := carryOut (.ofLine text)

def greeting : String := "Welcome to the NPL REPL!\nType 'exit' to quit."

/-- Reads and carries out at most `bound` lines; the end of the input acts like a command. -/
def loop : (bound : Nat) → Run Unit
  | 0 => pure ()
  | bound + 1 => do
      let input ← Run.readLine? (.text "> ")
      let stop ← line (input.getD "EOF")
      if stop then pure () else loop bound

/-- Greets and reads lines until one of them ends the shell. Every line takes at least one line of
the input, so the input bounds the number of lines. -/
def interact : Run Unit := do
  Run.writeText greeting
  loop ((← get).inputs.length + 1)

end Script.Shell
