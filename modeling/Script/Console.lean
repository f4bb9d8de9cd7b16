import Script.Machine

/-!
# The console

How the log of a run looks on a terminal and in the debug file.
-/
namespace Script.Console

def clearScreen : String := "\x1b[2J\x1b[H"

/-- What an event puts on the standard output. Debug messages appear there only if they have no
file to go to. -/
def shown (withMessages : Bool) : Event → String
  | .wrote line => line.plain ++ "\n"
  | .cleared => clearScreen
  | .asked prompt => prompt.plain
  | .logged message => if withMessages then message ++ "\n" else ""

def output (withMessages : Bool) (events : List Event) : String :=
  String.join (events.map (shown withMessages))

def message? : Event → Option String
  | .logged message => some message
  | _ => none

def messages (events : List Event) : String :=
  String.join ((events.filterMap message?).map (· ++ "\n"))

def red (text : String) : String := "\x1b[1m\x1b[31m" ++ text ++ "\x1b[0m"

end Script.Console
