import Script.Command
import Std.Time.DateTime.Timestamp

/-!
# The command line

Runs the command on the files and the terminal at hand. A run is a function of the input lines, so
it is repeated with one line more each time it asks for a line that has not been typed yet; what
it put on the console up to then is the same every time, and only what is new is shown.
-/
namespace Script.Main

open Command

/-- The log up to the question that follows `n` answered ones, if there is such a question. -/
def untilQuestion : (n : Nat) → List Event → Option (List Event)
  | _, [] => none
  | 0, .asked prompt :: _ => some [.asked prompt]
  | n + 1, .asked prompt :: rest => (untilQuestion n rest).map (.asked prompt :: ·)
  | n, event :: rest => (untilQuestion n rest).map (event :: ·)

def readFile? (path : String) : IO (Option String) := do
  try return some (← IO.FS.readFile path) catch _ => return none

/-- The disk as far as a command looks at it: the file that it reads. -/
def diskFor (args : List String) : IO Disk := do
  match Options.parse args with
  | .error _ => return .empty
  | .ok o =>
      match fileOf o with
      | none => return .empty
      | some path =>
          match ← readFile? path with
          | none => return .empty
          | some text => return ⟨[((Path.ofText path).steps, text)]⟩

def display (shown : Nat) (text : String) : IO Nat := do
  let out ← IO.getStdout
  out.putStr (String.ofList (text.toList.drop shown))
  out.flush
  return text.length

def save (changes : List (List String × String)) : IO Unit :=
  changes.forM fun (names, text) => IO.FS.writeFile (String.intercalate "/" names) text

/-- Runs a command with the lines typed so far and asks for one more where it needs one. A line ends
with a line feed only. -/
partial def converse (world : String → World) (args : List String) (shown : Nat)
    (lines : List String) (closed : Bool) : IO UInt32 := do
  let w := world (String.join (lines.map (· ++ "\n")))
  let r := run w args
  match if closed then none else untilQuestion lines.length r.events with
  | some events =>
      let shown ← display shown (Console.output (!hasDebugFile w.disk) events)
      let line ← (← IO.getStdin).getLine
      if line.isEmpty then converse world args shown lines true
      else
        let line := if line.endsWith "\n" then (line.dropEnd 1).toString else line
        converse world args shown (lines ++ [line]) false
  | none =>
      discard (display shown r.output)
      save (w.disk.changes r.disk)
      (← IO.getStderr).putStr r.complaint
      match r.ending with
      | .exit code => return code.toUInt32
      | .escape _ => return 1

def start (args : List String) : IO UInt32 := do
  let disk ← diskFor args
  let time := (← Std.Time.Timestamp.now).toMillisecondsSinceUnixEpoch.val.toNat
  let ambient := Ambient.seeded (← IO.rand 0 (1 <<< 30)) time
  converse (fun input => { disk, input, ambient, everyLineEnd := false }) args 0 [] false

end Script.Main

def main (args : List String) : IO UInt32 := Script.Main.start args
