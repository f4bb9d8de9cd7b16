import Script.Operator
import Script.Scope

/-!
# The machine

What a run works on: the forest of scopes, and whether scopes that are left are discarded; the next
free identity, the input lines that are left, and a log of everything that happened outside the
program, in order. Debug messages stand in the same log, so that their place among the output is
known. The clock and the source of random numbers are given from outside, as the answer to each
question that will be asked, and so is the room for strings. Only a product can ask for much of it
at once, so only products are asked whether they have room; a program that fills the memory bit by
bit goes on here.
-/
namespace Script

/-- What happened outside the program. A line or a prompt is a text, unless a loaded tree has a
string with another content. -/
inductive Event where
  | wrote (line : Node)
  | cleared
  | asked (prompt : Node)
  | logged (message : String)

/-- What a run finds around it: the answers of clock and chance to its questions, counted from zero,
which are the time in milliseconds and random numbers of 53 bits, and how long a string has to be
for the memory not to hold it. -/
structure Ambient where
  clock : Nat → Nat
  chance : Nat → Fin (1 <<< 53)
  memory : Nat

/-- A clock that starts at a time and goes on by one, numbers from a seed, and as much memory as a
common machine has. -/
def Ambient.seeded (seed start : Nat) : Ambient where
  clock n := start + n
  chance n :=
    let word := ((seed + n + 1) * 6364136223846793005 + 1442695040888963407) * 2862933555777941757
    ⟨(word >>> 11) % (1 <<< 53), Nat.mod_lt _ (by decide)⟩
  memory := 1 <<< 36

structure Machine where
  forest : Forest
  discards : Bool
  identity : Identity
  inputs : List String
  events : Array Event
  debugLevel : Nat
  ambient : Ambient
  questions : Nat

/-- A computation on the machine. A fault keeps what was done before it. -/
abbrev Run := EStateM Fault Machine

namespace Run

def ofExcept {α : Type} : Except Fault α → Run α
  | .ok a => pure a
  | .error fault => throw fault

instance : MonadLift (Except Fault) Run := ⟨ofExcept⟩

def scopes {α : Type} (action : Forest.Action α) : Run α := fun m =>
  let forest := m.forest
  let m := { m with forest := default }
  match action forest with
  | .ok a forest => .ok a { m with forest }
  | .error fault forest => .error (.binding fault) { m with forest }

def onForest (change : Forest → Forest) : Run Unit :=
  modify fun m => { m with forest := change m.forest }

def record (event : Event) : Run Unit :=
  modify fun m => { m with events := m.events.push event }

/-- A message for the debug log, from a level on. Below it the message is not made. -/
def log (level : Nat) (message : Unit → Except Fault Node) : Run Unit := do
  if level ≤ (← get).debugLevel then record (.logged (← Content.written (← message ())))

/-- Writes a line, which has to be one that can be written out. -/
def write (line : Node) : Run Unit := do
  discard (Content.written line)
  record (.wrote line)

def writeText (line : String) : Run Unit := record (.wrote (.text line))

def readLine? (prompt : Node) : Run (Option String) := do
  discard (Content.written prompt)
  record (.asked prompt)
  modifyGet fun m =>
    match m.inputs with
    | [] => (none, m)
    | line :: rest => (some line, { m with inputs := rest })

def freshIdentity : Run Identity :=
  modifyGet fun m => (m.identity, { m with identity := m.identity + 1 })

def now : Run Nat :=
  modifyGet fun m => (m.ambient.clock m.questions, { m with questions := m.questions + 1 })

def random : Run Nat :=
  modifyGet fun m => ((m.ambient.chance m.questions).val, { m with questions := m.questions + 1 })

/-- Makes room for so many copies of a string of so many parts. -/
def allocate : Option (Nat × Nat) → Run Unit
  | none => pure ()
  | some (count, length) => do
      if (← get).ambient.memory ≤ length * count then throw (@Fault.outOfMemory count length)

/-- Runs something in a new scope and leaves the scope afterwards, also after a fault. -/
def within {α : Type} (parent : ScopeId) (body : ScopeId → Run α) : Run α := do
  let id ← scopes (Forest.child parent)
  fun m =>
    match body id m with
    | .ok a m => .ok a { m with forest := m.forest.leave m.discards id }
    | .error fault m => .error fault { m with forest := m.forest.leave m.discards id }

end Run
end Script
