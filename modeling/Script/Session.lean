import Script.Evaluate
import Script.Node.Object

/-!
# Sessions

Programs run one after another on one machine, in its root scope, so that bindings last from one
to the next. A fault ends the program it arises in and keeps what was done before it.
-/
namespace Script

def Machine.fresh (ambient : Ambient) (debugLevel : Nat) (inputs : List String) : Machine where
  forest := ⟨#[Library.root]⟩
  discards := true
  identity := 0
  inputs := inputs
  events := #[]
  debugLevel := debugLevel
  ambient := ambient
  questions := 0

namespace Session

/-- A loop with more passes than this does not end within anybody's time. -/
def passLimit : Nat := 1 <<< 62

def depthLimit : Nat := 20000

/-- Runs statements in the root scope and collects their values, the ones so far last first. With
`echo` every value but null is written out. -/
def statements (echo : Bool) (values : List Value) : List Node → Run (List Value)
  | [] => pure values.reverse
  | n :: rest => do
      let v ← evaluate passLimit depthLimit n Forest.root
      if echo && !v.isNull then Run.write (← v.content)
      statements echo (v :: values) rest

def bodyOf : Node → Run Node
  | .program body | .whileStmt _ body | .forStmt _ _ _ body | .funcDecl _ _ body => pure body
  | _ => throw .missingPart

/-- Runs a tree as a program: one value for each of its statements. -/
def program (echo : Bool) (tree : Node) : Run (List Value) := do
  statements echo [] (← Content.parts (← bodyOf tree))

inductive StepFault where
  | source (fault : SourceFault)
  | load (fault : LoadFault)
  | run (fault : Fault)
  deriving DecidableEq

def StepFault.diagnosis? : StepFault → Option Diagnosis
  | .source fault => fault.diagnosis?
  | .load _ => none
  | .run fault => fault.diagnosis?

abbrev Outcome := Except StepFault (List Value) × Machine

def tree (echo : Bool) (node : Node) (m : Machine) : Outcome :=
  match program echo node m with
  | .ok values m => (.ok values, m)
  | .error fault m => (.error (.run fault), m)

def source (echo : Bool) (text : String) (m : Machine) : Outcome :=
  match Node.ofSource text with
  | .error fault => (.error (.source fault), m)
  | .ok node => tree echo node m

def saved (echo : Bool) (j : Json) (m : Machine) : Outcome :=
  match Node.ofJson j with
  | .error fault => (.error (.load fault), m)
  | .ok node => tree echo node m

end Session

namespace Machine

def isBuiltIn (name : Name) : Bool := Library.bindings.any (·.name.same name)

/-- The bindings of the root scope that programs have made, by name. -/
def globals (m : Machine) : List Binding :=
  let bindings := ((m.forest.scope? Forest.root).map (·.bindings)).getD []
  (bindings.filter (!isBuiltIn ·.name)).mergeSort fun a b => !(b.name.shown < a.name.shown)

def eventsFrom (m : Machine) (n : Nat) : List Event := m.events.toList.drop n

end Machine
end Script
