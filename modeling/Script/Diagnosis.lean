/-!
# Diagnoses

What the language tells about a fault of a program: the kind of fault, a text, and the line if it
is known.
-/
namespace Script

structure Diagnosis where
  kind : String
  text : String
  line? : Option Int
  deriving DecidableEq

def Diagnosis.message (d : Diagnosis) : String :=
  match d.line? with
  | some line => d.kind ++ ": " ++ d.text ++ " at line " ++ toString line
  | none => d.kind ++ ": " ++ d.text

end Script
