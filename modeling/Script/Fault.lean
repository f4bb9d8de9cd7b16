import Script.Node.Parser

/-!
# Faults

Everything that can end a run early, by cause, with the wording of the causes that have one.
-/
namespace Script

inductive BindingFault where
  | undefined (name : String)
  | redefined (name : String)
  | reassigned (name : String)
  | functionDeleted (name : String)
  | constantDeleted (name : String)
  deriving DecidableEq

def BindingFault.text : BindingFault → String
  | .undefined name => "Undefined variable " ++ name
  | .redefined name => "Cannot redefine " ++ name
  | .reassigned name => "Cannot reassign " ++ name
  | .functionDeleted name => "Can't delete function definition " ++ name
  | .constantDeleted name => "Can't delete constant variable " ++ name

inductive EvaluationFault where
  | zeroDivision
  | missingArgument
  | notFunction (name : String)
  | unknownUnary (operator : String)
  | unknownOperator (operator : String)
  | notEvaluable (sort : String)
  deriving DecidableEq

def EvaluationFault.text : EvaluationFault → String
  | .zeroDivision => "Zero division is not allowed"
  | .missingArgument => "Expected one argument"
  | .notFunction name => name ++ " is not a function"
  | .unknownUnary operator => "unsupported unary operator " ++ operator
  | .unknownOperator operator => "unknown operator " ++ operator
  | .notEvaluable sort => "cannot evaluate node " ++ sort

/-- Why a run ends early. The language names the first two; the others are limits of its numbers
and strings, with the operands that met them, misshapen trees, texts that cannot be shown, and the
limits of a run itself. -/
inductive Fault where
  | binding (fault : BindingFault)
  | evaluation (fault : EvaluationFault)
  | infiniteDividend {dividend divisor : Double}
  | tooManyCopies {count length : Nat}
  | outOfMemory {count length : Nat}
  | badNumeral
  | numeralTooLarge
  | missingPart
  | wrongShape
  | integerTooLong
  | unwritable
  | tooDeep
  | unfinished
  deriving DecidableEq

def Fault.diagnosis? : Fault → Option Diagnosis
  | .binding fault => some ⟨"BindingError", fault.text, none⟩
  | .evaluation fault => some ⟨"EvaluationError", fault.text, none⟩
  | _ => none

end Script
