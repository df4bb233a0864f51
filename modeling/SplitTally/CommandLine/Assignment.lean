import SplitTally.Text.Cut
import SplitTally.Text.Decimal
import SplitTally.Text.Quoted

/-!
# Measurements on the command line

A measurement is written as its name and its value with an equals sign between them. The name ends
at the first such sign and may be empty.
-/

namespace SplitTally

/-- Why an argument is no measurement. -/
inductive AssignmentError where
  /-- The argument has no equals sign. -/
  | noValue (argument : String)
  /-- The value is no number. -/
  | invalidValue (name : String) (fault : Decimal.Fault)
  deriving DecidableEq, Repr

/-- The text of the error. -/
def AssignmentError.message : AssignmentError → String
  | .noValue argument =>
    "measurement " ++ Quoted.text argument ++ " is not of the form name=value"
  | .invalidValue name fault =>
    "measurement " ++ Quoted.text name ++ " has invalid value: " ++ fault.message

/-- The name and the value that an argument assigns to it. -/
def readAssignment (argument : String) : Except AssignmentError (String × UInt64) :=
  match Cut.textAtMark? '=' argument with
  | none => .error (.noValue argument)
  | some (name, value) =>
    match Decimal.word value with
    | .ok word => .ok (name, word)
    | .error fault => .error (.invalidValue name fault)

end SplitTally
