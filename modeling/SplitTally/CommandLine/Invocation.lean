import SplitTally.CommandLine.Assignment
import SplitTally.CommandLine.Options

/-!
# Invocations

What the command line asks for: one of three commands, and a file with the schema to use. Options
of the program stand in front of the command, options of the command behind it.
-/

namespace SplitTally.CommandLine

/-- A file, or a standard stream in its place. -/
inductive Place where
  /-- Standard input or standard output. -/
  | standard
  /-- The file with this path. -/
  | file (path : String)
  deriving DecidableEq, Repr

/-- The place that a value names; a dash stands for the standard stream. -/
def Place.ofText (text : String) : Place := if text = "-" then .standard else .file text

/-- A command with its arguments. -/
inductive Command where
  /-- Generates a key pair. -/
  | keygen (output : Place)
  /-- Turns measurements into a packet. -/
  | encode (batch keyA keyB : String) (measurements : List (String × UInt64)) (output : Place)
  /-- Opens and verifies a packet. -/
  | decrypt (batch keyPathA keyPathB : String) (input : Place)
  deriving DecidableEq, Repr

namespace Command

/-- The names of the commands. -/
def names : List String := ["keygen", "encode", "decrypt", "help"]

/-- The place that an option names. -/
def place (scanned : Scanned) (key : Key) : Except Stop Place :=
  (scanned.value key).map Place.ofText

/-- The measurements that the operands name, of which there must be one at least. -/
def readMeasurements (operands : List String) : Except Stop (List (String × UInt64)) :=
  if operands.isEmpty then .error .usage
  else operands.mapM fun operand => (readAssignment operand).mapError fun _ => .usage

/-- Reads the words behind `keygen`. -/
def ofKeygen (words : List String) : Except Stop Command := do
  let scanned ← Scanned.read [.output] .refused words
  return .keygen (← place scanned .output)

/-- Reads the words behind `encode`. -/
def ofEncode (words : List String) : Except Stop Command := do
  let scanned ← Scanned.read [.batchId, .publicKeyA, .publicKeyB, .output] .collected words
  let batch ← scanned.value .batchId
  let keyA ← scanned.value .publicKeyA
  let keyB ← scanned.value .publicKeyB
  let output ← place scanned .output
  return .encode batch keyA keyB (← readMeasurements scanned.operands) output

/-- Reads the words behind `decrypt`. -/
def ofDecrypt (words : List String) : Except Stop Command := do
  let scanned ← Scanned.read [.batchId, .privateKeyA, .privateKeyB, .input] .refused words
  let batch ← scanned.value .batchId
  let keyPathA ← scanned.value .privateKeyA
  let keyPathB ← scanned.value .privateKeyB
  return .decrypt batch keyPathA keyPathB (← place scanned .input)

/-- Reads the words behind `help`, at most one of which may name a command. -/
def ofHelp : List String → Except Stop Command
  | [] => .error .help
  | [name] => .error (if names.contains name then .help else .usage)
  | _ => .error .usage

/-- Reads the name of a command and the words behind it. -/
def ofWords : List String → Except Stop Command
  | "keygen" :: words => ofKeygen words
  | "encode" :: words => ofEncode words
  | "decrypt" :: words => ofDecrypt words
  | "help" :: words => ofHelp words
  | _ => .error .usage

end Command

/-- What a command line asks for. -/
structure Invocation where
  /-- The path of the file with the schema, if it is not the schema of the browser. -/
  schema : Option String
  /-- The command. -/
  command : Command
  deriving DecidableEq, Repr

namespace Invocation

/-- Reads the words of a command line. The options of the program are looked at last. -/
def ofWords (words : List String) : Except Stop Invocation := do
  let scanned ← Scanned.read [.schema] .final words
  let command ← Command.ofWords scanned.operands
  return { schema := ← scanned.value? .schema, command }

end Invocation

end SplitTally.CommandLine
