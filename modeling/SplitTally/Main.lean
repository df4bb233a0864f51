import SplitTally.CommandLine.Help
import SplitTally.CommandLine.Run

/-!
# The program

Reads what an invocation needs, runs it on fresh random bytes, and writes what it reports.
-/

namespace SplitTally.CommandLine

/-- The reason in an error of the operating system. -/
def reasonOf : IO.Error → String
  | .noFileOrDirectory _ code details | .permissionDenied _ code details
  | .inappropriateType _ code details | .invalidArgument _ code details
  | .resourceExhausted _ code details | .noSuchThing _ code details =>
    details ++ " (os error " ++ toString code ++ ")"
  | e => toString e

/-- The result of an action, or the error that it threw as `fault` of its reason. -/
def attempt {α : Type} (fault : String → ReadFault) (action : IO α) : IO (Except ReadFault α) := do
  try
    return .ok (← action)
  catch e => return .error (fault (reasonOf e))

/-- The text in a file. -/
def readFile (path : String) : IO (Except ReadFault String) := do
  match ← attempt .notOpened (IO.FS.Handle.mk path .read) with
  | .error fault => return .error fault
  | .ok handle =>
    match ← attempt .notRead handle.readBinToEnd with
    | .error fault => return .error fault
    | .ok bytes => return textOfBytes bytes.toList

/-- The text on standard input. -/
def readStandard : IO (Except ReadFault String) := do
  let mut text := ByteArray.empty
  let input ← IO.getStdin
  repeat
    let block ← input.read 65536
    if block.isEmpty then break
    text := text ++ block
  return textOfBytes text.toList

/-- The text at a place. -/
def readPlace : Place → IO (Except ReadFault String)
  | .standard => readStandard
  | .file path => readFile path

/-- Runs a computation on so many random bytes, and on twice as many when they may have given out:
no draw takes more than 32 bytes at once. -/
def runOnFresh {α : Type} (x : Draw Failure α) : Nat → Nat → IO (Except Failure α)
  | 0, _ => return .error ⟨[Entropy.failure]⟩
  | attempts + 1, size => do
    let fresh ← IO.getRandomBytes size.toUSize
    let (result, rest) := x.runOn ⟨fresh.toList⟩
    match result with
    | .ok value => return .ok value
    | .error failure =>
      if rest.size < 32 then runOnFresh x attempts (2 * size) else return .error failure

/-- Writes a text to a place. -/
def writePlace (text unwritten : String) : Place → IO (Except Failure Unit)
  | .standard => do
    (← IO.getStdout).putStr text
    return .ok ()
  | .file path => do
    let handle ← try IO.FS.Handle.mk path .write
      catch e => return .error (.ofOutput (reasonOf e))
    try
      handle.putStr text
      handle.flush
      return .ok ()
    catch e => return .error ⟨[unwritten, reasonOf e]⟩

/-- Writes what a report says. -/
def Report.writeOut (report : Report) : IO (Except Failure Unit) := do
  match ← writePlace report.text report.unwritten report.output with
  | .ok () =>
    (← IO.getStderr).putStr report.note
    return .ok ()
  | .error failure => return .error failure

/-- Runs an invocation and writes what it reports. -/
def Invocation.runOut (invocation : Invocation) : IO (Except Failure Unit) := do
  match ← (invocation.prepare readPlace).run with
  | .error failure => return .error failure
  | .ok job =>
    match ← runOnFresh job.run 24 4096 with
    | .ok report => report.writeOut
    | .error failure => return .error failure

end SplitTally.CommandLine

open SplitTally.CommandLine in
/-- The program. -/
def main (words : List String) : IO UInt32 := do
  match Invocation.ofWords words with
  | .error .help =>
    IO.print helpText
    return 0
  | .error .version =>
    IO.print versionText
    return 0
  | .error .usage =>
    IO.eprint ("error: the arguments do not fit together\n\n" ++ helpText)
    return 1
  | .ok invocation =>
    match ← invocation.runOut with
    | .ok () => return 0
    | .error failure =>
      IO.eprintln "Error:"
      for message in failure.chain do
        IO.eprintln ("  " ++ message)
      return 1
