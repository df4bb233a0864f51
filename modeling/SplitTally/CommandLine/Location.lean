/-!
# Where a path can lead

A run takes place in a folder, in which it has its own files. Around it lies a system: folders that
are found everywhere, devices and texts in them, and links that lead on to other places.
-/

namespace SplitTally.CommandLine

/-- A file of the system, which is no text but something to read from or to write to. -/
inductive Device where
  /-- What is always empty, whatever is written to it. -/
  | null
  /-- What never ends and is never read to its end, whatever is written to it. -/
  | endless
  /-- What has no room for anything. -/
  | full
  /-- The terminal of the run, which has none. -/
  | terminal
  /-- Standard input. -/
  | input
  /-- Standard output. -/
  | output
  /-- Standard error. -/
  | errors
  /-- The program itself. It is no text, and nothing is written to it while it runs. -/
  | program
  deriving DecidableEq, Repr

/-- Where one can be on the way along a path. -/
inductive Location where
  /-- In the folder of the run. -/
  | inside
  /-- In the folder of the system to which these names lead from the root. -/
  | outside (names : List String)
  /-- At a file of the folder of the run. -/
  | file (name : String)
  /-- At a device. -/
  | device (device : Device)
  /-- At a text of the system that starts like this. How it goes on differs. -/
  | text (start : String)
  deriving DecidableEq, Repr

namespace Location

/-- Whether a location is in a folder. -/
def isFolder : Location → Bool
  | .inside | .outside _ => true
  | .file _ | .device _ | .text _ => false

/-- Where two dots lead from a folder. The root lies in itself, and the folder of the run in the one
for temporary files. -/
def parent : Location → Location
  | .outside names => .outside names.dropLast
  | _ => .outside ["tmp"]

end Location

end SplitTally.CommandLine
