import SplitTally.CommandLine.Landmark
import SplitTally.CommandLine.Run

/-!
# Runs in a folder

A folder without subfolders, against which an invocation can be run as a whole: the files it reads
are those of the folder, and the file it writes is put there. Outside of the folder only landmarks
are found, and what is written there is not kept. Standard input can be read once: whoever reads it
first gets all.
-/

namespace SplitTally.CommandLine

/-- A folder of texts by name. -/
structure Folder where
  /-- The names with their texts; of several texts of one name the first one counts. -/
  files : List (String × String)
  deriving DecidableEq, Repr

namespace Folder

/-- The text of the file with the given name. -/
def find? (folder : Folder) (name : String) : Option String :=
  (folder.files.find? fun file => file.1 = name).map (·.2)

/-- The folder with another text in the file of the given name. -/
def put (folder : Folder) (name text : String) : Folder :=
  ⟨(name, text) :: folder.files.filter fun file => file.1 ≠ name⟩

/-- How far one has come along a path. -/
structure Position where
  /-- Where one is. -/
  location : Location
  /-- How many links have been followed. -/
  links : Nat
  deriving DecidableEq, Repr

/-- Where a path starts. -/
def start (path : Path) : Position := ⟨if path.fromRoot then .outside [] else .inside, 0⟩

/-- What stands in a location under a name. -/
def lookup (folder : Folder) (location : Location) (name : String) : Option Position :=
  match location with
  | .inside => (folder.find? name).map fun _ => ⟨.file name, 0⟩
  | .outside names =>
    (Landmark.find? (names ++ [name])).map fun landmark => ⟨landmark.location, landmark.links⟩
  | _ => none

/-- Whether a name in a location can be too long. -/
def limitsNames : Location → Bool
  | .outside names => Landmark.limitsNames names
  | _ => true

/-- Where a name leads from a position. -/
def step (folder : Folder) (position : Position) (name : String) : Except PathFault Position :=
  let location := position.location
  if !location.isFolder then .error .throughFile
  else if name = "." then .ok position
  else if name = ".." then .ok { position with location := location.parent }
  else if Path.isTooLong name && limitsNames location then .error .tooLong
  else
    match folder.lookup location name with
    | none => .error .missing
    | some next =>
      let links := position.links + next.links
      if Landmark.maxLinks < links then .error .tooManyLinks else .ok { next with links }

/-- Where names lead from a position, one after the other. -/
def walk (folder : Folder) (position : Position) (names : List String) :
    Except PathFault Position :=
  names.foldlM folder.step position

/-- What a path leads to. A slash at its end is one more step, which stays. -/
def locate (folder : Folder) (path : Path) : Except PathFault Location :=
  (folder.walk (start path) (path.names ++ if path.endsInSlash then ["."] else [])).map (·.location)

/-- What a text is written to. -/
inductive Target where
  /-- A file of the folder, which need not be there yet. -/
  | file (name : String)
  /-- A device. -/
  | device (device : Device)
  /-- A file outside of the folder. -/
  | elsewhere
  deriving DecidableEq, Repr

/-- The target of a text that is written to a location. -/
def targetAt : Location → Except PathFault Target
  | .inside | .outside _ => .error .folder
  | .file name => .ok (.file name)
  | .device .terminal => .error .noDevice
  | .device .program => .error .busy
  | .device device => .ok (.device device)
  | .text _ => .ok .elsewhere

/-- The target of a text that is written to a new file in a location. -/
def newTarget (location : Location) (name : String) : Except PathFault Target :=
  match location with
  | .outside names =>
    match Landmark.refusal? names with
    | some fault => .error fault
    | none => .ok .elsewhere
  | _ => .ok (.file name)

/-- What a text goes to that is written to a path. -/
def target (folder : Folder) (path : Path) : Except PathFault Target :=
  match path.names.getLast? with
  | none => .error .folder
  | some name => do
    let position ← folder.walk (start path) path.names.dropLast
    if path.endsInSlash && position.location.isFolder then throw .folder
    match folder.step position name with
    | .ok next => targetAt next.location
    | .error .missing => newTarget position.location name
    | .error fault => throw fault

/-- What a run can still read from standard input. -/
abbrev Pending := Except ReadFault String

/-- The text on standard input, after which it is empty. -/
def readStandard : StateM Pending (Except ReadFault String) := modifyGet fun text => (text, .ok "")

/-- The text at a place. A folder can be opened, but not be read. -/
def read (folder : Folder) : Place → StateM Pending (Except ReadFault String)
  | .standard => readStandard
  | .file path =>
    match (Path.ofText path).bind folder.locate with
    | .error fault => return .error (.notOpened fault.message)
    | .ok (.file name) => return .ok ((folder.find? name).getD "")
    | .ok (.text start) => return .ok start
    | .ok (.device .input) => readStandard
    | .ok (.device .terminal) => return .error (.notOpened PathFault.noDevice.message)
    | .ok (.device .program) => return .error .notText
    | .ok (.device _) => return .ok ""
    | .ok _ => return .error (.notRead PathFault.folder.message)

end Folder

/-- What a run in a folder leaves behind. -/
structure Aftermath where
  /-- The text on standard output. -/
  output : String
  /-- The text on standard error. -/
  note : String
  /-- The folder. -/
  folder : Folder
  deriving DecidableEq, Repr

/-- The reason why a device with no room takes nothing. -/
def noRoom : String := "No space left on device (os error 28)"

/-- Writes what a report says, in a folder. -/
def Report.deliver (report : Report) (folder : Folder) : Except Failure Aftermath :=
  let kept := { output := "", note := report.note, folder : Aftermath }
  match report.output with
  | .standard => .ok { kept with output := report.text }
  | .file path =>
    match (Path.ofText path).bind folder.target with
    | .error fault => .error (.ofOutput fault.message)
    | .ok (.file name) => .ok { kept with folder := folder.put name report.text }
    | .ok (.device .output) => .ok { kept with output := report.text }
    | .ok (.device .errors) => .ok { kept with note := report.text ++ report.note }
    | .ok (.device .full) => .error ⟨[report.unwritten, noRoom]⟩
    | .ok (.device _) | .ok .elsewhere => .ok kept

/-- What an invocation works on in a folder. -/
def Invocation.jobIn (folder : Folder) (standard : Except ReadFault String)
    (invocation : Invocation) : Except Failure Job :=
  ((invocation.prepare folder.read).run.run standard).1

/-- Runs an invocation in a folder. -/
def Invocation.runIn (folder : Folder) (standard : Except ReadFault String)
    (invocation : Invocation) : Draw Failure Aftermath := do
  let job ← Draw.ofExcept (invocation.jobIn folder standard)
  let report ← job.run
  Draw.ofExcept (report.deliver folder)

end SplitTally.CommandLine
