/-!
# Paths

A path leads along names with slashes between them to a file or a folder. A dot stays in the folder
where it stands and two dots lead out of it, so what a path leads to is found step by step, and a
step through a file fails wherever it would go on to.
-/

namespace SplitTally.CommandLine

/-- Why a path leads to no file. -/
inductive PathFault where
  /-- The path has a character that ends a text for the operating system. -/
  | holdsNul
  /-- There is nothing at the path. -/
  | missing
  /-- The path goes through a file. -/
  | throughFile
  /-- The path leads to a folder. -/
  | folder
  /-- The path, or a name in it, has too many bytes. -/
  | tooLong
  /-- The path leads to a device that is not there. -/
  | noDevice
  /-- The path leads to a place where no file can be made. -/
  | denied
  /-- The path leads to a program that is running. -/
  | busy
  /-- There are too many links on the way. -/
  | tooManyLinks
  deriving DecidableEq, Repr

/-- The text of the fault. -/
def PathFault.message : PathFault → String
  | .holdsNul => "file name contained an unexpected NUL byte"
  | .missing => "No such file or directory (os error 2)"
  | .throughFile => "Not a directory (os error 20)"
  | .folder => "Is a directory (os error 21)"
  | .tooLong => "File name too long (os error 36)"
  | .noDevice => "No such device or address (os error 6)"
  | .denied => "Permission denied (os error 13)"
  | .busy => "Text file busy (os error 26)"
  | .tooManyLinks => "Too many levels of symbolic links (os error 40)"

/-- A path, taken apart. -/
structure Path where
  /-- Whether the path starts at the root of all folders, not at the folder it is used in. -/
  fromRoot : Bool
  /-- The names on the way, none of them empty. -/
  names : List String
  /-- Whether the path ends in a slash, so that only a folder can be meant. -/
  endsInSlash : Bool
  deriving DecidableEq, Repr

namespace Path

/-- The most bytes that the text of a path has. -/
def maxBytes : Nat := 4095

/-- The most bytes that a name has. -/
def maxNameBytes : Nat := 255

/-- Whether a name is too long for a file. -/
def isTooLong (name : String) : Bool := maxNameBytes < name.utf8ByteSize

/-- Takes the text of a path apart. An empty text leads nowhere. -/
def ofText (text : String) : Except PathFault Path :=
  if text.contains '\x00' then .error .holdsNul
  else if text.isEmpty then .error .missing
  else if maxBytes < text.utf8ByteSize then .error .tooLong
  else .ok {
    fromRoot := text.startsWith "/"
    names := (text.splitOn "/").filter fun name => !name.isEmpty
    endsInSlash := text.endsWith "/" }

end Path

end SplitTally.CommandLine
