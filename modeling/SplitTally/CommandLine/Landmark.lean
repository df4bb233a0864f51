import SplitTally.CommandLine.Location
import SplitTally.CommandLine.Path

/-!
# Landmarks

What is found by its name outside of the folder of a run, and where new files can stand there. The
system shows a run to itself as a folder, which leads back to its streams and to its own folder.
-/

namespace SplitTally.CommandLine

/-- Something outside of the folder of a run. -/
structure Landmark where
  /-- The names that lead to it from the root. -/
  names : List String
  /-- What stands there, or where a link leads that stands there. -/
  location : Location
  /-- How many links are followed. -/
  links : Nat
  deriving DecidableEq, Repr

namespace Landmark

/-- The folders that are found everywhere. -/
def folders : List (List String) :=
  [["boot"], ["dev"], ["etc"], ["home"], ["media"], ["mnt"], ["opt"], ["proc"], ["root"], ["run"],
    ["srv"], ["sys"], ["tmp"], ["usr"], ["var"], ["dev", "pts"], ["dev", "shm"],
    ["proc", "self", "fd"], ["usr", "bin"], ["usr", "lib"], ["usr", "lib64"], ["usr", "sbin"]]

/-- The devices. -/
def devices : List Landmark :=
  [⟨["dev", "null"], .device .null, 0⟩, ⟨["dev", "zero"], .device .endless, 0⟩,
    ⟨["dev", "random"], .device .endless, 0⟩, ⟨["dev", "urandom"], .device .endless, 0⟩,
    ⟨["dev", "full"], .device .full, 0⟩, ⟨["dev", "tty"], .device .terminal, 0⟩]

/-- The texts, none of which is a schema, a key or a packet. -/
def texts : List Landmark :=
  [⟨["etc", "passwd"], .text "root:x:0:0:root:/root:/bin/bash\n", 0⟩,
    ⟨["etc", "hosts"], .text "127.0.0.1\tlocalhost\n", 0⟩,
    ⟨["proc", "version"], .text "Linux version\n", 0⟩,
    ⟨["proc", "cpuinfo"], .text "processor\t: 0\n", 0⟩,
    ⟨["proc", "meminfo"], .text "MemTotal:\n", 0⟩,
    ⟨["proc", "filesystems"], .text "nodev\tsysfs\n", 0⟩,
    ⟨["proc", "self", "status"], .text "Name:\n", 0⟩]

/-- The links that lead on within the system. A run is shown to itself under the name `self`, which
is a link as well. -/
def systemLinks : List Landmark :=
  [⟨["bin"], .outside ["usr", "bin"], 1⟩, ⟨["lib"], .outside ["usr", "lib"], 1⟩,
    ⟨["lib64"], .outside ["usr", "lib64"], 1⟩, ⟨["sbin"], .outside ["usr", "sbin"], 1⟩,
    ⟨["proc", "self"], .outside ["proc", "self"], 1⟩,
    ⟨["proc", "thread-self"], .outside ["proc", "self"], 1⟩,
    ⟨["proc", "self", "root"], .outside [], 1⟩, ⟨["dev", "fd"], .outside ["proc", "self", "fd"], 2⟩]

/-- The links that lead to the folder of the run, to the program and to its streams. -/
def ownLinks : List Landmark :=
  [⟨["proc", "self", "cwd"], .inside, 1⟩, ⟨["proc", "self", "exe"], .device .program, 1⟩,
    ⟨["proc", "self", "fd", "0"], .device .input, 1⟩,
    ⟨["proc", "self", "fd", "1"], .device .output, 1⟩,
    ⟨["proc", "self", "fd", "2"], .device .errors, 1⟩, ⟨["dev", "stdin"], .device .input, 3⟩,
    ⟨["dev", "stdout"], .device .output, 3⟩, ⟨["dev", "stderr"], .device .errors, 3⟩]

/-- All landmarks. -/
def all : List Landmark :=
  folders.map (fun names => ⟨names, .outside names, 0⟩) ++ devices ++ texts ++ systemLinks ++
    ownLinks

/-- The landmark to which names lead from the root. -/
def find? (names : List String) : Option Landmark :=
  all.find? fun landmark => landmark.names = names

/-- The most links that are followed on the way along a path. -/
def maxLinks : Nat := 40

/-- Why no new file can stand in a folder of the system, if none can. What the system shows there
are no files. -/
def refusal? (folder : List String) : Option PathFault :=
  if folder.head? = some "proc" then some .missing
  else if folder.head? = some "sys" || folder = ["dev", "pts"] then some .denied
  else none

/-- Whether a name in a folder of the system can be too long. Where files can stand it can. -/
def limitsNames (folder : List String) : Bool :=
  !(["proc", "sys"].any fun name => folder.head? = some name)

end Landmark

end SplitTally.CommandLine
