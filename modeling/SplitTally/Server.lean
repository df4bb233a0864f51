import SplitTally.Wire

/-!
# The two servers

Each share bundle is addressed to one of two servers. During verification only the first one
applies the constant terms, so that they enter the sum of the two once.
-/

namespace SplitTally

/-- One of the two aggregation servers. -/
inductive Server where
  /-- The first server. -/
  | a
  /-- The second server. -/
  | b
  deriving DecidableEq, Repr

namespace Server

/-- Whether the server applies the constant terms. -/
def isFirst (server : Server) : Bool := server = .a

/-- The letter that names the server. -/
def letter : Server → String
  | .a => "A"
  | .b => "B"

/-- The part of a pair that a server gets. -/
def pick {α : Type} (pair : α × α) : Server → α
  | .a => pair.1
  | .b => pair.2

/-- The byte of a server. -/
def encode : Server → List UInt8
  | .a => [0]
  | .b => [1]

/-- The next server. -/
def decode : Wire.Decoder Server := do
  match ← Wire.byte with
  | 0 => return .a
  | 1 => return .b
  | _ => throw .unexpectedValue

end Server

end SplitTally
