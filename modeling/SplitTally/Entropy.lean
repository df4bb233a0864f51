/-!
# The stream of random bytes

Random values are read from a finite stream of bytes. A draw takes the next bytes of the stream,
or fails and takes nothing when too few are left. What earlier draws took stays taken after a
failure, so a computation that fails still says how much of the stream it used.
-/

namespace SplitTally

/-- The random bytes that are still to be drawn, the next one first. -/
structure Entropy where
  /-- The bytes. -/
  bytes : List UInt8
  deriving DecidableEq, Repr

namespace Entropy

/-- The text of a source of random bytes that gave out. -/
def failure : String := "unexpected situation"

/-- The number of bytes that are left. -/
def size (e : Entropy) : Nat := e.bytes.length

/-- The next `n` bytes and the stream after them, if there are that many. -/
def take? (n : Nat) (e : Entropy) : Option (List UInt8 × Entropy) :=
  let block := e.bytes.take n
  if block.length = n then some (block, ⟨e.bytes.drop n⟩) else none

/-- Bytes are only missing if the stream has fewer. -/
theorem take?_eq_none_iff {n : Nat} {e : Entropy} : e.take? n = none ↔ e.size < n := by
  simp only [take?, size, List.length_take]
  split <;> simp <;> omega

end Entropy

/-- A computation that draws from a stream of random bytes and may fail with an `ε`. -/
abbrev Draw (ε α : Type) := EStateM ε Entropy α

namespace Draw

/-- The next `n` bytes of the stream, or the failure `gone`. -/
def bytes {ε : Type} (gone : ε) (n : Nat) : Draw ε (List UInt8) := fun e =>
  match e.take? n with
  | some (block, rest) => .ok block rest
  | none => .error gone e

/-- A result that needs no random bytes. -/
def ofExcept {ε α : Type} (r : Except ε α) : Draw ε α := fun e =>
  match r with
  | .ok a => .ok a e
  | .error err => .error err e

/-- The same draws, with the failure restated. -/
def mapError {ε ε' α : Type} (f : ε → ε') (x : Draw ε α) : Draw ε' α := fun e =>
  match x e with
  | .ok a rest => .ok a rest
  | .error err rest => .error (f err) rest

/-- The outcome on a stream, and what is left of the stream. -/
def runOn {ε α : Type} (x : Draw ε α) (e : Entropy) : Except ε α × Entropy :=
  match x e with
  | .ok a rest => (.ok a, rest)
  | .error err rest => (.error err, rest)

end Draw

end SplitTally
