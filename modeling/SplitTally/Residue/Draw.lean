import SplitTally.Residue
import SplitTally.Words

/-!
# Random residues

A random residue is the first of the successive 32-bit words of the entropy stream that is below
the modulus. Words at or above the modulus are taken and thrown away, which keeps the residues
that are returned uniform.
-/

namespace SplitTally.Residue

/-- The residue that a 32-bit word holds, if the word is below the modulus. -/
def ofWord? (w : UInt32) : Option Residue :=
  if h : w.toNat < modulus then some ⟨w, h⟩ else none

/-- The first residue that is selected from the successive words, and the bytes after its word.
Without one, all complete words are taken and the bytes that make up no word are left. -/
def firstSelected (select : UInt32 → Option Residue) : List UInt8 → Option Residue × List UInt8
  | a :: b :: c :: d :: rest =>
    match select (Words.ofLE32 a b c d) with
    | some r => (some r, rest)
    | none => firstSelected select rest
  | short => (none, short)

/-- Draws residues until one is accepted. -/
def drawAccepted (accept : Residue → Bool) : Draw ResidueError Residue := fun e =>
  match firstSelected (fun w => (ofWord? w).filter accept) e.bytes with
  | (some r, rest) => .ok r ⟨rest⟩
  | (none, rest) => .error .entropy ⟨rest⟩

/-- Draws a uniformly random residue. -/
def draw : Draw ResidueError Residue := drawAccepted fun _ => true

/-- Draws `n` residues one after the other, in front of those already drawn in `drawn`, latest
first. -/
def drawOnto (drawn : List Residue) : Nat → Draw ResidueError (List Residue)
  | 0 => pure drawn.reverse
  | n + 1 => do
    let r ← draw
    drawOnto (r :: drawn) n

/-- Draws `n` uniformly random residues. -/
def drawMany (n : Nat) : Draw ResidueError (List Residue) := drawOnto [] n

end SplitTally.Residue
