import SplitTally.Residue.Draw

/-!
# Additive shares

A residue is shared between two servers as a uniformly random mask and the difference of the
residue to the mask. Either share alone is uniform; the two add up to the residue.
-/

namespace SplitTally.Share

/-- Splits a residue into a fresh random mask and the rest. -/
def split (x : Residue) : Draw ResidueError (Residue × Residue) := do
  let mask ← Residue.draw
  return (mask, x - mask)

/-- Splits each residue of a vector with a mask of its own. -/
def splitVector (xs : List Residue) : Draw ResidueError (List Residue × List Residue) := do
  let masks ← Residue.drawMany xs.length
  return (masks, List.zipWith (· - ·) xs masks)

/-- Adds two share vectors position by position, if they have one length. -/
def reconstruct? (a b : List Residue) : Option (List Residue) :=
  if a.length = b.length then some (List.zipWith (· + ·) a b) else none

end SplitTally.Share
