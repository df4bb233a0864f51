import SplitTally.Residue.Representative
import SplitTally.Scribe
import SplitTally.Transform.Checked

/-!
# Setting up a scribe

The points of a proof and the roots of unity are counted in 64-bit words before a scribe lists the
roots. What becomes of a count that does not fit in a word is left to the arithmetic that it is run
with. The roots are written to buffers of as many entries as were counted, so every entry must be
there, and the order of the group is divided by the count.
-/

namespace SplitTally

-- Powers of numbers are those of core, whatever other powers are in scope.
attribute [local instance (high)] instPowNat

section

variable {m : Type → Type} [Monad m] (arithmetic : WordArithmetic m)

/-- One less than the least power of two that is not below the word: all bits up to the leading one
of the word below. -/
def WordArithmetic.lowBits (w : UInt64) : UInt64 :=
  if w ≤ 1 then 0 else ⟨BitVec.allOnes 64 >>> (w - 1).toBitVec.clz.toNat⟩

/-- The least power of two that is not below the word. -/
def WordArithmetic.nextPowerOfTwo (w : UInt64) : m UInt64 := arithmetic.add (lowBits w) 1

/-- The number of points for so many slots, in words. -/
def BitProof.countPoints (dimension : UInt64) : m UInt64 := do
  arithmetic.nextPowerOfTwo (← arithmetic.add dimension 1)

/-- The number of residues of a proof about so many slots, in words. -/
def BitProof.countFlat (dimension : UInt64) : m UInt64 := do
  arithmetic.add 3 (← BitProof.countPoints arithmetic dimension)

end

namespace Roots

open Transform (set?)

/-- The order of the group divided by the lowest 32 bits of a count, if these are not zero. -/
def step? (count : UInt64) : Option UInt32 :=
  if count.toUInt32 = 0 then none else some (groupOrder.toUInt32 / count.toUInt32)

/-- Lists so many roots of unity, or their inverses, each one as a multiple of the one before. -/
def list? (count : UInt64) (inverted : Bool) : Option (Array Residue) := do
  let n := count.toNat
  let g := if inverted then generator.pow (groupOrder - 1).toUInt32 else generator
  let roots ← set? (Array.replicate n 0) 0 1
  let w := g.pow (← step? count)
  (n - 1).fold (fun i _ listed => do
    let roots ← listed
    set? roots (i + 1) (w * (← roots[i]?))) (some roots)

end Roots

namespace Scribe

/-- What a scribe for vectors of one length is set up with. -/
structure Setup where
  /-- The number of slots. -/
  dimension : UInt64
  /-- The roots of unity at which the polynomials are evaluated. -/
  roots : Array Residue
  /-- The inverses of the roots of unity at which the polynomials are given. -/
  inverses : Array Residue
  deriving DecidableEq

/-- Lists the roots of unity for `n` points, of which there are `twice` as many. -/
def Setup.list? (dimension n twice : UInt64) : Option Setup := do
  let roots ← Roots.list? twice false
  let inverses ← Roots.list? n true
  return { dimension, roots, inverses }

/-- Sets up a scribe for vectors of `dimension` slots, for which there must be enough roots. -/
def setUp {m : Type → Type} [Monad m] (arithmetic : WordArithmetic m) (dimension : UInt64) :
    m (Option (Except BitProofError Setup)) := do
  let n ← BitProof.countPoints arithmetic dimension
  let twice ← arithmetic.mul 2 n
  if Roots.groupOrder.toUInt64 < twice then
    return some (.error (.dimensionTooLarge dimension.toNat))
  else return (Setup.list? dimension n twice).map .ok

end Scribe

end SplitTally
