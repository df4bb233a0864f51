import SplitTally.Residue

/-!
# Roots of unity

The residues other than zero hold a cyclic group of order `2 ^ 20`, so for each `k` up to 20 there
are `2 ^ k` residues whose `2 ^ k`-th power is one. They are listed as the successive powers of one
of them, or of its inverse.
-/

namespace SplitTally.Roots

-- Powers of numbers are those of core, whatever other powers are in scope.
attribute [local instance (high)] instPowNat

/-- The order of the group of roots of unity. -/
def groupOrder : Nat := 2 ^ (20 : Nat)

/-- A generator of the group of roots of unity. -/
def generator : Residue := Residue.ofWord 3925978153

/-- The base of the listed roots: a generator of the `2 ^ k`-th roots of unity, or its inverse. -/
def base (k : Nat) (inverted : Bool) : Residue :=
  let g := if inverted then generator.pow (groupOrder - 1).toUInt32 else generator
  g.pow (groupOrder / 2 ^ k).toUInt32

/-- The powers `w ^ 0, …, w ^ (n - 1)`, and `w ^ n`. -/
def powersThrough (w : Residue) (n : Nat) : Array Residue × Residue :=
  n.fold (fun _ _ done => (done.1.push done.2, done.2 * w)) (#[], 1)

/-- So many powers are listed. -/
theorem size_powersThrough (w : Residue) (n : Nat) : (powersThrough w n).1.size = n := by
  induction n with
  | zero => rfl
  | succ n ih => simpa [powersThrough] using ih

/-- The powers `w ^ 0, …, w ^ (n - 1)`. -/
def powers (w : Residue) (n : Nat) : Vector Residue n :=
  ⟨(powersThrough w n).1, size_powersThrough w n⟩

/-- The `2 ^ k`-th roots of unity, or their inverses, in the order of their exponents. -/
def table (k : Nat) (inverted : Bool) : Vector Residue (2 ^ k) :=
  powers (base k inverted) (2 ^ k)

end SplitTally.Roots
