import SplitTally.Proofs.Interpolants
import SplitTally.Proofs.Reuse
import SplitTally.Proofs.Sharing
import SplitTally.Scribe

/-!
# What a proof contains

A scribe's buffers do not show in its proofs: a proof holds the product of the two drawn values and
the values of the product of the two polynomials at the roots with odd exponent, and nothing else.
So for the same drawn values it is the same, whatever the scribe has written before.
-/

namespace SplitTally

open BitProof (pointBits)
open Transform (entry front write Scratch)

namespace Scribe

variable {prover : Prover} {d : ℕ}

/-! ### Building in buffers -/

/-- A new buffer is loaded with the points of a polynomial of slots. -/
theorem front_load (first : Residue) {xs : List Residue} (hxs : xs.length = d) :
    front (pointBits d) (load (pointBits d) first xs) = BitProof.points (pointBits d) first xs := by
  have h := front_slots (Kept.replicate _ (SlotPosition d)) first hxs
  rw [load, List.size_toArray, hxs]
  exact h

/-- Once what lies behind them is cleared, the coefficients are extended with zeros. -/
theorem front_cleared {k : ℕ} {coefficients : Array Residue} {v : Vector Residue (2 ^ k)}
    (hsize : coefficients.size = 2 ^ (k + 1)) (hfront : front k coefficients = v) :
    front (k + 1) (write coefficients (coefficients.size - 2 ^ k) (2 ^ k + ·) fun _ => 0) =
      Transform.zeroExtend v := by
  have hdouble := Transform.pow_succ_eq k
  refine Transform.ext_entry fun i hi => ?_
  rw [Transform.entry_front _ hi, Transform.zeroExtend, Transform.entry_ofFn _ hi]
  by_cases hlow : i < 2 ^ k
  · rw [dif_pos hlow, Transform.getD_write_of_ne fun j _ => by omega,
      ← Transform.entry_front _ hlow, hfront, Transform.entry_of_lt _ hlow]
    rfl
  · rw [dif_neg hlow]
    obtain ⟨j, rfl⟩ := Nat.exists_eq_add_of_le (Nat.le_of_not_lt hlow)
    exact Transform.getD_write (fun _ _ _ _ heq => Nat.add_left_cancel heq) (by omega) (by omega)

/-- Spreading a polynomial leaves its values at twice as many roots, whatever the buffers held. -/
theorem spread_spec {scribe : Scribe} {k : ℕ}
    (hroots : scribe.roots = (Roots.table (k + 1) false).toArray)
    (hinverses : scribe.inverses = (Roots.table k true).toArray) {out coefficients : Array Residue}
    (points : Array Residue) {scratch : Scratch} (hout : 2 ^ (k + 1) ≤ out.size)
    (hcoefficients : coefficients.size = 2 ^ (k + 1)) (hscratch : scratch.Holds (2 ^ (k + 1))) :
    (scribe.spread k out coefficients points scratch).1.size = out.size ∧
      front (k + 1) (scribe.spread k out coefficients points scratch).1 =
        Transform.values (k + 1)
          (Transform.zeroExtend (Transform.interpolate k (front k points))) ∧
      (scribe.spread k out coefficients points scratch).2.1.size = 2 ^ (k + 1) ∧
      (scribe.spread k out coefficients points scratch).2.2.Holds (2 ^ (k + 1)) := by
  have hdouble := Transform.pow_succ_eq k
  obtain ⟨hsize, hfront, hheld⟩ := Transform.interpolateInto_spec points
    (show 2 ^ k ≤ coefficients.size by omega) (by omega) hscratch
    (hinverses ▸ Transform.front_toArray _)
  simp only [spread]
  generalize Transform.interpolateInto k coefficients scribe.inverses points scratch = interpolated
    at hsize hfront hheld ⊢
  have hcleared := front_cleared (hsize.trans hcoefficients) hfront
  have hclearedSize : (write interpolated.1 (interpolated.1.size - 2 ^ k) (2 ^ k + ·)
      fun _ => 0).size = 2 ^ (k + 1) := by
    rw [Transform.size_write, hsize, hcoefficients]
  generalize write interpolated.1 (interpolated.1.size - 2 ^ k) (2 ^ k + ·) (fun _ => 0) = cleared
    at hcleared hclearedSize ⊢
  obtain ⟨houtSize, hvalues, hheld'⟩ :=
    Transform.evaluateInto_spec (k + 1) scribe.roots cleared hout le_rfl hheld
  rw [hroots, Transform.front_toArray, hcleared] at hvalues
  exact ⟨houtSize, hroots ▸ hvalues, hclearedSize, hheld'⟩

/-- Every other entry, from the second one on. -/
theorem getElem?_everyOther : ∀ (xs : List Residue) (j : ℕ),
    (everyOther xs)[j]? = xs[2 * j + 1]?
  | [], j => by simp [everyOther]
  | [_], j => by simp [everyOther]
  | _ :: _ :: _, 0 => rfl
  | _ :: _ :: rest, j + 1 => getElem?_everyOther rest j

/-- A buffer lists the entries of the vector at its front. -/
theorem getElem?_toList {k i : ℕ} {buffer : Array Residue} {v : Vector Residue (2 ^ k)}
    (hsize : buffer.size = 2 ^ k) (hfront : front k buffer = v) (hi : i < 2 ^ k) :
    buffer.toList[i]? = some (entry v i) := by
  rw [← hfront, Transform.entry_front _ hi, Array.getElem?_toList,
    Transform.getElem?_eq_some_getD (hsize ▸ hi)]

/-- Products of values at every other root are those of the values at the odd exponents. -/
theorem everyOther_zipWith {k : ℕ} {f g : Array Residue} {u v : Vector Residue (2 ^ (k + 1))}
    (hfsize : f.size = 2 ^ (k + 1)) (hgsize : g.size = 2 ^ (k + 1)) (hf : front (k + 1) f = u)
    (hg : front (k + 1) g = v) :
    everyOther (List.zipWith (· * ·) f.toList g.toList) =
      (Vector.zipWith (· * ·) (Transform.odds u) (Transform.odds v)).toList := by
  have hdouble := Transform.pow_succ_eq k
  refine List.ext_getElem? fun j => ?_
  rw [getElem?_everyOther, List.getElem?_zipWith, Vector.getElem?_toList]
  by_cases hj : j < 2 ^ k
  · have hodd : 2 * j + 1 < 2 ^ (k + 1) := by omega
    rw [getElem?_toList hfsize hf hodd, getElem?_toList hgsize hg hodd, Vector.getElem?_zipWith,
      Vector.getElem?_eq_getElem hj, Vector.getElem?_eq_getElem hj, ← Transform.entry_of_lt _ hj,
      ← Transform.entry_of_lt _ hj, Transform.entry_odds _ hj, Transform.entry_odds _ hj]
  · have hpast : f.toList.length ≤ 2 * j + 1 := by
      rw [Array.length_toList, hfsize]
      omega
    rw [List.getElem?_eq_none hpast, Vector.getElem?_eq_none (Nat.not_lt.mp hj)]

/-- In buffers the same proof is built. -/
theorem build_ofProver {xs : List Residue} (hxs : xs.length = prover.dimension)
    (f0 g0 : Residue) : (ofProver prover).build xs f0 g0 = BitProof.build xs f0 g0 := by
  have hshifted : (xs.map (· - 1)).length = prover.dimension := by rwa [List.length_map]
  have hloadF := front_load f0 hxs
  have hloadG := front_load g0 hshifted
  have hdimension : (ofProver prover).prover.dimension = prover.dimension := rfl
  have hroots : (ofProver prover).roots =
      (Roots.table (pointBits prover.dimension + 1) false).toArray := rfl
  have hinverses : (ofProver prover).inverses =
      (Roots.table (pointBits prover.dimension) true).toArray := rfl
  rw [build, BitProof.build, hxs, hdimension]
  generalize ofProver prover = scribe at hroots hinverses ⊢
  generalize pointBits prover.dimension = k at hroots hinverses hloadF hloadG ⊢
  dsimp only
  have hzeros : (Array.replicate (2 ^ (k + 1)) (0 : Residue)).size = 2 ^ (k + 1) :=
    Array.size_replicate
  obtain ⟨hfsize, hf, hcoefficients, hheld⟩ := spread_spec hroots hinverses (load k f0 xs)
    hzeros.ge hzeros (Scratch.holds_zeros _)
  generalize scribe.spread k _ _ (load k f0 xs) _ = spreadF at hfsize hf hcoefficients hheld ⊢
  -- The second polynomial goes through the buffers as the first one leaves them.
  obtain ⟨hgsize, hg, -, -⟩ := spread_spec hroots hinverses (load k g0 (xs.map (· - 1)))
    hzeros.ge hcoefficients hheld
  rw [hloadF] at hf
  rw [hloadG] at hg
  rw [everyOther_zipWith (hfsize.trans hzeros) (hgsize.trans hzeros) hf hg]
  rfl

/-- A scribe is there for as many slots as a schema may have. -/
theorem ofDimension_eq_ok (hd : d ≤ Schema.maxDimension) :
    ofDimension d = .ok (ofProver ⟨d, Prover.fits_of_le hd⟩) := by
  rw [ofDimension, Prover.ofDimension_eq_ok hd]
  rfl

/-- A scribe proves what its prover does. -/
theorem prove_ofProver (prover : Prover) (xs : List Residue) :
    (ofProver prover).prove xs = prover.prove xs := by
  have hdimension : (ofProver prover).prover.dimension = prover.dimension := rfl
  rw [prove, Prover.prove, hdimension]
  by_cases hlength : xs.length = prover.dimension
  · simp only [build_ofProver hlength]
  · simp only [if_pos hlength]
    rfl

/-- A scribe for one vector alone proves what a prover of that vector does. -/
theorem proveAlone_eq (xs : List Residue) : proveAlone xs = BitProof.prove xs := by
  rw [proveAlone, BitProof.prove, ofDimension]
  cases Prover.ofDimension xs.length with
  | error cause => rfl
  | ok prover => exact congrArg (Draw.ofExcept (.ok prover) >>= ·) (funext (prove_ofProver · xs))

end Scribe

/-! ### The contents -/

namespace BitProof

open Polynomial

/-- The proof holds the two values at the first node and their product, and `n` values of the
product of two polynomials at the powers of `u` with odd exponent. Those with even exponent are the
nodes through which the polynomials are determined. -/
structure HoldsProduct (u : Residue) (n : ℕ) (xs : List Residue) (f0 g0 : Residue)
    (proof : BitProof) : Prop where
  /-- The value of `f` at the first node. -/
  f0_eq : proof.f0 = f0
  /-- The value of `g` at the first node. -/
  g0_eq : proof.g0 = g0
  /-- The value of `h` at the first node. -/
  h0_eq : proof.h0 = f0 * g0
  /-- The number of other values of `h`. -/
  length_packed : proof.packed.length = n
  /-- The only two polynomials with the values at the nodes, and the values of their product. -/
  packed_eq : ∃ f g : Residue[X],
    (∀ q, TakesSlots (fun i => u ^ (2 * i)) n f0 xs q ↔ q = f) ∧
    (∀ q, TakesSlots (fun i => u ^ (2 * i)) n g0 (xs.map (· - 1)) q ↔ q = g) ∧
    ∀ j (hj : j < proof.packed.length),
      proof.packed[j] = f.eval (u ^ (2 * j + 1)) * g.eval (u ^ (2 * j + 1))

/-- A proof that is built holds the values of the product. -/
theorem holdsProduct_build {xs : List Residue} (hsize : xs.length ≤ Schema.maxDimension)
    (f0 g0 : Residue) :
    HoldsProduct (Roots.base (pointBits xs.length + 1) false) (2 ^ pointBits xs.length) xs f0 g0
      (build xs f0 g0) := by
  have hlength := length_packed_build xs f0 g0
  have hroom : xs.length < 2 ^ pointBits xs.length := lt_two_pow_digits xs.length
  have hroom' : (xs.map (· - 1)).length < 2 ^ pointBits xs.length := by rwa [List.length_map]
  have hpacked {j : ℕ} := getD_packed_build hsize f0 g0 (j := j)
  have hk : pointBits xs.length < 20 := Nat.lt_succ_of_le (pointBits_le hsize)
  generalize pointBits xs.length = k at *
  refine ⟨rfl, rfl, rfl, hlength, slotPolynomial k f0 xs, slotPolynomial k g0 (xs.map (· - 1)),
    fun q => ?_, fun q => ?_, fun j hj => ?_⟩
  · simp only [Roots.base_pow_two_mul hk]
    exact takesSlots_iff hk.le hroom
  · simp only [Roots.base_pow_two_mul hk]
    exact takesSlots_iff hk.le hroom'
  · rw [← eval_mul, ← hpacked (hlength ▸ hj), List.getD_eq_getElem _ _ hj]

end BitProof

namespace Scribe

/-- The next two residues that a stream yields, and what is left of it after them. -/
def DrawsPair (e : Entropy) (f0 g0 : Residue) (rest : Entropy) : Prop :=
  ∃ e₁, Residue.draw e = .ok f0 e₁ ∧ Residue.draw e₁ = .ok g0 rest

/-- There is a scribe for every vector of up to as many slots as a schema can have. Whatever it has
proved before, it proves with the two residues drawn next what is proved with them for this vector
alone: the proof that holds the values of the product, which is read back from its residues. -/
theorem exists_proof_holdsProduct {xs : List Residue} (hsize : xs.length ≤ Schema.maxDimension)
    (f0 g0 : Residue) :
    let n := 2 ^ Nat.clog 2 (xs.length + 1)
    let u := Roots.generator ^ (Roots.groupOrder / (2 * n))
    IsPrimitiveRoot u (2 * n) ∧ ∃ scribe proof, ofDimension xs.length = .ok scribe ∧
      BitProof.HoldsProduct u n xs f0 g0 proof ∧
      BitProof.ofFlat xs.length proof.flatten = .ok proof ∧
      (∀ e rest, DrawsPair e f0 g0 rest → proveAlone xs e = .ok proof rest) ∧
      ∀ earlier e rest, DrawsPair (scribe.proveEach earlier e).2 f0 g0 rest →
        scribe.prove xs (scribe.proveEach earlier e).2 = .ok proof rest := by
  intro n u
  have hk : pointBits xs.length < 20 := Nat.lt_succ_of_le (BitProof.pointBits_le hsize)
  have hn : n = 2 ^ pointBits xs.length := by rw [BitProof.pointBits_eq_clog]
  have hu : u = Roots.base (pointBits xs.length + 1) false :=
    BitProof.generator_pow_two_mul_points hsize
  set prover : Prover := ⟨xs.length, Prover.fits_of_le hsize⟩
  have hnew : Prover.ofDimension xs.length = .ok prover := Prover.ofDimension_eq_ok hsize
  have hproof : ∀ e rest, DrawsPair e f0 g0 rest →
      prover.prove xs e = .ok (BitProof.build xs f0 g0) rest := by
    rintro e rest ⟨e₁, hf0, hg0⟩
    exact Prover.prove_eq_ok_iff.mpr ⟨rfl, f0, g0, e₁, hf0, hg0, rfl⟩
  refine ⟨?_, ofProver prover, BitProof.build xs f0 g0, ofDimension_eq_ok hsize, ?_, ?_,
    fun e rest hdraws => ?_, fun earlier e rest hdraws => ?_⟩
  · rw [hu, hn, ← Transform.pow_succ_eq]
    exact Roots.isPrimitiveRoot_base hk
  · rw [hu, hn]
    exact BitProof.holdsProduct_build hsize f0 g0
  · refine BitProof.ofFlat_flatten ?_
    rw [BitProof.length_packed_build, BitProof.pointCount_eq]
  · rw [proveAlone_eq, BitProof.prove, hnew]
    exact hproof e rest hdraws
  · rw [prove_ofProver]
    exact hproof _ rest hdraws

/-- A scribe that was given two vectors, one of them too short, goes on with a third one. -/
theorem exists_proof_holdsProduct_of_three :
    3 ≤ Schema.maxDimension ∧ ∃ scribe proof, ofDimension 3 = .ok scribe ∧
      proveAlone [1, 0, 1] ⟨[5, 7].flatMap Wire.encodeResidue⟩ = .ok proof ⟨[]⟩ ∧
      scribe.prove [1, 0, 1] (scribe.proveEach [[0, 1, 2], [1]]
        ⟨[2, 3, 5, 7].flatMap Wire.encodeResidue⟩).2 = .ok proof ⟨[]⟩ ∧
      proof.h0 = 35 ∧ proof.packed.length = 4 := by
  have hsize : [(1 : Residue), 0, 1].length ≤ Schema.maxDimension := by decide
  obtain ⟨-, scribe, proof, hscribe, hcontents, -, halone, hlater⟩ :=
    exists_proof_holdsProduct hsize 5 7
  have hdraws : DrawsPair ⟨[5, 7].flatMap Wire.encodeResidue⟩ 5 7 ⟨[]⟩ :=
    ⟨_, Residue.draw_encodeResidue 5 _, Residue.draw_encodeResidue 7 []⟩
  have hleft : ∀ h, ((ofProver ⟨3, h⟩).proveEach [[0, 1, 2], [1]]
      ⟨[2, 3, 5, 7].flatMap Wire.encodeResidue⟩).2 = ⟨[5, 7].flatMap Wire.encodeResidue⟩ := by
    decide +kernel
  have hproduct : (5 : Residue) * 7 = 35 := by decide +kernel
  obtain rfl := Except.ok.inj (hscribe.symm.trans (ofDimension_eq_ok hsize))
  exact ⟨hsize, _, proof, hscribe, halone _ _ hdraws, hlater _ _ _ ((hleft _).symm ▸ hdraws),
    hcontents.h0_eq.trans hproduct, hcontents.length_packed.trans (by decide)⟩

end Scribe

end SplitTally
