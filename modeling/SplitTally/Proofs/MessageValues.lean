import SplitTally.Proofs.Interpolants
import SplitTally.Proofs.Reuse

/-!
# What a message contains

A teller loads the buffers with the points of three polynomials, interpolates one after the other
through the same buffer of coefficients, and evaluates by nested multiplication on its front. What
comes out are the values of the only polynomials through the points, for every number of slots and
at every point, whatever the teller was asked before.
-/

namespace SplitTally.Teller

open BitProof (TakesPacked TakesSlots pointBits)
open Polynomial

/-- On shares of the right lengths, any residues, a teller answers at every point, the roots of
unity included, with the values there of the only polynomials that take the shares at the roots of
unity. Only the first server shifts the shares of the slots for the second polynomial. -/
theorem exists_message_eq_evals {d : ℕ} (hd : d ≤ Schema.maxDimension) (server : Server)
    (key : PrivateKey) (batch : List UInt8) (calls : List Call) {bundle : Bundle}
    {f0 g0 h0 : Residue} {packed : List Residue} (hdata : bundle.data.length = d)
    (hproof : bundle.proof = f0 :: g0 :: h0 :: packed)
    (hpacked : packed.length = 2 ^ Nat.clog 2 (d + 1)) (x : Residue) :
    let n := 2 ^ Nat.clog 2 (d + 1)
    let w := Roots.generator ^ (Roots.groupOrder / n)
    let u := Roots.generator ^ (Roots.groupOrder / (2 * n))
    let shifted := match server with
      | .a => bundle.data.map (· - 1)
      | .b => bundle.data
    IsPrimitiveRoot w n ∧ IsPrimitiveRoot u (2 * n) ∧ ∃ F G H : Residue[X],
      (∀ q, TakesSlots (w ^ ·) n f0 bundle.data q ↔ q = F) ∧
      (∀ q, TakesSlots (w ^ ·) n g0 shifted q ↔ q = G) ∧
      (∀ q, TakesPacked (u ^ ·) n h0 packed q ↔ q = H) ∧
      (((start d server key batch).afterAll calls).message x bundle).1 =
        .ok ⟨F.eval x, G.eval x, H.eval x⟩ := by
  intro n w u shifted
  have hshifted : shifted = Verifier.shiftedData server bundle.data := by cases server <;> rfl
  have hshiftedLength : shifted.length = d := by
    cases server with
    | a => exact (List.length_map _).trans hdata
    | b => exact hdata
  have hpoints : packed.length = 2 ^ pointBits d := by
    rw [hpacked, BitProof.pointBits_eq_clog]
  have hflat : bundle.proof = BitProof.flatten ⟨f0, g0, h0, packed⟩ := hproof
  have hreachable := reachable_afterAll d server key batch calls
  refine ⟨BitProof.isPrimitiveRoot_points hd, BitProof.isPrimitiveRoot_two_mul_points hd, _, _, _,
    fun q => BitProof.takesSlots_points_iff hd hdata,
    fun q => BitProof.takesSlots_points_iff hd hshiftedLength,
    fun q => BitProof.takesPacked_points_iff hd hpoints, ?_⟩
  rw [hreachable.message_eq hd, hshifted]
  exact Verifier.message_eq_ok hd hreachable.serves hdata hflat hpoints x

/-- The second server's shares of one slot, after a bundle that was refused, at a root of unity. -/
theorem exists_message_eq_evals_of_one :
    1 ≤ Schema.maxDimension ∧ ∃ F G H : Residue[X],
      F.eval 1 = 4 ∧ G.eval 1 = 5 ∧ H.eval 1 = 6 ∧
      (((start 1 .b ⟨List.replicate 32 1, by decide⟩ []).afterAll
        [.message 5 ⟨[], .b, [], []⟩]).message 1 ⟨[], .b, [7], [4, 5, 6, 8, 9]⟩).1 =
        .ok ⟨F.eval 1, G.eval 1, H.eval 1⟩ := by
  have hd : 1 ≤ Schema.maxDimension := by decide
  have hpacked : [(8 : Residue), 9].length = 2 ^ Nat.clog 2 (1 + 1) := by decide
  let bundle : Bundle := ⟨[], .b, [7], [4, 5, 6, 8, 9]⟩
  have hdata : bundle.data.length = 1 := rfl
  have hproof : bundle.proof = [4, 5, 6, 8, 9] := rfl
  obtain ⟨-, -, F, G, H, hF, hG, hH, hanswer⟩ :=
    exists_message_eq_evals hd .b ⟨List.replicate 32 1, by decide⟩ []
      [.message 5 ⟨[], .b, [], []⟩] hdata hproof hpacked 1
  refine ⟨hd, F, G, H, ?_, ?_, ?_, hanswer⟩
  · exact ((hF F).mpr rfl).first
  · exact ((hG G).mpr rfl).first
  · exact ((hH H).mpr rfl).first

end SplitTally.Teller
