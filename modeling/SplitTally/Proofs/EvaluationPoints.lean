import SplitTally.Proofs.RandomShares
import SplitTally.Proofs.Reuse

/-!
# Points off the roots of unity

A field holds no more roots of unity of an order than the table lists, so a residue that is not in
the table has another power than one. Residues are drawn until there is such a residue. It is the
first one of the stream, and nothing behind its word is touched.
-/

namespace SplitTally

open Entropy (accepted)

namespace Residue

variable {accept : Residue → Bool} {r : Residue} {e e' : Entropy}

/-! ### Draws until one is accepted -/

/-- The first residue is selected, and if it is not accepted all starts again behind its word. -/
theorem firstSelected_filter (select : UInt32 → Option Residue) (accept : Residue → Bool)
    (s : List UInt8) : firstSelected (fun w => (select w).filter accept) s =
      match firstSelected select s with
      | (some r, rest) =>
        if accept r then (some r, rest)
        else firstSelected (fun w => (select w).filter accept) rest
      | (none, rest) => (none, rest) := by
  fun_induction firstSelected select s with
  | case1 a b c d s r hselected =>
    cases haccept : accept r <;> simp [firstSelected, hselected, Option.filter, haccept]
  | case2 a b c d s hrefused ih => simpa [firstSelected, hrefused] using ih
  | case3 s hshort =>
    rw [firstSelected]
    exact hshort

private theorem drawAccepted_apply (accept : Residue → Bool) (e : Entropy) : drawAccepted accept e =
    match firstSelected (fun w => (ofWord? w).filter accept) e.bytes with
    | (some r, rest) => .ok r ⟨rest⟩
    | (none, rest) => .error .entropy ⟨rest⟩ := rfl

/-- A residue is drawn, and if it is not accepted all starts again. -/
theorem drawAccepted_eq_bind (accept : Residue → Bool) :
    drawAccepted accept =
      draw >>= fun r => if accept r then pure r else drawAccepted accept := by
  funext e
  have hall : (fun w => (ofWord? w).filter fun _ => true) = ofWord? :=
    funext fun w => by cases ofWord? w <;> rfl
  rw [Draw.bind_apply, draw, drawAccepted_apply fun _ => true, hall, drawAccepted_apply accept,
    firstSelected_filter]
  rcases firstSelected ofWord? e.bytes with ⟨_ | r, rest⟩
  · rfl
  · cases haccept : accept r with
    | false => simp only [haccept, Bool.false_eq_true, if_false, drawAccepted_apply]
    | true =>
      simp only [haccept, if_true]
      rfl

/-- The words below the modulus are those of residues. -/
theorem exists_accepted_eq_map (ws : List UInt32) :
    ∃ rs : List Residue, accepted ws = rs.map val := by
  induction ws with
  | nil => exact ⟨[], rfl⟩
  | cons w ws ih =>
    obtain ⟨rs, hrs⟩ := ih
    by_cases hlt : w.toNat < modulus
    · exact ⟨⟨w, hlt⟩ :: rs, by simp [accepted, hlt, ← hrs]⟩
    · exact ⟨rs, by simp [accepted, hlt, ← hrs]⟩

private theorem val_mem_iff {ws : List UInt32} {rs : List Residue} (h : accepted ws = rs.map val) :
    r.val ∈ ws ↔ r ∈ rs := by
  have hlt := r.val_lt
  have hinjective : Function.Injective val := fun a b hab => ext_toNat (congrArg UInt32.toNat hab)
  rw [← List.mem_map_of_injective hinjective, ← h]
  simp [accepted, hlt]

/-- The last word that is taken is that of the last mask. -/
theorem takenFor_append_singleton_iff {masks : List Residue} {taken : List UInt32} :
    TakenFor (masks ++ [r]) taken ↔
      ∃ passed, taken = passed ++ [r.val] ∧ accepted passed = masks.map val := by
  have hlt := r.val_lt
  constructor
  · rintro ⟨haccepted, hstops⟩
    rcases taken.eq_nil_or_concat with rfl | ⟨passed, w, rfl⟩
    · simp [accepted] at haccepted
    · rw [List.concat_eq_append] at haccepted hstops ⊢
      have hw : w.toNat < modulus := hstops w (by simp)
      have hsplit : accepted passed ++ [w] = masks.map val ++ [r.val] := by
        simpa [accepted, hw] using haccepted
      obtain ⟨hpassed, hlast⟩ := List.append_inj' hsplit rfl
      exact ⟨passed, congrArg (passed ++ ·) hlast, hpassed⟩
  · rintro ⟨passed, rfl, hpassed⟩
    refine ⟨?_, by simpa using hlt⟩
    rw [accepted] at hpassed ⊢
    simp [hpassed, hlt]

/-- The residue that is accepted is the last one of those that are drawn, and the first one of them
that is accepted. -/
theorem drawAccepted_eq_ok_iff_drawMany : drawAccepted accept e = .ok r e' ↔ accept r = true ∧
    ∃ refused, (∀ q ∈ refused, accept q = false) ∧
      drawMany (refused.length + 1) e = .ok (refused ++ [r]) e' := by
  simp only [drawAccepted_eq_ok_iff, drawMany_eq_ok_iff, takenFor_append_singleton_iff]
  constructor
  · rintro ⟨passed, hbytes, hpassed, haccept⟩
    obtain ⟨refused, hrefused⟩ := exists_accepted_eq_map passed
    refine ⟨haccept, refused, fun q hq => ?_, _, by simp, ⟨passed, rfl, hrefused⟩, hbytes⟩
    exact hpassed q.val ((val_mem_iff hrefused).mpr hq) q rfl
  · rintro ⟨haccept, refused, hfail, _, -, ⟨passed, rfl, hpassed⟩, hbytes⟩
    refine ⟨passed, hbytes, ?_, haccept⟩
    rintro _ hu q rfl
    exact hfail q ((val_mem_iff hpassed).mp hu)

end Residue

/-- The point is none of the roots of unity of the proof for so many slots. -/
def OffRoots (d : ℕ) (x : Residue) : Prop := x ^ (2 * 2 ^ Nat.clog 2 (d + 1)) ≠ 1

namespace Teller

/-! ### The choice of a point -/

variable {teller : Teller} {d : ℕ} {e e' : Entropy}

/-- The roots of unity of a teller that is ready are those of the proof. -/
theorem Ready.mem_roots_iff (h : teller.Ready d) (hd : d ≤ Schema.maxDimension) {x : Residue} :
    x ∈ teller.workspace.roots ↔ ¬ OffRoots d x := by
  have hk : BitProof.pointBits d + 1 ≤ 20 := Nat.succ_le_succ (BitProof.pointBits_le hd)
  have hdouble := Transform.pow_succ_eq (BitProof.pointBits d)
  rw [h.workspace.roots, Vector.mem_toArray_iff, Roots.mem_table_iff hk, hdouble,
    BitProof.pointBits_eq_clog, OffRoots, not_not]

/-- A residue is drawn, and if it is one of the roots all starts again. -/
theorem choosePoint_eq_bind (teller : Teller) :
    teller.choosePoint = Residue.draw.mapError .residue >>= fun x =>
      if x ∈ teller.workspace.roots then teller.choosePoint else pure x := by
  conv_lhs => rw [choosePoint, Residue.drawAccepted_eq_bind, Draw.mapError_bind]
  refine bind_congr fun x => ?_
  by_cases hx : x ∈ teller.workspace.roots
  · simp only [Array.contains_iff_mem.mpr hx, Bool.not_true, Bool.false_eq_true, if_false,
      if_pos hx]
    rfl
  · have hfree : teller.workspace.roots.contains x = false :=
      Bool.eq_false_iff.mpr fun hlisted => hx (Array.contains_iff_mem.mp hlisted)
    simp only [hfree, Bool.not_false, if_true, if_neg hx]
    rfl

/-- A residue is refused when it is one of the roots. -/
theorem Ready.refuses_iff (h : teller.Ready d) (hd : d ≤ Schema.maxDimension) {x : Residue} :
    (!teller.workspace.roots.contains x) = false ↔ ¬ OffRoots d x := by
  rw [Bool.not_eq_false', Array.contains_iff_mem, h.mem_roots_iff hd]

/-- A teller that is ready accepts exactly the points off the roots of unity. -/
theorem Ready.accepts_iff (h : teller.Ready d) (hd : d ≤ Schema.maxDimension) {x : Residue} :
    (!teller.workspace.roots.contains x) = true ↔ OffRoots d x := by
  rw [← Bool.not_eq_false, h.refuses_iff hd, not_not]

/-- A point is chosen behind words that are refused. -/
theorem Ready.choosePoint_eq_ok_iff (h : teller.Ready d) (hd : d ≤ Schema.maxDimension)
    {x : Residue} : teller.choosePoint e = .ok x e' ↔ OffRoots d x ∧ ∃ passed,
      e.bytes = (passed ++ [x.val]).flatMap Words.toLE32 ++ e'.bytes ∧
        ∀ y : Residue, y.val ∈ passed → ¬ OffRoots d y := by
  rw [Teller.choosePoint, Draw.mapError_eq_ok_iff, Residue.drawAccepted_eq_ok_iff]
  simp only [h.accepts_iff hd, h.refuses_iff hd]
  constructor
  · rintro ⟨passed, hbytes, hpassed, hx⟩
    exact ⟨hx, passed, hbytes, fun y hy => hpassed y.val hy y rfl⟩
  · rintro ⟨hx, passed, hbytes, hpassed⟩
    exact ⟨passed, hbytes, fun w hw y hy => hpassed y (hy ▸ hw), hx⟩

/-- No point is chosen when the words of the stream are refused. -/
theorem Ready.choosePoint_eq_error_iff (h : teller.Ready d) (hd : d ≤ Schema.maxDimension)
    {cause : VerifyError} : teller.choosePoint e = .error cause e' ↔ cause = .residue .entropy ∧
      (∀ y : Residue, y.val ∈ e.words → ¬ OffRoots d y) ∧
      e.bytes = e.words.flatMap Words.toLE32 ++ e'.bytes := by
  rw [Teller.choosePoint, Draw.mapError_eq_error_iff]
  simp only [Residue.drawAccepted_eq_error_iff, h.refuses_iff hd]
  constructor
  · rintro ⟨_, ⟨rfl, hwords, hbytes⟩, rfl⟩
    exact ⟨rfl, fun y hy => hwords y.val hy y rfl, hbytes⟩
  · rintro ⟨rfl, hwords, hbytes⟩
    exact ⟨.entropy, ⟨rfl, fun w hw y hy => hwords y (hy ▸ hw), hbytes⟩, rfl⟩

/-- A teller draws residues until one is none of the roots of unity that it has listed, and these
are all roots of unity of the proof. So the point is the first residue of the stream that is off the
roots, and the bytes that are taken end with its word. Only a stream without such a residue gives
out, and nothing else fails. -/
theorem choosePoint_takes_first_off_roots {d : ℕ} (hd : d ≤ Schema.maxDimension) (server : Server)
    (key : PrivateKey) (batch : List UInt8) (calls : List Call) :
    let teller := (start d server key batch).afterAll calls
    (teller.choosePoint = Residue.draw.mapError .residue >>= fun x =>
      if x ∈ teller.workspace.roots then teller.choosePoint else pure x) ∧
    (∀ x, x ∈ teller.workspace.roots ↔ ¬ OffRoots d x) ∧
    ∀ e : Entropy,
      (∀ x e', teller.choosePoint e = .ok x e' ↔ OffRoots d x ∧
        ∃ refused, (∀ y ∈ refused, ¬ OffRoots d y) ∧
          Residue.drawMany (refused.length + 1) e = .ok (refused ++ [x]) e') ∧
      (∀ x e', teller.choosePoint e = .ok x e' → ∃ passed,
        e.bytes = (passed ++ [x.val]).flatMap Words.toLE32 ++ e'.bytes ∧
          ∀ y : Residue, y.val ∈ passed → ¬ OffRoots d y) ∧
      (∀ cause e', teller.choosePoint e = .error cause e' → cause = .residue .entropy) ∧
      ((∃ cause e', teller.choosePoint e = .error cause e') ↔
        ∀ y : Residue, y.val ∈ e.words → ¬ OffRoots d y) := by
  intro teller
  have hready : teller.Ready d := (ready_start d server key batch).afterAll hd calls
  refine ⟨choosePoint_eq_bind teller, fun x => hready.mem_roots_iff hd, fun e =>
    ⟨fun x e' => ?_, fun x e' hchosen => ?_, fun cause e' hfail => ?_, ?_⟩⟩
  · rw [choosePoint, Draw.mapError_eq_ok_iff, Residue.drawAccepted_eq_ok_iff_drawMany]
    simp only [hready.accepts_iff hd, hready.refuses_iff hd]
  · exact ((hready.choosePoint_eq_ok_iff hd).mp hchosen).2
  · exact ((hready.choosePoint_eq_error_iff hd).mp hfail).1
  · constructor
    · rintro ⟨cause, e', hfail⟩
      exact ((hready.choosePoint_eq_error_iff hd).mp hfail).2.1
    · intro hwords
      obtain ⟨left, hbytes, -⟩ := Words.exists_eq_append_of_ofBytes e.bytes
      exact ⟨_, ⟨left⟩, (hready.choosePoint_eq_error_iff hd).mpr ⟨rfl, hwords, hbytes⟩⟩

/-- A teller for one slot that has refused a bundle. The greatest word is none of a residue, one is
a root, and zero is chosen. From the words of one and of minus one no point is chosen. -/
theorem choosePoint_takes_first_off_roots_of_one :
    let teller := (start 1 .b ⟨List.replicate 32 1, by decide⟩ []).afterAll
      [.message 5 ⟨[], .b, [], []⟩]
    1 ≤ Schema.maxDimension ∧
    teller.choosePoint ⟨[255, 255, 255, 255, 1, 0, 0, 0, 0, 0, 0, 0, 9]⟩ = .ok 0 ⟨[9]⟩ ∧
    ∃ cause left, teller.choosePoint ⟨[1, 0, 0, 0, 0, 0, 240, 255, 7]⟩ = .error cause left := by
  intro teller
  have hd : 1 ≤ Schema.maxDimension := by decide
  obtain ⟨-, -, hstream⟩ := choosePoint_takes_first_off_roots hd .b ⟨List.replicate 32 1, by decide⟩
    [] [.message 5 ⟨[], .b, [], []⟩]
  have hclog : Nat.clog 2 (1 + 1) = 1 := by decide +kernel
  have hoff (x : Residue) : OffRoots 1 x ↔ x ^ 4 ≠ 1 := by
    rw [OffRoots, hclog]
    norm_num
  refine ⟨hd, ((hstream _).1 _ _).mpr ⟨?_, [1], ?_, rfl⟩, (hstream _).2.2.2.mpr ?_⟩
  · rw [hoff]
    decide
  · simp [hoff]
  · intro y hy
    have hwords : Words.ofBytes [1, 0, 0, 0, 0, 0, 240, 255, 7] =
        [(1 : Residue).val, (-1 : Residue).val] := by decide
    have hword : y.val = (1 : Residue).val ∨ y.val = (-1 : Residue).val := by
      rw [Entropy.words, hwords] at hy
      simpa using hy
    rw [hoff, not_not]
    rcases hword with hone | hminus
    · rw [Residue.ext_toNat (congrArg UInt32.toNat hone), one_pow]
    · rw [Residue.ext_toNat (congrArg UInt32.toNat hminus)]
      decide

end Teller

end SplitTally
