import SplitTally.Proofs.InPlace
import SplitTally.Proofs.SharePolynomials
import SplitTally.Teller

/-!
# Tellers forget

A teller's buffers keep values of earlier bundles, but never where a later one reads them: the
entries of `f` and `g` behind the slots and those of `h` with an even position other than zero are
zero from the start and are written by no bundle, and all others are written before they are read.
So a message is that of the verifier alone, whatever the teller was asked before, and of the
verifier itself calls change nothing but the total.
-/

namespace SplitTally

open BitProof (pointBits)
open Transform (entry front write)

/-! ### Buffers of points -/

/-- The buffer has `n` entries, and those at positions that no bundle writes are zero. -/
structure Kept (buffer : Array Residue) (n : ℕ) (written : ℕ → Prop) : Prop where
  /-- The number of entries. -/
  size_eq : buffer.size = n
  /-- The entries that are not written. -/
  zero : ∀ i, ¬ written i → buffer.getD i 0 = 0

namespace Kept

variable {buffer : Array Residue} {n : ℕ} {written : ℕ → Prop}

/-- A buffer of zeros keeps zeros wherever nothing is written. -/
theorem replicate (n : ℕ) (written : ℕ → Prop) : Kept (Array.replicate n 0) n written := by
  refine ⟨Array.size_replicate, fun i _ => ?_⟩
  rw [Array.getD_eq_getD_getElem?, Array.getElem?_replicate]
  split <;> rfl

/-- A bundle only writes the entries that it may write. -/
theorem load (h : Kept buffer n written) (first : Residue) {m : ℕ} {position : ℕ → ℕ}
    {value : ℕ → Residue} (hfirst : written 0) (hposition : ∀ i < m, written (position i)) :
    Kept (write (buffer.setIfInBounds 0 first) m position value) n written := by
  refine ⟨by rw [Transform.size_write, Array.size_setIfInBounds, h.size_eq], fun i hi => ?_⟩
  have hne : ∀ j < m, position j ≠ i := fun j hj heq => hi (heq ▸ hposition j hj)
  have hzero : 0 ≠ i := fun heq => hi (heq ▸ hfirst)
  rw [Transform.getD_write_of_ne hne, Array.getD_eq_getD_getElem?,
    Array.getElem?_setIfInBounds_ne hzero, ← Array.getD_eq_getD_getElem?]
  exact h.zero i hi

end Kept

/-- The positions of the first value and of the values of `d` slots. -/
def SlotPosition (d i : ℕ) : Prop := i ≤ d

/-- The position of the first value, and odd positions. -/
def ProductPosition (i : ℕ) : Prop := i = 0 ∨ i % 2 = 1

/-- The entry at position zero is the first value, when no other is written there. -/
private theorem getD_load_zero {buffer : Array Residue} {first : Residue} {m : ℕ}
    {position : ℕ → ℕ} {value : ℕ → Residue} (hsize : 0 < buffer.size)
    (hposition : ∀ i < m, position i ≠ 0) :
    (write (buffer.setIfInBounds 0 first) m position value).getD 0 0 = first := by
  rw [Transform.getD_write_of_ne hposition, Array.getD_eq_getD_getElem?]
  simp [hsize]

/-- After a bundle of `d` slots is written a buffer holds the first value, the slots and zeros. -/
theorem front_slots {buffer : Array Residue} {d : ℕ}
    (h : Kept buffer (2 ^ pointBits d) (SlotPosition d)) (first : Residue) {xs : List Residue}
    (hxs : xs.length = d) :
    front (pointBits d) (write (buffer.setIfInBounds 0 first) d (· + 1)
        fun i => xs.toArray.getD i 0) = BitProof.points (pointBits d) first xs := by
  have hkept : Kept (write (buffer.setIfInBounds 0 first) d (· + 1) fun i => xs.toArray.getD i 0)
      (2 ^ pointBits d) (SlotPosition d) :=
    h.load first (Nat.zero_le d) fun i hi => hi
  have hroom : d < 2 ^ pointBits d := BitProof.lt_two_pow_digits d
  refine Transform.ext_entry fun i hi => ?_
  rw [Transform.entry_front _ hi, BitProof.entry_points _ _ hi]
  rcases i with _ | i
  · exact getD_load_zero (h.size_eq ▸ Nat.two_pow_pos _) fun i _ => Nat.succ_ne_zero i
  · rw [List.getD_cons_succ]
    by_cases hslot : i < d
    · have hwritten : (write (buffer.setIfInBounds 0 first) d (· + 1)
          fun i => xs.toArray.getD i 0).getD (i + 1) 0 = xs.toArray.getD i 0 :=
        Transform.getD_write (fun a _ b _ heq => Nat.succ.inj heq) hslot
          (by rw [Array.size_setIfInBounds, h.size_eq]; exact hi)
      rw [hwritten]
      simp
    · have hbehind : ¬ SlotPosition d (i + 1) := by
        unfold SlotPosition
        omega
      rw [hkept.zero (i + 1) hbehind]
      simp [hxs ▸ Nat.not_lt.mp hslot]

/-- After the packed values are written a buffer holds the first value, them and zeros. -/
theorem front_packed {buffer : Array Residue} {k : ℕ}
    (h : Kept buffer (2 ^ (k + 1)) ProductPosition) (first : Residue) (packed : List Residue) :
    front (k + 1) (write (buffer.setIfInBounds 0 first) (2 ^ k) (2 * · + 1)
        fun i => packed.toArray.getD i 0) = Verifier.productPoints k first packed := by
  have hkept : Kept (write (buffer.setIfInBounds 0 first) (2 ^ k) (2 * · + 1)
      fun i => packed.toArray.getD i 0) (2 ^ (k + 1)) ProductPosition :=
    h.load first (.inl rfl) fun i hi => .inr (by omega)
  have hdouble := Transform.pow_succ_eq k
  refine Transform.ext_entry fun i hi => ?_
  rw [Transform.entry_front _ hi, BitProof.entry_productPoints _ _ hi]
  by_cases hzero : i = 0
  · subst hzero
    rw [if_pos rfl]
    exact getD_load_zero (h.size_eq ▸ Nat.two_pow_pos _) fun i _ => Nat.succ_ne_zero _
  · rw [if_neg hzero]
    by_cases hodd : i % 2 = 1
    · rw [if_pos hodd]
      obtain ⟨j, rfl⟩ : ∃ j, i = 2 * j + 1 := ⟨i / 2, by omega⟩
      have hwritten : (write (buffer.setIfInBounds 0 first) (2 ^ k) (2 * · + 1)
          fun i => packed.toArray.getD i 0).getD (2 * j + 1) 0 = packed.toArray.getD j 0 :=
        Transform.getD_write (fun a _ b _ heq => by omega) (by omega)
          (by rw [Array.size_setIfInBounds, h.size_eq]; exact hi)
      have hhalf : (2 * j + 1) / 2 = j := by omega
      rw [hwritten, hhalf]
      simp
    · rw [if_neg hodd]
      exact hkept.zero i fun hposition => hposition.elim hzero hodd

/-- Shifting changes no number of slots. -/
@[simp]
theorem Verifier.length_shiftedData (server : Server) (data : List Residue) :
    (shiftedData server data).length = data.length := by
  unfold shiftedData
  split <;> simp

/-! ### Workspaces -/

namespace Workspace

variable {workspace : Workspace} {d : ℕ}

/-- The buffers have the sizes for `d` slots, the entries that no bundle writes are zero, and the
roots of unity are in their places. -/
structure Ready (workspace : Workspace) (d : ℕ) : Prop where
  /-- The values of `f`. -/
  f : Kept workspace.f (2 ^ pointBits d) (SlotPosition d)
  /-- The values of `g`. -/
  g : Kept workspace.g (2 ^ pointBits d) (SlotPosition d)
  /-- The values of `h`. -/
  h : Kept workspace.h (2 ^ (pointBits d + 1)) ProductPosition
  /-- The roots of unity for `h`. -/
  roots : workspace.roots = (Roots.table (pointBits d + 1) false).toArray
  /-- The inverses of the roots of unity for `h`. -/
  inverses : workspace.inverses = (Roots.table (pointBits d + 1) true).toArray
  /-- The inverses of the roots of unity for `f` and `g`. -/
  halfInverses : workspace.halfInverses = (Roots.table (pointBits d) true).toArray
  /-- The buffer for coefficients. -/
  coefficients : 2 ^ (pointBits d + 1) ≤ workspace.coefficients.size
  /-- The buffers for what is on the way. -/
  scratch : workspace.scratch.Holds (2 ^ (pointBits d + 1))

/-- New buffers are ready. -/
theorem ready_start (d : ℕ) : (start d).Ready d where
  f := Kept.replicate _ _
  g := Kept.replicate _ _
  h := Kept.replicate _ _
  roots := rfl
  inverses := rfl
  halfInverses := rfl
  coefficients := by rw [start, Array.size_replicate]
  scratch := Transform.Scratch.holds_zeros _

/-- Evaluating leaves the points and the roots of unity as they are, and the other buffers large
enough, and its value does not depend on what these held. -/
theorem Ready.valueAt (h : workspace.Ready d) {k : ℕ} (hk : k ≤ pointBits d + 1)
    {inverses : Array Residue} (hinverses : inverses = (Roots.table k true).toArray)
    (points : Array Residue) (x : Residue) :
    (workspace.valueAt k inverses points x).1 = Transform.interpolateAt k (front k points) x ∧
      (workspace.valueAt k inverses points x).2.Ready d := by
  have hpow : 2 ^ k ≤ 2 ^ (pointBits d + 1) := Nat.pow_le_pow_right (by decide) hk
  obtain ⟨hsize, hvalues, hscratch⟩ := Transform.interpolateInto_spec points
    (hpow.trans h.coefficients) hpow h.scratch (hinverses ▸ Transform.front_toArray _)
  refine ⟨?_, { h with coefficients := ?_, scratch := hscratch }⟩
  · simp only [Workspace.valueAt, Transform.interpolateAt, hvalues]
  · exact hsize ▸ h.coefficients

/-- After a bundle is written the workspace is ready, and the buffers hold the points of its
polynomials. -/
theorem Ready.load (h : workspace.Ready d) (server : Server) {data : List Residue}
    {proof : BitProof} (hdata : data.length = d) (hpacked : proof.packed.length = 2 ^ pointBits d) :
    (workspace.load server data proof).Ready d ∧
      front (pointBits d) (workspace.load server data proof).f =
        BitProof.points (pointBits d) proof.f0 data ∧
      front (pointBits d) (workspace.load server data proof).g =
        BitProof.points (pointBits d) proof.g0 (Verifier.shiftedData server data) ∧
      front (pointBits d + 1) (workspace.load server data proof).h =
        Verifier.productPoints (pointBits d) proof.h0 proof.packed := by
  have hshifted : (Verifier.shiftedData server data).length = d := by
    rw [Verifier.length_shiftedData, hdata]
  have hslots : data.toArray.size = d := by simpa using hdata
  have hcount : proof.packed.toArray.size = 2 ^ pointBits d := by simpa using hpacked
  simp only [Workspace.load, hslots, hcount]
  refine ⟨{ h with f := ?_, g := ?_, h := ?_ }, ?_, ?_, ?_⟩
  · exact h.f.load _ (Nat.zero_le d) fun i hi => hi
  · exact h.g.load _ (Nat.zero_le d) fun i hi => hi
  · exact h.h.load _ (.inl rfl) fun i hi => .inr (by omega)
  · exact front_slots h.f _ hdata
  · exact front_slots h.g _ hshifted
  · exact front_packed h.h _ _

end Workspace

/-- A flat proof that is taken apart has a value of `h` for each point. -/
theorem BitProof.length_packed_of_ofFlat {d : ℕ} {flat : List Residue} {proof : BitProof}
    (h : ofFlat d flat = .ok proof) : proof.packed.length = 2 ^ pointBits d := by
  unfold ofFlat at h
  by_cases hflat : flat.length = flatSize d
  · rw [if_pos hflat] at h
    rw [flatSize, pointCount_eq] at hflat
    rcases flat with _ | ⟨f0, _ | ⟨g0, _ | ⟨h0, packed⟩⟩⟩ <;> cases h
    change packed.length = _
    simp only [List.length_cons] at hflat
    omega
  · rw [if_neg hflat] at h
    cases h

/-- A message depends on the number of slots and on the server, and on nothing else of a verifier.
-/
theorem Verifier.message_congr {v w : Verifier} (hdimension : v.dimension = w.dimension)
    (hserver : v.server = w.server) (x : Residue) (bundle : Bundle) :
    v.message x bundle = w.message x bundle := by
  unfold message
  rw [hdimension, hserver]

/-! ### Adding in place -/

/-- After `k` positions the entries before the `k`-th are sums, and all others are as they were. -/
private theorem Residue.getElem?_fold_modify (total other : Array Residue) (k j : ℕ) :
    (k.fold (fun i _ total => total.modify i fun a =>
      ((addAssign (other.getD i 0)).run a).run.2) total)[j]? =
        total[j]?.map fun a => if j < k then a + other.getD j 0 else a := by
  induction k with
  | zero => simp
  | succ k ih =>
    rw [Nat.fold_succ, Array.getElem?_modify, ih]
    rcases lt_trichotomy k j with h | rfl | h
    · rw [if_neg h.ne]
      simp only [if_neg h.not_gt, if_neg (show ¬ j < k + 1 by omega)]
    · rw [if_pos rfl, Option.map_map]
      simp only [lt_irrefl, if_false, lt_add_one, if_true]
      rfl
    · rw [if_neg h.ne']
      simp only [if_pos h, if_pos (Nat.lt_succ_of_lt h)]

/-- Adding in place comes out as adding, and nothing is added when the lengths differ. -/
theorem Residue.mergeInto_eq (total other : List Residue) :
    mergeInto total.toArray other.toArray = match merge total other with
      | .ok sum => (.ok (), sum.toArray)
      | .error cause => (.error cause, total.toArray) := by
  unfold mergeInto merge
  rw [List.size_toArray, List.size_toArray]
  by_cases hlength : total.length = other.length
  · have hsum : other.length.fold (fun i _ total => total.modify i fun a =>
        ((addAssign (other.toArray.getD i 0)).run a).run.2) total.toArray =
          (List.zipWith (· + ·) total other).toArray := by
      refine Array.ext_getElem? fun j => ?_
      rw [getElem?_fold_modify]
      by_cases hj : j < other.length <;> simp [hj, hlength]
    rw [if_pos hlength, if_pos hlength]
    exact congrArg (Prod.mk _) hsum
  · rw [if_neg hlength, if_neg hlength]

namespace Teller

variable {teller : Teller} {d : ℕ}

/-- The teller's verifier takes bundles of `d` slots, and its workspace is ready for them. -/
structure Ready (teller : Teller) (d : ℕ) : Prop where
  /-- The number of slots. -/
  dimension : teller.verifier.dimension = d
  /-- The workspace. -/
  workspace : teller.workspace.Ready d

/-- A message is that of the verifier alone, and leaves the teller ready for the next one. -/
theorem Ready.message (h : teller.Ready d) (hd : d ≤ Schema.maxDimension) (x : Residue)
    (bundle : Bundle) :
    (teller.message x bundle).1 = teller.verifier.message x bundle ∧
      (teller.message x bundle).2.Ready d := by
  obtain ⟨rfl, hworkspace⟩ := h
  unfold Teller.message Verifier.message
  by_cases hdimension : bundle.dimension = teller.verifier.dimension
  · simp only [hdimension, ne_eq, not_true_eq_false, if_false]
    cases hproof : BitProof.ofFlat teller.verifier.dimension bundle.proof with
    | error cause => exact ⟨rfl, rfl, hworkspace⟩
    | ok proof =>
      have hpacked := BitProof.length_packed_of_ofFlat hproof
      obtain ⟨hready, hf, hg, hh⟩ :=
        hworkspace.load teller.verifier.server hdimension hpacked
      dsimp only
      generalize teller.workspace.load teller.verifier.server bundle.data proof = loaded
        at hready hf hg hh ⊢
      obtain ⟨hvalueF, hready₁⟩ := hready.valueAt (by omega) hready.halfInverses loaded.f x
      obtain ⟨hvalueG, hready₂⟩ := hready₁.valueAt (by omega) hready₁.halfInverses loaded.g x
      obtain ⟨hvalueH, hready₃⟩ := hready₂.valueAt (by omega) hready₂.inverses loaded.h x
      rw [hf] at hvalueF
      rw [hg] at hvalueG
      rw [hh] at hvalueH
      refine ⟨?_, rfl, hready₃⟩
      exact congrArg Except.ok (congr (congr (congrArg Message.mk hvalueF) hvalueG) hvalueH)
  · simp only [hdimension, ne_eq, not_false_eq_true, if_true]
    exact ⟨rfl, rfl, hworkspace⟩

/-! ### What calls change -/

/-- Merging in place comes out as merging does, and leaves the total of a teller that refuses. -/
theorem merge_eq (teller : Teller) (shares : List Residue) :
    teller.merge shares = match Residue.merge teller.verifier.total shares with
      | .ok total => (.ok (), { teller with verifier := { teller.verifier with total } })
      | .error cause => (.error (.residue cause), teller) := by
  rw [Teller.merge, Residue.mergeInto_eq]
  cases Residue.merge teller.verifier.total shares <;> rfl

/-- Whether a call adds its shares to the total, if they are as many as the slots. -/
def Call.adds : Call → Bool
  | .choosePoint _ | .message _ _ => false
  | .aggregate _ v w => v.agrees w
  | .merge _ => true

/-- The shares in a call. -/
def Call.shares : Call → List Residue
  | .choosePoint _ | .message _ _ => []
  | .aggregate bundle _ _ => bundle.data
  | .merge shares => shares

/-- Forming a message leaves the verifier as it was. -/
theorem verifier_message (teller : Teller) (x : Residue) (bundle : Bundle) :
    (teller.message x bundle).2.verifier = teller.verifier := by
  unfold message
  dsimp only
  split
  · rfl
  · split <;> rfl

/-- A call that adds nothing leaves the verifier as it was. -/
theorem verifier_after_of_not_adds {call : Call} (h : call.adds = false) :
    (teller.after call).verifier = teller.verifier := by
  cases call with
  | choosePoint e => rfl
  | message x bundle => exact verifier_message teller x bundle
  | aggregate bundle v w =>
    have hagrees : ¬ v.agrees w = true := by simpa [Call.adds] using h
    simp only [Teller.after, Teller.aggregate, if_neg hagrees]
  | merge shares => cases h

/-- A call that adds shares changes nothing of the verifier but the total, to which it adds them if
they are as many as the slots. -/
theorem verifier_after_of_adds {call : Call} (h : call.adds = true) :
    (teller.after call).verifier = { teller.verifier with
      total := match Residue.merge teller.verifier.total call.shares with
        | .ok total => total
        | .error _ => teller.verifier.total } := by
  cases call with
  | choosePoint e => cases h
  | message x bundle => cases h
  | aggregate bundle v w =>
    have hagrees : v.agrees w = true := h
    simp only [Teller.after, Teller.aggregate, if_pos hagrees, Call.shares, merge_eq]
    cases Residue.merge teller.verifier.total bundle.data <;> rfl
  | merge shares =>
    simp only [Teller.after, Call.shares, merge_eq]
    cases Residue.merge teller.verifier.total shares <;> rfl

/-- A call changes nothing of the verifier but the total. -/
theorem exists_total_after (teller : Teller) (call : Call) :
    ∃ total, (teller.after call).verifier = { teller.verifier with total } := by
  cases h : call.adds with
  | false => exact ⟨teller.verifier.total, verifier_after_of_not_adds h⟩
  | true => exact ⟨_, verifier_after_of_adds h⟩

/-- Calls change nothing of the verifier but the total. -/
theorem exists_total_afterAll (teller : Teller) (calls : List Call) :
    ∃ total, (teller.afterAll calls).verifier = { teller.verifier with total } := by
  induction calls generalizing teller with
  | nil => exact ⟨teller.verifier.total, rfl⟩
  | cons call calls ih =>
    obtain ⟨total, htotal⟩ := exists_total_after teller call
    obtain ⟨total', htotal'⟩ := ih (teller.after call)
    exact ⟨total', htotal'.trans (by rw [htotal])⟩

/-! ### What calls preserve -/

/-- Every call leaves the teller ready for as many slots. -/
theorem Ready.after (h : teller.Ready d) (hd : d ≤ Schema.maxDimension) (call : Call) :
    (teller.after call).Ready d := by
  obtain ⟨total, hverifier⟩ := exists_total_after teller call
  refine ⟨by rw [hverifier]; exact h.dimension, ?_⟩
  cases call with
  | choosePoint e => exact h.workspace
  | message x bundle => exact (h.message hd x bundle).2.workspace
  | aggregate bundle v w =>
    simp only [Teller.after, Teller.aggregate]
    split <;> exact h.workspace
  | merge shares => exact h.workspace

/-- Every sequence of calls leaves the teller ready for as many slots. -/
theorem Ready.afterAll (h : teller.Ready d) (hd : d ≤ Schema.maxDimension) (calls : List Call) :
    (teller.afterAll calls).Ready d := by
  induction calls generalizing teller with
  | nil => exact h
  | cons call calls ih => exact ih (h.after hd call)

/-- A new teller is ready. -/
theorem ready_start (d : ℕ) (server : Server) (key : PrivateKey) (batch : List UInt8) :
    (start d server key batch).Ready d :=
  ⟨rfl, Workspace.ready_start d⟩

/-! ### Tellers at work -/

/-- The teller has come about by calls from a new one that is the given server and takes bundles of
`d` slots. -/
def Reachable (teller : Teller) (server : Server) (d : ℕ) : Prop :=
  ∃ key batch calls, (start d server key batch).afterAll calls = teller

variable {server : Server}

/-- After any calls a new teller is in a state that can be reached. -/
theorem reachable_afterAll (d : ℕ) (server : Server) (key : PrivateKey) (batch : List UInt8)
    (calls : List Call) : ((start d server key batch).afterAll calls).Reachable server d :=
  ⟨key, batch, calls, rfl⟩

/-- A reachable teller still is the same server and takes bundles of as many slots. -/
theorem Reachable.serves (h : teller.Reachable server d) : teller.verifier.Serves server d := by
  obtain ⟨key, batch, calls, rfl⟩ := h
  obtain ⟨total, hverifier⟩ := exists_total_afterAll (start d server key batch) calls
  rw [hverifier]
  exact ⟨rfl, rfl⟩

/-- A reachable teller answers as its verifier does. -/
theorem Reachable.message_eq (h : teller.Reachable server d) (hd : d ≤ Schema.maxDimension)
    (x : Residue) (bundle : Bundle) :
    (teller.message x bundle).1 = teller.verifier.message x bundle := by
  obtain ⟨key, batch, calls, rfl⟩ := h
  exact (((ready_start d server key batch).afterAll hd calls).message hd x bundle).1

/-- Whatever a teller was asked before, and whatever bundles it has seen, its message on a bundle is
that of a new teller for as many slots and as the same server. -/
theorem message_afterAll {d : ℕ} (hd : d ≤ Schema.maxDimension) (server : Server)
    (key key' : PrivateKey) (batch batch' : List UInt8) (calls : List Call) (x : Residue)
    (bundle : Bundle) :
    (((start d server key batch).afterAll calls).message x bundle).1 =
      ((start d server key' batch').message x bundle).1 := by
  have hused := reachable_afterAll d server key batch calls
  have hnew := reachable_afterAll d server key' batch' []
  rw [hused.message_eq hd]
  refine Eq.trans ?_ (hnew.message_eq hd x bundle).symm
  exact Verifier.message_congr (hused.serves.dimension_eq.trans hnew.serves.dimension_eq.symm)
    (hused.serves.server_eq.trans hnew.serves.server_eq.symm) x bundle

/-- A teller for one slot that has evaluated one bundle and refused a shorter one, and was given too
few shares, answers as a new one. -/
theorem message_afterAll_of_one :
    1 ≤ Schema.maxDimension ∧
    (((start 1 .b ⟨List.replicate 32 1, by decide⟩ []).afterAll
        [.message 5 ⟨[], .b, [7], [1, 2, 3, 4, 5]⟩, .message 6 ⟨[], .b, [], []⟩,
          .merge []]).message 3 ⟨[], .b, [1], [5, 4, 3, 2, 1]⟩).1 =
      ((start 1 .b ⟨List.replicate 32 2, by decide⟩ [105, 100]).message 3
        ⟨[], .b, [1], [5, 4, 3, 2, 1]⟩).1 :=
  ⟨by decide, message_afterAll (by decide) .b _ _ [] [105, 100] _ 3 _⟩

end Teller

end SplitTally
