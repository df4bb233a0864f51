import SplitTally.Proofs.FourierTransform
import SplitTally.Transform.InPlace

/-!
# Transforms in kept buffers

What the buffers held before does not matter: every entry of the scratch buffers that a transform
reads it has written itself, so the values at the front of the output buffer are those of the
transform of vectors. The buffers only have to be large enough, and they keep their sizes.
-/

namespace SplitTally.Transform

open Finset

/-! ### Writing to a buffer -/

section Write

variable {buffer : Array Residue} {n : ℕ} {position : ℕ → ℕ} {value : ℕ → Residue}

/-- The last entry is written behind all others. -/
theorem write_succ : write buffer (n + 1) position value =
    (write buffer n position value).setIfInBounds (position n) (value n) := by
  simp [write, Nat.fold_succ]

/-- Writing leaves the size of a buffer as it was. -/
@[simp]
theorem size_write : (write buffer n position value).size = buffer.size := by
  induction n with
  | zero => rfl
  | succ n ih => rw [write_succ, Array.size_setIfInBounds, ih]

/-- An entry that is not written to stays. -/
theorem getD_write_of_ne {j : ℕ} (h : ∀ i < n, position i ≠ j) :
    (write buffer n position value).getD j 0 = buffer.getD j 0 := by
  induction n with
  | zero => rfl
  | succ n ih =>
    rw [write_succ, Array.getD_eq_getD_getElem?, Array.getElem?_setIfInBounds_ne (h n (by omega)),
      ← Array.getD_eq_getD_getElem?]
    exact ih fun i hi => h i (by omega)

/-- When no position is written to twice, each one holds what was written to it. -/
theorem getD_write {i : ℕ} (hinj : ∀ i < n, ∀ j < n, position i = position j → i = j) (hi : i < n)
    (hsize : position i < buffer.size) :
    (write buffer n position value).getD (position i) 0 = value i := by
  induction n with
  | zero => omega
  | succ n ih =>
    rw [write_succ, Array.getD_eq_getD_getElem?]
    by_cases hlast : position n = position i
    · obtain rfl := hinj n (by omega) i hi hlast
      simp [hsize]
    · have hne : i ≠ n := fun h => hlast (h ▸ rfl)
      rw [Array.getElem?_setIfInBounds_ne hlast, ← Array.getD_eq_getD_getElem?]
      exact ih (fun a ha b hb => hinj a (by omega) b (by omega)) (by omega)

end Write

/-- An entry that is there is read with or without a check. -/
theorem getElem?_eq_some_getD {buffer : Array Residue} {i : ℕ} (hi : i < buffer.size) :
    buffer[i]? = some (buffer.getD i 0) := by
  simp [Array.getD, hi]

/-- The front of a buffer has the entries of the buffer. -/
theorem entry_front {k i : ℕ} (buffer : Array Residue) (hi : i < 2 ^ k) :
    entry (front k buffer) i = buffer.getD i 0 := by
  rw [front, entry_ofFn _ hi]

/-- A vector that is stored is the front of its buffer. -/
theorem front_toArray {k : ℕ} (v : Vector Residue (2 ^ k)) :
    front k v.toArray = v := by
  refine ext_entry fun i hi => ?_
  rw [entry_front _ hi, entry_of_lt _ hi, Array.getD_eq_getD_getElem?]
  simp [hi]

/-! ### The recursion -/

/-- Each of the buffers has at least `n` entries. -/
structure Scratch.Holds (scratch : Scratch) (n : ℕ) : Prop where
  /-- The buffer for values. -/
  values : n ≤ scratch.values.size
  /-- The buffer for coefficients. -/
  coefficients : n ≤ scratch.coefficients.size
  /-- The buffer for roots. -/
  roots : n ≤ scratch.roots.size

/-- Buffers that are split are large enough for what each part is for. -/
theorem Scratch.Holds.split {scratch : Scratch} {m n : ℕ} (h : scratch.Holds n) (hm : m ≤ n) :
    (scratch.split m).1.Holds m ∧ (scratch.split m).2.Holds (n - m) := by
  obtain ⟨hvalues, hcoefficients, hroots⟩ := h
  constructor
  · constructor <;> simp only [Scratch.split, Array.size_extract] <;> omega
  · constructor <;> simp only [Scratch.split, Array.size_extract] <;> omega

/-- Buffers that are put together again are as large as both parts. -/
theorem Scratch.Holds.append {scratch other : Scratch} {m n : ℕ} (h : scratch.Holds m)
    (h' : other.Holds n) : (scratch.append other).Holds (m + n) := by
  obtain ⟨hvalues, hcoefficients, hroots⟩ := h
  obtain ⟨hvalues', hcoefficients', hroots'⟩ := h'
  constructor <;> simp only [Scratch.append, Array.size_append] <;> omega

/-- New buffers are as large as was asked for. -/
theorem Scratch.holds_zeros (n : ℕ) : (zeros n).Holds n := by
  constructor <;> simp [zeros]

/-- The buffer starts with the entries of a vector. -/
def StartsWith {k : ℕ} (buffer : Array Residue) (v : Vector Residue (2 ^ k)) : Prop :=
  2 ^ k ≤ buffer.size ∧ front k buffer = v

/-- Entries written in order make up a vector. -/
theorem startsWith_write {k : ℕ} {buffer : Array Residue} {v : Vector Residue (2 ^ k)}
    {value : ℕ → Residue} (hsize : 2 ^ k ≤ buffer.size) (h : ∀ i < 2 ^ k, value i = entry v i) :
    StartsWith (write buffer (2 ^ k) id value) v := by
  refine ⟨by rwa [size_write], ext_entry fun i hi => ?_⟩
  rw [entry_front _ hi, ← h i hi]
  exact getD_write (fun _ _ _ _ h => h) hi (lt_of_lt_of_le hi hsize)

section Halves

variable {k : ℕ} {buffer : Array Residue} (roots coefficients : Array Residue)

private theorem startsWith_sums (h : 2 ^ k ≤ buffer.size) :
    StartsWith (write buffer (2 ^ k) id fun i =>
        coefficients.getD i 0 + coefficients.getD (i + 2 ^ k) 0)
      (Vector.zipWith (· + ·) (low (front (k + 1) coefficients))
        (high (front (k + 1) coefficients))) := by
  have hdouble := pow_succ_eq k
  refine startsWith_write h fun i hi => ?_
  rw [entry_zipWith _ _ _ hi, entry_low _ hi, entry_high _ hi, entry_front _ (by omega),
    entry_front _ (by omega), Nat.add_comm (2 ^ k) i]

private theorem startsWith_twisted (h : 2 ^ k ≤ buffer.size) :
    StartsWith (write buffer (2 ^ k) id fun i =>
        (coefficients.getD i 0 - coefficients.getD (i + 2 ^ k) 0) * roots.getD i 0)
      (Vector.zipWith (· * ·) (Vector.zipWith (· - ·) (low (front (k + 1) coefficients))
        (high (front (k + 1) coefficients))) (low (front (k + 1) roots))) := by
  have hdouble := pow_succ_eq k
  refine startsWith_write h fun i hi => ?_
  rw [entry_zipWith _ _ _ hi, entry_zipWith _ _ _ hi, entry_low _ hi, entry_high _ hi,
    entry_low _ hi, entry_front _ (by omega), entry_front _ (by omega),
    entry_front _ (by omega), Nat.add_comm (2 ^ k) i]

private theorem startsWith_halved (h : 2 ^ k ≤ buffer.size) :
    StartsWith (write buffer (2 ^ k) id fun i => roots.getD (2 * i) 0)
      (evens (front (k + 1) roots)) := by
  have hdouble := pow_succ_eq k
  refine startsWith_write h fun i hi => ?_
  rw [entry_evens _ hi, entry_front _ (by omega)]

/-- Writing to the even positions and then to the odd ones leaves both in place. -/
private theorem getD_write_write {n i : ℕ} {even odd : ℕ → Residue} (hi : i < n)
    (hsize : 2 * n ≤ buffer.size) :
    (write (write buffer n (2 * ·) even) n (2 * · + 1) odd).getD (2 * i) 0 = even i ∧
      (write (write buffer n (2 * ·) even) n (2 * · + 1) odd).getD (2 * i + 1) 0 = odd i := by
  constructor
  · rw [getD_write_of_ne fun j _ => by omega]
    exact getD_write (fun _ _ _ _ h => by simpa using h) hi (by omega)
  · exact getD_write (fun _ _ _ _ h => by simpa using h) hi
      (by simp only [size_write]; omega)

end Halves

/-- Whatever the buffers held before, the output buffer starts with the values of the polynomial,
and the buffers are as large as they were. -/
theorem evaluateInto_spec (k : ℕ) : ∀ {out : Array Residue} (roots coefficients : Array Residue)
    {scratch : Scratch} {n : ℕ}, 2 ^ k ≤ out.size → 2 ^ k ≤ n → scratch.Holds n →
    (evaluateInto k out roots coefficients scratch).1.size = out.size ∧
    front k (evaluateInto k out roots coefficients scratch).1 =
      evaluate k (front k roots) (front k coefficients) ∧
    (evaluateInto k out roots coefficients scratch).2.Holds n := by
  induction k with
  | zero =>
    intro out roots coefficients scratch n hout hn hscratch
    refine ⟨Array.size_setIfInBounds, ext_entry fun i hi => ?_, hscratch⟩
    obtain rfl : i = 0 := by omega
    have hfirst : 0 < out.size := hout
    rw [evaluate, entry_front _ hi, entry_front _ hi]
    simp [evaluateInto, hfirst]
  | succ k ih =>
    intro out roots coefficients scratch n hout hn hscratch
    have hdouble := pow_succ_eq k
    have hrestSize : 2 ^ k ≤ n - 2 ^ k := by omega
    have hsplit : _ ∧ (scratch.split (2 ^ k)).2.Holds (n - 2 ^ k) := hscratch.split (by omega)
    simp only [evaluateInto]
    generalize scratch.split (2 ^ k) = parts at hsplit ⊢
    obtain ⟨near, rest⟩ := parts
    obtain ⟨hnear, hrest⟩ := hsplit
    have hhalved := startsWith_halved roots hnear.roots
    have hsums := startsWith_sums coefficients hnear.coefficients
    generalize write near.roots (2 ^ k) id (fun i => roots.getD (2 * i) 0) = halved at hhalved ⊢
    generalize write near.coefficients (2 ^ k) id (fun i => coefficients.getD i 0 +
      coefficients.getD (i + 2 ^ k) 0) = sums at hsums ⊢
    have htwisted := startsWith_twisted roots coefficients hsums.1
    generalize write sums (2 ^ k) id (fun i => (coefficients.getD i 0 -
      coefficients.getD (i + 2 ^ k) 0) * roots.getD i 0) = twisted at htwisted ⊢
    -- The second recursive transform gets the buffers as the first one leaves them.
    obtain ⟨hsize₁, heven, hrest₁⟩ := ih halved sums hnear.values hrestSize hrest
    generalize evaluateInto k near.values halved sums rest = even at hsize₁ heven hrest₁ ⊢
    obtain ⟨hsize₂, hodd, hrest₂⟩ := ih halved twisted (hsize₁ ▸ hnear.values) hrestSize hrest₁
    generalize evaluateInto k even.1 halved twisted even.2 = odd at hsize₂ hodd hrest₂ ⊢
    have hvalues : 2 ^ k ≤ odd.1.size := by
      rw [hsize₂, hsize₁]
      exact hnear.values
    refine ⟨by simp only [size_write], ext_entry fun i hi => ?_, ?_⟩
    · rw [entry_front _ hi, evaluate, ← hhalved.2, ← hsums.2, ← htwisted.2, ← heven, ← hodd]
      obtain ⟨j, rfl | rfl⟩ := i.even_or_odd'
      · have hj : j < 2 ^ k := by omega
        rw [entry_interleave_even _ _ hj, entry_front _ hj]
        exact (getD_write_write hj (hdouble ▸ hout)).1
      · have hj : j < 2 ^ k := by omega
        rw [entry_interleave_odd _ _ hj, entry_front _ hj]
        exact (getD_write_write hj (hdouble ▸ hout)).2
    · have hsum : n = 2 ^ k + (n - 2 ^ k) := by omega
      rw [hsum]
      exact Scratch.Holds.append ⟨hvalues, htwisted.1, hhalved.1⟩ hrest₂

/-- Whatever the buffers held before, the output buffer starts with the coefficients of the
polynomial through the points, and the buffers are as large as they were. -/
theorem interpolateInto_spec {k n : ℕ} {out inverses : Array Residue} (points : Array Residue)
    {scratch : Scratch} (hout : 2 ^ k ≤ out.size) (hn : 2 ^ k ≤ n) (hscratch : scratch.Holds n)
    (hinverses : front k inverses = Roots.table k true) :
    (interpolateInto k out inverses points scratch).1.size = out.size ∧
    front k (interpolateInto k out inverses points scratch).1 = interpolate k (front k points) ∧
    (interpolateInto k out inverses points scratch).2.Holds n := by
  obtain ⟨hsize, hvalues, hheld⟩ := evaluateInto_spec k inverses points hout hn hscratch
  rw [hinverses] at hvalues
  simp only [interpolateInto]
  generalize evaluateInto k out inverses points scratch = result at hsize hvalues hheld ⊢
  refine ⟨by rw [size_write, hsize], (startsWith_write (hsize ▸ hout) fun i hi => ?_).2, hheld⟩
  rw [interpolate, entry_map _ _ hi, ← hvalues, entry_front _ hi]

end SplitTally.Transform
