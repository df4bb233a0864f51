import SplitTally.Proofs.InPlace
import SplitTally.Transform.Checked

/-!
# Transforms stay within their buffers

In buffers that are large enough a transform with checked accesses finds all entries that it reads
and writes, and comes out as the one without checks. So it leaves the discrete Fourier transform of
the points at the front of the output buffer, and all entries behind as they were; with the inverted
roots it leaves the inverse transform, and each of the two undoes the other.
-/

namespace SplitTally.Transform

open Finset

/-! ### Checked accesses -/

section Write

variable {buffer : Array Residue} {n : ℕ} {position : ℕ → ℕ} {value : ℕ → Residue}

/-- An entry of the buffer is written. -/
theorem set?_eq_some {i : ℕ} {x : Residue} (h : i < buffer.size) :
    set? buffer i x = some (buffer.setIfInBounds i x) := by
  rw [set?, dif_pos h, Array.setIfInBounds, dif_pos h]

/-- Writing succeeds if the values are there and their positions are in the buffer. -/
theorem write?_eq_some {value? : ℕ → Option Residue}
    (hposition : ∀ i < n, position i < buffer.size) (hvalue : ∀ i < n, value? i = some (value i)) :
    write? buffer n position value? = some (write buffer n position value) := by
  induction n with
  | zero => rfl
  | succ n ih =>
    have hwritten := ih (fun i hi => hposition i (by omega)) fun i hi => hvalue i (by omega)
    have hlast : position n < (write buffer n position value).size := by
      rw [size_write]
      exact hposition n (by omega)
    rw [write?] at hwritten
    rw [write?, Nat.fold_succ, hwritten, hvalue n (by omega), write_succ]
    exact set?_eq_some hlast

/-- Entries of another buffer are written if it has enough of them and all places are there. -/
theorem write?_entries {entries : Array Residue} (hposition : ∀ i < n, position i < buffer.size)
    (hentries : n ≤ entries.size) :
    write? buffer n position (fun i => entries[i]?) =
      some (write buffer n position fun i => entries.getD i 0) :=
  write?_eq_some hposition fun _ hi => getElem?_eq_some_getD (hi.trans_le hentries)

end Write

/-- Buffers that are large enough can be split. -/
theorem Scratch.split?_eq_some {scratch : Scratch} {m n : ℕ} (h : scratch.Holds n) (hm : m ≤ n) :
    scratch.split? m = some (scratch.split m) :=
  if_pos ⟨hm.trans h.values, hm.trans h.coefficients, hm.trans h.roots⟩

section Halves

variable {k : ℕ} {buffer roots coefficients : Array Residue}

private theorem write?_sums (h : 2 ^ k ≤ buffer.size)
    (hcoefficients : 2 ^ (k + 1) ≤ coefficients.size) :
    write? buffer (2 ^ k) id (sum? coefficients (2 ^ k)) =
      some (write buffer (2 ^ k) id fun i =>
        coefficients.getD i 0 + coefficients.getD (i + 2 ^ k) 0) := by
  have hdouble := pow_succ_eq k
  refine write?_eq_some (fun i hi => hi.trans_le h) fun i hi => ?_
  rw [sum?, getElem?_eq_some_getD (by omega), getElem?_eq_some_getD (by omega)]
  rfl

private theorem write?_twisted (h : 2 ^ k ≤ buffer.size) (hroots : 2 ^ (k + 1) ≤ roots.size)
    (hcoefficients : 2 ^ (k + 1) ≤ coefficients.size) :
    write? buffer (2 ^ k) id (twisted? roots coefficients (2 ^ k)) =
      some (write buffer (2 ^ k) id fun i =>
        (coefficients.getD i 0 - coefficients.getD (i + 2 ^ k) 0) * roots.getD i 0) := by
  have hdouble := pow_succ_eq k
  refine write?_eq_some (fun i hi => hi.trans_le h) fun i hi => ?_
  rw [twisted?, getElem?_eq_some_getD (by omega), getElem?_eq_some_getD (by omega),
    getElem?_eq_some_getD (by omega)]
  rfl

private theorem write?_halved (h : 2 ^ k ≤ buffer.size) (hroots : 2 ^ (k + 1) ≤ roots.size) :
    write? buffer (2 ^ k) id (fun i => roots[2 * i]?) =
      some (write buffer (2 ^ k) id fun i => roots.getD (2 * i) 0) := by
  have hdouble := pow_succ_eq k
  exact write?_eq_some (fun i hi => hi.trans_le h) fun i hi => getElem?_eq_some_getD (by omega)

private theorem write?_scaled (h : 2 ^ k ≤ buffer.size) (scale : Residue) :
    write? buffer (2 ^ k) id (scaled? buffer scale) =
      some (write buffer (2 ^ k) id fun i => buffer.getD i 0 * scale) := by
  refine write?_eq_some (fun i hi => hi.trans_le h) fun i hi => ?_
  rw [scaled?, getElem?_eq_some_getD (hi.trans_le h)]
  rfl

end Halves

/-- The recursion accesses no entry outside of the buffers. -/
theorem evaluateInto?_eq_some (k : ℕ) : ∀ {out roots coefficients : Array Residue}
    {scratch : Scratch} {n : ℕ}, 2 ^ k ≤ out.size → 2 ^ k ≤ roots.size →
    2 ^ k ≤ coefficients.size → 2 ^ k ≤ n → scratch.Holds n →
    evaluateInto? k out roots coefficients scratch =
      some (evaluateInto k out roots coefficients scratch) := by
  induction k with
  | zero =>
    intro out roots coefficients scratch n hout _ hcoefficients _ _
    have hfirst : 0 < out.size := hout
    have hread : 0 < coefficients.size := hcoefficients
    simp [evaluateInto?, evaluateInto, set?, hfirst, hread, Array.setIfInBounds]
  | succ k ih =>
    intro out roots coefficients scratch n hout hroots hcoefficients hn hscratch
    have hdouble := pow_succ_eq k
    have hrestSize : 2 ^ k ≤ n - 2 ^ k := by omega
    have hsplit : _ ∧ (scratch.split (2 ^ k)).2.Holds (n - 2 ^ k) := hscratch.split (by omega)
    rw [evaluateInto?, evaluateInto, Scratch.split?_eq_some hscratch (show 2 ^ k ≤ n by omega)]
    generalize scratch.split (2 ^ k) = parts at hsplit ⊢
    obtain ⟨near, rest⟩ := parts
    obtain ⟨hnear, hrest⟩ := hsplit
    dsimp only [Option.bind_eq_bind, Option.bind_some, Option.pure_def]
    rw [write?_sums hnear.coefficients hcoefficients, Option.bind_some,
      write?_halved hnear.roots hroots, Option.bind_some]
    have hhalved : 2 ^ k ≤ (write near.roots (2 ^ k) id fun i => roots.getD (2 * i) 0).size :=
      hnear.roots.trans_eq size_write.symm
    have hsums : 2 ^ k ≤ (write near.coefficients (2 ^ k) id fun i =>
        coefficients.getD i 0 + coefficients.getD (i + 2 ^ k) 0).size :=
      hnear.coefficients.trans_eq size_write.symm
    generalize write near.roots (2 ^ k) id (fun i => roots.getD (2 * i) 0) = halved at hhalved ⊢
    generalize write near.coefficients (2 ^ k) id (fun i => coefficients.getD i 0 +
      coefficients.getD (i + 2 ^ k) 0) = sums at hsums ⊢
    -- The recursion is cited twice, on the buffers as they are at that time.
    obtain ⟨hsize₁, -, hrest₁⟩ := evaluateInto_spec k halved sums hnear.values hrestSize hrest
    rw [ih hnear.values hhalved hsums hrestSize hrest, Option.bind_some]
    generalize evaluateInto k near.values halved sums rest = even at hsize₁ hrest₁ ⊢
    have heven : 2 ^ k ≤ even.1.size := hnear.values.trans_eq hsize₁.symm
    rw [write?_entries (fun i hi => by omega) heven, Option.bind_some,
      write?_twisted hsums hroots hcoefficients, Option.bind_some]
    have htwisted : 2 ^ k ≤ (write sums (2 ^ k) id fun i => (coefficients.getD i 0 -
        coefficients.getD (i + 2 ^ k) 0) * roots.getD i 0).size :=
      hsums.trans_eq size_write.symm
    generalize write sums (2 ^ k) id (fun i => (coefficients.getD i 0 -
      coefficients.getD (i + 2 ^ k) 0) * roots.getD i 0) = twisted at htwisted ⊢
    obtain ⟨hsize₂, -, -⟩ := evaluateInto_spec k halved twisted heven hrestSize hrest₁
    rw [ih heven hhalved htwisted hrestSize hrest₁, Option.bind_some]
    generalize evaluateInto k even.1 halved twisted even.2 = odd at hsize₂ ⊢
    have hodd : 2 ^ k ≤ odd.1.size := heven.trans_eq hsize₂.symm
    have hposition : ∀ i < 2 ^ k, 2 * i + 1 <
        (write out (2 ^ k) (2 * ·) fun i => even.1.getD i 0).size := fun i hi => by
      rw [size_write]
      omega
    rw [write?_entries hposition hodd, Option.bind_some]

/-- Interpolating accesses no entry outside of buffers that are large enough. -/
theorem interpolateInto?_eq_some {k n : ℕ} {out roots points : Array Residue} {scratch : Scratch}
    (hout : 2 ^ k ≤ out.size) (hroots : 2 ^ k ≤ roots.size) (hpoints : 2 ^ k ≤ points.size)
    (hn : 2 ^ k ≤ n) (hscratch : scratch.Holds n) :
    transformInto? k true out roots points scratch =
      some (interpolateInto k out roots points scratch) := by
  have hsize : (evaluateInto k out roots points scratch).1.size = out.size :=
    (evaluateInto_spec k roots points hout hn hscratch).1
  rw [transformInto?, evaluateInto?_eq_some k hout hroots hpoints hn hscratch, interpolateInto]
  generalize evaluateInto k out roots points scratch = values at hsize ⊢
  dsimp only [Option.bind_eq_bind, Option.bind_some]
  rw [if_pos rfl, write?_scaled (hout.trans_eq hsize.symm)]
  rfl

/-- The recursion leaves the entries behind its values as they are. -/
theorem getD_evaluateInto_of_le {k i : ℕ} {out roots coefficients : Array Residue}
    {scratch : Scratch} (hi : 2 ^ k ≤ i) :
    (evaluateInto k out roots coefficients scratch).1.getD i 0 = out.getD i 0 := by
  cases k with
  | zero =>
    have hne : 0 ≠ i := (Nat.lt_of_succ_le hi).ne
    rw [evaluateInto, Array.getD_eq_getD_getElem?, Array.getElem?_setIfInBounds_ne hne,
      ← Array.getD_eq_getD_getElem?]
  | succ k =>
    have hdouble := pow_succ_eq k
    simp only [evaluateInto]
    rw [getD_write_of_ne fun j _ => by omega, getD_write_of_ne fun j _ => by omega]

/-! ### Nested multiplication -/

section Horner

variable {k : ℕ} {coefficients : Array Residue}

/-- Nested multiplications from the `n`-th coefficient down. -/
theorem foldRev_eq_some (x : Residue) {n : ℕ} (h : n ≤ coefficients.size) (a : Residue) :
    n.foldRev (fun i _ value => do return (← value) * x + (← coefficients[i]?)) (some a) =
      some (a * x ^ n + ∑ j ∈ range n, coefficients.getD j 0 * x ^ j) := by
  induction n generalizing a with
  | zero => simp
  | succ n ih =>
    have hn : n < coefficients.size := h
    rw [Nat.foldRev_succ, getElem?_eq_some_getD hn]
    refine (ih hn.le (a * x + coefficients.getD n 0)).trans (congrArg some ?_)
    rw [sum_range_succ]
    ring

/-- The value of a polynomial is computed in every buffer that is not empty. -/
theorem valueAt?_eq_some (x : Residue) (h : 0 < coefficients.size) :
    valueAt? coefficients x =
      some (∑ j ∈ range coefficients.size, coefficients.getD j 0 * x ^ j) := by
  obtain ⟨n, hn⟩ := Nat.exists_eq_add_one.mpr h
  rw [valueAt?, hn, Nat.add_sub_cancel, getElem?_eq_some_getD (by omega),
    foldRev_eq_some x (by omega), sum_range_succ, add_comm]

/-- Checked or not, the value at `x` comes from the coefficients at the front. -/
theorem valueAt?_extract (x : Residue) (h : 2 ^ k ≤ coefficients.size) :
    valueAt? (coefficients.extract 0 (2 ^ k)) x = some (valueAt (front k coefficients) x) := by
  have hsize : (coefficients.extract 0 (2 ^ k)).size = 2 ^ k := by
    rw [Array.size_extract, Nat.min_eq_left h, Nat.sub_zero]
  rw [valueAt?_eq_some x (by rw [hsize]; exact Nat.two_pow_pos k), hsize, valueAt_eq_sumAt, sumAt]
  refine congrArg some (sum_congr rfl fun j hj => ?_)
  have hfront : j < 2 ^ k := mem_range.mp hj
  rw [entry_front _ hfront, Array.getD_eq_getD_getElem?, Array.getD_eq_getD_getElem?,
    Array.getElem?_extract, Nat.min_eq_left h, Nat.sub_zero, if_pos hfront, Nat.zero_add]

end Horner

/-! ### The discrete Fourier transform -/

/-- The `i`-th sum of the discrete Fourier transform of the first `2 ^ k` terms of a sequence, or of
the inverse transform. -/
def fourierSum (k : ℕ) (inverted : Bool) (r : ℕ → Residue) (i : ℕ) : Residue :=
  if inverted then (2 ^ k)⁻¹ * ∑ j ∈ range (2 ^ k), r j * (Roots.base k false)⁻¹ ^ (i * j)
  else ∑ j ∈ range (2 ^ k), r j * Roots.base k false ^ (i * j)

/-- The transform, or the inverse transform, of a vector. -/
def transform (k : ℕ) (inverted : Bool) (points : Vector Residue (2 ^ k)) :
    Vector Residue (2 ^ k) :=
  if inverted then interpolate k points else values k points

/-- The entries of a transform are the sums over the points. -/
theorem entry_transform {k : ℕ} (hk : k ≤ 20) (inverted : Bool) (points : Vector Residue (2 ^ k))
    {i : ℕ} (hi : i < 2 ^ k) :
    entry (transform k inverted points) i = fourierSum k inverted (entry points) i := by
  cases inverted with
  | false =>
    change entry (values k points) i = ∑ j ∈ range (2 ^ k), _
    rw [entry_values hk points hi, sumAt]
    simp only [pow_mul]
  | true =>
    change entry (interpolate k points) i = (2 ^ k)⁻¹ * ∑ j ∈ range (2 ^ k), _
    rw [entry_interpolate hk points hi, sumAt, mul_comm]
    simp only [pow_mul]

/-- Transforming there and back leads to where it began. -/
theorem transform_transform {k : ℕ} (hk : k ≤ 20) (inverted : Bool)
    (points : Vector Residue (2 ^ k)) :
    transform k (!inverted) (transform k inverted points) = points := by
  cases inverted with
  | false => exact interpolate_values hk points
  | true => exact values_interpolate hk points

/-- A sum is only about the points that are there. -/
theorem fourierSum_congr {k : ℕ} {inverted : Bool} {r r' : ℕ → Residue}
    (h : ∀ j < 2 ^ k, r j = r' j) {i : ℕ} :
    fourierSum k inverted r i = fourierSum k inverted r' i := by
  have hterm (x : Residue) : ∑ j ∈ range (2 ^ k), r j * x ^ (i * j) =
      ∑ j ∈ range (2 ^ k), r' j * x ^ (i * j) :=
    sum_congr rfl fun j hj => by rw [h j (mem_range.mp hj)]
  simp only [fourierSum, hterm]

/-- The first `n` entries of the buffer are replaced by `value i`, and all others stay. -/
structure Fills (buffer filled : Array Residue) (n : ℕ) (value : ℕ → Residue) : Prop where
  /-- The entries at the front. -/
  front : ∀ i < n, filled[i]? = some (value i)
  /-- The entries behind them. -/
  behind : ∀ i, n ≤ i → filled[i]? = buffer[i]?

/-- A buffer is filled if its front is and nothing behind the front has changed. -/
theorem fills_of_front_eq {k : ℕ} {buffer filled : Array Residue} {v : Vector Residue (2 ^ k)}
    (hroom : 2 ^ k ≤ buffer.size) (hsize : filled.size = buffer.size) (hfront : front k filled = v)
    (hbehind : ∀ i, 2 ^ k ≤ i → filled.getD i 0 = buffer.getD i 0) :
    Fills buffer filled (2 ^ k) (entry v) where
  front i hi := by
    rw [← hfront, entry_front _ hi, getElem?_eq_some_getD (by omega)]
  behind i hi := by
    by_cases hinside : i < buffer.size
    · rw [getElem?_eq_some_getD hinside, getElem?_eq_some_getD (hsize ▸ hinside), hbehind i hi]
    · rw [Array.getElem?_eq_none (by omega), Array.getElem?_eq_none (by omega)]

/-- What fills a buffer stands at its front. -/
theorem Fills.front_eq {k : ℕ} {buffer filled : Array Residue} {v : Vector Residue (2 ^ k)}
    (h : Fills buffer filled (2 ^ k) (entry v)) : Transform.front k filled = v := by
  refine ext_entry fun i hi => ?_
  rw [entry_front _ hi, Array.getD_eq_getD_getElem?, h.front i hi, Option.getD_some]

/-- A buffer that is filled has room for all entries. -/
theorem Fills.le_size {k : ℕ} {buffer filled : Array Residue} {value : ℕ → Residue}
    (h : Fills buffer filled (2 ^ k) value) : 2 ^ k ≤ filled.size := by
  by_contra hsmall
  have hlast := h.front (2 ^ k - 1) (Nat.sub_lt (Nat.two_pow_pos k) Nat.one_pos)
  rw [Array.getElem?_eq_none (by omega)] at hlast
  cases hlast

/-- In buffers that are large enough a transform succeeds, and leaves the scratch buffers as large
as they must be for the next one. -/
theorem exists_transformInto? {k : ℕ} (inverted : Bool) {out points : Array Residue}
    {scratch : Scratch} (hout : 2 ^ k ≤ out.size) (hpoints : 2 ^ k ≤ points.size)
    (hscratch : scratch.Holds (2 ^ k)) :
    ∃ filled after,
      transformInto? k inverted out (Roots.table k inverted).toArray points scratch =
        some (filled, after) ∧
      after.Holds (2 ^ k) ∧
      Fills out filled (2 ^ k) (entry (transform k inverted (front k points))) := by
  have hroots : 2 ^ k ≤ (Roots.table k inverted).toArray.size := (Vector.size_toArray _).ge
  have hbehind (i : ℕ) (hi : 2 ^ k ≤ i) : (evaluateInto k out (Roots.table k inverted).toArray
      points scratch).1.getD i 0 = out.getD i 0 := getD_evaluateInto_of_le hi
  cases inverted with
  | false =>
    obtain ⟨hsize, hfront, hheld⟩ :=
      evaluateInto_spec k (Roots.table k false).toArray points hout le_rfl hscratch
    rw [front_toArray] at hfront
    rw [transformInto?, evaluateInto?_eq_some k hout hroots hpoints le_rfl hscratch]
    exact ⟨_, _, rfl, hheld, fills_of_front_eq hout hsize hfront hbehind⟩
  | true =>
    obtain ⟨hsize, hfront, hheld⟩ :=
      interpolateInto_spec points hout le_rfl hscratch (front_toArray (Roots.table k true))
    rw [interpolateInto?_eq_some hout hroots hpoints le_rfl hscratch]
    refine ⟨_, _, rfl, hheld, fills_of_front_eq hout hsize hfront fun i hi => ?_⟩
    exact (getD_write_of_ne fun j hj => (hj.trans_le hi).ne).trans (hbehind i hi)

/-- For every power of two up to the number of roots, a transform in buffers that are large enough
accesses no entry outside of them, leaves the discrete Fourier transform of the points over a
primitive root or its inverse, and the other transform recovers the points from that. -/
theorem exists_fourier_transform {k : ℕ} (hk : k ≤ 20) (inverted : Bool)
    {out points : Array Residue} {scratch : Scratch} (hout : 2 ^ k ≤ out.size)
    (hpoints : 2 ^ k ≤ points.size) (hscratch : scratch.Holds (2 ^ k)) :
    IsPrimitiveRoot (Roots.base k false) (2 ^ k) ∧ ∃ filled after,
      transformInto? k inverted out (Roots.table k inverted).toArray points scratch =
        some (filled, after) ∧
      after.Holds (2 ^ k) ∧
      Fills out filled (2 ^ k) (fourierSum k inverted fun j => points.getD j 0) ∧
      ∀ (out' : Array Residue) (scratch' : Scratch), 2 ^ k ≤ out'.size → scratch'.Holds (2 ^ k) →
        ∃ filled' after',
          transformInto? k (!inverted) out' (Roots.table k (!inverted)).toArray filled scratch' =
            some (filled', after') ∧
          Fills out' filled' (2 ^ k) fun j => points.getD j 0 := by
  obtain ⟨filled, after, hrun, hheld, hfills⟩ :=
    exists_transformInto? inverted hout hpoints hscratch
  refine ⟨Roots.isPrimitiveRoot_base hk, filled, after, hrun, hheld,
    ⟨fun i hi => ?_, hfills.behind⟩, ?_⟩
  · rw [hfills.front i hi, entry_transform hk inverted _ hi,
      fourierSum_congr fun j hj => entry_front points hj]
  · intro out' scratch' hout' hscratch'
    obtain ⟨filled', after', hrun', -, hfills'⟩ :=
      exists_transformInto? (!inverted) hout' hfills.le_size hscratch'
    refine ⟨filled', after', hrun', fun i hi => ?_, hfills'.behind⟩
    rw [hfills'.front i hi, hfills.front_eq, transform_transform hk, entry_front _ hi]

/-- The transform of three and five is their sum and their difference, and the entry behind them
stays, in buffers that are longer than two and not empty. -/
theorem exists_fourier_transform_of_two :
    ∃ filled after, transformInto? 1 false #[7, 8, 9] (Roots.table 1 false).toArray #[3, 5, 6]
        ⟨#[1, 1, 1], #[2, 2], #[3, 3]⟩ = some (filled, after) ∧
      filled[0]? = some 8 ∧ filled[1]? = some (-2 : Residue) ∧ filled[2]? = some 9 := by
  have hone : 1 ≤ 20 := by decide
  have hout : 2 ^ 1 ≤ (#[7, 8, 9] : Array Residue).size := by decide
  have hpoints : 2 ^ 1 ≤ (#[3, 5, 6] : Array Residue).size := by decide
  have hscratch : Scratch.Holds ⟨#[1, 1, 1], #[2, 2], #[3, 3]⟩ (2 ^ 1) :=
    ⟨by decide, by decide, by decide⟩
  obtain ⟨-, filled, after, hrun, -, hfills, -⟩ :=
    exists_fourier_transform hone false hout hpoints hscratch
  have hsum : fourierSum 1 false (fun j => #[3, 5, 6].getD j 0) 0 = 8 := by decide +kernel
  have hdifference : fourierSum 1 false (fun j => #[3, 5, 6].getD j 0) 1 = -2 := by
    decide +kernel
  refine ⟨filled, after, hrun, ?_, ?_, hfills.behind 2 le_rfl⟩
  · rw [hfills.front 0 (by decide), hsum]
  · rw [hfills.front 1 (by decide), hdifference]

end SplitTally.Transform
