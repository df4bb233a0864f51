import SplitTally.Proofs.Reuse
import SplitTally.Proofs.SlotSums

/-!
# Running totals

A teller's total holds the sums of the vectors that its calls counted, and what a call counted is
told by its answer. Whether it counts is decided by the call alone, since the total keeps its
length, so the same calls in another order lead to the same total.
-/

namespace SplitTally.Teller

open Residue (slotSums length_slotSums)

variable {teller : Teller} {d : ℕ} {vectors : List (List Residue)}

/-! ### Answers -/

/-- The vector that a call counted, told by its answer: the data of a bundle that was accepted, or
shares that were merged. -/
def counted (teller : Teller) : Call → List (List Residue)
  | .choosePoint _ | .message _ _ => []
  | .aggregate bundle v w =>
    match (teller.aggregate bundle v w).1 with
    | .ok true => [bundle.data]
    | _ => []
  | .merge shares =>
    match (teller.merge shares).1 with
    | .ok () => [shares]
    | .error _ => []

/-- The vectors that a sequence of calls counted, each told by the answer at its time. -/
def countedIn (teller : Teller) : List Call → List (List Residue)
  | [] => []
  | call :: calls => teller.counted call ++ (teller.after call).countedIn calls

/-- Shares are merged if they are as many as the entries of the total. -/
theorem merge_answer (hlength : teller.verifier.total.length = d) (shares : List Residue) :
    (teller.merge shares).1 =
      if shares.length = d then .ok () else .error (.residue .sizeMismatch) := by
  rw [merge_eq, Residue.merge, hlength]
  by_cases hshares : shares.length = d
  · rw [if_pos hshares, if_pos hshares.symm]
  · rw [if_neg hshares, if_neg (Ne.symm hshares)]

/-- A bundle is accepted if the messages agree and it has as many slots as the total. -/
theorem aggregate_answer (hlength : teller.verifier.total.length = d) (bundle : Bundle)
    (v w : Message) :
    (teller.aggregate bundle v w).1 =
      if v.agrees w then
        if bundle.data.length = d then .ok true else .error (.residue .sizeMismatch)
      else .ok false := by
  unfold aggregate
  by_cases hagrees : v.agrees w = true
  · rw [if_pos hagrees, if_pos hagrees]
    dsimp only
    rw [merge_answer hlength]
    by_cases hdata : bundle.data.length = d
    · rw [if_pos hdata, if_pos hdata]
      rfl
    · rw [if_neg hdata, if_neg hdata]
      rfl
  · rw [if_neg hagrees, if_neg hagrees]

/-- Whether a call counts for a total of `d` entries. -/
def Call.counts (d : ℕ) (call : Call) : Bool := call.adds && call.shares.length = d

/-- Which vector a call counted is decided by the call and the length of the total. -/
theorem counted_eq (hlength : teller.verifier.total.length = d) (call : Call) :
    teller.counted call = if call.counts d then [call.shares] else [] := by
  cases call with
  | choosePoint e => rfl
  | message x bundle => rfl
  | aggregate bundle v w =>
    simp only [counted, Call.counts, Call.adds, Call.shares, aggregate_answer hlength]
    by_cases hagrees : v.agrees w = true <;> by_cases hdata : bundle.data.length = d <;>
      simp [hagrees, hdata]
  | merge shares =>
    simp only [counted, Call.counts, Call.adds, Call.shares, merge_answer hlength]
    by_cases hshares : shares.length = d <;> simp [hshares]

/-! ### Totals -/

/-- A call adds the vector that it counted to the sums in the total. -/
theorem total_after (htotal : teller.verifier.total = slotSums d vectors) (call : Call) :
    (teller.after call).verifier.total = slotSums d (vectors ++ teller.counted call) := by
  have hlength : teller.verifier.total.length = d := by rw [htotal, length_slotSums]
  rw [counted_eq hlength]
  cases hadds : call.adds with
  | false =>
    have hcounts : call.counts d = false := by rw [Call.counts, hadds, Bool.false_and]
    rw [verifier_after_of_not_adds hadds, htotal, hcounts, if_neg Bool.false_ne_true,
      List.append_nil]
  | true =>
    have hcounts : call.counts d = decide (call.shares.length = d) := by
      rw [Call.counts, hadds, Bool.true_and]
    rw [verifier_after_of_adds hadds, htotal, hcounts]
    by_cases hshares : call.shares.length = d
    · rw [Residue.merge_slotSums vectors hshares, if_pos (decide_eq_true hshares)]
    · have hrefused : Residue.merge (slotSums d vectors) call.shares = .error .sizeMismatch := by
        rw [Residue.merge, length_slotSums, if_neg (Ne.symm hshares)]
      rw [hrefused, if_neg (by simpa using hshares), List.append_nil]

/-- After calls the total holds the sums of the vectors that they counted. -/
theorem total_afterAll (htotal : teller.verifier.total = slotSums d vectors) (calls : List Call) :
    (teller.afterAll calls).verifier.total = slotSums d (vectors ++ teller.countedIn calls) := by
  induction calls generalizing teller vectors with
  | nil => simpa [afterAll, countedIn] using htotal
  | cons call calls ih =>
    have hstep := ih (total_after htotal call)
    rw [List.append_assoc] at hstep
    exact hstep

/-- What was counted is told by the calls alone, whatever the total was before. -/
theorem countedIn_eq (htotal : teller.verifier.total = slotSums d vectors) (calls : List Call) :
    teller.countedIn calls = (calls.filter (Call.counts d)).map Call.shares := by
  induction calls generalizing teller vectors with
  | nil => rfl
  | cons call calls ih =>
    have hlength : teller.verifier.total.length = d := by rw [htotal, length_slotSums]
    rw [countedIn, counted_eq hlength, ih (total_after htotal call)]
    by_cases hcounts : call.counts d = true <;> simp [hcounts]

/-- A teller that has counted nothing holds the sums of no vectors. -/
theorem total_start (d : ℕ) (server : Server) (key : PrivateKey) (batch : List UInt8) :
    (start d server key batch).verifier.total = slotSums d [] :=
  (Residue.slotSums_nil d).symm

/-! ### The account of a run -/

/-- The total after calls is accounted for by their answers, and so is every further call. -/
structure Accounted (d : ℕ) (fresh : Teller) (calls : List Call) : Prop where
  /-- The total has as many entries as there are slots. -/
  length : (fresh.afterAll calls).verifier.total.length = d
  /-- So do all vectors that were counted. -/
  length_counted : ∀ xs ∈ fresh.countedIn calls, xs.length = d
  /-- The total is the sum of those vectors, position by position. -/
  total : (fresh.afterAll calls).verifier.total = slotSums d (fresh.countedIn calls)
  /-- A further call that counts nothing leaves the total unchanged. -/
  unchanged : ∀ call, (fresh.afterAll calls).counted call = [] →
    ((fresh.afterAll calls).after call).verifier.total = (fresh.afterAll calls).verifier.total
  /-- The same calls in another order lead to the same total. -/
  order : ∀ calls', calls.Perm calls' →
    (fresh.afterAll calls').verifier.total = (fresh.afterAll calls).verifier.total
  /-- A bundle is refused exactly when the messages agree on one with another number of slots. -/
  refused : ∀ bundle v w cause, ((fresh.afterAll calls).aggregate bundle v w).1 = .error cause ↔
    v.agrees w = true ∧ bundle.data.length ≠ d ∧ cause = .residue .sizeMismatch

/-- Whatever is asked of a teller from its start, its total is accounted for. -/
theorem accounted_start (d : ℕ) (server : Server) (key : PrivateKey) (batch : List UInt8)
    (calls : List Call) : Accounted d (start d server key batch) calls := by
  have hstart := total_start d server key batch
  have htotal := total_afterAll hstart calls
  rw [List.nil_append] at htotal
  have hlength := (congrArg List.length htotal).trans (length_slotSums d _)
  refine ⟨hlength, ?_, htotal, fun call hnone => ?_, fun calls' hperm => ?_,
    fun bundle v w cause => ?_⟩
  · intro xs hxs
    rw [countedIn_eq hstart] at hxs
    obtain ⟨call, hcall, rfl⟩ := List.mem_map.mp hxs
    have hcounts := (List.mem_filter.mp hcall).2
    exact of_decide_eq_true (Bool.and_eq_true_iff.mp hcounts).2
  · rw [total_after htotal call, hnone, List.append_nil, htotal]
  · have htotal' := total_afterAll hstart calls'
    rw [htotal', htotal, List.nil_append, countedIn_eq hstart, countedIn_eq hstart]
    exact Residue.slotSums_of_perm ((hperm.symm.filter _).map _)
  · rw [aggregate_answer hlength]
    by_cases hagrees : v.agrees w = true <;> by_cases hdata : bundle.data.length = d <;>
      simp [hagrees, hdata, eq_comm]

end SplitTally.Teller
