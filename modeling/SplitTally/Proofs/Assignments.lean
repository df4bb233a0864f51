import Mathlib.Data.List.Induction
import Mathlib.Tactic.Common
import SplitTally.CommandLine.Invocation
import SplitTally.Measurements

/-!
# The last assignment counts

Measurements that are set one after the other hold the last value of every name, and no entry beside
those that were set. So arguments of the command line assign to a name the value of the last one
that names it.
-/

namespace SplitTally

namespace Measurements

/-! ### Values that are set -/

private theorem find?_setEntry (name other : String) (value : UInt64)
    (entries : List (String × UInt64)) :
    (setEntry name value entries).find? (fun e => e.1 = other) =
      if other = name then some (name, value) else entries.find? fun e => e.1 = other := by
  induction entries with
  | nil =>
    by_cases h : other = name
    · simp [setEntry, h]
    · simp [setEntry, h, Ne.symm h]
  | cons e entries ih =>
    rw [setEntry]
    by_cases hname : name = e.1
    · rw [if_pos hname]
      by_cases h : other = name
      · simp [h]
      · simp [h, Ne.symm h, ← hname]
    · rw [if_neg hname]
      by_cases hlt : name < e.1
      · rw [if_pos hlt]
        by_cases h : other = name
        · simp [h]
        · simp [h, Ne.symm h]
      · rw [if_neg hlt, List.find?_cons, List.find?_cons, ih]
        by_cases he : e.1 = other
        · have hne : other ≠ name := fun h => hname (h.symm.trans he.symm)
          simp [he, hne]
        · simp [he]

/-- Setting a value changes that of its name only. -/
theorem value_set (measurements : Measurements) (name other : String) (value : UInt64) :
    (measurements.set name value).value other =
      if other = name then value else measurements.value other := by
  unfold Measurements.value Measurements.set
  rw [find?_setEntry]
  by_cases h : other = name
  · rw [if_pos h, if_pos h]
  · rw [if_neg h, if_neg h]

/-- The last pair is assigned behind all others. -/
theorem ofList_append_singleton (pairs : List (String × UInt64)) (pair : String × UInt64) :
    ofList (pairs ++ [pair]) = (ofList pairs).set pair.1 pair.2 := by
  rw [ofList, List.foldl_append]
  rfl

/-- An entry of a new name joins the entries. -/
private theorem perm_setEntry {name : String} (value : UInt64) {entries : List (String × UInt64)}
    (h : ∀ e ∈ entries, e.1 ≠ name) :
    (setEntry name value entries).Perm ((name, value) :: entries) := by
  induction entries with
  | nil => exact List.Perm.refl _
  | cons e entries ih =>
    rw [List.forall_mem_cons] at h
    rw [setEntry, if_neg h.1.symm]
    split
    · exact List.Perm.refl _
    · exact ((ih h.2).cons e).trans (List.Perm.swap _ _ _)

/-- Of pairs with different names all become entries. -/
theorem perm_entries_ofList {pairs : List (String × UInt64)}
    (h : (pairs.map Prod.fst).Nodup) : (ofList pairs).entries.Perm pairs := by
  induction pairs using List.reverseRecOn with
  | nil => exact List.Perm.refl _
  | append_singleton pairs pair ih =>
    rw [List.map_append, List.nodup_append] at h
    have hentries := ih h.1
    have hnew : ∀ e ∈ (ofList pairs).entries, e.1 ≠ pair.1 := fun e he =>
      h.2.2 _ (List.mem_map_of_mem (hentries.subset he)) _ (List.mem_singleton_self _)
    rw [ofList_append_singleton]
    refine (perm_setEntry pair.2 hnew).trans ?_
    exact (hentries.cons pair).trans (List.perm_append_singleton pair pairs).symm

end Measurements

/-! ### Cutting a text -/

namespace Cut

/-- A text is cut at a mark exactly if what stands in front of it holds no mark. -/
theorem atMark?_eq_some_iff {mark : Char} {cs before after : List Char} :
    atMark? mark cs = some (before, after) ↔ mark ∉ before ∧ cs = before ++ mark :: after := by
  refine ⟨fun h => ?_, fun ⟨hbefore, hcs⟩ => hcs ▸ atMark?_append hbefore after⟩
  induction cs generalizing before with
  | nil => cases h
  | cons c cs ih =>
    rw [atMark?] at h
    by_cases hc : c = mark
    · rw [if_pos hc] at h
      cases h
      exact ⟨List.not_mem_nil, by rw [hc, List.nil_append]⟩
    · rw [if_neg hc] at h
      obtain ⟨⟨front, back⟩, hcut, hsplit⟩ := Option.map_eq_some_iff.mp h
      cases hsplit
      obtain ⟨hfront, rfl⟩ := ih hcut
      exact ⟨List.not_mem_cons_of_ne_of_not_mem (Ne.symm hc) hfront, rfl⟩

/-- A text is cut at the first mark in it. -/
theorem textAtMark?_eq_some_iff {mark : Char} {text before after : String} :
    textAtMark? mark text = some (before, after) ↔
      mark ∉ before.toList ∧ text.toList = before.toList ++ mark :: after.toList := by
  rw [← atMark?_eq_some_iff, textAtMark?, Option.map_eq_some_iff]
  constructor
  · rintro ⟨⟨front, back⟩, hcut, hsplit⟩
    cases hsplit
    rw [hcut, String.toList_ofList, String.toList_ofList]
  · intro hcut
    exact ⟨_, hcut, by simp⟩

end Cut

/-! ### Arguments -/

/-- An argument names what stands in front of its first equals sign. -/
def Names (argument name : String) : Prop :=
  '=' ∉ name.toList ∧ ∃ text, argument = name ++ "=" ++ text

/-- An argument assigns to a name the number that is spelled behind the first equals sign. -/
def Assigns (argument name : String) (value : UInt64) : Prop :=
  '=' ∉ name.toList ∧ ∃ text, argument = name ++ "=" ++ text ∧ Decimal.word text = .ok value

/-- The value that the last argument which names a name assigns to it, or zero if there is none. -/
inductive LastAssigned (arguments : List String) (name : String) : UInt64 → Prop
  | last {before after : List String} {argument : String} {value : UInt64}
      (harguments : arguments = before ++ argument :: after) (h : Assigns argument name value)
      (hafter : ∀ later ∈ after, ¬ Names later name) : LastAssigned arguments name value
  | none (h : ∀ argument ∈ arguments, ¬ Names argument name) : LastAssigned arguments name 0

variable {argument name : String} {value : UInt64} {arguments : List String}

private theorem eq_append_iff {text : String} :
    argument = name ++ "=" ++ text ↔ argument.toList = name.toList ++ '=' :: text.toList := by
  rw [← String.toList_inj]
  simp

/-- An argument has one name at most. -/
theorem Names.eq_of_assigns {other : String} (h : Names argument other)
    (hassigns : Assigns argument name value) : other = name := by
  obtain ⟨hother, rest, hrest⟩ := h
  obtain ⟨hname, text, htext, -⟩ := hassigns
  have hcut := Cut.textAtMark?_eq_some_iff.mpr ⟨hname, eq_append_iff.mp htext⟩
  rw [Cut.textAtMark?_eq_some_iff.mpr ⟨hother, eq_append_iff.mp hrest⟩] at hcut
  cases hcut
  rfl

/-- An argument that is read assigns what is read from it. -/
theorem assigns_of_readAssignment (h : readAssignment argument = .ok (name, value)) :
    Assigns argument name value := by
  unfold readAssignment at h
  split at h
  · cases h
  · next front text hcut =>
    obtain ⟨hfront, hargument⟩ := Cut.textAtMark?_eq_some_iff.mp hcut
    split at h
    · next word hword =>
      cases h
      exact ⟨hfront, text, eq_append_iff.mpr hargument, hword⟩
    · cases h

/-- A further argument with another name changes nothing. -/
theorem LastAssigned.concat (h : LastAssigned arguments name value)
    (hnames : ¬ Names argument name) : LastAssigned (arguments ++ [argument]) name value := by
  cases h with
  | last harguments hassigns hafter =>
    refine .last (by rw [harguments, List.append_assoc, List.cons_append]) hassigns ?_
    intro later hlater
    rcases List.mem_append.mp hlater with hlater | hlater
    · exact hafter later hlater
    · rwa [List.mem_singleton.mp hlater]
  | none h =>
    refine .none fun other hother => ?_
    rcases List.mem_append.mp hother with hother | hother
    · exact h other hother
    · rwa [List.mem_singleton.mp hother]

namespace CommandLine

private theorem lastAssigned_of_mapM {pairs : List (String × UInt64)}
    (h : arguments.mapM (fun operand =>
      (readAssignment operand).mapError fun _ => Stop.usage) = .ok pairs) (name : String) :
    LastAssigned arguments name ((Measurements.ofList pairs).value name) := by
  induction arguments using List.reverseRecOn generalizing pairs with
  | nil =>
    cases h
    exact .none fun _ hmem => absurd hmem List.not_mem_nil
  | append_singleton arguments argument ih =>
    rw [List.mapM_append] at h
    cases hfront : arguments.mapM fun operand =>
        (readAssignment operand).mapError fun _ => Stop.usage with
    | error stop =>
      rw [hfront] at h
      cases h
    | ok front =>
      cases hlast : readAssignment argument with
      | error cause =>
        rw [hfront] at h
        simp [hlast, Except.mapError, bind, Except.bind] at h
      | ok pair =>
        have hpairs : front ++ [pair] = pairs := by
          rw [hfront] at h
          simpa [hlast, Except.mapError, bind, Except.bind, pure, Except.pure] using h
        have hassigns := assigns_of_readAssignment hlast
        rw [← hpairs, Measurements.ofList_append_singleton, Measurements.value_set]
        by_cases hname : name = pair.1
        · rw [if_pos hname, hname]
          exact .last rfl hassigns fun _ hmem => absurd hmem List.not_mem_nil
        · rw [if_neg hname]
          exact (ih hfront).concat fun hnames => hname (hnames.eq_of_assigns hassigns)

/-- The measurements that arguments are read as hold the last value of every name. -/
theorem lastAssigned_of_readMeasurements {pairs : List (String × UInt64)}
    (h : Command.readMeasurements arguments = .ok pairs) (name : String) :
    LastAssigned arguments name ((Measurements.ofList pairs).value name) := by
  unfold Command.readMeasurements at h
  split at h
  · cases h
  · exact lastAssigned_of_mapM h name

end CommandLine

end SplitTally
