import Emplace.Proofs.Region.Succession
import Emplace.Routine

/-
  Runs of a routine.

  A run binds the code anew and calls it.  So runs that follow one another are calls that do
  (`Routine.exists_runAll_eq`): they fail only where there is no code, each of them reports the same
  binding, and the last one reported is the last one made.  Whatever they do, they leave the routine
  in its region, with other bytes in it at most (`Routine.ran_runAll`), and with the same bytes if
  they are discreet (`Routine.after_runAll`).
-/

namespace Emplace.Routine

open X64 (Services)

variable {r : Routine} {services : Services} {f : Frame} {frames : List Frame}

/-! ## One run -/

/-- Empty code is not run. -/
theorem run_of_length_eq (h : r.length = 0) (services : Services) (f : Frame) :
    r.run services f = ⟨.none, some .emptyCode, []⟩ := by
  have hbind : r.callable = (.error .emptyCode, []) := if_pos h
  rw [run, hbind]

/-- What each run of a routine reports. -/
def binding (r : Routine) : Event := .callableBound r.region.ticket r.payload.entry r.length 0 false

/-- Any other code is bound and called. -/
theorem run_of_length_ne (h : r.length ≠ 0) (services : Services) (f : Frame) :
    r.run services f =
      ⟨Callable.call ⟨r.payload, .nullary⟩ services f [], none, [r.binding]⟩ := by
  have hbind : r.callable = (.ok ⟨r.payload, .nullary⟩, [r.binding]) := if_neg h
  rw [run, hbind]

/-- It lies where it did, whatever it has done. -/
theorem binding_of_ran {r' : Routine} (h : r.region.Ran r'.region) (hlength : r'.length = r.length) :
    r'.binding = r.binding := by
  have hremains := h.remains
  have hentry : r'.payload.entry = r.payload.entry := hremains.base
  rw [binding, binding, hremains.ticket, hentry, hlength]

/-! ## Run after run -/

/-- The calls that runs from these frames make. -/
def calls (frames : List Frame) : List (Frame × List Word) := frames.map fun f => (f, [])

/-- **Runs are calls**, each of which is reported. -/
theorem exists_runAll_eq (h : r.length ≠ 0) (services : Services) (frames : List Frame) :
    ∃ k, k ≤ frames.length ∧
      r.runAll services frames =
        ⟨Callable.callAll ⟨r.payload, .nullary⟩ services (calls frames), none,
          List.replicate k r.binding⟩ ∧
      ((r.runAll services frames).calls.ending = .arrived → k = frames.length) := by
  induction frames generalizing r with
  | nil => exact ⟨0, Nat.le_refl 0, rfl, fun _ => rfl⟩
  | cons f frames ih =>
    have hrun := run_of_length_ne h services f
    have hbinding : (r.after (Callable.call ⟨r.payload, .nullary⟩ services f [])).binding =
        r.binding :=
      binding_of_ran (Callable.ran_call ⟨r.payload, .nullary⟩ services f []) rfl
    have hcalls : calls (f :: frames) = (f, []) :: calls frames := rfl
    rw [runAll, hrun, hcalls, Callable.callAll]
    simp only [Runs.goesOn, Option.isNone_none, Bool.true_and, decide_eq_true_eq]
    by_cases harrived : (Callable.call ⟨r.payload, .nullary⟩ services f []).ending = .arrived
    · rw [if_pos harrived, if_pos harrived]
      obtain ⟨k, hk, hrest, hall⟩ :=
        ih (r := r.after (Callable.call ⟨r.payload, .nullary⟩ services f [])) h
      rw [hbinding] at hrest
      refine ⟨k + 1, Nat.succ_le_succ hk, ?_, fun hlast => congrArg Nat.succ (hall hlast)⟩
      rw [hrest]
      rfl
    · rw [if_neg harrived, if_neg harrived]
      exact ⟨1, Nat.succ_le_succ (Nat.zero_le _), rfl, fun hlast => absurd hlast harrived⟩

/-- Runs leave the routine as the calls do. -/
theorem calls_runAll (h : r.length ≠ 0) (services : Services) (frames : List Frame) :
    (r.runAll services frames).calls =
      Callable.callAll ⟨r.payload, .nullary⟩ services (calls frames) := by
  obtain ⟨k, -, hall, -⟩ := exists_runAll_eq h services frames
  rw [hall]

/-- Empty code is not run again, either. -/
theorem runAll_of_length_eq (h : r.length = 0) (services : Services) (f : Frame)
    (frames : List Frame) : r.runAll services (f :: frames) = ⟨.none, some .emptyCode, []⟩ := by
  rw [runAll, run_of_length_eq h]
  rfl

/-- **Whatever runs do**, the region is the same, with other bytes in it at most. -/
theorem ran_runAll (r : Routine) (services : Services) (frames : List Frame) :
    r.region.Ran (r.after (r.runAll services frames).calls).region := by
  by_cases h : r.length = 0
  · cases frames with
    | nil => exact .refl _
    | cons f frames =>
      rw [runAll_of_length_eq h]
      exact .refl _
  · rw [calls_runAll h]
    exact Callable.ran_callAll ⟨r.payload, .nullary⟩ services (calls frames)

/-- Each run of the code is discreet, when there is code to run. -/
def DiscreetRuns (r : Routine) (services : Services) (frames : List Frame) : Prop :=
  r.length ≠ 0 → Callable.DiscreetAll ⟨r.payload, .nullary⟩ services (calls frames)

/-- Runs change what the calls change that they make. -/
theorem changed?_runAll_of_calls (h : r.length ≠ 0 →
    (Callable.callAll ⟨r.payload, .nullary⟩ services (calls frames)).changed? = none) :
    (r.runAll services frames).calls.changed? = none := by
  by_cases hlength : r.length = 0
  · cases frames with
    | nil => rfl
    | cons f frames =>
      rw [runAll_of_length_eq hlength]
      rfl
  · rw [calls_runAll hlength]
    exact h hlength

theorem changed?_runAll (hfits : r.region.Fits) (h : r.DiscreetRuns services frames) :
    (r.runAll services frames).calls.changed? = none :=
  changed?_runAll_of_calls fun hlength => Callable.changed?_callAll hfits (h hlength)

/-- Discreet runs are all like the first one, so no other one is made if that does not come back. -/
theorem runTimes_of_ending_ne (h : r.length ≠ 0) (hfits : r.region.Fits) {n : Nat}
    (hdiscreet : r.DiscreetRuns services (List.replicate (n + 1) f))
    (hending : (r.runTimes services f (n + 1)).calls.ending ≠ .arrived) :
    r.runTimes services f (n + 1) = r.run services f := by
  have hchanged : (Callable.call ⟨r.payload, .nullary⟩ services f []).changed? = none :=
    Callable.changed?_call hfits (hdiscreet h).1
  rw [runTimes, run_of_length_ne h] at hending ⊢
  simp only [hchanged, Runs.goesOn, Option.isNone_none, Bool.true_and, decide_eq_true_eq]
    at hending ⊢
  by_cases harrived : (Callable.call ⟨r.payload, .nullary⟩ services f []).ending = .arrived
  · rw [if_pos harrived] at hending
    exact absurd harrived hending
  · rw [if_neg harrived]

/-- **Discreet runs leave the routine as it was.** -/
theorem after_runAll (hfits : r.region.Fits) (h : r.DiscreetRuns services frames) :
    r.after (r.runAll services frames).calls = r := by
  simp only [after, changed?_runAll hfits h, Option.getD_none]

end Emplace.Routine
