import Emplace.Callable
import Emplace.Stub

/-
  Routines: a region kept together with the code loaded into it.

  A routine is made from an image by acquiring a region of exactly its size and loading it.  If that
  fails at any stage, the region is given back.  Each run binds the code anew as a callable without
  arguments and invokes it once.
-/

namespace Emplace

structure Routine where
  region : Region
  /-- The number of bytes that were loaded. -/
  length : Nat

namespace Routine

def payload (r : Routine) : Payload := ⟨r.region, r.length⟩

/-- Acquires a region for the image and loads it. -/
def create (kernel : Kernel) (ticket : Nat) (image : Image) (strategy : Strategy) :
    Except Error Routine × List Event :=
  match Region.acquire kernel ticket image.size strategy with
  | (.error e, events) => (.error e, events)
  | (.ok region, events) =>
      let attempt := region.load kernel image
      match attempt.answer with
      | .ok payload => (.ok ⟨payload.region, payload.length⟩, events ++ attempt.events)
      -- nobody else knows the region, so it is given back here
      | .error e => (.error e, events ++ attempt.events ++ [attempt.region.release])

/-- The routine that writes `message` to `descriptor`. -/
def writing (kernel : Kernel) (ticket : Nat) (descriptor : UInt32) (message : List UInt8)
    (strategy : Strategy) : Except Error Routine × List Event :=
  match Stub.writing descriptor message with
  | .error e => (.error e, [])
  | .ok stub =>
      match stub.resolve with
      | .error e => (.error e, [])
      | .ok (distance, image) =>
          let (answer, events) := create kernel ticket image strategy
          (answer, .siteResolved stub.site.field stub.message distance :: events)

/-- The code as a callable without arguments. -/
def callable (r : Routine) : Except Error Callable × List Event := Callable.bind r.payload .nullary

/-- The routine as calls have left it. -/
def after (r : Routine) (calls : Calls) : Routine :=
  { r with region := calls.changed?.getD r.region }

/-- What one or more runs of a routine leave behind. -/
structure Runs where
  calls : Calls
  /-- Why the last run failed. -/
  error? : Option Error
  events : List Event

namespace Runs

/-- No runs. -/
def none : Runs := ⟨.none, .none, []⟩

/-- Whether there can be another run: none has failed, and all have come back. -/
def goesOn (runs : Runs) : Bool := runs.error?.isNone && runs.calls.ending = .arrived

/-- Runs that are made after others. -/
def andThen (first others : Runs) : Runs where
  calls := first.calls.andThen others.calls
  error? := others.error?
  events := first.events ++ others.events

/-- The same runs `n` times, of runs that change nothing. -/
def times (n : Nat) (runs : Runs) : Runs where
  calls := runs.calls.times n
  error? := runs.error?
  events := (List.replicate n runs.events).flatten

end Runs

/-- Runs the code once. -/
def run (r : Routine) (services : X64.Services) (frame : Frame) : Runs :=
  match r.callable with
  | (.error e, events) => ⟨.none, some e, events⟩
  | (.ok callable, events) => ⟨callable.call services frame [], none, events⟩

/-- Runs the code once from each frame, or up to the first run that fails or does not come back. -/
def runAll (r : Routine) (services : X64.Services) : List Frame → Runs
  | [] => .none
  | frame :: frames =>
      let first := r.run services frame
      if first.goesOn then first.andThen ((r.after first.calls).runAll services frames) else first

/-- Runs the code `n` times from one frame, or up to the first run that fails or does not come back.
    Runs that change nothing are all alike, so one of them is enough to know them all. -/
def runTimes (r : Routine) (services : X64.Services) (frame : Frame) : Nat → Runs
  | 0 => .none
  | n + 1 =>
      let first := r.run services frame
      if first.goesOn then
        match first.calls.changed? with
        | none => first.times (n + 1)
        | some _ => first.andThen ((r.after first.calls).runTimes services frame n)
      else first

/-- `n` runs are made one after the other. -/
theorem runTimes_eq_runAll (r : Routine) (services : X64.Services) (frame : Frame) (n : Nat) :
    r.runTimes services frame n = r.runAll services (List.replicate n frame) := by
  induction n generalizing r with
  | zero => rfl
  | succ n ih =>
    rw [List.replicate_succ, runTimes, runAll, ← ih]
    split
    · rename_i hgoes
      cases hchanged : (r.run services frame).calls.changed? with
      | some region => rfl
      | none =>
        have hafter : r.after (r.run services frame).calls = r := by
          simp only [after, hchanged, Option.getD_none]
        obtain ⟨herror, harrived⟩ : (r.run services frame).error? = none ∧
            (r.run services frame).calls.ending = .arrived := by
          simpa [Runs.goesOn] using hgoes
        rw [hafter]
        -- behind a run that changes nothing the others are that one, too
        cases n with
        | zero =>
          simp [runTimes, Runs.times, Runs.andThen, Runs.none, Calls.times, Calls.andThen,
            Calls.none, hchanged, herror, harrived]
        | succ n =>
          simp [runTimes, Runs.times, Runs.andThen, Calls.times, Calls.andThen, hgoes, hchanged,
            List.replicate_succ]
    · rfl

end Routine

end Emplace
