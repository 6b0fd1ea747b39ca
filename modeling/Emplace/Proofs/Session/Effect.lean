import Emplace.Session

/-
  What a step does to the regions of a session.

  Most steps have nothing to do with regions, or only look at one.  `Effect` lists the others, each
  with the operation that it comes down to, and `perform_effect` says that there are no more.
  Whatever is to be shown of all steps is shown of these few.

  What can be got at through an answer are payloads: that of a load, of a routine or of a callable
  (`Answer.payloads`).
-/

namespace Emplace.Session

/-- The payloads that an answer gives access to. -/
def Answer.payloads : Answer → List Payload
  | .loaded report => report.payload?.toList ++ (report.callable?.map Callable.payload).toList
  | .routine r => [r.payload]
  | .callable c => [c.payload]
  | .ran r _ _ => [r.payload]
  | _ => []

/-- What came of a step, by what it does to the regions. -/
inductive Effect (kernel : Kernel) (s : Session) : Step → Outcome → Prop
  /-- No region is changed, and none can be used.  A load is such a step when it names something
      missing. -/
  | still {step : Step} {a : Outcome} (regions : a.session.regions = s.regions)
      (routines : a.session.routines = s.routines) (tickets : a.session.tickets = s.tickets)
      (events : ∀ e ∈ a.events, e.region? = none) (payloads : a.answer.payloads = [])
      (load : ∀ image region use, step = .load image region use →
        s.images.get? image = none ∨ s.regions.get? region = none) :
      Effect kernel s step a
  | acquire (name : String) (size : Nat) (strategy : Strategy) :
      Effect kernel s (.acquire name size strategy) (s.acquire kernel name size strategy)
  | dropRegion {name : String} {r : Region} (region : s.regions.get? name = some r) :
      Effect kernel s (.dropRegion name)
        ⟨.text "dropped", { s with regions := s.regions.erase name }, [r.release]⟩
  | load {name image : String} {i : Image} {r : Region} (use : Use)
      (found : s.images.get? image = some i) (region : s.regions.get? name = some r) :
      Effect kernel s (.load image name use) (s.load kernel name i r use)
  | routine (name : String) {image : String} {i : Image} (strategy : Strategy)
      (found : s.images.get? image = some i) :
      Effect kernel s (.routine image name strategy)
        (s.keepRoutine name (Routine.create kernel s.tickets i strategy))
  | writer (name : String) (descriptor : UInt32) (message : List UInt8) (strategy : Strategy) :
      Effect kernel s (.writer name descriptor message strategy)
        (s.keepRoutine name (Routine.writing kernel s.tickets descriptor message strategy))
  | bindRoutine {name : String} {r : Routine} (routine : s.routines.get? name = some r) :
      Effect kernel s (.bindRoutine name)
        (match r.callable with
          | (.error cause, events) => ⟨.failed cause, s, events⟩
          | (.ok callable, events) => ⟨.callable callable, s, events⟩)
  | runRoutine {name : String} {r : Routine} (calls : Nat) (capture : Option UInt32)
      (routine : s.routines.get? name = some r) :
      Effect kernel s (.runRoutine name calls capture) (s.runRoutine kernel name r calls capture)
  | dropRoutine {name : String} {r : Routine} (routine : s.routines.get? name = some r) :
      Effect kernel s (.dropRoutine name)
        ⟨.text "dropped", { s with routines := s.routines.erase name }, [r.region.release]⟩

namespace Effect

variable {kernel : Kernel} {s : Session} {step : Step}

/-- A step that gives nothing but an answer. -/
theorem answering {answer : Answer} (hpayloads : answer.payloads = [])
    (hload : ∀ image region use, step = .load image region use →
      s.images.get? image = none ∨ s.regions.get? region = none) :
    Effect kernel s step (s.answering answer) :=
  .still rfl rfl rfl (List.forall_mem_nil _) hpayloads hload

/-! ## Names

What holds when a name is found and when it is not, holds. -/

theorem withDraft {P : Outcome → Prop} {name : String} {k : Draft → Outcome}
    (found : ∀ draft, P (k draft)) (missing : P (s.answering (.missing .draft name))) :
    P (s.withDraft name k) := by
  unfold Session.withDraft
  split
  · exact found _
  · exact missing

theorem withImage {P : Outcome → Prop} {name : String} {k : Image → Outcome}
    (found : ∀ image, s.images.get? name = some image → P (k image))
    (missing : s.images.get? name = none → P (s.answering (.missing .image name))) :
    P (s.withImage name k) := by
  unfold Session.withImage
  split
  · exact found _ ‹_›
  · exact missing ‹_›

theorem withRegion {P : Outcome → Prop} {name : String} {k : Region → Outcome}
    (found : ∀ region, s.regions.get? name = some region → P (k region))
    (missing : s.regions.get? name = none → P (s.answering (.missing .region name))) :
    P (s.withRegion name k) := by
  unfold Session.withRegion
  split
  · exact found _ ‹_›
  · exact missing ‹_›

theorem withRoutine {P : Outcome → Prop} {name : String} {k : Routine → Outcome}
    (found : ∀ routine, s.routines.get? name = some routine → P (k routine))
    (missing : P (s.answering (.missing .routine name))) : P (s.withRoutine name k) := by
  unfold Session.withRoutine
  split
  · exact found _ ‹_›
  · exact missing

theorem withSite {P : Outcome → Prop} {name : SiteName} {k : Site → Outcome}
    (found : ∀ site, P (k site)) (missing : ∀ index, P (s.answering (.missing .site index))) :
    P (s.withSite name k) := by
  unfold Session.withSite
  split
  · exact found _
  · split
    · exact found _
    · exact missing _

theorem withStub {P : Outcome → Prop} {descriptor : UInt32} {message : List UInt8}
    {k : Stub → Outcome} (made : ∀ stub, P (k stub))
    (failed : ∀ cause, P (s.answering (.failed cause))) :
    P (s.withStub descriptor message k) := by
  unfold Session.withStub
  split
  · exact failed _
  · exact made _

/-! ## Drafts and images -/

theorem edit (name : String) (e : Edit) : Effect kernel s (.edit name e) (s.edit name e) := by
  unfold Session.edit
  dsimp only
  split
  · exact .answering rfl nofun
  · refine .still ?_ ?_ ?_ (List.forall_mem_nil _) rfl nofun
    · split <;> rfl
    · split <;> rfl
    · split <;> rfl

theorem resolve (name : String) (site : Site) (target : Nat) (image : Image)
    (hload : ∀ image region use, step = .load image region use →
      s.images.get? image = none ∨ s.regions.get? region = none) :
    Effect kernel s step (s.resolve name site target image) := by
  unfold Session.resolve
  split
  · exact .answering rfl hload
  · refine .still rfl rfl rfl ?_ rfl hload
    intro e he
    obtain rfl := List.mem_singleton.mp he
    rfl

theorem resolvedStub (name : String) (stub : Stub)
    (hload : ∀ image region use, step = .load image region use →
      s.images.get? image = none ∨ s.regions.get? region = none) :
    Effect kernel s step (s.resolvedStub name stub) := by
  unfold Session.resolvedStub
  split
  · exact .answering rfl hload
  · refine .still rfl rfl rfl ?_ rfl hload
    intro e he
    obtain rfl := List.mem_singleton.mp he
    rfl

end Effect

/-! ## All steps -/

/-- **Every step has one of these effects.** -/
theorem perform_effect (kernel : Kernel) (s : Session) (step : Step) :
    Effect kernel s step (s.perform kernel step) := by
  cases step with
  | draft name bytes => exact .still rfl rfl rfl (List.forall_mem_nil _) rfl nofun
  | edit name e => exact .edit name e
  | measure name => exact .still rfl rfl rfl (List.forall_mem_nil _) rfl nofun
  | copyDraft name copy =>
    exact Effect.withDraft (fun _ => .still rfl rfl rfl (List.forall_mem_nil _) rfl nofun)
      (.answering rfl nofun)
  | finish name copy => exact .still rfl rfl rfl (List.forall_mem_nil _) rfl nofun
  | showImage name =>
    exact Effect.withImage (fun _ _ => .answering rfl nofun) fun _ => .answering rfl nofun
  | copyImage name copy =>
    exact Effect.withImage (fun _ _ => .still rfl rfl rfl (List.forall_mem_nil _) rfl nofun)
      fun _ => .answering rfl nofun
  | resolve name site target =>
    refine Effect.withSite (fun site => ?_) fun _ => .answering rfl nofun
    exact Effect.withImage (fun image _ => .resolve name site target image nofun)
      fun _ => .answering rfl nofun
  | showSite site targets =>
    exact Effect.withSite (fun _ => .answering rfl nofun) fun _ => .answering rfl nofun
  | list name =>
    exact Effect.withImage (fun _ _ => .answering rfl nofun) fun _ => .answering rfl nofun
  | greeting name =>
    show Effect kernel s _
      (s.withStub Stub.standardOutput Stub.greeting fun stub => s.resolvedStub name stub)
    exact Effect.withStub (fun stub => .resolvedStub name stub nofun) fun _ => .answering rfl nofun
  | stub name descriptor message =>
    exact Effect.withStub (fun _ => .still rfl rfl rfl (List.forall_mem_nil _) rfl nofun)
      fun _ => .answering rfl nofun
  | resolvedStub name descriptor message =>
    exact Effect.withStub (fun stub => .resolvedStub name stub nofun) fun _ => .answering rfl nofun
  | measureStub length =>
    unfold perform
    dsimp only
    split
    · exact .answering rfl nofun
    · exact .answering rfl nofun
  | pageSize => exact .answering rfl nofun
  | strategy strategy => exact .answering rfl nofun
  | acquire name size strategy => exact .acquire name size strategy
  | showRegion name =>
    exact Effect.withRegion (fun _ _ => .answering rfl nofun) fun _ => .answering rfl nofun
  | describeRegion name onLines =>
    exact Effect.withRegion (fun _ _ => .answering rfl nofun) fun _ => .answering rfl nofun
  | dropRegion name =>
    exact Effect.withRegion (fun _ region => .dropRegion region) fun _ => .answering rfl nofun
  | load image name use =>
    refine Effect.withImage (fun i found => ?_) fun missing => ?_
    · refine Effect.withRegion (fun r region => .load use found region) fun missing => ?_
      refine .answering rfl ?_
      rintro _ _ _ ⟨⟩
      exact .inr missing
    · refine .answering rfl ?_
      rintro _ _ _ ⟨⟩
      exact .inl missing
  | routine image name strategy =>
    exact Effect.withImage (fun _ found => .routine name strategy found)
      fun _ => .answering rfl nofun
  | writer name descriptor message strategy => exact .writer name descriptor message strategy
  | bindRoutine name =>
    exact Effect.withRoutine (fun _ routine => .bindRoutine routine) (.answering rfl nofun)
  | runRoutine name calls capture =>
    exact Effect.withRoutine (fun _ routine => .runRoutine calls capture routine)
      (.answering rfl nofun)
  | dropRoutine name =>
    exact Effect.withRoutine (fun _ routine => .dropRoutine routine) (.answering rfl nofun)

end Emplace.Session
