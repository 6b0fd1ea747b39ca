import Emplace.Session.Step
import Emplace.Table

/-
  Sessions: drafts, images, regions and routines under names, worked on step by step.

  `perform` carries out one step.  It answers, gives the session afterwards, and reports the events
  in the order in which they happened.  A step that names something missing, and a step that fails,
  store nothing.  A value that is replaced is dropped after the new one was made.  `close` drops
  what is left at the end.

  Code that is called may change its region, and the session goes on with what it left.  Where a
  call does not come back, the answer says how it ended, and the steps behind it are told as if it
  had come back there.
-/

namespace Emplace

structure Session where
  drafts : Table Draft
  images : Table Image
  regions : Table Region
  routines : Table Routine
  /-- All sites that steps have yielded, the first one first. -/
  sites : List Site
  /-- How many mappings have been asked for. -/
  tickets : Nat

namespace Session

def empty : Session := ⟨[], [], [], [], [], 0⟩

/-- What a step leaves behind. -/
structure Outcome where
  answer : Answer
  session : Session
  events : List Event

/-- An outcome in which nothing but the answer is new. -/
def answering (s : Session) (answer : Answer) : Outcome := ⟨answer, s, []⟩

/-- Where memory lies differs from run to run, so a session tells only whether there is any: `none`
    stands for the address zero. -/
def masked (none : String) (address : Word) : String := if address = 0 then none else "BASE"

/-! ## Names -/

def withDraft (s : Session) (name : String) (k : Draft → Outcome) : Outcome :=
  match s.drafts.get? name with
  | some draft => k draft
  | none => s.answering (.missing .draft name)

def withImage (s : Session) (name : String) (k : Image → Outcome) : Outcome :=
  match s.images.get? name with
  | some image => k image
  | none => s.answering (.missing .image name)

def withRegion (s : Session) (name : String) (k : Region → Outcome) : Outcome :=
  match s.regions.get? name with
  | some region => k region
  | none => s.answering (.missing .region name)

def withRoutine (s : Session) (name : String) (k : Routine → Outcome) : Outcome :=
  match s.routines.get? name with
  | some routine => k routine
  | none => s.answering (.missing .routine name)

def withSite (s : Session) (name : SiteName) (k : Site → Outcome) : Outcome :=
  match name with
  | .given site => k site
  | .listed index =>
      match s.sites[index]? with
      | some site => k site
      | none => s.answering (.missing .site (toString index))

/-- The draft under a name, or an empty one. -/
def draftOrEmpty (s : Session) (name : String) : Draft := (s.drafts.get? name).getD Draft.empty

def setDraft (s : Session) (name : String) (draft : Draft) : Session :=
  { s with drafts := s.drafts.set name draft }

def setImage (s : Session) (name : String) (image : Image) : Session :=
  { s with images := s.images.set name image }

def setRegion (s : Session) (name : String) (region : Region) : Session :=
  { s with regions := s.regions.set name region }

def setRoutine (s : Session) (name : String) (routine : Routine) : Session :=
  { s with routines := s.routines.set name routine }

def addSite (s : Session) (site : Site) : Session := { s with sites := s.sites ++ [site] }

/-- The report of dropping what a name stands for. -/
def dropped (region? : Option Region) : List Event := (region?.map Region.release).toList

/-! ## Drafts, images and sites -/

def edit (s : Session) (name : String) (e : Edit) : Outcome :=
  let draft := s.draftOrEmpty name
  match draft.apply e with
  -- an empty draft refuses nothing, so the draft was there before
  | .error cause => s.answering (.failed cause)
  | .ok (yield, draft) =>
      let s := s.setDraft name draft
      let s := match yield with
        | .site site => s.addSite site
        | _ => s
      s.answering (.edited yield draft.size)

def resolve (s : Session) (name : String) (site : Site) (target : Nat) (image : Image) : Outcome :=
  match image.resolve site target with
  | .error cause => s.answering (.notResolved cause image)
  | .ok (distance, image) =>
      ⟨.resolved distance image, s.setImage name image, [.siteResolved site.field target distance]⟩

/-- Stores the image of a stub with its address filled in. -/
def resolvedStub (s : Session) (name : String) (stub : Stub) : Outcome :=
  match stub.resolve with
  | .error cause => s.answering (.failed cause)
  | .ok (distance, image) =>
      ⟨.resolvedStub image, s.setImage name image,
        [.siteResolved stub.site.field stub.message distance]⟩

def withStub (s : Session) (descriptor : UInt32) (message : List UInt8) (k : Stub → Outcome) :
    Outcome :=
  match Stub.writing descriptor message with
  | .error cause => s.answering (.failed cause)
  | .ok stub => k stub

/-! ## Regions -/

def acquire (kernel : Kernel) (s : Session) (name : String) (size : Nat) (strategy : Strategy) :
    Outcome :=
  let (answer, events) := Region.acquire kernel s.tickets size strategy
  let s := { s with tickets := s.tickets + 1 }
  match answer with
  | .error cause => ⟨.failed cause, s, events⟩
  | .ok region =>
      ⟨.region region, s.setRegion name region, events ++ dropped (s.regions.get? name)⟩

/-- Only the captured descriptor is open. -/
def accepting (capture : Option UInt32) : X64.Descriptors := fun descriptor =>
  capture = some descriptor

/-- What the writes bring to the captured descriptor. -/
def captured (capture : Option UInt32) (writes : List X64.WriteCall) : Option (List UInt8) :=
  capture.map fun descriptor =>
    (writes.filter fun call => call.descriptor = descriptor).flatMap fun call => call.bytes

/-- What calls of a bound payload add to the report on its load. -/
def reportCalls (report : LoadReport) (callable : Callable) (calls : Calls) : LoadReport :=
  { report with
    region := (callable.payload.after calls).region
    callable? := some callable
    ending := calls.ending }

/-- Puts a loaded payload to use. -/
def useOf (kernel : Kernel) (report : LoadReport) (payload : Payload) :
    Use → LoadReport × List Event
  | .nothing => (report, [])
  | .nullary times capture =>
      match Callable.bind payload .nullary with
      | (.error cause, events) => ({ report with error? := some cause }, events)
      | (.ok callable, events) =>
          let calls := callable.callTimes (kernel.services (accepting capture)) .idle times
          ({ reportCalls report callable calls with written? := captured capture calls.writes },
            events)
  | .unary args =>
      match Callable.bind payload .unary with
      | (.error cause, events) => ({ report with error? := some cause }, events)
      | (.ok callable, events) =>
          let calls := callable.callAll (kernel.services (accepting none))
            (args.map fun arg => (.idle, [arg]))
          ({ reportCalls report callable calls with returned? := some calls.results }, events)

def load (kernel : Kernel) (s : Session) (name : String) (image : Image) (region : Region)
    (use : Use) : Outcome :=
  let attempt := region.load kernel image
  let report : LoadReport := ⟨attempt.region, none, none, none, none, .arrived, none⟩
  match attempt.answer with
  | .error cause =>
      -- a failed load can still change the region: it may have lost its mapping
      ⟨.loaded { report with error? := some cause }, s.setRegion name attempt.region,
        attempt.events⟩
  | .ok payload =>
      let (report, events) := useOf kernel { report with payload? := some payload } payload use
      ⟨.loaded report, s.setRegion name report.region, attempt.events ++ events⟩

/-! ## Routines -/

/-- Keeps a routine that was made with the next ticket. -/
def keepRoutine (s : Session) (name : String) (made : Except Error Routine × List Event) :
    Outcome :=
  let s := { s with tickets := s.tickets + 1 }
  match made with
  | (.error cause, events) => ⟨.failed cause, s, events⟩
  | (.ok routine, events) =>
      ⟨.routine routine, s.setRoutine name routine,
        events ++ dropped ((s.routines.get? name).map Routine.region)⟩

def runRoutine (kernel : Kernel) (s : Session) (name : String) (routine : Routine) (calls : Nat)
    (capture : Option UInt32) : Outcome :=
  let runs := routine.runTimes (kernel.services (accepting capture)) .idle calls
  let left := routine.after runs.calls
  let s := s.setRoutine name left
  match runs.error? with
  | some cause => ⟨.failed cause, s, runs.events⟩
  | none => ⟨.ran left (captured capture runs.calls.writes) runs.calls.ending, s, runs.events⟩

/-! ## Steps -/

/-- Carries out one step. -/
def perform (kernel : Kernel) (s : Session) : Step → Outcome
  | .draft name bytes =>
      let draft := Draft.empty.append bytes
      (s.setDraft name draft).answering (.edited .nothing draft.size)
  | .edit name e => s.edit name e
  | .measure name =>
      let draft := s.draftOrEmpty name
      (s.setDraft name draft).answering (.measured draft.size)
  | .copyDraft name copy =>
      s.withDraft name fun draft => (s.setDraft copy draft).answering (.copied draft.size)
  | .finish name copy =>
      let image := (s.draftOrEmpty name).finish
      ({ s with drafts := s.drafts.erase name }.setImage copy image).answering (.image image)
  | .showImage name => s.withImage name fun image => s.answering (.image image)
  | .copyImage name copy =>
      s.withImage name fun image => (s.setImage copy image).answering (.image image)
  | .resolve name site target =>
      s.withSite site fun site => s.withImage name fun image => s.resolve name site target image
  | .showSite site targets =>
      s.withSite site fun site =>
        s.answering (.site site (targets.map site.distance) (s.sites.findIdx? (· = site)))
  | .list name =>
      s.withImage name fun image => s.answering (.listing (Listing.ofImage X64.decode image))
  | .greeting name =>
      s.withStub Stub.standardOutput Stub.greeting fun stub => s.resolvedStub name stub
  | .stub name descriptor message =>
      s.withStub descriptor message fun stub =>
        ((s.setImage name stub.image).addSite stub.site).answering (.stub stub)
  | .resolvedStub name descriptor message =>
      s.withStub descriptor message fun stub => s.resolvedStub name stub
  | .measureStub length =>
      match Stub.count length with
      | .error cause => s.answering (.failed cause)
      | .ok count => s.answering (.number count.toNat)
  | .pageSize => s.answering (.number Emplace.pageSize)
  | .strategy strategy => s.answering (.text strategy.name)
  | .acquire name size strategy => s.acquire kernel name size strategy
  | .showRegion name => s.withRegion name fun region => s.answering (.region region)
  | .describeRegion name onLines =>
      s.withRegion name fun region => s.answering (.text (region.describe (masked "0x0") onLines))
  | .dropRegion name =>
      s.withRegion name fun region =>
        ⟨.text "dropped", { s with regions := s.regions.erase name }, [region.release]⟩
  | .load image name use =>
      s.withImage image fun image =>
        s.withRegion name fun region => s.load kernel name image region use
  | .routine image name strategy =>
      s.withImage image fun image =>
        s.keepRoutine name (Routine.create kernel s.tickets image strategy)
  | .writer name descriptor message strategy =>
      s.keepRoutine name (Routine.writing kernel s.tickets descriptor message strategy)
  | .bindRoutine name =>
      s.withRoutine name fun routine =>
        match routine.callable with
        | (.error cause, events) => ⟨.failed cause, s, events⟩
        | (.ok callable, events) => ⟨.callable callable, s, events⟩
  | .runRoutine name calls capture =>
      s.withRoutine name fun routine => s.runRoutine kernel name routine calls capture
  | .dropRoutine name =>
      s.withRoutine name fun routine =>
        ⟨.text "dropped", { s with routines := s.routines.erase name }, [routine.region.release]⟩

/-- Carries out steps one after the other.  The answers come with the events of their step. -/
def run (kernel : Kernel) : Session → List Step → List (Answer × List Event) × Session
  | s, [] => ([], s)
  | s, step :: steps =>
      let outcome := s.perform kernel step
      let (answers, last) := run kernel outcome.session steps
      ((outcome.answer, outcome.events) :: answers, last)

/-- The report of dropping everything that is left: the regions, then the routines. -/
def close (s : Session) : List Event :=
  (s.regions.map fun entry => entry.2.release) ++ s.routines.map fun entry => entry.2.region.release

end Session

end Emplace
