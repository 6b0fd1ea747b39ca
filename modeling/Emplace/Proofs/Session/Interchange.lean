import Emplace.Proofs.Region.Interchange
import Emplace.Proofs.Session.Discretion
import Emplace.Proofs.Stub.Writing

/-
  Sessions under the one strategy and under the other.

  A list of steps is run twice, once with every region acquired as `rwx` and once with every region
  `staged` (`Step.under`), under an impartial kernel.

  1. **What is alike.**  Answers are (`Answer.Alike`) when they are of one kind and carry the same
     facts, up to what sets regions apart.  Sessions are (`Session.Alike`) when they have the same
     drafts, images and sites, and regions and routines that are alike under the same names.

  2. **One step.**  Steps that name something find it in both sessions or in none (`withRegion`,
     `withRoutine`), so each kind of step has to be looked at only where it works on regions.

  3. **All steps.**  By induction on the list, with the sessions generalized, the replies are alike
     one by one, and so is what is left at the end (`strategies_alike`).

  What code does need not be the same: it can store into its own region, or have the kernel do that,
  and it can find out where it lies (`strategies_alike_unlike`).  So what it writes and returns is
  compared where the code is discreet under both strategies (`DiscreetUnderBoth`) and the kernel
  puts mappings in the same places (`Kernel.PlacesAlike`).
-/

namespace Emplace

variable {placed : Prop} {kept : Nat → Prop} {kernel : Kernel}

/-! ## Tables -/

/-- The same names, with values that are related. -/
abbrev Table.Alike {α : Type} (R : α → α → Prop) : Table α → Table α → Prop :=
  List.Forall₂ fun entry entry' => entry'.1 = entry.1 ∧ R entry.2 entry'.2

namespace Table.Alike

variable {α : Type} {R : α → α → Prop} {t t' : Table α}

theorem get? (h : Alike R t t') (name : String) :
    Option.Rel R (t.get? name) (t'.get? name) := by
  induction h with
  | nil => exact .none
  | @cons entry entry' rest rest' hentry _ ih =>
    obtain ⟨n, v⟩ := entry
    obtain ⟨n', v'⟩ := entry'
    obtain ⟨rfl, hv⟩ : n' = n ∧ R v v' := hentry
    unfold Table.get?
    split
    · exact .some hv
    · exact ih

theorem erase (h : Alike R t t') (name : String) : Alike R (t.erase name) (t'.erase name) := by
  refine List.rel_filter (fun {entry entry'} hentry => ?_) h
  show decide (entry.1 ≠ name) = true ↔ decide (entry'.1 ≠ name) = true
  rw [hentry.1]

theorem insert (h : Alike R t t') (name : String) {v v' : α} (hv : R v v') :
    Alike R (t.insert name v) (t'.insert name v') := by
  induction h with
  | nil => exact .cons ⟨rfl, hv⟩ .nil
  | @cons entry entry' rest rest' hentry hrest ih =>
    obtain ⟨n, w⟩ := entry
    obtain ⟨n', w'⟩ := entry'
    obtain ⟨rfl, hw⟩ : n' = n ∧ R w w' := hentry
    unfold Table.insert
    split
    · exact .cons ⟨rfl, hv⟩ (.cons ⟨rfl, hw⟩ hrest)
    · exact .cons ⟨rfl, hw⟩ ih

theorem set (h : Alike R t t') (name : String) {v v' : α} (hv : R v v') :
    Alike R (t.set name v) (t'.set name v') :=
  (h.erase name).insert name hv

end Table.Alike

namespace Session

/-! ## What is alike -/

/-- The step with every strategy replaced. -/
def Step.under (strategy : Strategy) : Step → Step
  | .acquire name size _ => .acquire name size strategy
  | .routine image name _ => .routine image name strategy
  | .writer name descriptor message _ => .writer name descriptor message strategy
  | step => step

/-- The same came of loading a region, and of using what was loaded. -/
structure LoadReport.Alike (placed : Prop) (kept : Nat → Prop) (report report' : LoadReport) :
    Prop where
  region : report.region.Alike placed kept report'.region
  /-- What was loaded is alike as it was then, whatever its code has done since. -/
  payload? : Option.Rel (Payload.Alike placed fun _ => True) report.payload? report'.payload?
  callable? : Option.Rel (Callable.Alike placed fun _ => True) report.callable? report'.callable?
  error? : Option.Rel Error.Alike report.error? report'.error?
  captures : report'.written?.isSome = report.written?.isSome
  calls : report'.returned?.isSome = report.returned?.isSome
  same : placed → kept report.region.ticket → report'.written? = report.written? ∧
    report'.returned? = report.returned? ∧ report'.ending = report.ending

/-- The same answer, up to what sets regions apart. -/
inductive Answer.Alike (placed : Prop) (kept : Nat → Prop) : Answer → Answer → Prop
  | same (a : Answer) : Alike placed kept a a
  | failed {e e' : Error} (cause : e.Alike e') : Alike placed kept (.failed e) (.failed e')
  | region {r r' : Region} (h : r.Alike placed kept r') : Alike placed kept (.region r) (.region r')
  /-- The texts of regions, which are the same once these are loaded. -/
  | described {r r' : Region} (h : r.Alike placed kept r') (onLines : Bool)
      (text : r.loaded = true →
        r'.describe (masked "0x0") onLines = r.describe (masked "0x0") onLines) :
      Alike placed kept (.text (r.describe (masked "0x0") onLines))
        (.text (r'.describe (masked "0x0") onLines))
  | loaded {report report' : LoadReport} (h : report.Alike placed kept report') :
      Alike placed kept (.loaded report) (.loaded report')
  | routine {r r' : Routine} (h : r.Alike placed kept r') :
      Alike placed kept (.routine r) (.routine r')
  | callable {c c' : Callable} (h : c.Alike placed kept c') :
      Alike placed kept (.callable c) (.callable c')

/-- The same answer with the same report.  Of runs there are as many if all come back, and of
    discreet ones also if not. -/
inductive ReplyAlike (placed : Prop) (kept : Nat → Prop) :
    Answer × List Event → Answer × List Event → Prop
  | answer {a a' : Answer} {events events' : List Event} (h : a.Alike placed kept a')
      (reports : Event.AllAlike placed events events') :
      ReplyAlike placed kept (a, events) (a', events')
  | ran {r r' : Routine} {written? written?' : Option (List UInt8)}
      {ending ending' : X64.Cpu.Ending} {events events' : List Event}
      (h : r.Alike placed kept r') (captures : written?'.isSome = written?.isSome)
      (same : placed → kept r.region.ticket → written?' = written? ∧ ending' = ending)
      (reports : (ending = .arrived ↔ ending' = .arrived) →
        kept r.region.ticket ∨ ending = .arrived → Event.AllAlike placed events events') :
      ReplyAlike placed kept (.ran r written? ending, events) (.ran r' written?' ending', events')

/-- Sessions that only the strategies of their regions set apart. -/
structure Alike (placed : Prop) (kept : Nat → Prop) (s s' : Session) : Prop where
  drafts : s'.drafts = s.drafts
  images : s'.images = s.images
  sites : s'.sites = s.sites
  tickets : s'.tickets = s.tickets
  regions : Table.Alike (Region.Alike placed kept) s.regions s'.regions
  routines : Table.Alike (Routine.Alike placed kept) s.routines s'.routines

structure Outcome.Alike (placed : Prop) (kept : Nat → Prop) (a a' : Outcome) : Prop where
  reply : ReplyAlike placed kept (a.answer, a.events) (a'.answer, a'.events)
  session : a.session.Alike placed kept a'.session

theorem Alike.empty : Alike placed kept .empty .empty := ⟨rfl, rfl, rfl, rfl, .nil, .nil⟩

/-! ## Changing sessions -/

namespace Alike

variable {s s' : Session}

theorem setDraft (h : s.Alike placed kept s') (name : String) (draft : Draft) :
    (s.setDraft name draft).Alike placed kept (s'.setDraft name draft) :=
  { h with drafts := by rw [Session.setDraft, Session.setDraft, h.drafts] }

theorem setImage (h : s.Alike placed kept s') (name : String) (image : Image) :
    (s.setImage name image).Alike placed kept (s'.setImage name image) :=
  { h with images := by rw [Session.setImage, Session.setImage, h.images] }

theorem addSite (h : s.Alike placed kept s') (site : Site) :
    (s.addSite site).Alike placed kept (s'.addSite site) :=
  { h with sites := by rw [Session.addSite, Session.addSite, h.sites] }

theorem setRegion (h : s.Alike placed kept s') (name : String) {r r' : Region}
    (hr : r.Alike placed kept r') : (s.setRegion name r).Alike placed kept (s'.setRegion name r') :=
  { h with regions := h.regions.set name hr }

theorem setRoutine (h : s.Alike placed kept s') (name : String) {r r' : Routine}
    (hr : r.Alike placed kept r') : (s.setRoutine name r).Alike placed kept (s'.setRoutine name r') :=
  { h with routines := h.routines.set name hr }

/-- The next mapping is asked for in both. -/
theorem nextTicket (h : s.Alike placed kept s') :
    Alike placed kept { s with tickets := s.tickets + 1 } { s' with tickets := s'.tickets + 1 } :=
  { h with tickets := by rw [h.tickets] }

theorem draftOrEmpty (h : s.Alike placed kept s') (name : String) :
    s'.draftOrEmpty name = s.draftOrEmpty name := by
  rw [Session.draftOrEmpty, Session.draftOrEmpty, h.drafts]

theorem answering (h : s.Alike placed kept s') {a a' : Answer} (ha : a.Alike placed kept a') :
    (s.answering a).Alike placed kept (s'.answering a') :=
  ⟨.answer ha .nil, h⟩

/-- An answer that has nothing to do with regions. -/
theorem answeringSame (h : s.Alike placed kept s') (a : Answer) :
    (s.answering a).Alike placed kept (s'.answering a) :=
  h.answering (.same a)

/-! ## Names -/

theorem withDraft (h : s.Alike placed kept s') (name : String) {k k' : Draft → Outcome}
    (hk : ∀ draft, (k draft).Alike placed kept (k' draft)) :
    (s.withDraft name k).Alike placed kept (s'.withDraft name k') := by
  unfold Session.withDraft
  rw [h.drafts]
  split
  · exact hk _
  · exact h.answeringSame _

theorem withImage (h : s.Alike placed kept s') (name : String) {k k' : Image → Outcome}
    (hk : ∀ image, s.images.get? name = some image → (k image).Alike placed kept (k' image)) :
    (s.withImage name k).Alike placed kept (s'.withImage name k') := by
  unfold Session.withImage
  rw [h.images]
  split
  · exact hk _ ‹_›
  · exact h.answeringSame _

theorem withSite (h : s.Alike placed kept s') (name : SiteName) {k k' : Site → Outcome}
    (hk : ∀ site, (k site).Alike placed kept (k' site)) :
    (s.withSite name k).Alike placed kept (s'.withSite name k') := by
  unfold Session.withSite
  rw [h.sites]
  split
  · exact hk _
  · split
    · exact hk _
    · exact h.answeringSame _

theorem withRegion (h : s.Alike placed kept s') (name : String) {k k' : Region → Outcome}
    (hk : ∀ r r', s.regions.get? name = some r → s'.regions.get? name = some r' →
      r.Alike placed kept r' → (k r).Alike placed kept (k' r')) :
    (s.withRegion name k).Alike placed kept (s'.withRegion name k') := by
  have hget := h.regions.get? name
  unfold Session.withRegion
  generalize s.regions.get? name = found at hget hk ⊢
  generalize s'.regions.get? name = found' at hget hk ⊢
  cases hget with
  | some hr => exact hk _ _ rfl rfl hr
  | none => exact h.answeringSame _

theorem withRoutine (h : s.Alike placed kept s') (name : String) {k k' : Routine → Outcome}
    (hk : ∀ r r', s.routines.get? name = some r → s'.routines.get? name = some r' →
      r.Alike placed kept r' → (k r).Alike placed kept (k' r')) :
    (s.withRoutine name k).Alike placed kept (s'.withRoutine name k') := by
  have hget := h.routines.get? name
  unfold Session.withRoutine
  generalize s.routines.get? name = found at hget hk ⊢
  generalize s'.routines.get? name = found' at hget hk ⊢
  cases hget with
  | some hr => exact hk _ _ rfl rfl hr
  | none => exact h.answeringSame _

theorem withStub (h : s.Alike placed kept s') (descriptor : UInt32) (message : List UInt8)
    {k k' : Stub → Outcome} (hk : ∀ stub, (k stub).Alike placed kept (k' stub)) :
    (s.withStub descriptor message k).Alike placed kept (s'.withStub descriptor message k') := by
  unfold Session.withStub
  split
  · exact h.answeringSame _
  · exact hk _

/-! ## Drafts and images -/

theorem edit (h : s.Alike placed kept s') (name : String) (e : Edit) :
    (s.edit name e).Alike placed kept (s'.edit name e) := by
  unfold Session.edit
  rw [h.draftOrEmpty]
  dsimp only
  split
  · exact h.answeringSame _
  · refine answeringSame ?_ _
    split
    · exact (h.setDraft name _).addSite _
    · exact h.setDraft name _

theorem resolve (h : s.Alike placed kept s') (name : String) (site : Site) (target : Nat)
    (image : Image) :
    (s.resolve name site target image).Alike placed kept (s'.resolve name site target image) := by
  unfold Session.resolve
  split
  · exact h.answeringSame _
  · exact ⟨.answer (.same _) (.refl _), h.setImage name _⟩

theorem resolvedStub (h : s.Alike placed kept s') (name : String) (stub : Stub) :
    (s.resolvedStub name stub).Alike placed kept (s'.resolvedStub name stub) := by
  unfold Session.resolvedStub
  split
  · exact h.answeringSame _
  · exact ⟨.answer (.same _) (.refl _), h.setImage name _⟩

end Alike

/-! ## Regions -/

theorem dropped_alike {found found' : Option Region}
    (h : Option.Rel (Region.Alike placed kept) found found') :
    Event.AllAlike placed (dropped found) (dropped found') := by
  cases h with
  | none => exact .nil
  | some hr => exact .singleton hr.release

/-- Only whether a region is executable can show, and only until it is loaded. -/
theorem describe_eq {r r' : Region} (h : r.Alike placed kept r') (hloaded : r.loaded = true)
    (onLines : Bool) :
    r'.describe (masked "0x0") onLines = r.describe (masked "0x0") onLines := by
  have haddress : masked "0x0" r'.base = masked "0x0" r.base := by
    rw [masked, masked, if_neg h.mapped.1, if_neg h.mapped.2]
  obtain ⟨hexecutable, hexecutable'⟩ := h.executable hloaded
  simp only [Region.describe, haddress, h.size, h.capacity, h.loaded, hexecutable, hexecutable']

theorem isSome_captured (capture : Option UInt32) (writes : List X64.WriteCall) :
    (captured capture writes).isSome = capture.isSome := by
  rw [captured, Option.isSome_map]

section

variable {left left' : Region} {p p' : Payload}

/-- The report on a load that succeeded, when nothing was done with the payload yet. -/
def reportLoad (left : Region) (p : Payload) : LoadReport :=
  ⟨left, some p, none, none, none, .arrived, none⟩

theorem reportLoad_alike (h : left.Alike placed kept left')
    (hp : p.Alike placed (fun _ => True) p') :
    (reportLoad left p).Alike placed kept (reportLoad left' p') :=
  ⟨h, .some hp, .none, .none, rfl, rfl, fun _ _ => ⟨rfl, rfl, rfl⟩⟩

/-- What calls of the same code add to the reports on it is the same, if they are discreet. -/
theorem reportCalls_alike (left left' : Region) (hp : p.Alike placed (fun _ => True) p')
    {shape : Shape} {services : X64.Services} {calls : List (Frame × List Word)}
    (hdiscreet : kept p.region.ticket → Callable.DiscreetAll ⟨p, shape⟩ services calls ∧
      Callable.DiscreetAll ⟨p', shape⟩ services calls)
    (written? : Calls → Option (List UInt8)) (returned? : Calls → Option (List Word))
    (hwritten : ∀ made made', (written? made').isSome = (written? made).isSome)
    (hreturned : ∀ made made', (returned? made').isSome = (returned? made).isSome) :
    let made := Callable.callAll ⟨p, shape⟩ services calls
    let made' := Callable.callAll ⟨p', shape⟩ services calls
    LoadReport.Alike placed kept
      { reportCalls (reportLoad left p) ⟨p, shape⟩ made with
        written? := written? made, returned? := returned? made }
      { reportCalls (reportLoad left' p') ⟨p', shape⟩ made' with
        written? := written? made', returned? := returned? made' } := by
  intro made made'
  have hc : Callable.Alike placed kept ⟨p, shape⟩ ⟨p', shape⟩ := ⟨hp.mono fun _ => trivial, rfl⟩
  have hticket : (p.after made).region.ticket = p.region.ticket :=
    (Callable.ran_callAll ⟨p, shape⟩ services calls).remains.ticket
  refine ⟨(hc.after_callAll hdiscreet).region, .some hp, .some ⟨hp, rfl⟩, .none,
    hwritten made made', hreturned made made', fun hplaced hkept => ?_⟩
  have hkept : kept p.region.ticket := hticket ▸ hkept
  obtain ⟨hcalls, hcalls'⟩ := hdiscreet hkept
  have heq : made' = made := hc.callAll hplaced hkept hcalls hcalls'
  rw [heq]
  exact ⟨rfl, rfl, rfl⟩

/-- **Using the same code** in both regions brings the same to light, if it is discreet. -/
theorem useOf_alike (h : left.Alike placed kept left') (hp : p.Alike placed (fun _ => True) p')
    {use : Use}
    (hdiscreet : kept p.region.ticket → use.Discreet kernel p ∧ use.Discreet kernel p') :
    (useOf kernel (reportLoad left p) p use).1.Alike placed kept
        (useOf kernel (reportLoad left' p') p' use).1 ∧
      Event.AllAlike placed (useOf kernel (reportLoad left p) p use).2
        (useOf kernel (reportLoad left' p') p' use).2 := by
  have hreport := reportLoad_alike h hp
  cases use with
  | nothing => exact ⟨hreport, .nil⟩
  | nullary times capture =>
    have hbind := Callable.bind_alike hp .nullary
    unfold useOf
    dsimp only
    generalize hbound : Callable.bind p .nullary = bound at hbind ⊢
    generalize hbound' : Callable.bind p' .nullary = bound' at hbind ⊢
    cases hbind with
    | error hcause hevents => exact ⟨{ hreport with error? := .some hcause }, hevents⟩
    | ok hc hevents =>
      obtain ⟨hne, rfl⟩ := Callable.eq_of_bind hbound
      obtain ⟨hne', rfl⟩ := Callable.eq_of_bind hbound'
      have hcalls : kept p.region.ticket → _ := fun hkept =>
        And.intro ((hdiscreet hkept).1.nullary times capture rfl hne)
          ((hdiscreet hkept).2.nullary times capture rfl hne')
      refine ⟨?_, hevents⟩
      dsimp only
      rw [Callable.callTimes_eq, Callable.callTimes_eq]
      exact reportCalls_alike left left' hp hcalls (fun made => captured capture made.writes)
        (fun _ => none) (fun _ _ => by rw [isSome_captured, isSome_captured]) fun _ _ => rfl
  | unary args =>
    have hbind := Callable.bind_alike hp .unary
    unfold useOf
    dsimp only
    generalize hbound : Callable.bind p .unary = bound at hbind ⊢
    generalize hbound' : Callable.bind p' .unary = bound' at hbind ⊢
    cases hbind with
    | error hcause hevents => exact ⟨{ hreport with error? := .some hcause }, hevents⟩
    | ok hc hevents =>
      obtain ⟨hne, rfl⟩ := Callable.eq_of_bind hbound
      obtain ⟨hne', rfl⟩ := Callable.eq_of_bind hbound'
      have hcalls : kept p.region.ticket → _ := fun hkept =>
        And.intro ((hdiscreet hkept).1.unary args rfl hne) ((hdiscreet hkept).2.unary args rfl hne')
      exact ⟨reportCalls_alike left left' hp hcalls (fun _ => none) (fun made => some made.results)
        (fun _ _ => rfl) fun _ _ => rfl, hevents⟩

end

namespace Alike

variable {s s' : Session}

theorem acquire (h : s.Alike placed kept s') (hkernel : kernel.Impartial)
    (hplaced : placed → kernel.PlacesAlike) (name : String) (size : Nat) :
    (s.acquire kernel name size .rwx).Alike placed kept (s'.acquire kernel name size .staged) := by
  have hacquire : ResultAlike placed (Region.Alike placed kept) _ _ :=
    Region.acquire_alike hkernel hplaced s.tickets size
  have hdropped := dropped_alike (h.regions.get? name)
  unfold Session.acquire
  rw [h.tickets]
  generalize Region.acquire kernel s.tickets size .rwx = made at hacquire ⊢
  generalize Region.acquire kernel s.tickets size .staged = made' at hacquire ⊢
  have hnext := h.nextTicket
  rw [h.tickets] at hnext
  cases hacquire with
  | error hcause hevents => exact ⟨.answer (.failed hcause) hevents, hnext⟩
  | ok hr hevents =>
    exact ⟨.answer (.region hr) (hevents.append hdropped), hnext.setRegion name hr⟩

theorem load (h : s.Alike placed kept s') (hkernel : kernel.Impartial) (name : String)
    (image : Image) {r r' : Region} (hr : r.Alike placed kept r') {use : Use}
    (hdiscreet : kept r.ticket → ∀ p p', (r.load kernel image).answer = .ok p →
      (r'.load kernel image).answer = .ok p' → use.Discreet kernel p ∧ use.Discreet kernel p') :
    (s.load kernel name image r use).Alike placed kept
      (s'.load kernel name image r' use) := by
  obtain ⟨hleft, hload⟩ := hr.load hkernel image
  unfold Session.load
  generalize r.load kernel image = attempt at hleft hload hdiscreet ⊢
  generalize r'.load kernel image = attempt' at hleft hload hdiscreet ⊢
  obtain ⟨answer, left, reports⟩ := attempt
  obtain ⟨answer', left', reports'⟩ := attempt'
  cases hload with
  | error hcause hreports =>
    refine ⟨.answer (.loaded ?_) hreports, h.setRegion name hleft⟩
    exact ⟨hleft, .none, .none, .some hcause, rfl, rfl, fun _ _ => ⟨rfl, rfl, rfl⟩⟩
  | @ok p p' _ _ hp hreports =>
    obtain ⟨hticket, hp⟩ := hp
    obtain ⟨hused, hevents⟩ := useOf_alike hleft hp fun hkept =>
      hdiscreet (hticket ▸ hkept) p p' rfl rfl
    exact ⟨.answer (.loaded hused) (hreports.append hevents), h.setRegion name hused.region⟩

/-! ## Routines -/

theorem keepRoutine (h : s.Alike placed kept s') (name : String)
    {made made' : Except Error Routine × List Event}
    (hmade : ResultAlike placed (Routine.Alike placed kept) made made') :
    (s.keepRoutine name made).Alike placed kept (s'.keepRoutine name made') := by
  have hdropped : Event.AllAlike placed (dropped ((s.routines.get? name).map Routine.region))
      (dropped ((s'.routines.get? name).map Routine.region)) := by
    have hget := h.routines.get? name
    generalize s.routines.get? name = found at hget ⊢
    generalize s'.routines.get? name = found' at hget ⊢
    apply dropped_alike
    cases hget with
    | none => exact .none
    | some hr => exact .some hr.region
  cases hmade with
  | error hcause hevents => exact ⟨.answer (.failed hcause) hevents, h.nextTicket⟩
  | ok hr hevents =>
    exact ⟨.answer (.routine hr) (hevents.append hdropped), h.nextTicket.setRoutine name hr⟩

theorem runRoutine (h : s.Alike placed kept s') (name : String) {r r' : Routine}
    (hr : r.Alike placed kept r') {calls : Nat} {capture : Option UInt32}
    (hdiscreet : kept r.region.ticket →
      r.DiscreetRuns (kernel.services (accepting capture)) (List.replicate calls .idle) ∧
        r'.DiscreetRuns (kernel.services (accepting capture)) (List.replicate calls .idle)) :
    (s.runRoutine kernel name r calls capture).Alike placed kept
      (s'.runRoutine kernel name r' calls capture) := by
  have hruns := hr.runTimes hdiscreet
  have hafter := hr.after_runAll hdiscreet
  have hticket : (r.after (r.runAll (kernel.services (accepting capture))
      (List.replicate calls .idle)).calls).region.ticket = r.region.ticket :=
    (r.ran_runAll _ _).remains.ticket
  rw [← Routine.runTimes_eq_runAll, ← Routine.runTimes_eq_runAll] at hafter
  rw [← Routine.runTimes_eq_runAll] at hticket
  unfold Session.runRoutine
  generalize r.runTimes (kernel.services (accepting capture)) .idle calls = runs
    at hruns hafter hticket ⊢
  generalize r'.runTimes (kernel.services (accepting capture)) .idle calls = runs' at hruns hafter ⊢
  obtain ⟨made, error?, events⟩ := runs
  obtain ⟨made', error?', events'⟩ := runs'
  obtain ⟨hcalls, herror, hevents⟩ := hruns
  have hsession := h.setRoutine name hafter
  rw [← hticket] at hcalls hevents
  cases herror with
  | some hcause => exact ⟨.answer (.failed hcause) (hevents nofun), hsession⟩
  | none =>
    refine ⟨.ran hafter ?_ (fun hplaced hkept => ?_) fun hboth hsome =>
      hevents fun _ => ⟨hboth, hsome⟩, hsession⟩
    · rw [isSome_captured, isSome_captured]
    · obtain rfl : made' = made := hcalls hplaced hkept
      exact ⟨rfl, rfl⟩

/-! ## One step -/

/-- **Every step keeps sessions alike**, and its replies are alike. -/
theorem perform (h : s.Alike placed kept s') (hkernel : kernel.Impartial)
    (hplaced : placed → kernel.PlacesAlike) {step : Step}
    (hdiscreet : ∀ ticket, kept ticket → Discreet kernel ticket s (step.under .rwx) ∧
      Discreet kernel ticket s' (step.under .staged)) :
    (s.perform kernel (step.under .rwx)).Alike placed kept
      (s'.perform kernel (step.under .staged)) := by
  -- the steps on drafts and images find the same in both sessions and leave the regions alone
  cases step with
  | draft name bytes => exact (h.setDraft name _).answeringSame _
  | edit name e => exact h.edit name e
  | measure name =>
    simp only [Step.under, Session.perform, h.draftOrEmpty]
    exact (h.setDraft name _).answeringSame _
  | copyDraft name copy =>
    exact h.withDraft name fun draft => (h.setDraft copy draft).answeringSame _
  | finish name copy =>
    simp only [Step.under, Session.perform, h.draftOrEmpty, h.drafts]
    have herased : Alike placed kept { s with drafts := s.drafts.erase name }
      { s' with drafts := s.drafts.erase name } := { h with drafts := rfl }
    exact (herased.setImage copy _).answeringSame _
  | showImage name => exact h.withImage name fun image _ => h.answeringSame _
  | copyImage name copy =>
    exact h.withImage name fun image _ => (h.setImage copy image).answeringSame _
  | resolve name site target =>
    exact h.withSite site fun site => h.withImage name fun image _ => h.resolve name site target image
  | showSite site targets =>
    refine h.withSite site fun site => ?_
    rw [h.sites]
    exact h.answeringSame _
  | list name => exact h.withImage name fun image _ => h.answeringSame _
  | greeting name =>
    exact h.withStub Stub.standardOutput Stub.greeting fun stub => h.resolvedStub name stub
  | stub name descriptor message =>
    exact h.withStub descriptor message fun stub => ((h.setImage name _).addSite _).answeringSame _
  | resolvedStub name descriptor message =>
    exact h.withStub descriptor message fun stub => h.resolvedStub name stub
  | measureStub length =>
    simp only [Step.under, Session.perform]
    split <;> exact h.answeringSame _
  | pageSize => exact h.answeringSame _
  | strategy strategy => exact h.answeringSame _
  -- only the steps that make or use a region have anything to do with the strategy
  | acquire name size strategy => exact h.acquire hkernel hplaced name size
  | showRegion name => exact h.withRegion name fun r r' _ _ hr => h.answering (.region hr)
  | describeRegion name onLines =>
    refine h.withRegion name fun r r' _ _ hr => h.answering ?_
    exact .described hr onLines fun hloaded => describe_eq hr hloaded onLines
  | dropRegion name =>
    refine h.withRegion name fun r r' _ _ hr => ⟨.answer (.same _) (.singleton hr.release), ?_⟩
    exact { h with regions := h.regions.erase name }
  | load image name use =>
    refine h.withImage image fun i hi => h.withRegion name fun r r' hfound hfound' hr => ?_
    have hi' : s'.images.get? image = some i := by rw [h.images, hi]
    refine h.load hkernel name i hr fun hkept p p' hp hp' => ?_
    obtain ⟨hrwx, hstaged⟩ := hdiscreet r.ticket hkept
    exact ⟨hrwx.load image name use i r p rfl hi hfound hp rfl,
      hstaged.load image name use i r' p' rfl hi' hfound' hp' hr.ticket⟩
  | routine image name strategy =>
    refine h.withImage image fun image _ => h.keepRoutine name ?_
    rw [h.tickets]
    exact Routine.create_alike hkernel hplaced s.tickets image
  | writer name descriptor message strategy =>
    refine h.keepRoutine name ?_
    rw [h.tickets]
    exact Routine.writing_alike hkernel hplaced s.tickets descriptor message
  | bindRoutine name =>
    refine h.withRoutine name fun r r' _ _ hr => ?_
    have hbind := Callable.bind_alike hr .nullary
    unfold Routine.callable
    generalize Callable.bind r.payload .nullary = bound at hbind ⊢
    generalize Callable.bind r'.payload .nullary = bound' at hbind ⊢
    cases hbind with
    | ok hc hevents => exact ⟨.answer (.callable hc) hevents, h⟩
    | error hcause hevents => exact ⟨.answer (.failed hcause) hevents, h⟩
  | runRoutine name calls capture =>
    refine h.withRoutine name fun r r' hfound hfound' hr => h.runRoutine name hr fun hkept => ?_
    obtain ⟨hrwx, hstaged⟩ := hdiscreet r.region.ticket hkept
    have hticket : r'.region.ticket = r.region.ticket := hr.region.ticket
    exact ⟨hrwx.run name calls capture r rfl hfound rfl,
      hstaged.run name calls capture r' rfl hfound' hticket⟩
  | dropRoutine name =>
    refine h.withRoutine name fun r r' _ _ hr =>
      ⟨.answer (.same _) (.singleton hr.region.release), ?_⟩
    exact { h with routines := h.routines.erase name }

/-! ## All steps -/

theorem run (h : s.Alike placed kept s') (hkernel : kernel.Impartial)
    (hplaced : placed → kernel.PlacesAlike) {steps : List Step}
    (hdiscreet : ∀ ticket, kept ticket →
      DiscreetRun kernel ticket s (steps.map (Step.under .rwx)) ∧
        DiscreetRun kernel ticket s' (steps.map (Step.under .staged))) :
    List.Forall₂ (ReplyAlike placed kept) (run kernel s (steps.map (Step.under .rwx))).1
        (run kernel s' (steps.map (Step.under .staged))).1 ∧
      (run kernel s (steps.map (Step.under .rwx))).2.Alike placed kept
        (run kernel s' (steps.map (Step.under .staged))).2 := by
  induction steps generalizing s s' with
  | nil => exact ⟨.nil, h⟩
  | cons step steps ih =>
    have hstep := h.perform hkernel hplaced fun ticket hkept =>
      ⟨(hdiscreet ticket hkept).1.cons.1, (hdiscreet ticket hkept).2.cons.1⟩
    obtain ⟨hreplies, hlast⟩ := ih hstep.session fun ticket hkept =>
      ⟨(hdiscreet ticket hkept).1.cons.2, (hdiscreet ticket hkept).2.cons.2⟩
    exact ⟨.cons hstep.reply hreplies, hlast⟩

theorem close (h : s.Alike placed kept s') : Event.AllAlike placed s.close s'.close := by
  unfold Session.close
  refine Event.AllAlike.append ?_ ?_
  · exact List.rel_map (fun {entry entry'} hentry => hentry.2.release) h.regions
  · exact List.rel_map (fun {entry entry'} hentry => Region.Alike.release hentry.2.region) h.routines

end Alike

/-- Loads code into a region and calls it once. -/
def calling (code : List UInt8) : List Step :=
  [.draft "code" code, .finish "code" "image", .acquire "region" 32 .rwx,
    .load "image" "region" (.unary [0])]

end Session

end Emplace
