import Emplace.Proofs.Region.Ledger
import Emplace.Proofs.Region.Loaded
import Emplace.Proofs.Session.Discretion
import Emplace.Proofs.Session.Effect
import Emplace.Proofs.Session.Tables

/-
  What a session holds, step by step.

  The stock of a session (`Session.stock`) are the regions in its table and those of its routines.
  Every step changes it by turns, whose events are those of the step (`Follows.turns`): to make a
  routine, say, is to acquire a region, to load it, and to release it if that fails; to keep it is to
  release the one it replaces.

  For this the session has to be `Sound`: the names in its tables are distinct, so that what is
  replaced is the one thing that is dropped, and each routine held an image, as the log says.
  Sessions that begin with nothing are sound at all times (`Sound.run`).

  What a step makes and shows is told along with it: a payload holds the image that was loaded
  (`Follows.made`), and what an answer or a routine shows later is such a payload as its code has
  left it (`Payload.Continues`).  Some regions may be known to be `steady`: code leaves them as they
  were.
-/

namespace Emplace

/-! ## Payloads that code has changed -/

/-- The payload as its own code has left it, which changes no region for which `steady` holds. -/
structure Payload.Continues (steady : Region → Prop) (p q : Payload) : Prop where
  ran : p.region.Ran q.region
  length : q.length = p.length
  same : steady p.region → q = p

theorem Payload.Continues.refl (steady : Region → Prop) (p : Payload) : Continues steady p p :=
  ⟨.refl _, rfl, fun _ => rfl⟩

theorem Payload.Continues.trans {steady : Region → Prop} {p q r : Payload} (h : Continues steady p q)
    (h' : Continues steady q r) : Continues steady p r :=
  ⟨h.ran.trans h'.ran, h'.length.trans h.length, fun hsteady =>
    (h'.same (h.same hsteady ▸ hsteady)).trans (h.same hsteady)⟩

/-- What was loaded is told of in the log. -/
def Payload.ToldIn (p : Payload) (log : List Event) : Prop :=
  .payloadLoaded p.region.ticket p.length p.region.base ∈ log

theorem Payload.ToldIn.append {p : Payload} {log : List Event} (h : p.ToldIn log)
    (events : List Event) : p.ToldIn (log ++ events) :=
  List.mem_append_left events h

/-- Code does not change where it lies. -/
theorem Payload.ToldIn.continues {steady : Region → Prop} {p q : Payload} {log : List Event}
    (h : p.ToldIn log) (hq : Payload.Continues steady p q) : q.ToldIn log := by
  unfold ToldIn
  rw [hq.ran.remains.ticket, hq.ran.remains.base, hq.length]
  exact h

/-- A load that succeeds says so. -/
theorem Region.toldIn_of_load {r : Region} (hr : r.Reachable) {kernel : Kernel} {image : Image}
    {p : Payload} (h : (r.load kernel image).answer = .ok p) :
    p.ToldIn (r.load kernel image).events := by
  obtain ⟨o, rfl, -, rfl⟩ := exists_origin_of_load hr h
  rw [o.load_region] at h ⊢
  unfold Payload.ToldIn
  rw [o.ticket_region, o.base_region (by simp)]
  cases hrefusal : o.refusal? kernel image .empty with
  | none =>
    rw [Origin.loadEvents, hrefusal]
    exact List.mem_singleton.mpr rfl
  | some e =>
    rw [hrefusal] at h
    cases h

/-- The payload held an image, was told of then, and is as its code has left it since. -/
structure Payload.Lasts (p : Payload) (log : List Event) : Prop where
  held : ∃ q image, q.Holds image ∧ Payload.Continues (fun _ => False) q p
  told : p.ToldIn log

theorem Payload.Lasts.append {p : Payload} {log : List Event} (h : p.Lasts log)
    (events : List Event) : p.Lasts (log ++ events) :=
  ⟨h.held, h.told.append events⟩

theorem Payload.Lasts.continues {steady : Region → Prop} {p q : Payload} {log : List Event}
    (h : p.Lasts log)
    (hq : Payload.Continues steady p q) : q.Lasts log := by
  obtain ⟨first, image, hholds, hlasts⟩ := h.held
  exact ⟨⟨first, image, hholds, hlasts.ran.trans hq.ran, hq.length.trans hlasts.length,
    False.elim⟩, h.told.continues hq⟩

/-- Its region is still marked as loaded. -/
theorem Payload.Lasts.loaded {p : Payload} {log : List Event} (h : p.Lasts log) :
    p.region.loaded = true := by
  obtain ⟨first, image, ⟨o, -, rfl⟩, hlasts⟩ := h.held
  have hran : (o.region (.holding image)).Ran p.region := hlasts.ran
  exact hran.remains.loaded

/-! ## Turns -/

namespace Turns

variable {kernel : Kernel} {steady : Region → Prop} {log : List Event} {n : Nat}
  {rest : List Region}

/-- Dropping what may be there. -/
theorem dropped (old? : Option Region) :
    Turns kernel steady log ⟨n, old?.toList ++ rest⟩ (Session.dropped old?) ⟨n, rest⟩ := by
  cases old? with
  | none => exact .nil _ _
  | some r => exact .single .release

/-- A region takes the place of what may be there, which is dropped. -/
theorem replace {a : Stock} {events : List Event} {r : Region} {held held' : List Region}
    {old? : Option Region} (h : Turns kernel steady log a events ⟨n, r :: held⟩)
    (hbefore : held.Perm (old?.toList ++ rest)) (hafter : held'.Perm (r :: rest)) :
    Turns kernel steady log a (events ++ Session.dropped old?) ⟨n, held'⟩ := by
  -- what is dropped comes to the front
  have hfront : (r :: held).Perm (old?.toList ++ (r :: rest)) :=
    (hbefore.cons r).trans List.perm_middle.symm
  exact (h.perm hfront).append ((dropped old?).perm hafter.symm)

/-- Everything is released in the end. -/
theorem releases (held : List Region) :
    Turns kernel steady log ⟨n, held⟩ (held.map Region.release) ⟨n, []⟩ := by
  induction held generalizing log with
  | nil => exact .nil _ _
  | cons r rest ih => exact .cons .release ih

theorem bind {p : Payload} (hp : p.ToldIn log) (shape : Shape) :
    Turns kernel steady log ⟨n, p.region :: rest⟩ (Callable.bind p shape).2
      ⟨n, p.region :: rest⟩ := by
  unfold Callable.bind
  split
  · exact .nil _ _
  · exact .single (.bind hp shape.args shape.returns)

/-- A payload is bound some number of times. -/
theorem binds {p : Payload} (hp : p.ToldIn log) (shape : Shape) (k : Nat) :
    Turns kernel steady log ⟨n, p.region :: rest⟩
      (List.replicate k (Callable.bind p shape).2).flatten ⟨n, p.region :: rest⟩ := by
  induction k generalizing log with
  | zero => exact .nil _ _
  | succ k ih =>
    rw [List.replicate_succ, List.flatten_cons]
    exact (bind hp shape).append (ih (hp.append _))

/-- Code is called, and leaves its region as it does. -/
theorem called {p q : Payload} (hloaded : p.region.loaded = true)
    (hq : Payload.Continues steady p q) :
    Turns kernel steady log ⟨n, p.region :: rest⟩ [] ⟨n, q.region :: rest⟩ := by
  by_cases hsteady : steady p.region
  · rw [hq.same hsteady]
    exact .nil _ _
  · exact .single (.run hsteady hloaded hq.ran)

end Turns

/-! ## Routines -/

namespace Routine

variable {kernel : Kernel} {steady : Region → Prop} {log : List Event} {n : Nat} {held : List Region}
  {r : Routine}

/-- What making a routine comes to: one more region that holds the image, or the same as before. -/
inductive Made (kernel : Kernel) (steady : Region → Prop) (log : List Event) (n : Nat)
    (held : List Region)
    (image? : Option Image) : Except Error Routine × List Event → Prop
  | ok {routine : Routine} {image : Image} {events : List Event}
      (turns : Turns kernel steady log ⟨n, held⟩ events ⟨n + 1, routine.region :: held⟩)
      (loaded : image? = some image) (holds : routine.payload.Holds image)
      (told : routine.payload.ToldIn events) :
      Made kernel steady log n held image? (.ok routine, events)
  | error {cause : Error} {events : List Event}
      (turns : Turns kernel steady log ⟨n, held⟩ events ⟨n + 1, held⟩) :
      Made kernel steady log n held image? (.error cause, events)

/-- A refused acquisition has nothing to do with any region. -/
theorem region?_of_acquire_error {size : Nat} {strategy : Strategy} {cause : Error}
    {events : List Event}
    (h : Region.acquire kernel n size strategy = (.error cause, events)) :
    ∀ e ∈ events, e.region? = none := by
  obtain ⟨denial, -, rfl | rfl⟩ := Region.eq_of_acquire_error h
  · exact List.forall_mem_nil _
  · exact List.forall_mem_singleton.mpr rfl

theorem create_made (kernel : Kernel) (steady : Region → Prop) (log : List Event) (n : Nat)
    (held : List Region) (image : Image) (strategy : Strategy) :
    Made kernel steady log n held (some image) (create kernel n image strategy) := by
  unfold create
  split
  · rename_i cause events hacquire
    exact .error (.single (.quiet (Nat.le_succ n) (.refl held) (region?_of_acquire_error hacquire)))
  · rename_i r events hacquire
    have hload : Turns kernel steady log ⟨n, held⟩ (events ++ (r.load kernel image).events)
        ⟨n + 1, (r.load kernel image).region :: held⟩ :=
      (Turns.single (.acquire hacquire)).append (.single (.load image))
    dsimp only
    split
    · rename_i p hp
      obtain ⟨hregion, hholds⟩ := Region.holds_of_load (.acquired hacquire) hp
      have htold := Region.toldIn_of_load (.acquired hacquire) hp
      rw [hregion] at hload
      exact .ok hload rfl hholds (List.mem_append_right events htold)
    · exact .error (hload.append (.single .release))

theorem create_of_acquire_error {image : Image} {strategy : Strategy} {cause : Error}
    {events : List Event}
    (h : Region.acquire kernel n image.size strategy = (.error cause, events)) :
    create kernel n image strategy = (.error cause, events) := by
  unfold create
  split
  · rename_i e events' hacquire
    obtain ⟨he, rfl⟩ := Prod.mk.inj (hacquire.symm.trans h)
    rw [Except.error.inj he]
  · rename_i r events' hacquire
    cases hacquire.symm.trans h

/-- The image that a writer of the message is made from. -/
def writer? (descriptor : UInt32) (message : List UInt8) : Option Image :=
  match Stub.writing descriptor message with
  | .error _ => none
  | .ok stub =>
      match stub.resolve with
      | .error _ => none
      | .ok (_, image) => some image

/-- A writer is a routine whose image has to be finished first. -/
theorem writing_cases (kernel : Kernel) (n : Nat) (descriptor : UInt32) (message : List UInt8)
    (strategy : Strategy) :
    (∃ cause, writer? descriptor message = none ∧
      writing kernel n descriptor message strategy = (.error cause, [])) ∨
    ∃ image field target distance, writer? descriptor message = some image ∧
      writing kernel n descriptor message strategy =
        ((create kernel n image strategy).1,
          .siteResolved field target distance :: (create kernel n image strategy).2) := by
  unfold writing writer?
  cases hstub : Stub.writing descriptor message with
  | error cause => exact .inl ⟨cause, rfl, rfl⟩
  | ok stub =>
    dsimp only
    cases hresolve : stub.resolve with
    | error cause => exact .inl ⟨cause, rfl, rfl⟩
    | ok resolved =>
      refine .inr ⟨resolved.2, stub.site.field, stub.message, resolved.1, rfl, ?_⟩
      dsimp only

theorem writing_made (kernel : Kernel) (steady : Region → Prop) (log : List Event) (n : Nat)
    (held : List Region) (descriptor : UInt32) (message : List UInt8) (strategy : Strategy) :
    Made kernel steady log n held (writer? descriptor message)
      (writing kernel n descriptor message strategy) := by
  rcases writing_cases kernel n descriptor message strategy with
    ⟨cause, -, hwriting⟩ | ⟨image, field, target, distance, hwriter, hwriting⟩
  · rw [hwriting]
    exact .error (.single (.quiet (Nat.le_succ n) (.refl held) (List.forall_mem_nil _)))
  · have hquiet : Turn kernel steady log ⟨n, held⟩ [.siteResolved field target distance]
        ⟨n, held⟩ :=
      .quiet (Nat.le_refl n) (.refl held) (List.forall_mem_singleton.mpr rfl)
    have hmade := create_made kernel steady (log ++ [.siteResolved field target distance]) n held
      image strategy
    rw [hwriting, hwriter]
    generalize create kernel n image strategy = made at hmade ⊢
    cases hmade with
    | error turns => exact .error (Turns.cons hquiet turns)
    | ok turns loaded holds told =>
      exact .ok (Turns.cons hquiet turns) loaded holds (List.mem_cons_of_mem _ told)

/-- Runs report one binding after the other, and leave the routine as its code does. -/
theorem continues_runTimes {services : X64.Services} {frame : Frame} {calls : Nat}
    (hsame : steady r.region → (r.runTimes services frame calls).calls.changed? = none) :
    (∃ k, (r.runTimes services frame calls).events =
      (List.replicate k (Callable.bind r.payload .nullary).2).flatten) ∧
    Payload.Continues steady r.payload (r.after (r.runTimes services frame calls).calls).payload := by
  rw [runTimes_eq_runAll] at hsame ⊢
  constructor
  · by_cases hlength : r.length = 0
    · cases calls with
      | zero => exact ⟨0, rfl⟩
      | succ calls =>
        rw [List.replicate_succ, runAll_of_length_eq hlength]
        exact ⟨0, rfl⟩
    · obtain ⟨k, -, hall, -⟩ := exists_runAll_eq hlength services (List.replicate calls frame)
      have hbind : (Callable.bind r.payload .nullary).2 = [r.binding] := by
        rw [show Callable.bind r.payload .nullary = (.ok ⟨r.payload, .nullary⟩, [r.binding]) from
          if_neg hlength]
      rw [hall, hbind]
      exact ⟨k, (List.flatten_replicate_singleton ..).symm⟩
  · refine ⟨r.ran_runAll services _, rfl, fun hsteady => ?_⟩
    simp only [after, hsame hsteady, Option.getD_none]

end Routine

namespace Session

/-! ## The stock of a session -/

def stock (s : Session) : Stock :=
  ⟨s.tickets, s.regions.values ++ s.routines.values.map Routine.region⟩

/-- The session is as sessions come up that have reported the log. -/
structure Sound (s : Session) (log : List Event) : Prop where
  regionNames : s.regions.Distinct
  routineNames : s.routines.Distinct
  regions : ∀ r ∈ s.regions.values, r.Reachable
  routines : ∀ routine ∈ s.routines.values, routine.payload.Lasts log

theorem Sound.empty : Sound .empty [] := ⟨.nil, .nil, nofun, nofun⟩

/-- The regions beside those under a name, in the table of regions. -/
def besideRegion (s : Session) (name : String) : List Region :=
  (s.regions.erase name).values ++ s.routines.values.map Routine.region

/-- The regions beside those under a name, in the table of routines. -/
def besideRoutine (s : Session) (name : String) : List Region :=
  s.regions.values ++ (s.routines.erase name).values.map Routine.region

variable {s : Session} {kernel : Kernel} {steady : Region → Prop} {log : List Event}

theorem held_perm_region (h : s.Sound log) (name : String) :
    s.stock.held.Perm ((s.regions.get? name).toList ++ s.besideRegion name) := by
  have hperm := (Table.values_perm h.regionNames name).append_right
    (s.routines.values.map Routine.region)
  rw [List.append_assoc] at hperm
  exact hperm

theorem held_setRegion (s : Session) (name : String) (r : Region) :
    (s.setRegion name r).stock.held.Perm (r :: s.besideRegion name) :=
  (Table.values_set name r s.regions).append_right (s.routines.values.map Routine.region)

theorem held_perm_routine (h : s.Sound log) (name : String) :
    s.stock.held.Perm (((s.routines.get? name).map Routine.region).toList ++
      s.besideRoutine name) := by
  have hperm := ((Table.values_perm h.routineNames name).map Routine.region).append_left
    s.regions.values
  have hmap : ((s.routines.get? name).toList ++ (s.routines.erase name).values).map Routine.region =
      ((s.routines.get? name).map Routine.region).toList ++
        (s.routines.erase name).values.map Routine.region := by
    rw [List.map_append]
    cases s.routines.get? name <;> rfl
  rw [hmap] at hperm
  refine hperm.trans ?_
  rw [besideRoutine, ← List.append_assoc, ← List.append_assoc]
  exact List.perm_append_comm.append_right _

theorem held_setRoutine (s : Session) (name : String) (r : Routine) :
    (s.setRoutine name r).stock.held.Perm (r.region :: s.besideRoutine name) := by
  have hperm := ((Table.values_set name r s.routines).map Routine.region).append_left
    s.regions.values
  exact hperm.trans List.perm_middle

/-! ## One step -/

/-- The image that a step is to load. -/
def loads? (s : Session) : Step → Option Image
  | .load image _ _ => s.images.get? image
  | .routine image _ _ => s.images.get? image
  | .writer _ descriptor message _ => Routine.writer? descriptor message
  | _ => none

/-- The payload that a step has made. -/
def Answer.made? : Answer → Option Payload
  | .loaded report => report.payload?
  | .routine r => some r.payload
  | _ => none

theorem mem_payloads_of_made? {answer : Answer} {p : Payload} (h : answer.made? = some p) :
    p ∈ answer.payloads := by
  cases answer with
  | loaded report =>
    have hp : report.payload? = some p := h
    show p ∈ report.payload?.toList ++ _
    rw [hp]
    exact List.mem_append_left _ (List.mem_singleton.mpr rfl)
  | routine r =>
    obtain rfl := Option.some.inj h
    exact List.mem_singleton.mpr rfl
  | _ => cases h

/-- The step has made the payload just now, or there was a routine with it. -/
def Knows (s : Session) (answer : Answer) (p : Payload) : Prop :=
  answer.made? = some p ∨ p ∈ s.routines.values.map Routine.payload

/-- What follows from a step, where the log tells of those before it. -/
structure Follows (kernel : Kernel) (steady : Region → Prop) (log : List Event) (s : Session)
    (step : Step) (a : Outcome) : Prop where
  sound : a.session.Sound (log ++ a.events)
  turns : Turns kernel steady log s.stock a.events a.session.stock
  made : ∀ p, a.answer.made? = some p →
    (∃ image, s.loads? step = some image ∧ p.Holds image) ∧
    ∃ q, Payload.Continues steady p q ∧ q.region ∈ a.session.stock.held
  payloads : ∀ q ∈ a.answer.payloads, ∃ p, s.Knows a.answer p ∧ Payload.Continues steady p q
  routines : ∀ routine ∈ a.session.routines.values,
    ∃ p, s.Knows a.answer p ∧ Payload.Continues steady p routine.payload

/-- Only the tables of regions and routines matter. -/
theorem Sound.congr {s' : Session} (h : s.Sound log) (hregions : s'.regions = s.regions)
    (hroutines : s'.routines = s.routines) : s'.Sound log := by
  constructor
  · rw [hregions]
    exact h.regionNames
  · rw [hroutines]
    exact h.routineNames
  · rw [hregions]
    exact h.regions
  · rw [hroutines]
    exact h.routines

theorem Sound.append (h : s.Sound log) (events : List Event) : s.Sound (log ++ events) :=
  ⟨h.regionNames, h.routineNames, h.regions, fun r hr => (h.routines r hr).append events⟩

theorem Sound.setRegion (h : s.Sound log) (name : String) {r : Region} (hr : r.Reachable) :
    (s.setRegion name r).Sound log := by
  refine ⟨h.regionNames.set name r, h.routineNames, ?_, h.routines⟩
  intro q hq
  rcases Table.mem_values_set hq with rfl | hq
  · exact hr
  · exact h.regions q hq

theorem Sound.setRoutine (h : s.Sound log) (name : String) {r : Routine}
    (hr : r.payload.Lasts log) : (s.setRoutine name r).Sound log := by
  refine ⟨h.regionNames, h.routineNames.set name r, h.regions, ?_⟩
  intro q hq
  rcases Table.mem_values_set hq with rfl | hq
  · exact hr
  · exact h.routines q hq

/-- A region of a routine in the table is held. -/
theorem mem_held_of_routine {routine : Routine} (h : routine ∈ s.routines.values) :
    routine.region ∈ s.stock.held :=
  List.mem_append_right _ (List.mem_map_of_mem h)

/-- A routine in the table is known. -/
theorem knows_of_routine {routine : Routine} (h : routine ∈ s.routines.values) (answer : Answer) :
    s.Knows answer routine.payload :=
  .inr (List.mem_map_of_mem h)

namespace Follows

variable {step : Step}

/-- Routines that were there before are known. -/
theorem routines_of_subset {a : Outcome}
    (h : ∀ routine ∈ a.session.routines.values, routine ∈ s.routines.values) :
    ∀ routine ∈ a.session.routines.values,
      ∃ p, s.Knows a.answer p ∧ Payload.Continues steady p routine.payload :=
  fun routine hroutine =>
    ⟨_, knows_of_routine (h routine hroutine) a.answer, .refl steady routine.payload⟩

/-- A step that touches no region. -/
theorem still (h : s.Sound log) {a : Outcome} (regions : a.session.regions = s.regions)
    (routines : a.session.routines = s.routines) (tickets : s.tickets ≤ a.session.tickets)
    (events : ∀ e ∈ a.events, e.region? = none) (payloads : a.answer.payloads = []) :
    Follows kernel steady log s step a := by
  have hheld : s.stock.held.Perm a.session.stock.held := by
    rw [stock, stock, regions, routines]
  constructor
  · exact (h.congr regions routines).append a.events
  · exact .single (.quiet tickets hheld events)
  · intro p hp
    have hmem := mem_payloads_of_made? hp
    rw [payloads] at hmem
    cases hmem
  · rw [payloads]
    exact List.forall_mem_nil _
  · apply routines_of_subset
    intro routine hroutine
    rw [routines] at hroutine
    exact hroutine

theorem acquire (h : s.Sound log) (name : String) (size : Nat) (strategy : Strategy) :
    Follows kernel steady log s (.acquire name size strategy)
      (s.acquire kernel name size strategy) := by
  unfold Session.acquire
  generalize hacquire : Region.acquire kernel s.tickets size strategy = made
  obtain ⟨answer, events⟩ := made
  cases answer with
  | error cause =>
    exact .still h rfl rfl (Nat.le_succ _) (Routine.region?_of_acquire_error hacquire) rfl
  | ok r =>
    have hcounted : Sound { s with tickets := s.tickets + 1 } log := h.congr rfl rfl
    have hturn : Turns kernel steady log s.stock events ⟨s.tickets + 1, r :: s.stock.held⟩ :=
      .single (.acquire hacquire)
    constructor
    · exact (hcounted.setRegion name (.acquired hacquire)).append _
    · exact hturn.replace (held_perm_region h name)
        (held_setRegion { s with tickets := s.tickets + 1 } name r)
    · nofun
    · exact List.forall_mem_nil _
    · exact routines_of_subset fun routine hroutine => hroutine

theorem dropRegion (h : s.Sound log) {name : String} {r : Region}
    (hregion : s.regions.get? name = some r) :
    Follows kernel steady log s (.dropRegion name)
      ⟨.text "dropped", { s with regions := s.regions.erase name }, [r.release]⟩ := by
  have hheld := held_perm_region h name
  rw [hregion] at hheld
  have hsound : Sound { s with regions := s.regions.erase name } log := by
    refine ⟨h.regionNames.erase name, h.routineNames, ?_, h.routines⟩
    intro q hq
    exact h.regions q (Table.mem_values_of_mem_erase hq)
  constructor
  · exact hsound.append _
  · exact .of_perm hheld (.single .release)
  · nofun
  · exact List.forall_mem_nil _
  · exact routines_of_subset fun routine hroutine => hroutine

/-- What is reported of the use of a payload, and what its report gives access to. -/
theorem useOf_eq (kernel : Kernel) (report : LoadReport) (p : Payload) (use : Use) :
    ((useOf kernel report p use).2 = [] ∨
      ∃ shape, (useOf kernel report p use).2 = (Callable.bind p shape).2) ∧
    (useOf kernel report p use).1.payload? = report.payload? ∧
    ∀ c, (useOf kernel report p use).1.callable? = some c →
      report.callable? = some c ∨ c.payload = p := by
  cases use with
  | nothing => exact ⟨.inl rfl, rfl, fun c hc => .inl hc⟩
  | nullary _ _ | unary _ =>
    unfold useOf
    dsimp only
    split
    · rename_i cause events hbind
      exact ⟨.inr ⟨_, congrArg Prod.snd hbind.symm⟩, rfl, fun c hc => .inl hc⟩
    · rename_i c events hbind
      refine ⟨.inr ⟨_, congrArg Prod.snd hbind.symm⟩, rfl, ?_⟩
      intro c' hc'
      obtain rfl := Option.some.inj hc'
      obtain ⟨-, rfl⟩ := Callable.eq_of_bind hbind
      exact .inr rfl

/-- The payload goes on in the region that its use leaves. -/
theorem continues_useOf {report : LoadReport} {p : Payload} (h : report.region = p.region)
    {use : Use} (hleaves : steady p.region → ∀ calls, use.Makes kernel p calls →
      calls.changed? = none) :
    Payload.Continues steady p ⟨(useOf kernel report p use).1.region, p.length⟩ := by
  refine ⟨ran_useOf h use, rfl, fun hsteady => ?_⟩
  rcases region_useOf kernel h use with hsame | ⟨calls, hmakes, hcalls⟩
  · rw [hsame]
  · rw [hcalls, Payload.after, hleaves hsteady calls hmakes]
    rfl

/-- A report gives access to the one payload that was loaded. -/
theorem eq_of_mem_payloads {report : LoadReport} {p q : Payload} (hpayload : report.payload? = some p)
    (hcallable : ∀ c, report.callable? = some c → c.payload = p)
    (hq : q ∈ Answer.payloads (.loaded report)) : q = p := by
  rcases List.mem_append.mp hq with hq | hq
  · rw [hpayload] at hq
    exact List.mem_singleton.mp hq
  · obtain ⟨c, hc, rfl⟩ := Option.map_eq_some_iff.mp (Option.mem_toList.mp hq)
    exact hcallable c hc

theorem load (h : s.Sound log) {name image : String} {i : Image} {r : Region} (use : Use)
    (hfound : s.images.get? image = some i) (hregion : s.regions.get? name = some r)
    (hleaves : ∀ q, steady q → s.LeavesAlone kernel (.load image name use) q) :
    Follows kernel steady log s (.load image name use) (s.load kernel name i r use) := by
  have hr : r.Reachable := h.regions r (Table.mem_values_of_get? hregion)
  have hheld := held_perm_region h name
  rw [hregion] at hheld
  have hload : Turns kernel steady log s.stock (r.load kernel i).events
      ⟨s.tickets, (r.load kernel i).region :: s.besideRegion name⟩ :=
    .of_perm hheld (.single (.load i))
  unfold Session.load
  dsimp only
  cases hanswer : (r.load kernel i).answer with
  | error cause =>
    exact ⟨(h.setRegion name (.loaded hr kernel i)).append _,
      hload.perm (held_setRegion s name (r.load kernel i).region).symm, nofun,
      List.forall_mem_nil _, routines_of_subset fun routine hroutine => hroutine⟩
  | ok p =>
    obtain ⟨hleft, hholds⟩ := Region.holds_of_load hr hanswer
    have htold := Region.toldIn_of_load hr hanswer
    have hreachable : p.region.Reachable := hleft ▸ .loaded hr kernel i
    have hloaded : p.region.loaded = true := by
      obtain ⟨o, -, rfl⟩ := hholds
      rfl
    dsimp only
    -- of the report, only what it says of the payload, the callable and the region matters
    generalize hreport :
      (⟨(r.load kernel i).region, some p, none, none, none, .arrived, none⟩ : LoadReport) = report
    have hbefore : report.region = p.region := by rw [← hreport, hleft]
    obtain ⟨hevents, hpayload, hcallable⟩ := useOf_eq kernel report p use
    have hcontinues := continues_useOf hbefore fun hsteady calls hmakes =>
      hleaves p.region hsteady calls (.load hfound hregion hanswer hmakes)
    generalize useOf kernel report p use = used at hevents hpayload hcallable hcontinues ⊢
    subst hreport
    have hmade : Answer.made? (.loaded used.1) = some p := hpayload
    have hafter := (held_setRegion s name used.1.region).symm
    constructor
    · exact (h.setRegion name (hreachable.ran_all hloaded hcontinues.ran)).append _
    · refine hload.append ?_
      rw [hleft]
      have hcalled : ∀ log, Turns kernel steady log ⟨s.tickets, p.region :: s.besideRegion name⟩ []
          (s.setRegion name used.1.region).stock :=
        fun log => (Turns.called hloaded hcontinues).perm hafter
      -- what was loaded is bound as well, unless nothing is done with it
      rcases hevents with hnil | ⟨shape, hbind⟩
      · rw [hnil]
        exact hcalled _
      · have hall := (Turns.bind (List.mem_append_right log htold) shape).append (hcalled _)
        rw [List.append_nil] at hall
        rw [hbind]
        exact hall
    · intro q hq
      obtain rfl := Option.some.inj (hmade.symm.trans hq)
      exact ⟨⟨i, hfound, hholds⟩, _, hcontinues, hafter.mem_iff.mp (List.mem_cons_self ..)⟩
    · intro q hq
      have honly : ∀ c, used.1.callable? = some c → c.payload = p := by
        intro c hc
        rcases hcallable c hc with hnone | heq
        · cases hnone
        · exact heq
      obtain rfl := eq_of_mem_payloads hpayload honly hq
      exact ⟨q, .inl hmade, .refl steady q⟩
    · exact routines_of_subset fun routine hroutine => hroutine

/-- A routine is kept, whichever way it is made. -/
theorem keepRoutine (h : s.Sound log) (name : String) {made : Except Error Routine × List Event}
    (hmade : Routine.Made kernel steady log s.tickets s.stock.held (s.loads? step) made) :
    Follows kernel steady log s step (s.keepRoutine name made) := by
  have hcounted : Sound { s with tickets := s.tickets + 1 } log := h.congr rfl rfl
  cases hmade with
  | error turns =>
    exact ⟨hcounted.append _, turns, nofun, List.forall_mem_nil _,
      routines_of_subset fun routine hroutine => hroutine⟩
  | @ok routine image events turns loaded holds told =>
    constructor
    · refine (hcounted.append _).setRoutine name
        ⟨⟨routine.payload, image, holds, .refl _ _⟩, ?_⟩
      exact List.mem_append_right log (List.mem_append_left _ told)
    · exact turns.replace (held_perm_routine h name)
        (held_setRoutine { s with tickets := s.tickets + 1 } name routine)
    · intro p hp
      obtain rfl := Option.some.inj hp
      exact ⟨⟨image, loaded, holds⟩, routine.payload, .refl steady _,
        mem_held_of_routine (Table.mem_values_set_self name routine s.routines)⟩
    · intro p hp
      obtain rfl := List.mem_singleton.mp hp
      exact ⟨routine.payload, .inl rfl, .refl steady _⟩
    · intro q hq
      rcases Table.mem_values_set hq with rfl | hq
      · exact ⟨q.payload, .inl rfl, .refl steady _⟩
      · exact ⟨q.payload, knows_of_routine hq _, .refl steady _⟩

theorem bindRoutine (h : s.Sound log) {name : String} {r : Routine}
    (hroutine : s.routines.get? name = some r) :
    Follows kernel steady log s (.bindRoutine name)
      (match r.callable with
        | (.error cause, events) => ⟨.failed cause, s, events⟩
        | (.ok callable, events) => ⟨.callable callable, s, events⟩) := by
  have hmem : r ∈ s.routines.values := Table.mem_values_of_get? hroutine
  have hheld := held_perm_routine h name
  rw [hroutine] at hheld
  -- its region is brought to the front, bound, and put back
  have hturns : Turns kernel steady log s.stock r.callable.2 s.stock :=
    .of_perm hheld ((Turns.bind (h.routines r hmem).told .nullary).perm hheld.symm)
  split
  · rename_i cause events hcallable
    rw [hcallable] at hturns
    exact ⟨h.append _, hturns, nofun, List.forall_mem_nil _,
      routines_of_subset fun routine hroutine => hroutine⟩
  · rename_i c events hcallable
    rw [hcallable] at hturns
    refine ⟨h.append _, hturns, nofun, ?_, routines_of_subset fun routine hroutine => hroutine⟩
    intro p hp
    obtain ⟨-, rfl⟩ := Callable.eq_of_bind hcallable
    rw [List.mem_singleton.mp hp]
    exact ⟨r.payload, knows_of_routine hmem _, .refl steady _⟩

theorem runRoutine (h : s.Sound log) {name : String} {r : Routine}
    (hroutine : s.routines.get? name = some r) (calls : Nat) (capture : Option UInt32)
    (hleaves : ∀ q, steady q → s.LeavesAlone kernel (.runRoutine name calls capture) q) :
    Follows kernel steady log s (.runRoutine name calls capture)
      (s.runRoutine kernel name r calls capture) := by
  have hmem : r ∈ s.routines.values := Table.mem_values_of_get? hroutine
  have hlasts := h.routines r hmem
  have hloaded := hlasts.loaded
  have hheld := held_perm_routine h name
  rw [hroutine] at hheld
  have hmakes : s.Makes kernel (.runRoutine name calls capture) r.region _ := .run hroutine
  obtain ⟨⟨k, hk⟩, hcontinues⟩ := Routine.continues_runTimes fun hsteady =>
    hleaves r.region hsteady _ hmakes
  unfold Session.runRoutine
  dsimp only
  generalize r.runTimes (kernel.services (accepting capture)) .idle calls = runs at hk hcontinues ⊢
  have hsound : (s.setRoutine name (r.after runs.calls)).Sound (log ++ runs.events) :=
    (h.append _).setRoutine name ((hlasts.append _).continues hcontinues)
  have hturns : Turns kernel steady log s.stock runs.events
      (s.setRoutine name (r.after runs.calls)).stock := by
    have hbinds : Turns kernel steady log s.stock runs.events
        ⟨s.tickets, r.payload.region :: s.besideRoutine name⟩ := by
      rw [hk]
      exact .of_perm hheld (Turns.binds hlasts.told .nullary k)
    have hall := hbinds.append (Turns.called hloaded hcontinues)
    rw [List.append_nil] at hall
    exact hall.perm (held_setRoutine s name (r.after runs.calls)).symm
  have hroutines : ∀ answer : Answer,
      ∀ routine ∈ (s.setRoutine name (r.after runs.calls)).routines.values,
        ∃ p, s.Knows answer p ∧ Payload.Continues steady p routine.payload := by
    intro answer routine hmem'
    rcases Table.mem_values_set hmem' with rfl | hmem'
    · exact ⟨r.payload, knows_of_routine hmem answer, hcontinues⟩
    · exact ⟨routine.payload, knows_of_routine hmem' answer, .refl steady _⟩
  split
  · exact ⟨hsound, hturns, nofun, List.forall_mem_nil _, hroutines _⟩
  · refine ⟨hsound, hturns, nofun, ?_, hroutines _⟩
    intro p hp
    rw [List.mem_singleton.mp hp]
    exact ⟨r.payload, knows_of_routine hmem _, hcontinues⟩

theorem dropRoutine (h : s.Sound log) {name : String} {r : Routine}
    (hroutine : s.routines.get? name = some r) :
    Follows kernel steady log s (.dropRoutine name)
      ⟨.text "dropped", { s with routines := s.routines.erase name }, [r.region.release]⟩ := by
  have hheld := held_perm_routine h name
  rw [hroutine] at hheld
  have hsound : Sound { s with routines := s.routines.erase name } log := by
    refine ⟨h.regionNames, h.routineNames.erase name, h.regions, ?_⟩
    intro q hq
    exact h.routines q (Table.mem_values_of_mem_erase hq)
  constructor
  · exact hsound.append _
  · exact .of_perm hheld (.single .release)
  · nofun
  · exact List.forall_mem_nil _
  · exact routines_of_subset fun routine hroutine => Table.mem_values_of_mem_erase hroutine

end Follows

/-- **Every step goes by turns**, and leaves the session sound. -/
theorem perform_follows (h : s.Sound log) (step : Step)
    (hleaves : ∀ r, steady r → s.LeavesAlone kernel step r) :
    Follows kernel steady log s step (s.perform kernel step) := by
  have heffect := perform_effect kernel s step
  generalize s.perform kernel step = a at heffect ⊢
  cases heffect with
  | still regions routines tickets events payloads =>
    exact .still h regions routines (Nat.le_of_eq tickets.symm) events payloads
  | acquire name size strategy => exact .acquire h name size strategy
  | dropRegion region => exact .dropRegion h region
  | load use found region => exact .load h use found region hleaves
  | routine name strategy found =>
    refine .keepRoutine h name ?_
    rw [loads?, found]
    exact Routine.create_made ..
  | writer name descriptor message strategy =>
    exact .keepRoutine h name (Routine.writing_made ..)
  | bindRoutine routine => exact .bindRoutine h routine
  | runRoutine calls capture routine => exact .runRoutine h routine calls capture hleaves
  | dropRoutine routine => exact .dropRoutine h routine

/-! ## What a step asks for -/

/-- The size and the strategy of the mapping that a step asks for. -/
def wants? (s : Session) : Step → Option (Nat × Strategy)
  | .acquire _ size strategy => some (size, strategy)
  | .routine image _ strategy => (s.images.get? image).map fun i => (i.size, strategy)
  | .writer _ descriptor message strategy =>
      (Routine.writer? descriptor message).map fun i => (i.size, strategy)
  | _ => none

/-- A refused mapping is all that comes of the step. -/
theorem perform_of_acquire_error {step : Step} {size : Nat} {strategy : Strategy} {cause : Error}
    {events : List Event} (hwants : s.wants? step = some (size, strategy))
    (hrefused : Region.acquire kernel s.tickets size strategy = (.error cause, events)) :
    (s.perform kernel step).answer = .failed cause ∧
      (s.perform kernel step).session = { s with tickets := s.tickets + 1 } ∧
      ∀ e ∈ (s.perform kernel step).events, e.region? = none := by
  have hquiet : ∀ e ∈ events, e.region? = none := Routine.region?_of_acquire_error hrefused
  cases step with
  | acquire name size' strategy' =>
    obtain ⟨rfl, rfl⟩ := Prod.mk.inj (Option.some.inj hwants)
    show (s.acquire kernel name size' strategy').answer = _ ∧
      (s.acquire kernel name size' strategy').session = _ ∧
      ∀ e ∈ (s.acquire kernel name size' strategy').events, _
    unfold Session.acquire
    generalize Region.acquire kernel s.tickets size' strategy' = made at hrefused ⊢
    rw [hrefused]
    exact ⟨rfl, rfl, hquiet⟩
  | routine image name strategy' =>
    obtain ⟨i, hfound, heq⟩ := Option.map_eq_some_iff.mp hwants
    obtain ⟨rfl, rfl⟩ := Prod.mk.inj heq
    have hperform : s.perform kernel (.routine image name strategy') =
        s.keepRoutine name (.error cause, events) := by
      rw [perform, withImage, hfound, ← Routine.create_of_acquire_error hrefused]
    rw [hperform]
    exact ⟨rfl, rfl, hquiet⟩
  | writer name descriptor message strategy' =>
    obtain ⟨i, hwriter, heq⟩ := Option.map_eq_some_iff.mp hwants
    obtain ⟨rfl, rfl⟩ := Prod.mk.inj heq
    rcases Routine.writing_cases kernel s.tickets descriptor message strategy' with
      ⟨-, hnone, -⟩ | ⟨i', field, target, distance, hsome, hwriting⟩
    · rw [hnone] at hwriter
      cases hwriter
    · obtain rfl := Option.some.inj (hsome.symm.trans hwriter)
      rw [Routine.create_of_acquire_error hrefused] at hwriting
      have hperform : s.perform kernel (.writer name descriptor message strategy') =
          s.keepRoutine name (.error cause, .siteResolved field target distance :: events) := by
        rw [perform, hwriting]
      rw [hperform]
      exact ⟨rfl, rfl, List.forall_mem_cons.mpr ⟨rfl, hquiet⟩⟩
  | _ => cases hwants

/-! ## Runs -/

/-- What was reported along with the answers. -/
def reports (replies : List (Answer × List Event)) : List Event := replies.flatMap Prod.snd

theorem Sound.run (h : s.Sound log) (kernel : Kernel) (steps : List Step) :
    (s.run kernel steps).2.Sound (log ++ reports (s.run kernel steps).1) := by
  induction steps generalizing s log with
  | nil => exact h.append []
  | cons step steps ih =>
    have hstep : Follows kernel (fun _ => False) log s step (s.perform kernel step) :=
      perform_follows h step fun _ => False.elim
    have hrest := ih hstep.sound
    rw [List.append_assoc] at hrest
    exact hrest

/-- A run goes on where the one before it ended. -/
theorem run_append (kernel : Kernel) (s : Session) (steps more : List Step) :
    s.run kernel (steps ++ more) =
      ((s.run kernel steps).1 ++ ((s.run kernel steps).2.run kernel more).1,
        ((s.run kernel steps).2.run kernel more).2) := by
  induction steps generalizing s with
  | nil => rfl
  | cons step steps ih =>
    have hrest := ih (s.perform kernel step).session
    simp only [List.cons_append, run, hrest]

/-- A run goes by turns, those of its steps. -/
theorem turns_run (h : s.Sound log) (steps : List Step)
    (hleaves : Throughout (fun s step => ∀ r, steady r → s.LeavesAlone kernel step r) kernel s
      steps) :
    Turns kernel steady log s.stock (reports (s.run kernel steps).1)
      (s.run kernel steps).2.stock := by
  induction steps generalizing s log with
  | nil => exact .nil _ _
  | cons step steps ih =>
    obtain ⟨hfirst, hothers⟩ := hleaves.cons
    have hstep : Follows kernel steady log s step (s.perform kernel step) :=
      perform_follows h step hfirst
    exact hstep.turns.append (ih hstep.sound hothers)

/-- Closing is releasing what is held. -/
theorem close_eq (s : Session) : s.close = s.stock.held.map Region.release := by
  rw [close, stock, List.map_append, Table.values, Table.values, List.map_map, List.map_map,
    List.map_map]
  rfl

theorem turns_close (kernel : Kernel) (steady : Region → Prop) (log : List Event) (s : Session) :
    Turns kernel steady log s.stock s.close ⟨s.tickets, []⟩ := by
  rw [close_eq]
  exact .releases s.stock.held

end Session

end Emplace
