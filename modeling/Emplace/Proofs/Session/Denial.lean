import Emplace.Proofs.Region.Denial
import Emplace.Proofs.Session.Balance

/-
  Sessions in which nothing can be made executable.

  Under a kernel that lets nothing become executable, a session that begins with nothing never comes
  to hold anything but inert regions (`Barred`), and no step gives anything that could be run
  (`Barren`).  What a step does instead depends on one thing only: whether some image in order was to
  be loaded into the region before.  `tried` lists the tickets of those regions.

  What each step answers is put together in `Denied`, and what holds throughout in `denied_run`.
-/

namespace Emplace.Session

open Event (about Life total)

variable {kernel : Kernel} {s : Session}

/-! ## What is tried -/

/-- The region that a step is to fill, with its name: the image has nothing pending, and it fits. -/
def tries? (s : Session) : Step → Option (String × Region)
  | .load image name _ =>
      match s.images.get? image, s.regions.get? name with
      | some i, some r => if i.pending = [] ∧ i.size ≤ r.size then some (name, r) else none
      | _, _ => none
  | _ => none

/-- The ticket of the region that a step is to fill. -/
def triedBy (s : Session) (step : Step) : List Nat := ((s.tries? step).map fun t => t.2.ticket).toList

/-- The tickets of all regions that some step of a run was to fill. -/
def tried (kernel : Kernel) : Session → List Step → List Nat
  | _, [] => []
  | s, step :: steps => s.triedBy step ++ tried kernel (s.perform kernel step).session steps

theorem tries?_eq_some_iff {step : Step} {name : String} {r : Region} :
    s.tries? step = some (name, r) ↔ ∃ image use i, step = .load image name use ∧
      s.images.get? image = some i ∧ s.regions.get? name = some r ∧ i.pending = [] ∧
      i.size ≤ r.size := by
  constructor
  · intro h
    unfold tries? at h
    split at h
    · rename_i image name' use
      split at h
      · rename_i i r' hfound hregion
        split at h
        · rename_i hfits
          obtain ⟨rfl, rfl⟩ := Prod.mk.inj (Option.some.inj h)
          exact ⟨image, use, i, rfl, hfound, hregion, hfits.1, hfits.2⟩
        · cases h
      · cases h
    · cases h
  · rintro ⟨image, use, i, rfl, hfound, hregion, hpending, hsize⟩
    simp only [tries?, hfound, hregion, hpending, hsize, and_self, if_true]

/-- The answer to a load that failed. -/
def failedLoad (r : Region) (cause : Error) : Answer :=
  .loaded ⟨r, none, none, none, none, .arrived, some cause⟩

theorem load_of_error {name : String} {i : Image} {r left : Region} {cause : Error}
    {events : List Event} (h : r.load kernel i = ⟨.error cause, left, events⟩) (use : Use) :
    s.load kernel name i r use = ⟨failedLoad left cause, s.setRegion name left, events⟩ := by
  unfold Session.load
  rw [h]
  rfl

/-! ## What is held -/

/-- There are none but inert regions, and no routines. -/
structure Barred (s : Session) (tried : List Nat) : Prop where
  regions : ∀ r ∈ s.regions.values, r.Inert tried
  routines : s.routines = []
  given : ∀ ticket ∈ tried, ticket < s.tickets

/-- Nothing came of a step that could be run. -/
structure Barren (a : Outcome) (tried : List Nat) : Prop where
  session : a.session.Barred tried
  payloads : a.answer.payloads = []
  events : ∀ e ∈ a.events, e.tellsOfCode = false

theorem Barred.empty : Barred .empty [] := ⟨nofun, rfl, nofun⟩

/-- Only the regions, the routines and the tickets matter. -/
theorem Barred.congr {s' : Session} {before : List Nat} (h : s.Barred before)
    (hregions : s'.regions = s.regions) (hroutines : s'.routines = s.routines)
    (htickets : s.tickets ≤ s'.tickets) : s'.Barred before := by
  constructor
  · rw [hregions]
    exact h.regions
  · rw [hroutines]
    exact h.routines
  · intro ticket hticket
    exact Nat.lt_of_lt_of_le (h.given ticket hticket) htickets

namespace Barren

variable {before : List Nat}

theorem still (h : s.Barred before) {a : Outcome} (regions : a.session.regions = s.regions)
    (routines : a.session.routines = s.routines) (tickets : a.session.tickets = s.tickets)
    (events : ∀ e ∈ a.events, e.region? = none) (payloads : a.answer.payloads = []) :
    Barren a before := by
  refine ⟨h.congr regions routines (Nat.le_of_eq tickets.symm), payloads, ?_⟩
  intro e he
  have hregion := events e he
  cases e with
  | payloadLoaded => cases hregion
  | callableBound => cases hregion
  | _ => rfl

theorem acquire (hkernel : kernel.DeniesExecution) (h : s.Barred before) (name : String)
    (size : Nat) (strategy : Strategy) : Barren (s.acquire kernel name size strategy) before := by
  unfold Session.acquire
  generalize hacquire : Region.acquire kernel s.tickets size strategy = made
  obtain ⟨answer, events⟩ := made
  have hcounted : Barred { s with tickets := s.tickets + 1 } before :=
    h.congr rfl rfl (Nat.le_succ s.tickets)
  have hevents := Region.tellsOfCode_of_acquire hacquire
  cases answer with
  | error cause => exact ⟨hcounted, rfl, hevents⟩
  | ok r =>
    have hnext : s.tickets ∉ before := fun hmem => Nat.lt_irrefl _ (h.given _ hmem)
    refine ⟨⟨?_, hcounted.routines, hcounted.given⟩, rfl, ?_⟩
    · intro q hq
      rcases Table.mem_values_set hq with rfl | hq
      · exact Region.inert_of_acquire hkernel hacquire hnext
      · exact h.regions q hq
    · intro e he
      rcases List.mem_append.mp he with he | he
      · exact hevents e he
      · obtain ⟨old, -, rfl⟩ := Option.map_eq_some_iff.mp (Option.mem_toList.mp he)
        rfl

theorem dropRegion (h : s.Barred before) {name : String} {r : Region} :
    Barren ⟨.text "dropped", { s with regions := s.regions.erase name }, [r.release]⟩ before := by
  refine ⟨⟨?_, h.routines, h.given⟩, rfl, List.forall_mem_singleton.mpr rfl⟩
  intro q hq
  exact h.regions q (Table.mem_values_of_mem_erase hq)

/-- A region under another name has another ticket. -/
theorem ticket_ne_of_mem_erase {log : List Event} (hsound : s.Sound log)
    (hledger : Ledger s.stock log) {name : String} {r q : Region}
    (hregion : s.regions.get? name = some r)
    (hq : q ∈ (s.regions.erase name).values) : q.ticket ≠ r.ticket := by
  have hheld : s.stock.held.Perm (r :: s.besideRegion name) := by
    have hperm := held_perm_region hsound name
    rw [hregion] at hperm
    exact hperm
  have hfront := hledger.quiet (Nat.le_refl s.tickets) hheld (List.forall_mem_nil _)
  exact hfront.ticket_ne (List.mem_append_left _ hq)

/-- A load leaves all other regions as they are, as their tickets are different. -/
theorem load (hkernel : kernel.DeniesExecution) {log : List Event} (hsound : s.Sound log)
    (hledger : Ledger s.stock log) (h : s.Barred before) {image name : String} {i : Image}
    {r : Region} (use : Use) (hfound : s.images.get? image = some i)
    (hregion : s.regions.get? name = some r) :
    Barren (s.load kernel name i r use) (before ++ s.triedBy (.load image name use)) := by
  have hmem : r ∈ s.regions.values := Table.mem_values_of_get? hregion
  have hinert := h.regions r hmem
  by_cases himage : i.pending = [] ∧ i.size ≤ r.size
  · have htriedBy : s.triedBy (.load image name use) = [r.ticket] := by
      have htries : s.tries? (.load image name use) = some (name, r) :=
        tries?_eq_some_iff.mpr ⟨image, use, i, rfl, hfound, hregion, himage.1, himage.2⟩
      rw [triedBy, htries]
      rfl
    obtain ⟨cause, left, events, hload, hleft, hevents⟩ :=
      hinert.load_fit hkernel himage.1 himage.2
    rw [load_of_error hload, htriedBy]
    refine ⟨⟨?_, h.routines, ?_⟩, rfl, hevents⟩
    · intro q hq
      rcases List.mem_cons.mp ((Table.values_set name left s.regions).mem_iff.mp hq) with rfl | hq
      · exact hleft
      · refine (h.regions q (Table.mem_values_of_mem_erase hq)).append ?_
        rw [List.mem_singleton]
        exact ticket_ne_of_mem_erase hsound hledger hregion hq
    · intro ticket hticket
      rcases List.mem_append.mp hticket with hticket | hticket
      · exact h.given ticket hticket
      · obtain rfl := List.mem_singleton.mp hticket
        exact hledger.below r (List.mem_append_left _ hmem)
  · obtain ⟨cause, hload⟩ := hinert.load_unfit kernel himage
    have htriedBy : s.triedBy (.load image name use) = [] := by
      simp only [triedBy, tries?, hfound, hregion, if_neg himage]
      rfl
    rw [load_of_error hload, htriedBy, List.append_nil]
    refine ⟨⟨?_, h.routines, h.given⟩, rfl, List.forall_mem_nil _⟩
    intro q hq
    rcases Table.mem_values_set hq with rfl | hq
    · exact hinert
    · exact h.regions q hq

theorem keepRoutine (h : s.Barred before) (name : String) {cause : Error} {events : List Event}
    (hevents : ∀ e ∈ events, e.tellsOfCode = false) :
    Barren (s.keepRoutine name (.error cause, events)) before :=
  ⟨h.congr rfl rfl (Nat.le_succ s.tickets), rfl, hevents⟩

theorem writer (hkernel : kernel.DeniesExecution) (h : s.Barred before) (name : String)
    (descriptor : UInt32) (message : List UInt8) (strategy : Strategy) :
    Barren (s.keepRoutine name (Routine.writing kernel s.tickets descriptor message strategy))
      before := by
  rcases Routine.writing_cases kernel s.tickets descriptor message strategy with
    ⟨cause, -, hwriting⟩ | ⟨image, field, target, distance, -, hwriting⟩
  · rw [hwriting]
    exact keepRoutine h name (List.forall_mem_nil _)
  · obtain ⟨cause, events, hcreate, hevents, -⟩ :=
      Routine.create_denied hkernel s.tickets image strategy
    rw [hwriting, hcreate]
    exact keepRoutine h name (List.forall_mem_cons.mpr ⟨rfl, hevents⟩)

end Barren

/-- A step that names something missing fills no region. -/
theorem triedBy_of_missing {step : Step}
    (h : ∀ image region use, step = .load image region use →
      s.images.get? image = none ∨ s.regions.get? region = none) : s.triedBy step = [] := by
  have hnone : s.tries? step = none := by
    by_contra hsome
    obtain ⟨⟨name, r⟩, htries⟩ := Option.ne_none_iff_exists'.mp hsome
    obtain ⟨image, use, i, rfl, hfound, hregion, -⟩ := tries?_eq_some_iff.mp htries
    rcases h image name use rfl with hmissing | hmissing
    · cases hfound.symm.trans hmissing
    · cases hregion.symm.trans hmissing
  rw [triedBy, hnone]
  rfl

/-- **No step yields anything that could be run.** -/
theorem perform_barren (hkernel : kernel.DeniesExecution) {log : List Event} (hsound : s.Sound log)
    (hledger : Ledger s.stock log) {before : List Nat} (h : s.Barred before) (step : Step) :
    Barren (s.perform kernel step) (before ++ s.triedBy step) := by
  have heffect := perform_effect kernel s step
  generalize s.perform kernel step = a at heffect ⊢
  have hnone : before ++ [] = before := List.append_nil before
  cases heffect with
  | still regions routines tickets events payloads load =>
    rw [triedBy_of_missing load, hnone]
    exact .still h regions routines tickets events payloads
  | acquire name size strategy =>
    show Barren _ (before ++ [])
    rw [hnone]
    exact .acquire hkernel h name size strategy
  | dropRegion region =>
    show Barren _ (before ++ [])
    rw [hnone]
    exact .dropRegion h
  | load use found region => exact .load hkernel hsound hledger h use found region
  | @routine name image i strategy found =>
    obtain ⟨cause, events, hcreate, hevents, -⟩ :=
      Routine.create_denied hkernel s.tickets i strategy
    show Barren _ (before ++ [])
    rw [hnone, hcreate]
    exact .keepRoutine h name hevents
  | writer name descriptor message strategy =>
    show Barren _ (before ++ [])
    rw [hnone]
    exact .writer hkernel h name descriptor message strategy
  | bindRoutine routine =>
    rw [h.routines] at routine
    cases routine
  | runRoutine calls capture routine =>
    rw [h.routines] at routine
    cases routine
  | dropRoutine routine =>
    rw [h.routines] at routine
    cases routine

/-- Nor does any run. -/
theorem barred_run (hkernel : kernel.DeniesExecution) {log : List Event} (hsound : s.Sound log)
    (hledger : Ledger s.stock log) {before : List Nat} (h : s.Barred before) (steps : List Step) :
    (s.run kernel steps).2.Barred (before ++ tried kernel s steps) ∧
      ∀ e ∈ reports (s.run kernel steps).1, e.tellsOfCode = false := by
  induction steps generalizing s log before with
  | nil =>
    refine ⟨?_, List.forall_mem_nil _⟩
    show s.Barred (before ++ [])
    rw [List.append_nil]
    exact h
  | cons step steps ih =>
    have hfollows : Follows kernel (fun _ => False) log s step (s.perform kernel step) :=
      perform_follows hsound step fun _ => False.elim
    have hbarren := perform_barren hkernel hsound hledger h step
    obtain ⟨hbarred, hevents⟩ := ih hfollows.sound (hledger.turns hfollows.turns) hbarren.session
    constructor
    · rw [List.append_assoc] at hbarred
      exact hbarred
    · intro e he
      rcases List.mem_append.mp he with he | he
      · exact hbarren.events e he
      · exact hevents e he

/-! ## What the steps answer -/

/-- What a step comes to, after those regions were tried whose tickets are listed. -/
structure Denied (kernel : Kernel) (s : Session) (before : List Nat) (step : Step) (a : Outcome) :
    Prop where
  /-- Nothing that could be run is handed out. -/
  payloads : a.answer.payloads = []
  /-- Every load fails, so that nothing is bound and nothing is called. -/
  loads : ∀ image name use i r, step = .load image name use → s.images.get? image = some i →
    s.regions.get? name = some r → ∃ left cause, a.answer = failedLoad left cause
  /-- Memory that could be written and executed at once is denied, with the size asked for. -/
  rwx : ∀ size, s.wants? step = some (size, .rwx) →
    ∃ cause, a.answer = .failed (.mappingDenied size cause)
  /-- Staged memory is to be had whenever the kernel maps it. -/
  staged : ∀ name size capacity place, step = .acquire name size .staged →
    roundUp? pageSize size = some capacity → kernel.map s.tickets .staged capacity = .ok place →
    a.answer = .region ⟨s.tickets, .writable ⟨capacity, place, []⟩, size, false⟩ ∧
      a.session.regions.get? name =
        some ⟨s.tickets, .writable ⟨capacity, place, []⟩, size, false⟩
  /-- A routine of an image in order is denied with the size of the image. -/
  routine : ∀ i strategy, s.loads? step = some i → s.wants? step = some (i.size, strategy) →
    i.pending = [] → ∃ cause, a.answer = .failed (.mappingDenied i.size cause)
  /-- The first image in order that is loaded into a region is denied with the size of the region,
      which gives up its mapping. -/
  first : ∀ name r, s.tries? step = some (name, r) → r.ticket ∉ before → ∃ errno,
    a = ⟨failedLoad { r with mapping := .gone } (.mappingDenied r.size (.kernel errno)),
      s.setRegion name { r with mapping := .gone }, [.sealRefused r.ticket (.kernel errno)]⟩
  /-- All others find that it has none. -/
  later : ∀ name r, s.tries? step = some (name, r) → r.ticket ∈ before →
    a = ⟨failedLoad r .mappingReleased, s.setRegion name r, []⟩

theorem perform_load {image name : String} {i : Image} {r : Region} (use : Use)
    (hfound : s.images.get? image = some i) (hregion : s.regions.get? name = some r) :
    s.perform kernel (.load image name use) = s.load kernel name i r use := by
  simp only [perform, withImage, hfound, withRegion, hregion]

theorem perform_acquire_staged {name : String} {size capacity : Nat} {place : Place capacity}
    (hround : roundUp? pageSize size = some capacity)
    (hmap : kernel.map s.tickets .staged capacity = .ok place) :
    (s.perform kernel (.acquire name size .staged)).answer =
        .region ⟨s.tickets, .writable ⟨capacity, place, []⟩, size, false⟩ ∧
      (s.perform kernel (.acquire name size .staged)).session.regions.get? name =
        some ⟨s.tickets, .writable ⟨capacity, place, []⟩, size, false⟩ := by
  have hshort : ¬ (Strategy.staged = .staged ∧ Offset.signedLimit ≤ capacity) :=
    fun hlong => Nat.not_le.mpr place.capacity_lt hlong.2
  have hacquire := Region.acquire_of_map hround hshort hmap
  have hperform : s.perform kernel (.acquire name size .staged) =
      s.acquire kernel name size .staged := rfl
  rw [hperform]
  unfold Session.acquire
  generalize Region.acquire kernel s.tickets size .staged = made at hacquire ⊢
  rw [hacquire]
  refine ⟨rfl, ?_⟩
  show (s.regions.set name _).get? name = _
  rw [Table.get?_set, if_pos rfl]
  rfl

/-- A routine of an image in order is denied, whichever way it is to be made. -/
theorem perform_routine_denied (hkernel : kernel.DeniesExecution) {step : Step} {i : Image}
    {strategy : Strategy} (hloads : s.loads? step = some i)
    (hwants : s.wants? step = some (i.size, strategy)) (hpending : i.pending = []) :
    ∃ cause, (s.perform kernel step).answer = .failed (.mappingDenied i.size cause) := by
  cases step with
  | routine image name strategy' =>
    have hfound : s.images.get? image = some i := hloads
    obtain ⟨cause, events, hcreate, -, hcause⟩ :=
      Routine.create_denied hkernel s.tickets i strategy'
    obtain ⟨denial, rfl⟩ := hcause hpending
    have hperform : s.perform kernel (.routine image name strategy') =
        s.keepRoutine name (.error (.mappingDenied i.size denial), events) := by
      rw [perform, withImage, hfound, ← hcreate]
    rw [hperform]
    exact ⟨denial, rfl⟩
  | writer name descriptor message strategy' =>
    have hwriter : Routine.writer? descriptor message = some i := hloads
    rcases Routine.writing_cases kernel s.tickets descriptor message strategy' with
      ⟨-, hnone, -⟩ | ⟨i', field, target, distance, hsome, hwriting⟩
    · cases hwriter.symm.trans hnone
    · obtain rfl := Option.some.inj (hwriter.symm.trans hsome)
      obtain ⟨cause, events, hcreate, -, hcause⟩ :=
        Routine.create_denied hkernel s.tickets i strategy'
      obtain ⟨denial, rfl⟩ := hcause hpending
      rw [hcreate] at hwriting
      have hperform : s.perform kernel (.writer name descriptor message strategy') =
          s.keepRoutine name (.error (.mappingDenied i.size denial),
            .siteResolved field target distance :: events) := by
        rw [perform, hwriting]
      rw [hperform]
      exact ⟨denial, rfl⟩
  | acquire name size strategy' => cases hloads
  | _ => cases hwants

theorem perform_denied (hkernel : kernel.DeniesExecution) {log : List Event} (hsound : s.Sound log)
    (hledger : Ledger s.stock log) {before : List Nat} (h : s.Barred before) (step : Step) :
    Denied kernel s before step (s.perform kernel step) := by
  constructor
  · exact (perform_barren hkernel hsound hledger h step).payloads
  · rintro image name use i r rfl hfound hregion
    have hinert := h.regions r (Table.mem_values_of_get? hregion)
    rw [perform_load use hfound hregion]
    by_cases himage : i.pending = [] ∧ i.size ≤ r.size
    · obtain ⟨cause, left, events, hload, -⟩ := hinert.load_fit hkernel himage.1 himage.2
      rw [load_of_error hload]
      exact ⟨left, cause, rfl⟩
    · obtain ⟨cause, hload⟩ := hinert.load_unfit kernel himage
      rw [load_of_error hload]
      exact ⟨r, cause, rfl⟩
  · intro size hwants
    obtain ⟨cause, events, hacquire⟩ := Region.acquire_rwx_denied hkernel s.tickets size
    exact ⟨cause, (perform_of_acquire_error hwants hacquire).1⟩
  · rintro name size capacity place rfl hround hmap
    exact perform_acquire_staged hround hmap
  · intro i strategy hloads hwants hpending
    exact perform_routine_denied hkernel hloads hwants hpending
  · intro name r htries htried
    obtain ⟨image, use, i, rfl, hfound, hregion, hpending, hsize⟩ := tries?_eq_some_iff.mp htries
    have hinert := h.regions r (Table.mem_values_of_get? hregion)
    obtain ⟨errno, hload⟩ := hinert.load_untried hkernel hpending hsize htried
    rw [perform_load use hfound hregion]
    exact ⟨errno, load_of_error hload use⟩
  · intro name r htries htried
    obtain ⟨image, use, i, rfl, hfound, hregion, hpending, hsize⟩ := tries?_eq_some_iff.mp htries
    have hinert := h.regions r (Table.mem_values_of_get? hregion)
    rw [perform_load use hfound hregion]
    exact load_of_error (hinert.load_tried kernel hpending hsize htried) use

/-- **What cannot be executed is denied, and never silently kept.**  Under a kernel that lets nothing
    become executable, after any steps, no region that is held is executable or loaded, there are no
    routines, and every next step is denied whatever could be run, in the way `Denied` says.  The log
    tells of no code, and of no region does it tell more than one refusal. -/
theorem denied_run (hkernel : kernel.DeniesExecution) (steps : List Step) :
    (∀ r ∈ (empty.run kernel steps).2.stock.held, r.executable = false ∧ r.loaded = false ∧
      ∀ a, r.memory.executable a = false) ∧
    (empty.run kernel steps).2.routines = [] ∧
    (∀ step, Denied kernel (empty.run kernel steps).2 (tried kernel empty steps) step
      ((empty.run kernel steps).2.perform kernel step)) ∧
    (∀ e ∈ log kernel steps, e.tellsOfCode = false) ∧
    ∀ ticket, total Event.refusals (about ticket (log kernel steps)) ≤ 1 := by
  obtain ⟨hbarred, hevents⟩ := barred_run hkernel .empty Ledger.nothing .empty steps
  refine ⟨?_, hbarred.routines, ?_, ?_, ?_⟩
  · intro r hr
    have hinert : r.Inert (tried kernel empty steps) := by
      rcases List.mem_append.mp hr with hr | hr
      · exact hbarred.regions r hr
      · rw [hbarred.routines] at hr
        cases hr
    exact ⟨hinert.executable, hinert.loaded, Region.executable_memory hinert.executable⟩
  · intro step
    have hsound := Sound.empty.run kernel steps
    rw [List.nil_append] at hsound
    exact perform_denied hkernel hsound (ledger_run kernel steps) hbarred step
  · intro e he
    rcases List.mem_append.mp he with he | he
    · exact hevents e he
    · rw [close_eq] at he
      obtain ⟨r, -, rfl⟩ := List.mem_map.mp he
      rfl
  · intro ticket
    rcases (ledger_log kernel steps).life ticket with hnil | hlife
    · rw [hnil]
      exact Nat.zero_le 1
    · exact hlife.refusals_le

/-- A region without a byte, and an image without one: the first load is denied, the second finds no
    mapping. -/
theorem denied_run_nothing :
    let begun : List Step := [.finish "code" "nothing", .acquire "page" 0 .staged]
    let load : Step := .load "nothing" "page" .nothing
    let lost : Region := ⟨0, .gone, 0, false⟩
    Kernel.noExecGain.DeniesExecution ∧
    (∃ errno, ((empty.run Kernel.noExecGain begun).2.perform Kernel.noExecGain load).answer =
      failedLoad lost (.mappingDenied 0 (.kernel errno))) ∧
    ((empty.run Kernel.noExecGain (begun ++ [load])).2.perform Kernel.noExecGain load).answer =
      failedLoad lost .mappingReleased := by
  intro begun load lost
  have hkernel := Kernel.noExecGain_deniesExecution
  obtain ⟨-, -, hbegun, -⟩ := denied_run hkernel begun
  obtain ⟨-, -, hloaded, -⟩ := denied_run hkernel (begun ++ [load])
  have hfits : 4096 < Kernel.space := by decide
  let page : Region := ⟨0, .writable ⟨4096, Kernel.place 0 4096 hfits, []⟩, 0, false⟩
  obtain ⟨errno, hfirst⟩ := (hbegun load).first "page" page rfl List.not_mem_nil
  have hlater := (hloaded load).later "page" lost rfl (List.mem_singleton.mpr rfl)
  refine ⟨hkernel, ⟨errno, ?_⟩, ?_⟩
  · rw [hfirst]
  · rw [hlater]

end Emplace.Session
