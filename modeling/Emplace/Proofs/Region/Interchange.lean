import Mathlib.Data.List.Forall2
import Emplace.Proofs.Routine.Runs
import Emplace.Proofs.X64.Permission

/-
  Regions under the one strategy and under the other.

  Under an impartial kernel, which grants a mapping or refuses it whatever its strategy and permits
  all memory to be executed, a region goes through the same phases under both strategies.  So two
  regions are alike (`Region.Alike`) when they were acquired alike and are in the same phase.  What
  can be observed of them is then the same, save that only one of them is executable before it is
  loaded.

  1. **Errors and events** carry the same facts, save for the cause of a refused mapping and the
     name of the strategy (`Error.Alike`, `Event.Alike`).

  2. **Acquiring and loading** keep regions alike (`acquire_alike`, `Region.Alike.load`), and so do
     the operations made of them (`Routine.create_alike`, `Routine.writing_alike`).

  3. **Invoking.**  The memories of loaded regions differ in the permission to write only, and code
     notices that by storing into its own region, or by a service of the kernel that does.  Discreet
     calls are the same in both (`Callable.Alike.call`), and so are discreet runs of a routine
     (`Routine.Alike.runTimes`).

  Two things are not the same for all code, and whatever rests on them is said under a proposition.
  Where the kernel puts a mapping may depend on the strategy, and code can find out where it lies:
  `placed` says that the places are the same.  And code may be indiscreet, so that its region has
  other bytes under the one strategy than under the other: `kept` tells of a ticket that the code in
  this region is discreet under both.
-/

namespace Emplace

open X64 (Cpu LowRegister Memory Services)

/-- The kernel grants mappings whatever their strategy, and permits all memory to be executed. -/
structure Kernel.Impartial (kernel : Kernel) : Prop where
  grants : ∀ ticket capacity,
    (kernel.map ticket .rwx capacity).isOk = (kernel.map ticket .staged capacity).isOk
  permits : ∀ ticket, kernel.permitExecute ticket = .ok ()

/-- Mappings that are granted under both strategies lie in the same place. -/
def Kernel.PlacesAlike (kernel : Kernel) : Prop :=
  ∀ (ticket capacity : Nat) (place place' : Place capacity),
    kernel.map ticket .rwx capacity = .ok place → kernel.map ticket .staged capacity = .ok place' →
      place'.base = place.base

/-- The same error, but for why a mapping was refused. -/
inductive Error.Alike : Error → Error → Prop
  | same (e : Error) : Alike e e
  | mappingDenied (requested : Nat) (cause cause' : Denial) :
      Alike (.mappingDenied requested cause) (.mappingDenied requested cause')

/-- The same event, but for the strategy and for why a mapping was refused. -/
inductive Event.Alike (placed : Prop) : Event → Event → Prop
  | same (e : Event) : Alike placed e e
  | acquired (region size capacity : Nat) {base base' : Word} (h : placed → base' = base) :
      Alike placed (.acquired region size capacity base .rwx)
        (.acquired region size capacity base' .staged)
  | mappingRefused (size : Nat) (cause cause' : Denial) :
      Alike placed (.mappingRefused size .rwx cause) (.mappingRefused size .staged cause')
  | payloadLoaded (region bytes : Nat) {base base' : Word} (h : placed → base' = base) :
      Alike placed (.payloadLoaded region bytes base) (.payloadLoaded region bytes base')
  | callableBound (region length args : Nat) (returns : Bool) {base base' : Word}
      (h : placed → base' = base) :
      Alike placed (.callableBound region base length args returns)
        (.callableBound region base' length args returns)
  | released (region capacity : Nat) {base base' : Word} (h : placed → base' = base) :
      Alike placed (.released region base capacity) (.released region base' capacity)

/-- Events that are alike one by one. -/
abbrev Event.AllAlike (placed : Prop) : List Event → List Event → Prop :=
  List.Forall₂ (Event.Alike placed)

/-- Two operations with a report: both succeed, with results that are related, or both fail. -/
inductive ResultAlike (placed : Prop) {α : Type} (R : α → α → Prop) :
    Except Error α × List Event → Except Error α × List Event → Prop
  | ok {a a' : α} {events events' : List Event} (value : R a a')
      (reports : Event.AllAlike placed events events') :
      ResultAlike placed R (.ok a, events) (.ok a', events')
  | error {e e' : Error} {events events' : List Event} (cause : e.Alike e')
      (reports : Event.AllAlike placed events events') :
      ResultAlike placed R (.error e, events) (.error e', events')

variable {placed : Prop} {kernel : Kernel}

namespace Event.AllAlike

theorem refl (events : List Event) : AllAlike placed events events :=
  List.forall₂_same.mpr fun e _ => .same e

theorem singleton {e e' : Event} (h : e.Alike placed e') : AllAlike placed [e] [e'] :=
  .cons h .nil

theorem append {front front' back back' : List Event} (hfront : AllAlike placed front front')
    (hback : AllAlike placed back back') : AllAlike placed (front ++ back) (front' ++ back') :=
  List.rel_append hfront hback

theorem replicate {e e' : Event} (h : e.Alike placed e') (n : Nat) :
    AllAlike placed (List.replicate n e) (List.replicate n e') := by
  induction n with
  | zero => exact .nil
  | succ n ih => exact .cons h ih

end Event.AllAlike

/-! ## Regions -/

/-- The same acquisition under the two strategies. -/
structure Origin.Alike (placed : Prop) (o o' : Origin) : Prop where
  ticket : o'.ticket = o.ticket
  size : o'.size = o.size
  capacity : o'.capacity = o.capacity
  rwx : o.strategy = .rwx
  staged : o'.strategy = .staged
  base : placed → o'.place.base = o.place.base

/-- The phases of a region with code in it. -/
inductive Phase.Coded : Phase → Prop
  | holding (image : Image) : Coded (.holding image)
  | altered (stored : List UInt8) : Coded (.altered stored)

namespace Phase.Coded

variable {phase : Phase}

theorem loaded (h : phase.Coded) (o : Origin) : (o.region phase).loaded = true := by
  cases h <;> rfl

theorem executable (h : phase.Coded) (o : Origin) : (o.region phase).executable = true := by
  cases h with
  | holding image => exact o.executable_holding image
  | altered stored => exact o.executable_altered stored

theorem of_loaded {o : Origin} (h : (o.region phase).loaded = true) : phase.Coded := by
  cases phase with
  | empty => cases h
  | holding image => exact .holding image
  | altered stored => exact .altered stored
  | lost => cases h

/-- Code leaves code behind. -/
theorem ran {o : Origin} {after : Phase} (h : phase.Coded) (hran : phase.Ran o after) :
    after.Coded := by
  rcases hran with rfl | ⟨stored, -, rfl⟩
  · exact h
  · exact .altered stored

end Phase.Coded

/-- Without a denial no mapping is lost. -/
theorem Origin.next_ne_lost {o : Origin} {kernel : Kernel} (hdenial : o.denial? kernel = none)
    (image : Image) {phase : Phase} (h : phase ≠ .lost) : o.next kernel image phase ≠ .lost := by
  rcases o.next_cases kernel image phase with
    ⟨-, hnext⟩ | ⟨-, -, -, hnext⟩ | ⟨-, rfl, -, hnext⟩
  · rw [hnext]
    exact h
  · rw [hnext]
    exact Phase.noConfusion
  · -- an empty region whose image is in order is not refused
    cases hpending : image.pending with
    | cons s rest =>
      rw [Origin.next, Origin.refusal?_of_pending hpending]
      exact Phase.noConfusion
    | nil =>
      by_cases hsize : o.size < image.size
      · rw [Origin.next, Origin.refusal?_of_lt hpending hsize]
        exact Phase.noConfusion
      · have hnone := Origin.refusal?_eq_none_iff.mpr
          ⟨hpending, Nat.le_of_not_lt hsize, rfl, hdenial⟩
        rw [Origin.next_of_refusal?_eq_none hnone]
        exact Phase.noConfusion

/-- The phases are the same, unless code has made them differ. -/
def Phase.Alike (kept : Prop) (phase phase' : Phase) : Prop :=
  phase' = phase ∨ ¬ kept ∧ phase.Coded ∧ phase'.Coded

/-- Two regions that only their strategies set apart, and what their code has stored.  Loaded, both
    are executable; before that, one may be alone in this. -/
structure Region.Alike (placed : Prop) (kept : Nat → Prop) (r r' : Region) : Prop where
  ticket : r'.ticket = r.ticket
  size : r'.size = r.size
  capacity : r'.capacity = r.capacity
  loaded : r'.loaded = r.loaded
  readable : kept r.ticket → r'.readable = r.readable
  executable : r.loaded = true → r.executable = true ∧ r'.executable = true
  mapped : r.base ≠ 0 ∧ r'.base ≠ 0
  base : placed → r'.base = r.base
  /-- They were acquired alike and are in phases that are alike. -/
  phase : ∃ (o o' : Origin) (phase phase' : Phase), o.Alike placed o' ∧
    phase.Alike (kept r.ticket) phase' ∧ (phase ≠ .lost ∧ phase' ≠ .lost) ∧
    (o.Allows phase ∧ o'.Allows phase') ∧ r = o.region phase ∧ r' = o'.region phase'

namespace Origin.Alike

variable {o o' : Origin} {phase phase' : Phase} {kept : Nat → Prop}

theorem readable (h : o.Alike placed o') (hphase : phase ≠ .lost) (hallows : o.Allows phase) :
    (o'.region phase).readable = (o.region phase).readable := by
  cases phase with
  | empty => rw [o.readable_empty, o'.readable_empty, h.size]
  | holding image =>
    have hsize : image.size ≤ o.size := hallows
    rw [o.readable_holding hsize, o'.readable_holding (h.size ▸ hsize), h.size]
  | altered stored =>
    have hlength : stored.length = o.capacity := hallows
    rw [o.readable_altered hlength, o'.readable_altered (h.capacity ▸ hlength), h.size]
  | lost => exact absurd rfl hphase

/-- **Phases that are alike make regions alike.** -/
theorem region (h : o.Alike placed o') (hphase : phase.Alike (kept o.ticket) phase')
    (hlost : phase ≠ .lost ∧ phase' ≠ .lost) (hallows : o.Allows phase ∧ o'.Allows phase') :
    Region.Alike placed kept (o.region phase) (o'.region phase') where
  ticket := by rw [o.ticket_region, o'.ticket_region, h.ticket]
  size := by rw [o.size_region, o'.size_region, h.size]
  capacity := by rw [o.capacity_region hlost.1, o'.capacity_region hlost.2, h.capacity]
  loaded := by
    rcases hphase with rfl | ⟨-, hcoded, hcoded'⟩
    · cases phase' <;> rfl
    · rw [hcoded.loaded o, hcoded'.loaded o']
  readable := by
    intro hkept
    rw [o.ticket_region] at hkept
    rcases hphase with rfl | ⟨hnot, -⟩
    · exact h.readable hlost.1 hallows.1
    · exact absurd hkept hnot
  executable := by
    intro hloaded
    have hcoded : phase.Coded := .of_loaded hloaded
    rcases hphase with rfl | ⟨-, -, hcoded'⟩
    · exact ⟨hcoded.executable o, hcoded.executable o'⟩
    · exact ⟨hcoded.executable o, hcoded'.executable o'⟩
  mapped := by
    rw [o.base_region hlost.1, o'.base_region hlost.2]
    exact ⟨o.place.base_ne_zero, o'.place.base_ne_zero⟩
  base := by
    intro hplaced
    rw [o.base_region hlost.1, o'.base_region hlost.2, h.base hplaced]
  phase := by
    rw [o.ticket_region]
    exact ⟨o, o', phase, phase', h, hphase, hlost, hallows, rfl, rfl⟩

/-- An impartial kernel has the same reasons not to load an image. -/
theorem refusal?_eq (h : o.Alike placed o') (hkernel : kernel.Impartial) (image : Image)
    {same : Prop} (hphase : phase.Alike same phase') :
    o'.refusal? kernel image phase' = o.refusal? kernel image phase := by
  have hdenial : o.denial? kernel = none := by
    simp only [Origin.denial?, h.rwx]
  have hdenial' : o'.denial? kernel = none := by
    simp only [Origin.denial?, h.staged, hkernel.permits]
  rcases hphase with rfl | ⟨-, hcoded, hcoded'⟩
  · simp only [Origin.refusal?, h.size, hdenial, hdenial']
  · -- whatever is stored, there is code already
    cases hcoded <;> cases hcoded' <;> simp only [Origin.refusal?, h.size]

/-- So it makes phases of them that are alike. -/
theorem next (h : o.Alike placed o') (hkernel : kernel.Impartial) (image : Image)
    {same : Prop} (hphase : phase.Alike same phase') :
    (o.next kernel image phase).Alike same (o'.next kernel image phase') := by
  unfold Origin.next
  rw [h.refusal?_eq hkernel image hphase]
  split
  · exact .inl rfl
  · exact .inl rfl
  · exact hphase

/-- An impartial kernel takes no mapping away. -/
theorem next_ne_lost (h : o.Alike placed o') (hkernel : kernel.Impartial) (image : Image)
    (hlost : phase ≠ .lost ∧ phase' ≠ .lost) :
    o.next kernel image phase ≠ .lost ∧ o'.next kernel image phase' ≠ .lost := by
  refine ⟨Origin.next_ne_lost ?_ image hlost.1, Origin.next_ne_lost ?_ image hlost.2⟩
  · simp only [Origin.denial?, h.rwx]
  · simp only [Origin.denial?, h.staged, hkernel.permits]

theorem loadEvents (h : o.Alike placed o') (hkernel : kernel.Impartial) (image : Image)
    {same : Prop} (hphase : phase.Alike same phase') :
    Event.AllAlike placed (o.loadEvents kernel image phase)
      (o'.loadEvents kernel image phase') := by
  unfold Origin.loadEvents
  rw [h.refusal?_eq hkernel image hphase, h.ticket]
  split
  · exact .singleton (.payloadLoaded _ _ h.base)
  · exact .refl _
  · exact .nil

end Origin.Alike

/-! ## Loaded code -/

/-- The same code in regions that are alike. -/
structure Payload.Alike (placed : Prop) (kept : Nat → Prop) (p p' : Payload) : Prop where
  region : p.region.Alike placed kept p'.region
  loaded : p.region.loaded = true
  length : p'.length = p.length
  bytes : kept p.region.ticket → p'.bytes = p.bytes

/-- The same code, to be called in the same way. -/
structure Callable.Alike (placed : Prop) (kept : Nat → Prop) (c c' : Callable) : Prop where
  payload : c.payload.Alike placed kept c'.payload
  shape : c'.shape = c.shape

/-- The same code, each kept together with its region. -/
def Routine.Alike (placed : Prop) (kept : Nat → Prop) (r r' : Routine) : Prop :=
  r.payload.Alike placed kept r'.payload

variable {kept : Nat → Prop}

namespace Region.Alike

variable {r r' : Region}

/-- What code has not made differ is alike whatever code is discreet. -/
theorem mono (h : r.Alike placed kept r') {kept' : Nat → Prop}
    (hkept : kept' r.ticket → kept r.ticket) : r.Alike placed kept' r' := by
  obtain ⟨o, o', phase, phase', ho, hphase, hlost, hallows, rfl, rfl⟩ := h.phase
  rw [o.ticket_region] at hkept hphase
  exact ho.region (hphase.imp_right fun hdiffer => ⟨fun hk => hdiffer.1 (hkept hk), hdiffer.2⟩)
    hlost hallows

/-- **Whatever code leaves of them**, regions stay alike, if discreet code leaves them as they
    were. -/
theorem ran (h : r.Alike placed kept r') (hloaded : r.loaded = true) {q q' : Region}
    (hran : r.Ran q) (hran' : r'.Ran q') (hsame : kept r.ticket → q = r ∧ q' = r') :
    q.Alike placed kept q' := by
  by_cases hkept : kept r.ticket
  · obtain ⟨rfl, rfl⟩ := hsame hkept
    exact h
  · have hloaded' : r'.loaded = true := h.loaded.trans hloaded
    obtain ⟨o, o', phase, phase', ho, -, hlost, hallows, rfl, rfl⟩ := h.phase
    obtain ⟨after, hafter, rfl⟩ := o.exists_phase_of_ran hloaded hran
    obtain ⟨after', hafter', rfl⟩ := o'.exists_phase_of_ran hloaded' hran'
    have hcoded : after.Coded := (Phase.Coded.of_loaded hloaded).ran hafter
    have hcoded' : after'.Coded := (Phase.Coded.of_loaded hloaded').ran hafter'
    rw [o.ticket_region] at hkept
    refine ho.region (.inr ⟨hkept, hcoded, hcoded'⟩) ⟨?_, ?_⟩
      ⟨hallows.1.ran hafter, hallows.2.ran hafter'⟩
    · rintro rfl
      cases hcoded
    · rintro rfl
      cases hcoded'

end Region.Alike

namespace Payload.Alike

variable {p p' : Payload}

theorem of_region {r r' : Region} (h : r.Alike placed kept r') (hloaded : r.loaded = true)
    (length : Nat) : Payload.Alike placed kept ⟨r, length⟩ ⟨r', length⟩ where
  region := h
  loaded := hloaded
  length := rfl
  bytes := fun hkept => by rw [Payload.bytes, Payload.bytes, h.readable hkept]

theorem mono (h : p.Alike placed kept p') {kept' : Nat → Prop}
    (hkept : kept' p.region.ticket → kept p.region.ticket) : p.Alike placed kept' p' where
  region := h.region.mono hkept
  loaded := h.loaded
  length := h.length
  bytes := fun hk => h.bytes (hkept hk)

theorem entry (h : p.Alike placed kept p') (hplaced : placed) : p'.entry = p.entry :=
  h.region.base hplaced

/-- Calls leave the code of payloads alike. -/
theorem after (h : p.Alike placed kept p') {calls calls' : Calls}
    (hran : p.region.Ran (p.after calls).region) (hran' : p'.region.Ran (p'.after calls').region)
    (hsame : kept p.region.ticket → calls.changed? = none ∧ calls'.changed? = none) :
    (p.after calls).Alike placed kept (p'.after calls') := by
  have hregion : (p.after calls).region.Alike placed kept (p'.after calls').region := by
    refine h.region.ran h.loaded hran hran' fun hkept => ?_
    obtain ⟨hnone, hnone'⟩ := hsame hkept
    simp only [Payload.after, hnone, hnone', Option.getD_none, and_self]
  refine ⟨hregion, hran.remains.loaded.trans h.loaded, h.length, fun hkept => ?_⟩
  show (p'.after calls').region.readable.take p'.length =
    (p.after calls).region.readable.take p.length
  rw [h.length, hregion.readable hkept]

end Payload.Alike

/-! ## Acquiring, loading and binding -/

namespace Region

/-- What the kernel does not grant is refused, a staged region maybe before the kernel is asked. -/
theorem acquire_of_map_error {ticket size capacity : Nat} {strategy : Strategy} {errno : Errno}
    (hround : roundUp? pageSize size = some capacity)
    (hmap : kernel.map ticket strategy capacity = .error errno) :
    ∃ cause, acquire kernel ticket size strategy =
      (.error (.mappingDenied size cause), [.mappingRefused size strategy cause]) := by
  unfold acquire acquireIn
  simp only [hround, hmap]
  split
  · exact ⟨.tooLong, rfl⟩
  · exact ⟨.kernel errno, rfl⟩

/-- No kernel grants what is too long to be staged: there is no place for it. -/
theorem acquire_alike (hkernel : kernel.Impartial) (hplaced : placed → kernel.PlacesAlike)
    (ticket size : Nat) :
    ResultAlike placed (Alike placed kept) (acquire kernel ticket size .rwx)
      (acquire kernel ticket size .staged) := by
  cases hround : roundUp? pageSize size with
  | none =>
    have hnone (strategy : Strategy) : acquire kernel ticket size strategy =
        (.error (.mappingDenied size .unroundable), []) := by
      unfold acquire acquireIn
      simp only [hround]
    rw [hnone, hnone]
    exact .error (.same _) .nil
  | some capacity =>
    have hgrants := hkernel.grants ticket capacity
    cases hrwx : kernel.map ticket .rwx capacity with
    | error errno =>
      cases hstaged : kernel.map ticket .staged capacity with
      | ok place' =>
        rw [hrwx, hstaged] at hgrants
        cases hgrants
      | error errno' =>
        obtain ⟨cause, hacquire⟩ := acquire_of_map_error hround hrwx
        obtain ⟨cause', hacquire'⟩ := acquire_of_map_error hround hstaged
        rw [hacquire, hacquire']
        exact .error (.mappingDenied size cause cause') (.singleton (.mappingRefused ..))
    | ok place =>
      cases hstaged : kernel.map ticket .staged capacity with
      | error errno' =>
        rw [hrwx, hstaged] at hgrants
        cases hgrants
      | ok place' =>
        have hshort : ¬ Offset.signedLimit ≤ capacity := Nat.not_le.mpr place.capacity_lt
        have hle := le_of_roundUp? (by decide) hround
        have hsize : size ≤ capacity := Nat.le_trans (Nat.le_max_left _ _) hle
        let o : Origin := ⟨ticket, size, .rwx, capacity, place, hsize⟩
        let o' : Origin := ⟨ticket, size, .staged, capacity, place', hsize⟩
        have ho : o.Alike placed o' :=
          ⟨rfl, rfl, rfl, rfl, rfl, fun h => hplaced h ticket capacity place place' hrwx hstaged⟩
        rw [acquire_of_map hround (by simp) hrwx,
          acquire_of_map hround (by simp [hshort]) hstaged]
        have hregion : (o.region .empty).Alike placed kept (o'.region .empty) :=
          ho.region (.inl rfl) ⟨nofun, nofun⟩ ⟨trivial, trivial⟩
        exact .ok hregion (.singleton (.acquired _ _ _ ho.base))

theorem Alike.release {r r' : Region} (h : r.Alike placed kept r') :
    r.release.Alike placed r'.release := by
  unfold Region.release
  rw [h.ticket, h.capacity]
  exact .released _ _ h.base

/-- **Loading keeps regions alike**, and what is loaded is the same in both. -/
theorem Alike.load {r r' : Region} (h : r.Alike placed kept r') (hkernel : kernel.Impartial)
    (image : Image) :
    (r.load kernel image).region.Alike placed kept (r'.load kernel image).region ∧
    ResultAlike placed (fun p p' => p.region.ticket = r.ticket ∧ p.Alike placed (fun _ => True) p')
      ((r.load kernel image).answer, (r.load kernel image).events)
      ((r'.load kernel image).answer, (r'.load kernel image).events) := by
  obtain ⟨o, o', phase, phase', ho, hphase, hlost, hallows, rfl, rfl⟩ := h.phase
  rw [o.ticket_region] at hphase
  have hevents := ho.loadEvents hkernel image hphase
  have hnext := ho.region (ho.next hkernel image hphase) (ho.next_ne_lost hkernel image hlost)
    ⟨hallows.1.next kernel image, hallows.2.next kernel image⟩
  rw [o.load_region, o'.load_region, ho.refusal?_eq hkernel image hphase]
  refine ⟨hnext, ?_⟩
  cases hrefusal : o.refusal? kernel image phase with
  | some e => exact .error (.same e) hevents
  | none =>
    obtain ⟨-, hsize, -, -⟩ := Origin.refusal?_eq_none_iff.mp hrefusal
    have hsize' : image.size ≤ o'.size := ho.size ▸ hsize
    have hholding : (o.region (.holding image)).Alike placed (fun _ => True)
        (o'.region (.holding image)) := ho.region (.inl rfl) ⟨nofun, nofun⟩ ⟨hsize, hsize'⟩
    refine .ok ⟨?_, .of_region hholding rfl image.size⟩ hevents
    rw [o.ticket_region, o.ticket_region]

end Region

theorem Callable.bind_alike {p p' : Payload} (h : p.Alike placed kept p') (shape : Shape) :
    ResultAlike placed (Callable.Alike placed kept) (bind p shape) (bind p' shape) := by
  unfold bind
  rw [h.length, h.region.ticket]
  split
  · exact .error (.same _) .nil
  · exact .ok ⟨h, rfl⟩ (.singleton (.callableBound _ _ _ _ h.entry))

/-! ## Routines -/

namespace Routine

theorem create_alike (hkernel : kernel.Impartial) (hplaced : placed → kernel.PlacesAlike)
    (ticket : Nat) (image : Image) :
    ResultAlike placed (Alike placed kept) (create kernel ticket image .rwx)
      (create kernel ticket image .staged) := by
  have hacquire : ResultAlike placed (Region.Alike placed kept) _ _ :=
    Region.acquire_alike hkernel hplaced ticket image.size
  unfold create
  generalize Region.acquire kernel ticket image.size .rwx = made at hacquire ⊢
  generalize Region.acquire kernel ticket image.size .staged = made' at hacquire ⊢
  cases hacquire with
  | error hcause hevents => exact .error hcause hevents
  | @ok r r' events events' hregion hevents =>
    obtain ⟨hlost, hload⟩ := hregion.load hkernel image
    dsimp only
    generalize r.load kernel image = attempt at hlost hload ⊢
    generalize r'.load kernel image = attempt' at hlost hload ⊢
    obtain ⟨answer, left, reports⟩ := attempt
    obtain ⟨answer', left', reports'⟩ := attempt'
    cases hload with
    | ok hpayload hreports =>
      exact .ok (hpayload.2.mono fun _ => trivial) (hevents.append hreports)
    | error hcause hreports =>
      -- whatever the load has made of the regions, they are given back alike
      exact .error hcause ((hevents.append hreports).append (.singleton hlost.release))

theorem writing_alike (hkernel : kernel.Impartial) (hplaced : placed → kernel.PlacesAlike)
    (ticket : Nat) (descriptor : UInt32) (message : List UInt8) :
    ResultAlike placed (Alike placed kept) (writing kernel ticket descriptor message .rwx)
      (writing kernel ticket descriptor message .staged) := by
  unfold writing
  split
  · exact .error (.same _) .nil
  · split
    · exact .error (.same _) .nil
    · rename_i distance image hresolve
      have hcreate : ResultAlike placed (Alike placed kept) _ _ :=
        create_alike hkernel hplaced ticket image
      dsimp only
      generalize create kernel ticket image .rwx = made at hcreate ⊢
      generalize create kernel ticket image .staged = made' at hcreate ⊢
      cases hcreate with
      | ok hroutine hevents => exact .ok hroutine (.cons (.same _) hevents)
      | error hcause hevents => exact .error hcause (.cons (.same _) hevents)

end Routine

/-! ## Invoking -/

/-- A loaded region's memory is that of its bytes, of whatever origin the region is. -/
theorem Origin.exists_memory_region {o : Origin} {phase : Phase}
    (hloaded : (o.region phase).loaded = true) :
    ∃ stored : List UInt8, ∀ o' : Origin, (o'.region phase).memory =
      Memory.mapped o'.place.base o'.capacity stored.toArray (o'.strategy = .rwx) true := by
  have hmemory : ∀ (stored : List UInt8) (o' : Origin),
      Region.memory ⟨o'.ticket, o'.strategy.loadedMapping (o'.pages stored), o'.size, true⟩ =
        Memory.mapped o'.place.base o'.capacity stored.toArray (o'.strategy = .rwx) true := by
    rintro stored ⟨ticket, size, strategy, capacity, place, size_le⟩
    cases strategy <;> rfl
  cases phase with
  | empty => cases hloaded
  | holding image => exact ⟨image.bytes, hmemory image.bytes⟩
  | altered stored => exact ⟨stored, hmemory stored⟩
  | lost => cases hloaded

theorem Region.Alike.fits {r r' : Region} (h : r.Alike placed kept r') : r.Fits ∧ r'.Fits := by
  obtain ⟨o, o', phase, phase', -, -, -, hallows, rfl, rfl⟩ := h.phase
  exact ⟨o.fits_region hallows.1, o'.fits_region hallows.2⟩

/-- **Memories of loaded regions** differ in the permission to write only: one of them bars the
    region. -/
theorem Region.Alike.exists_permitting {r r' : Region} (h : r.Alike placed kept r')
    (hplaced : placed) (hkept : kept r.ticket) (hloaded : r.loaded = true) (other : Memory) :
    ∃ p, r'.memory.backedBy other = (r.memory.backedBy other).permitting p ∧
      ∀ cpu : Cpu, cpu.memory.writable = (r.memory.backedBy other).writable →
        Cpu.Bars p r.memory cpu := by
  obtain ⟨o, o', phase, phase', ho, hphase, -, -, rfl, rfl⟩ := h.phase
  obtain rfl : phase' = phase := hphase.resolve_right fun hdiffer => hdiffer.1 hkept
  obtain ⟨stored, hmemory⟩ := o.exists_memory_region hloaded
  have hread : (o'.region phase').memory.read = (o.region phase').memory.read := by
    rw [hmemory o, hmemory o', ho.base hplaced, ho.capacity]
    rfl
  refine ⟨((o'.region phase').memory.backedBy other).writable, ?_, fun cpu hcpu => ⟨?_, ?_⟩⟩
  · rw [hmemory o, hmemory o', ho.base hplaced, ho.capacity]
    rfl
  · intro a ha
    have hbeside : ∀ q : Region, q.memory.read a = none →
        (q.memory.backedBy other).writable a = other.writable a :=
      fun q hq => if_neg (by rw [hq]; exact Bool.false_ne_true)
    rw [hcpu, hbeside _ ha, hbeside _ (by rw [hread]; exact ha)]
  · intro a ha
    have ha' : (if ((o'.region phase').memory.read a).isSome then (o'.region phase').memory.writable a
      else other.writable a) = true := ha
    rw [hcpu]
    show (if ((o.region phase').memory.read a).isSome then _ else _) = true
    rw [hread] at ha'
    split at ha'
    · -- what was staged is not writable any more
      rw [hmemory o', ho.staged] at ha'
      cases ha'
    · rename_i hnone
      rw [if_neg hnone]
      exact ha'

namespace Callable.Alike

variable {c c' : Callable} {services : Services} {f : Frame} {args : List Word}

/-- The processor enters both alike, but for the permission to write. -/
theorem enter (h : c.Alike placed kept c') (hplaced : placed)
    (hkept : kept c.payload.region.ticket) (hdiscreet : c.Discreet services f args) :
    ∃ p, c'.enter f args = (c.enter f args).map (fun cpu => cpu.permitting p) ∧
      ∀ cpu, c.enter f args = some cpu → Cpu.Bars p c.payload.region.memory cpu := by
  obtain ⟨p, hmemory, hbars⟩ :=
    h.payload.region.exists_permitting hplaced hkept h.payload.loaded f.memory
  let start : Cpu := ⟨passing args f.registers, c.payload.entry, 0x202#64,
    c.payload.region.memory.backedBy f.memory, []⟩
  have hrsp : start.get LowRegister.rsp = f.registers.get LowRegister.rsp :=
    passing_get (by decide) args f.registers
  have henter : c.enter f args = start.push f.back := rfl
  have henter' : c'.enter f args = (start.permitting p).push f.back := by
    unfold Callable.enter
    rw [h.payload.entry hplaced, hmemory]
    rfl
  have hadmits : (start.memory.permitting p).admitsStore 8 (start.get LowRegister.rsp - 8) =
      start.memory.admitsStore 8 (start.get LowRegister.rsp - 8) := by
    rw [hrsp]
    exact (hbars start rfl).admitsStore_eq fun _ => hdiscreet.enter
  refine ⟨p, ?_, fun cpu hcpu => hbars cpu ?_⟩
  · rw [henter', henter, Cpu.push_permitting hadmits]
  · exact X64.Memory.writable_of_store (Cpu.store_of_push hcpu)

/-- **A discreet call is the same** in both regions, up to the permission to write. -/
theorem invoke (h : c.Alike placed kept c') (hplaced : placed)
    (hkept : kept c.payload.region.ticket) (hdiscreet : c.Discreet services f args) :
    ∃ p, c'.invoke services f args = ((c.invoke services f args).1,
      (c.invoke services f args).2.map fun cpu => cpu.permitting p) := by
  obtain ⟨p, henter, hbars⟩ := h.enter hplaced hkept hdiscreet
  refine ⟨p, ?_⟩
  unfold Callable.invoke
  rw [henter]
  cases hcpu : c.enter f args with
  | none => rfl
  | some cpu =>
    have hrun := Cpu.runUntil_permitting (hdiscreet.run cpu hcpu) (hbars cpu hcpu)
    simp only [Option.map_some, hrun]
    cases cpu.runUntil services f.back <;> rfl

/-- What a call leaves behind is the same, when both are discreet and lie in the same place. -/
theorem call (h : c.Alike placed kept c') (hplaced : placed)
    (hkept : kept c.payload.region.ticket) (hdiscreet : c.Discreet services f args)
    (hdiscreet' : c'.Discreet services f args) :
    c'.call services f args = c.call services f args := by
  have hchanged := changed?_call h.payload.region.fits.1 hdiscreet
  have hchanged' := changed?_call h.payload.region.fits.2 hdiscreet'
  obtain ⟨p, hinvoke⟩ := h.invoke hplaced hkept hdiscreet
  unfold Callable.call at hchanged hchanged' ⊢
  rw [hinvoke] at hchanged' ⊢
  generalize c.invoke services f args = made at hchanged hchanged' ⊢
  obtain ⟨ending, cpu?⟩ := made
  cases cpu? with
  | none => rfl
  | some cpu =>
    dsimp only [Option.map_some] at hchanged hchanged' ⊢
    rw [hchanged, hchanged']
    rfl

/-- So is what discreet calls leave behind that are made one after the other. -/
theorem callAll (h : c.Alike placed kept c') (hplaced : placed)
    (hkept : kept c.payload.region.ticket) {calls : List (Frame × List Word)}
    (hdiscreet : c.DiscreetAll services calls) (hdiscreet' : c'.DiscreetAll services calls) :
    c'.callAll services calls = c.callAll services calls := by
  induction calls with
  | nil => rfl
  | cons call more ih =>
    obtain ⟨f, args⟩ := call
    obtain ⟨hfirst, hmore⟩ := hdiscreet
    obtain ⟨hfirst', hmore'⟩ := hdiscreet'
    have hcall := h.call hplaced hkept hfirst hfirst'
    rw [Callable.callAll, Callable.callAll, hcall]
    split
    · rename_i harrived
      have hchanged := changed?_call h.payload.region.fits.1 hfirst
      rw [after_of_changed? hchanged, after_of_changed? hchanged,
        ih (hmore harrived) (hmore' (hcall ▸ harrived))]
    · rfl

/-- Whatever calls do, they leave the code alike. -/
theorem after_callAll (h : c.Alike placed kept c') {calls : List (Frame × List Word)}
    (hdiscreet : kept c.payload.region.ticket →
      c.DiscreetAll services calls ∧ c'.DiscreetAll services calls) :
    (c.payload.after (c.callAll services calls)).Alike placed kept
      (c'.payload.after (c'.callAll services calls)) := by
  refine h.payload.after (ran_callAll ..) (ran_callAll ..) fun hkept => ?_
  obtain ⟨hcalls, hcalls'⟩ := hdiscreet hkept
  exact ⟨changed?_callAll h.payload.region.fits.1 hcalls,
    changed?_callAll h.payload.region.fits.2 hcalls'⟩

end Callable.Alike

namespace Routine

/-- The same runs, but for what they report of addresses, and for what code makes of them that is
    indiscreet.  There are as many of them if they fail or all come back, and discreet ones also if
    not. -/
structure Runs.Alike (placed kept : Prop) (a a' : Runs) : Prop where
  calls : placed → kept → a'.calls = a.calls
  error? : Option.Rel Error.Alike a.error? a'.error?
  events : (a.error? = Option.none → (a.calls.ending = .arrived ↔ a'.calls.ending = .arrived) ∧
    (kept ∨ a.calls.ending = .arrived)) → Event.AllAlike placed a.events a'.events

variable {r r' : Routine} {services : Services} {f : Frame}

theorem Alike.binding (h : r.Alike placed kept r') : r.binding.Alike placed r'.binding := by
  have hlength : r'.length = r.length := h.length
  have hticket : r'.region.ticket = r.region.ticket := h.region.ticket
  unfold Routine.binding
  rw [hlength, hticket]
  exact .callableBound _ _ _ _ h.entry

/-- **Runs leave routines alike.** -/
theorem Alike.after_runAll (h : r.Alike placed kept r') {frames : List Frame}
    (hdiscreet : kept r.region.ticket →
      r.DiscreetRuns services frames ∧ r'.DiscreetRuns services frames) :
    (r.after (r.runAll services frames).calls).Alike placed kept
      (r'.after (r'.runAll services frames).calls) := by
  have hran := r.ran_runAll services frames
  have hran' := r'.ran_runAll services frames
  refine Payload.Alike.after h hran hran' fun hkept => ?_
  obtain ⟨hruns, hruns'⟩ := hdiscreet hkept
  exact ⟨changed?_runAll h.region.fits.1 hruns, changed?_runAll h.region.fits.2 hruns'⟩

/-- **Runs are alike**, and discreet ones are the same. -/
theorem Alike.runTimes (h : r.Alike placed kept r') {n : Nat}
    (hdiscreet : kept r.region.ticket →
      r.DiscreetRuns services (List.replicate n f) ∧
        r'.DiscreetRuns services (List.replicate n f)) :
    Runs.Alike placed (kept r.region.ticket) (r.runTimes services f n)
      (r'.runTimes services f n) := by
  have hlength : r'.length = r.length := h.length
  cases n with
  | zero => exact ⟨fun _ _ => rfl, .none, fun _ => .nil⟩
  | succ n =>
    by_cases hzero : r.length = 0
    · unfold Routine.runTimes
      rw [run_of_length_eq hzero, run_of_length_eq (hlength.trans hzero)]
      exact ⟨fun _ _ => rfl, .some (.same _), fun _ => .nil⟩
    · have hzero' : r'.length ≠ 0 := hlength ▸ hzero
      obtain ⟨k, -, hruns, hall⟩ := exists_runAll_eq hzero services (List.replicate (n + 1) f)
      obtain ⟨k', -, hruns', hall'⟩ := exists_runAll_eq hzero' services (List.replicate (n + 1) f)
      rw [← runTimes_eq_runAll] at hruns hall hruns' hall'
      rw [List.length_replicate] at hall hall'
      have herror : (r.runTimes services f (n + 1)).error? = none := by
        rw [hruns]
      refine ⟨fun hplaced hkept => ?_, ?_, fun hcomes => ?_⟩
      · obtain ⟨hone, hone'⟩ := hdiscreet hkept
        have hcallable : Callable.Alike placed kept ⟨r.payload, .nullary⟩ ⟨r'.payload, .nullary⟩ :=
          ⟨h, rfl⟩
        rw [hruns, hruns']
        exact hcallable.callAll hplaced hkept (hone hzero) (hone' hzero')
      · rw [hruns, hruns']
        exact .none
      · obtain ⟨hboth, hsome⟩ := hcomes herror
        by_cases harrived : (r.runTimes services f (n + 1)).calls.ending = .arrived
        · obtain rfl := hall harrived
          obtain rfl := hall' (hboth.mp harrived)
          rw [hruns, hruns']
          exact .replicate h.binding _
        · -- a discreet run that does not come back is the first one
          obtain ⟨hone, hone'⟩ := hdiscreet (hsome.resolve_right harrived)
          rw [runTimes_of_ending_ne hzero h.region.fits.1 hone harrived,
            runTimes_of_ending_ne hzero' h.region.fits.2 hone' (mt hboth.mpr harrived),
            run_of_length_ne hzero, run_of_length_ne hzero']
          exact .singleton h.binding

end Routine

end Emplace
