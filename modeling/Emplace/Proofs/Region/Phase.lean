import Emplace.Proofs.Region.Lifecycle

/-
  The phases of a region.

  All that happens to a region after it was acquired is told by four phases: it is `empty`, it is
  `holding` an image, what it held was `altered` by code that ran in it, or its mapping is `lost`.
  What it was acquired with, its `Origin`, never changes, and origin and phase together determine
  every field of the region (`Origin.region`).

  1. **The machine.**  `Origin.refusal?` gives the first reason not to load an image in a phase, and
     `Origin.next` the phase after the attempt.  Neither looks at a mapping.

  2. **The square.**  A load of the region in some phase answers with that reason and leaves the
     region in the next phase (`load_region`).  In particular the flag of the region and the kind
     of its mapping, which tell the same story twice, never come apart.

  3. **Code.**  Code that runs in a region can alter what is stored in it, and nothing else
     (`region_of_changedBy?`).

  4. **All regions.**  Every region that comes up is some origin's region in some phase
     (`Reachable.exists_phase`), so what is said about phases is said about all of them.
-/

namespace Emplace

/-- How a strategy uses memory that was loaded. -/
def Strategy.loadedMapping : Strategy → Pages → Mapping
  | .rwx => .both
  | .staged => .executable

/-- What a region was acquired with. -/
structure Origin where
  ticket : Nat
  /-- The number of bytes that were asked for. -/
  size : Nat
  strategy : Strategy
  /-- The number of bytes that were mapped. -/
  capacity : Nat
  place : Place capacity
  size_le : size ≤ capacity

/-- What has become of a region. -/
inductive Phase
  /-- Nothing was loaded so far. -/
  | empty
  /-- The image was loaded. -/
  | holding (image : Image)
  /-- Code that was loaded has stored something else in it. -/
  | altered (stored : List UInt8)
  /-- The kernel did not permit the image to be executed, and the mapping was given back. -/
  | lost

namespace Origin

/-- The mapped memory with some bytes stored at its start. -/
def pages (o : Origin) (stored : List UInt8) : Pages := ⟨o.capacity, o.place, stored⟩

/-- The region in a phase. -/
def region (o : Origin) : Phase → Region
  | .empty => ⟨o.ticket, o.strategy.mapping (o.pages []), o.size, false⟩
  | .holding image => ⟨o.ticket, o.strategy.loadedMapping (o.pages image.bytes), o.size, true⟩
  | .altered stored => ⟨o.ticket, o.strategy.loadedMapping (o.pages stored), o.size, true⟩
  | .lost => ⟨o.ticket, .gone, o.size, false⟩

/-- The phases that the region can be in: an image that it holds fits, code leaves all of its bytes
    behind, and only a mapping that was to be made executable is lost. -/
def Allows (o : Origin) : Phase → Prop
  | .empty => True
  | .holding image => image.size ≤ o.size
  | .altered stored => stored.length = o.capacity
  | .lost => o.strategy = .staged

/-! ## The machine -/

/-- Why the kernel does not let loaded memory be executed.  It is asked only where memory is not
    executable from the start. -/
def denial? (o : Origin) (kernel : Kernel) : Option Errno :=
  match o.strategy, kernel.permitExecute o.ticket with
  | .staged, .error errno => some errno
  | _, _ => none

/-- The first reason not to load an image. -/
def refusal? (o : Origin) (kernel : Kernel) (image : Image) (phase : Phase) : Option Error :=
  match image.pending with
  | s :: _ => some (.unresolved s.field)
  | [] =>
      if o.size < image.size then some (.regionTooSmall image.size o.size)
      else
        match phase with
        | .empty => (o.denial? kernel).map fun errno => .mappingDenied o.size (.kernel errno)
        | .holding _ => some .alreadyLoaded
        | .altered _ => some .alreadyLoaded
        | .lost => some .mappingReleased

/-- The phase after an attempt to load an image. -/
def next (o : Origin) (kernel : Kernel) (image : Image) (phase : Phase) : Phase :=
  match o.refusal? kernel image phase with
  | none => .holding image
  | some (.mappingDenied _ _) => .lost
  | some _ => phase

/-- What the attempt reports. -/
def loadEvents (o : Origin) (kernel : Kernel) (image : Image) (phase : Phase) : List Event :=
  match o.refusal? kernel image phase with
  | none => [.payloadLoaded o.ticket image.size o.place.base]
  | some (.mappingDenied _ cause) => [.sealRefused o.ticket cause]
  | some _ => []

theorem refusal?_of_pending {o : Origin} {image : Image} {s : Site} {rest : List Site}
    (h : image.pending = s :: rest) (kernel : Kernel) (phase : Phase) :
    o.refusal? kernel image phase = some (.unresolved s.field) := by
  simp only [refusal?, h]

theorem refusal?_of_lt {o : Origin} {image : Image} (hpending : image.pending = [])
    (hsize : o.size < image.size) (kernel : Kernel) (phase : Phase) :
    o.refusal? kernel image phase = some (.regionTooSmall image.size o.size) := by
  simp only [refusal?, hpending, hsize, if_true]

/-- Once the image itself is in order, the phase decides. -/
theorem refusal?_of_le {o : Origin} {image : Image} (hpending : image.pending = [])
    (hsize : image.size ≤ o.size) (kernel : Kernel) (phase : Phase) :
    o.refusal? kernel image phase =
      match phase with
      | .empty => (o.denial? kernel).map fun errno => .mappingDenied o.size (.kernel errno)
      | .holding _ => some .alreadyLoaded
      | .altered _ => some .alreadyLoaded
      | .lost => some .mappingReleased := by
  simp only [refusal?, hpending, Nat.not_lt.mpr hsize, if_false]

/-- Exactly when nothing speaks against loading an image. -/
theorem refusal?_eq_none_iff {o : Origin} {kernel : Kernel} {image : Image} {phase : Phase} :
    o.refusal? kernel image phase = none ↔
      image.pending = [] ∧ image.size ≤ o.size ∧ phase = .empty ∧ o.denial? kernel = none := by
  cases hpending : image.pending with
  | cons s rest => simp [refusal?_of_pending hpending]
  | nil =>
    by_cases hsize : o.size < image.size
    · simp [refusal?_of_lt hpending hsize, Nat.not_le.mpr hsize]
    · have hle : image.size ≤ o.size := Nat.le_of_not_lt hsize
      rw [refusal?_of_le hpending hle]
      cases phase <;> simp [hle]

theorem next_of_refusal?_eq_none {o : Origin} {kernel : Kernel} {image : Image} {phase : Phase}
    (h : o.refusal? kernel image phase = none) : o.next kernel image phase = .holding image := by
  simp only [next, h]

/-- All that an attempt can do to the phase. -/
theorem next_cases (o : Origin) (kernel : Kernel) (image : Image) (phase : Phase) :
    (o.refusal? kernel image phase ≠ none ∧ o.next kernel image phase = phase) ∨
    (o.refusal? kernel image phase = none ∧ phase = .empty ∧ image.size ≤ o.size ∧
      o.next kernel image phase = .holding image) ∨
    (o.refusal? kernel image phase ≠ none ∧ phase = .empty ∧ o.strategy = .staged ∧
      o.next kernel image phase = .lost) := by
  cases hpending : image.pending with
  | cons s rest =>
    have h := refusal?_of_pending (o := o) hpending kernel phase
    exact .inl ⟨by simp [h], by simp only [next, h]⟩
  | nil =>
    by_cases hsize : o.size < image.size
    · have h := refusal?_of_lt hpending hsize kernel phase
      exact .inl ⟨by simp [h], by simp only [next, h]⟩
    · have hle : image.size ≤ o.size := Nat.le_of_not_lt hsize
      have h := refusal?_of_le hpending hle kernel phase
      cases phase with
      | holding old => exact .inl ⟨by simp [h], by simp only [next, h]⟩
      | altered stored => exact .inl ⟨by simp [h], by simp only [next, h]⟩
      | lost => exact .inl ⟨by simp [h], by simp only [next, h]⟩
      | empty =>
        cases hdenial : o.denial? kernel with
        | none =>
          have hnone : o.refusal? kernel image .empty = none :=
            refusal?_eq_none_iff.mpr ⟨hpending, hle, rfl, hdenial⟩
          exact .inr (.inl ⟨hnone, rfl, hle, next_of_refusal?_eq_none hnone⟩)
        | some errno =>
          have hstaged : o.strategy = .staged := by
            unfold denial? at hdenial
            split at hdenial
            · assumption
            · cases hdenial
          simp only [hdenial, Option.map_some] at h
          exact .inr (.inr ⟨by simp [h], rfl, hstaged, by simp only [next, h]⟩)

theorem Allows.next {o : Origin} {phase : Phase} (h : o.Allows phase) (kernel : Kernel)
    (image : Image) : o.Allows (o.next kernel image phase) := by
  rcases o.next_cases kernel image phase with
    ⟨-, hnext⟩ | ⟨-, -, hsize, hnext⟩ | ⟨-, -, hstaged, hnext⟩
  · rw [hnext]
    exact h
  · rw [hnext]
    exact hsize
  · rw [hnext]
    exact hstaged

/-! ## What can be seen of the region in a phase -/

@[simp] theorem size_region (o : Origin) (phase : Phase) : (o.region phase).size = o.size := by
  cases phase <;> rfl

@[simp] theorem ticket_region (o : Origin) (phase : Phase) :
    (o.region phase).ticket = o.ticket := by
  cases phase <;> rfl

theorem pages?_empty (o : Origin) : (o.region .empty).mapping.pages? = some (o.pages []) := by
  obtain ⟨ticket, size, strategy, capacity, place, size_le⟩ := o
  cases strategy <;> rfl

theorem pages?_holding (o : Origin) (image : Image) :
    (o.region (.holding image)).mapping.pages? = some (o.pages image.bytes) := by
  obtain ⟨ticket, size, strategy, capacity, place, size_le⟩ := o
  cases strategy <;> rfl

theorem pages?_altered (o : Origin) (stored : List UInt8) :
    (o.region (.altered stored)).mapping.pages? = some (o.pages stored) := by
  obtain ⟨ticket, size, strategy, capacity, place, size_le⟩ := o
  cases strategy <;> rfl

/-- A region has lost its mapping exactly in the phase that says so. -/
theorem mapping_region_eq_gone_iff {o : Origin} {phase : Phase} :
    (o.region phase).mapping = .gone ↔ phase = .lost := by
  obtain ⟨ticket, size, strategy, capacity, place, size_le⟩ := o
  cases phase <;> cases strategy <;> simp [region, Strategy.mapping, Strategy.loadedMapping]

/-- Until then, memory is mapped where it was at first. -/
theorem exists_pages?_region (o : Origin) {phase : Phase} (h : phase ≠ .lost) :
    ∃ stored, (o.region phase).mapping.pages? = some (o.pages stored) := by
  cases phase with
  | empty => exact ⟨[], o.pages?_empty⟩
  | holding image => exact ⟨image.bytes, o.pages?_holding image⟩
  | altered stored => exact ⟨stored, o.pages?_altered stored⟩
  | lost => exact absurd rfl h

theorem capacity_region (o : Origin) {phase : Phase} (h : phase ≠ .lost) :
    (o.region phase).capacity = o.capacity := by
  obtain ⟨stored, hp⟩ := o.exists_pages?_region h
  rw [Region.capacity, hp]
  rfl

theorem base_region (o : Origin) {phase : Phase} (h : phase ≠ .lost) :
    (o.region phase).base = o.place.base := by
  obtain ⟨stored, hp⟩ := o.exists_pages?_region h
  rw [Region.base, hp]
  rfl

/-- The stored bytes, as far as they were asked for, with zeros behind them. -/
theorem take_bytes_pages (o : Origin) {stored : List UInt8} (h : stored.length ≤ o.size) :
    (o.pages stored).bytes.take o.size =
      stored ++ List.replicate (o.size - stored.length) 0 := by
  have hmin : min (o.size - stored.length) (o.capacity - stored.length) = o.size - stored.length :=
    Nat.min_eq_left (by have := o.size_le; omega)
  show (stored ++ List.replicate (o.capacity - stored.length) 0).take o.size = _
  rw [List.take_append, List.take_of_length_le h, List.take_replicate, hmin]

theorem readable_empty (o : Origin) :
    (o.region .empty).readable = List.replicate o.size 0 := by
  rw [Region.readable, o.pages?_empty]
  exact o.take_bytes_pages (Nat.zero_le _)

theorem readable_holding (o : Origin) {image : Image} (h : image.size ≤ o.size) :
    (o.region (.holding image)).readable =
      image.bytes ++ List.replicate (o.size - image.size) 0 := by
  rw [Region.readable, o.pages?_holding image]
  exact o.take_bytes_pages h

theorem readable_altered (o : Origin) {stored : List UInt8} (h : stored.length = o.capacity) :
    (o.region (.altered stored)).readable = stored.take o.size := by
  rw [Region.readable, o.pages?_altered stored]
  show (stored ++ List.replicate (o.capacity - stored.length) 0).take o.size = _
  rw [h, Nat.sub_self, List.replicate_zero, List.append_nil]

/-- All bytes asked for can be read until the mapping is lost. -/
theorem length_readable_region (o : Origin) {phase : Phase} (hallows : o.Allows phase)
    (h : phase ≠ .lost) : (o.region phase).readable.length = o.size := by
  cases phase with
  | empty => rw [o.readable_empty, List.length_replicate]
  | holding image =>
    have hle : image.bytes.length ≤ o.size := hallows
    rw [o.readable_holding hallows, List.length_append, List.length_replicate]
    show image.bytes.length + (o.size - image.bytes.length) = o.size
    omega
  | altered stored =>
    have hle : o.size ≤ stored.length := Nat.le_trans o.size_le (Nat.le_of_eq hallows.symm)
    rw [o.readable_altered hallows, List.length_take, Nat.min_eq_left hle]
  | lost => exact absurd rfl h

theorem executable_holding (o : Origin) (image : Image) :
    (o.region (.holding image)).executable = true := by
  obtain ⟨ticket, size, strategy, capacity, place, size_le⟩ := o
  cases strategy <;> rfl

theorem executable_altered (o : Origin) (stored : List UInt8) :
    (o.region (.altered stored)).executable = true := by
  obtain ⟨ticket, size, strategy, capacity, place, size_le⟩ := o
  cases strategy <;> rfl

/-! ## Loading -/

/-- **A load moves the region to the next phase**, and is refused for the first reason there is. -/
theorem load_region (o : Origin) (kernel : Kernel) (image : Image) (phase : Phase) :
    (o.region phase).load kernel image =
      ⟨match o.refusal? kernel image phase with
        | none => .ok ⟨o.region (.holding image), image.size⟩
        | some e => .error e,
        o.region (o.next kernel image phase), o.loadEvents kernel image phase⟩ := by
  cases hpending : image.pending with
  | cons s rest =>
    have h := refusal?_of_pending (o := o) hpending kernel phase
    simp only [Region.load, hpending, next, loadEvents, h]
  | nil =>
    by_cases hsize : o.size < image.size
    · have h := refusal?_of_lt hpending hsize kernel phase
      simp only [Region.load, hpending, next, loadEvents, h, size_region, hsize, if_true]
    · have hle : image.size ≤ o.size := Nat.le_of_not_lt hsize
      have h := refusal?_of_le hpending hle kernel phase
      simp only [Region.load, hpending, size_region, hsize, if_false, next, loadEvents]
      cases phase with
      | holding old =>
        simp only [h]
        rfl
      | altered stored =>
        simp only [h]
        rfl
      | lost =>
        simp only [h]
        rfl
      | empty =>
        have hstore : (o.pages []).store image.bytes = o.pages image.bytes := by
          simp [Pages.store, pages]
        cases hstrategy : o.strategy with
        | rwx =>
          simp only [h, denial?, hstrategy, Option.map_none, Region.store, region,
            Strategy.mapping, Strategy.loadedMapping, Bool.false_eq_true, if_false, hstore]
          rfl
        | staged =>
          cases hpermit : kernel.permitExecute o.ticket with
          | ok u =>
            simp only [h, denial?, hstrategy, hpermit, Option.map_none, Region.store, region,
              Strategy.mapping, Strategy.loadedMapping, Bool.false_eq_true, if_false, hstore]
            rfl
          | error errno =>
            simp only [h, denial?, hstrategy, hpermit, Option.map_some, Region.store, region,
              Strategy.mapping, Bool.false_eq_true, if_false]

/-- Whatever is refused before anything is stored leaves the region as it is. -/
theorem load_region_of_refused {o : Origin} {kernel : Kernel} {image : Image} {phase : Phase}
    {e : Error} (h : o.refusal? kernel image phase = some e)
    (he : ∀ requested cause, e ≠ .mappingDenied requested cause) :
    (o.region phase).load kernel image = ⟨.error e, o.region phase, []⟩ := by
  have hnext : o.next kernel image phase = phase := by
    rw [next, h]
    cases e <;> first | rfl | exact absurd rfl (he _ _)
  have hevents : o.loadEvents kernel image phase = [] := by
    rw [loadEvents, h]
    cases e <;> first | rfl | exact absurd rfl (he _ _)
  rw [o.load_region, hnext, hevents, h]

end Origin

/-! ## Code that runs in a region -/

/-- **Code alters what is stored** in a region that was loaded, or nothing. -/
theorem Origin.region_of_changedBy? {o : Origin} {phase : Phase} {m : X64.Memory} {r : Region}
    (hloaded : (o.region phase).loaded = true) (h : (o.region phase).changedBy? m = some r) :
    ∃ stored, stored.length = o.capacity ∧ r = o.region (.altered stored) := by
  have hpages : ∀ stored pages, (o.pages stored).changedBy? m = some pages →
      ∃ now, now.length = o.capacity ∧ pages = o.pages now := by
    intro stored pages hchanged
    unfold Pages.changedBy? at hchanged
    split at hchanged
    · rename_i now hload
      split at hchanged
      · cases hchanged
      · exact ⟨now, X64.Memory.length_of_load hload, (Option.some.inj hchanged).symm⟩
    · cases hchanged
  have hmapping : ∀ stored mapping,
      (o.strategy.loadedMapping (o.pages stored)).changedBy? m = some mapping →
      ∃ now, now.length = o.capacity ∧ mapping = o.strategy.loadedMapping (o.pages now) := by
    intro stored mapping hchanged
    cases hstrategy : o.strategy with
    | rwx =>
      rw [hstrategy] at hchanged
      obtain ⟨pages, hnow, rfl⟩ := Option.map_eq_some_iff.mp hchanged
      obtain ⟨now, hlength, rfl⟩ := hpages stored pages hnow
      exact ⟨now, hlength, rfl⟩
    | staged =>
      rw [hstrategy] at hchanged
      obtain ⟨pages, hnow, rfl⟩ := Option.map_eq_some_iff.mp hchanged
      obtain ⟨now, hlength, rfl⟩ := hpages stored pages hnow
      exact ⟨now, hlength, rfl⟩
  obtain ⟨mapping, hchanged, rfl⟩ := Option.map_eq_some_iff.mp h
  cases phase with
  | empty => cases hloaded
  | holding image =>
    obtain ⟨now, hlength, rfl⟩ := hmapping image.bytes mapping hchanged
    exact ⟨now, hlength, rfl⟩
  | altered stored =>
    obtain ⟨now, hlength, rfl⟩ := hmapping stored mapping hchanged
    exact ⟨now, hlength, rfl⟩
  | lost => cases hloaded

/-- The phases that code can leave behind. -/
def Phase.Ran (o : Origin) (before after : Phase) : Prop :=
  after = before ∨ ∃ stored, stored.length = o.capacity ∧ after = .altered stored

theorem Origin.Allows.ran {o : Origin} {before after : Phase} (h : o.Allows before)
    (hran : before.Ran o after) : o.Allows after := by
  rcases hran with rfl | ⟨stored, hlength, rfl⟩
  · exact h
  · exact hlength

/-- In any number of calls, too, code alters what is stored or nothing. -/
theorem Origin.exists_phase_of_ran {o : Origin} {phase : Phase} {r : Region}
    (hloaded : (o.region phase).loaded = true) (h : (o.region phase).Ran r) :
    ∃ after, phase.Ran o after ∧ r = o.region after := by
  generalize hbefore : o.region phase = before at h
  induction h with
  | refl => exact ⟨phase, .inl rfl, hbefore.symm⟩
  | step _ hm ih =>
    obtain ⟨after, hafter, rfl⟩ := ih
    have hloaded' : (o.region after).loaded = true := by
      rcases hafter with rfl | ⟨stored, -, rfl⟩
      · exact hloaded
      · rfl
    obtain ⟨stored, hlength, rfl⟩ := o.region_of_changedBy? hloaded' hm
    exact ⟨.altered stored, .inr ⟨stored, hlength, rfl⟩, rfl⟩

/-! ## Every region is in some phase -/

namespace Region

/-- A region that was just acquired is empty. -/
theorem exists_origin_of_acquire {kernel : Kernel} {ticket size : Nat} {strategy : Strategy}
    {r : Region} {events : List Event}
    (h : acquire kernel ticket size strategy = (.ok r, events)) :
    ∃ o : Origin, o.ticket = ticket ∧ o.size = size ∧ o.strategy = strategy ∧
      r = o.region .empty := by
  obtain ⟨capacity, place, hround, -, -, rfl, -⟩ := acquire_eq_ok_iff.mp h
  have hle := le_of_roundUp? (by decide) hround
  exact ⟨⟨ticket, size, strategy, capacity, place, Nat.le_trans (Nat.le_max_left _ _) hle⟩,
    rfl, rfl, rfl, rfl⟩

/-- **Every region that comes up** is in one of the phases that its origin allows. -/
theorem Reachable.exists_phase {r : Region} (h : r.Reachable) :
    ∃ (o : Origin) (phase : Phase), o.Allows phase ∧ r = o.region phase := by
  induction h with
  | acquired h =>
    obtain ⟨o, -, -, -, rfl⟩ := exists_origin_of_acquire h
    exact ⟨o, .empty, trivial, rfl⟩
  | loaded _ kernel image ih =>
    obtain ⟨o, phase, hallows, rfl⟩ := ih
    exact ⟨o, o.next kernel image phase, hallows.next kernel image, by rw [o.load_region]⟩
  | ran _ hloaded hm ih =>
    obtain ⟨o, phase, -, rfl⟩ := ih
    obtain ⟨stored, hlength, rfl⟩ := o.region_of_changedBy? hloaded hm
    exact ⟨o, .altered stored, hlength, rfl⟩

end Region

end Emplace
