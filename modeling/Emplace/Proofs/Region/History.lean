import Emplace.Proofs.Region.Phase

/-
  The history of a region.

  A region is acquired once, and after that loads are tried on it, one after the other, each with
  an image of its own and with a kernel that may have changed its mind (`Loading`).

    * `Region.loadAll` is the region after some loads, and `Region.taken?` the image of the first of
      them that succeeded.  The latter is all that is left of the history: it tells what the region
      holds, and that no load will succeed any more.
    * `Region.Consistent` says what the kind of the mapping tells about the rest of the region, and
      `Mapping.Moves` how the mapping may change.

  Main statement: `lifecycle_loadAll`, by induction on the loads.  Its invariant is the phase of the
  region: the phase after a run holds just the image that was taken (`held?_phaseAfter`).
-/

namespace Emplace

/-- An attempt to load: the image, and the kernel as it is then. -/
structure Loading where
  kernel : Kernel
  image : Image

/-- How a mapping may change, if it does. -/
inductive Mapping.Moves : Mapping → Mapping → Prop
  | stays (mapping : Mapping) : Moves mapping mapping
  /-- Bytes were stored, and may be executed as before. -/
  | fills (pages pages' : Pages) : Moves (.both pages) (.both pages')
  /-- Bytes were stored, and writing was given up for executing. -/
  | seals (pages pages' : Pages) : Moves (.writable pages) (.executable pages')
  | loses (pages : Pages) : Moves (.writable pages) .gone

namespace Region

def after (r : Region) (l : Loading) : Region := (r.load l.kernel l.image).region

/-- Whether the load succeeds. -/
def takes (r : Region) (l : Loading) : Bool := (r.load l.kernel l.image).answer.isOk

/-- The region after some loads. -/
def loadAll (r : Region) (loads : List Loading) : Region := loads.foldl after r

/-- The image of the first load that succeeds in the run from a region. -/
def taken? : Region → List Loading → Option Image
  | _, [] => none
  | r, l :: loads => if r.takes l then some l.image else taken? (r.after l) loads

/-- What the mapping of a region tells about the region, and about the strategy that it was
    acquired under. -/
structure Consistent (strategy : Strategy) (r : Region) : Prop where
  both : ∀ pages, r.mapping = .both pages → strategy = .rwx ∧ r.executable = true
  writable : ∀ pages, r.mapping = .writable pages →
    strategy = .staged ∧ r.loaded = false ∧ r.executable = false
  executable : ∀ pages, r.mapping = .executable pages →
    strategy = .staged ∧ r.loaded = true ∧ r.executable = true
  gone : r.mapping = .gone → strategy = .staged ∧ r.loaded = false ∧ r.executable = false ∧
    r.capacity = 0 ∧ r.base = 0 ∧ r.readable = []
  exclusive : strategy = .staged →
    ¬ (r.mapping.isWritable = true ∧ r.mapping.isExecutable = true)

end Region

/-- The image that is held in a phase. -/
def Phase.held? : Phase → Option Image
  | .holding image => some image
  | _ => none

namespace Origin

/-! ## One load, seen from the phase -/

theorem after_region (o : Origin) (phase : Phase) (l : Loading) :
    (o.region phase).after l = o.region (o.next l.kernel l.image phase) := by
  rw [Region.after, o.load_region]

/-- A load succeeds if nothing speaks against it. -/
theorem takes_region (o : Origin) (phase : Phase) (l : Loading) :
    (o.region phase).takes l = (o.refusal? l.kernel l.image phase).isNone := by
  rw [Region.takes, o.load_region]
  cases o.refusal? l.kernel l.image phase <;> rfl

/-- What was loaded or lost stays so. -/
theorem next_of_ne_empty (o : Origin) {phase : Phase} (h : phase ≠ .empty) (kernel : Kernel)
    (image : Image) :
    o.refusal? kernel image phase ≠ none ∧ o.next kernel image phase = phase := by
  rcases o.next_cases kernel image phase with hstays | ⟨-, hempty, -⟩ | ⟨-, hempty, -⟩
  · exact hstays
  · exact absurd hempty h
  · exact absurd hempty h

theorem takes_of_ne_empty (o : Origin) {phase : Phase} (h : phase ≠ .empty) (l : Loading) :
    (o.region phase).takes l = false ∧ (o.region phase).after l = o.region phase := by
  obtain ⟨hrefused, hnext⟩ := o.next_of_ne_empty h l.kernel l.image
  rw [o.takes_region, o.after_region, hnext, Option.isNone_eq_false_iff,
    Option.isSome_iff_ne_none]
  exact ⟨hrefused, rfl⟩

/-- The mapping moves along with the phase. -/
theorem moves_region (o : Origin) (kernel : Kernel) (image : Image) (phase : Phase) :
    Mapping.Moves (o.region phase).mapping (o.region (o.next kernel image phase)).mapping := by
  rcases o.next_cases kernel image phase with
    ⟨-, hnext⟩ | ⟨-, rfl, -, hnext⟩ | ⟨-, rfl, hstaged, hnext⟩
  · rw [hnext]
    exact .stays _
  · rw [hnext, region, region]
    cases o.strategy with
    | rwx => exact .fills _ _
    | staged => exact .seals _ _
  · rw [hnext, region, region, hstaged]
    exact .loses _

/-- The mapping and the rest of the region agree in every phase. -/
theorem consistent_region (o : Origin) {phase : Phase} (h : o.Allows phase) :
    Region.Consistent o.strategy (o.region phase) := by
  obtain ⟨ticket, size, strategy, capacity, place, size_le⟩ := o
  constructor
  · intro pages hp
    cases strategy with
    | rwx => exact ⟨rfl, by rw [Region.executable, hp]; rfl⟩
    | staged => cases phase <;> cases hp
  · intro pages hp
    cases strategy with
    | rwx => cases phase <;> cases hp
    | staged =>
      cases phase with
      | empty => exact ⟨rfl, rfl, rfl⟩
      | holding image => cases hp
      | altered stored => cases hp
      | lost => cases hp
  · intro pages hp
    cases strategy with
    | rwx => cases phase <;> cases hp
    | staged =>
      cases phase with
      | empty => cases hp
      | holding image => exact ⟨rfl, rfl, rfl⟩
      | altered stored => exact ⟨rfl, rfl, rfl⟩
      | lost => cases hp
  · intro hp
    obtain rfl := mapping_region_eq_gone_iff.mp hp
    exact ⟨h, rfl, rfl, rfl, rfl, rfl⟩
  · rintro hstaged ⟨hwritable, hexecutable⟩
    obtain rfl : strategy = .staged := hstaged
    cases phase with
    | empty => cases hexecutable
    | holding image => cases hwritable
    | altered stored => cases hwritable
    | lost => cases hwritable

/-! ## Runs of loads -/

/-- The phase after some loads. -/
def phaseAfter (o : Origin) (phase : Phase) (loads : List Loading) : Phase :=
  loads.foldl (fun phase l => o.next l.kernel l.image phase) phase

theorem phaseAfter_cons (o : Origin) (phase : Phase) (l : Loading) (loads : List Loading) :
    o.phaseAfter phase (l :: loads) = o.phaseAfter (o.next l.kernel l.image phase) loads :=
  rfl

theorem phaseAfter_append (o : Origin) (phase : Phase) (loads more : List Loading) :
    o.phaseAfter phase (loads ++ more) = o.phaseAfter (o.phaseAfter phase loads) more :=
  List.foldl_append

theorem loadAll_region (o : Origin) (phase : Phase) (loads : List Loading) :
    (o.region phase).loadAll loads = o.region (o.phaseAfter phase loads) := by
  induction loads generalizing phase with
  | nil => rfl
  | cons l loads ih =>
    show ((o.region phase).after l).loadAll loads = _
    rw [o.after_region, ih, phaseAfter_cons]

theorem Allows.phaseAfter {o : Origin} {phase : Phase} (h : o.Allows phase)
    (loads : List Loading) : o.Allows (o.phaseAfter phase loads) := by
  induction loads generalizing phase with
  | nil => exact h
  | cons l loads ih => exact ih (h.next l.kernel l.image)

theorem phaseAfter_of_ne_empty (o : Origin) {phase : Phase} (h : phase ≠ .empty)
    (loads : List Loading) : o.phaseAfter phase loads = phase := by
  induction loads with
  | nil => rfl
  | cons l loads ih => rw [phaseAfter_cons, (o.next_of_ne_empty h l.kernel l.image).2, ih]

/-- Loads alter nothing. -/
theorem phaseAfter_ne_altered (o : Origin) (loads : List Loading) (stored : List UInt8) :
    o.phaseAfter .empty loads ≠ .altered stored := by
  induction loads with
  | nil => nofun
  | cons l loads ih =>
    rw [phaseAfter_cons]
    rcases o.next_cases l.kernel l.image .empty with
      ⟨-, hnext⟩ | ⟨-, -, -, hnext⟩ | ⟨-, -, -, hnext⟩
    · rw [hnext]
      exact ih
    · rw [hnext, o.phaseAfter_of_ne_empty (by simp)]
      nofun
    · rw [hnext, o.phaseAfter_of_ne_empty (by simp)]
      nofun

theorem taken?_of_ne_empty (o : Origin) {phase : Phase} (h : phase ≠ .empty)
    (loads : List Loading) : Region.taken? (o.region phase) loads = none := by
  induction loads with
  | nil => rfl
  | cons l loads ih =>
    obtain ⟨htakes, hafter⟩ := o.takes_of_ne_empty h l
    rw [Region.taken?, htakes, hafter, ih]
    rfl

/-- **A run leaves behind the first image that was taken**, and no other one. -/
theorem held?_phaseAfter (o : Origin) (loads : List Loading) :
    (o.phaseAfter .empty loads).held? = Region.taken? (o.region .empty) loads := by
  induction loads with
  | nil => rfl
  | cons l loads ih =>
    rw [phaseAfter_cons, Region.taken?, o.takes_region, o.after_region]
    rcases o.next_cases l.kernel l.image .empty with
      ⟨hrefused, hnext⟩ | ⟨hnone, -, -, hnext⟩ | ⟨hrefused, -, -, hnext⟩
    · rw [hnext, ih, Option.isNone_eq_false_iff.mpr (Option.isSome_iff_ne_none.mpr hrefused)]
      rfl
    · rw [hnext, hnone, o.phaseAfter_of_ne_empty (by simp)]
      rfl
    · rw [hnext, Option.isNone_eq_false_iff.mpr (Option.isSome_iff_ne_none.mpr hrefused),
        o.phaseAfter_of_ne_empty (by simp), o.taken?_of_ne_empty (by simp)]
      rfl

end Origin

namespace Region

/-! ## The whole life -/

/-- **The life of a region**, from its acquisition through any loads with any kernels.  Its size
    stays, its mapping is consistent with the rest of it and moves in one direction, and as long as
    there is a mapping it lies where it lay.  Nothing but zeros can be read until a load succeeds.
    From then on the region holds that image for good and takes no other one. -/
theorem lifecycle_loadAll {kernel : Kernel} {ticket size : Nat} {strategy : Strategy} {r : Region}
    {events : List Event} (h : acquire kernel ticket size strategy = (.ok r, events))
    (loads : List Loading) :
    let now := r.loadAll loads
    now.size = size ∧
    Consistent strategy now ∧
    (∀ l, Mapping.Moves now.mapping (now.after l).mapping) ∧
    (now.mapping ≠ .gone →
      now.capacity = r.capacity ∧ now.base = r.base ∧ now.base ≠ 0 ∧
      now.readable.length = now.size ∧ now.size ≤ now.capacity) ∧
    (taken? r loads = none → now.loaded = false ∧ ∀ b ∈ now.readable, b = 0) ∧
    ∀ image, taken? r loads = some image →
      now.loaded = true ∧ now.executable = true ∧ image.size ≤ size ∧
      now.readable = image.bytes ++ List.replicate (size - image.size) 0 ∧
      (∀ l, now.takes l = false ∧ now.after l = now) ∧
      ∀ more, taken? r (loads ++ more) = some image := by
  intro now
  obtain ⟨o, -, rfl, rfl, rfl⟩ := exists_origin_of_acquire h
  have hnow : now = o.region (o.phaseAfter .empty loads) := o.loadAll_region .empty loads
  have hempty : o.Allows .empty := trivial
  have hallows : o.Allows (o.phaseAfter .empty loads) := hempty.phaseAfter loads
  have hheld := o.held?_phaseAfter loads
  rw [hnow]
  refine ⟨o.size_region _, o.consistent_region hallows, ?_, ?_, ?_, ?_⟩
  · intro l
    rw [o.after_region]
    exact o.moves_region l.kernel l.image _
  · intro hmapped
    have hne : o.phaseAfter .empty loads ≠ .lost := mt Origin.mapping_region_eq_gone_iff.mpr hmapped
    rw [o.capacity_region hne, o.capacity_region (by simp), o.base_region hne,
      o.base_region (by simp), o.length_readable_region hallows hne, o.size_region]
    exact ⟨rfl, rfl, o.place.base_ne_zero, rfl, o.size_le⟩
  · intro hnone
    rw [hnone] at hheld
    cases hphase : o.phaseAfter .empty loads with
    | empty =>
      refine ⟨rfl, fun b hb => ?_⟩
      rw [o.readable_empty] at hb
      exact List.eq_of_mem_replicate hb
    | holding image =>
      rw [hphase] at hheld
      cases hheld
    | altered stored => exact absurd hphase (o.phaseAfter_ne_altered loads stored)
    | lost => exact ⟨rfl, fun b hb => nomatch hb⟩
  · intro image htaken
    rw [htaken] at hheld
    have hphase : o.phaseAfter .empty loads = .holding image := by
      cases hp : o.phaseAfter .empty loads <;> rw [hp] at hheld <;> cases hheld
      rfl
    rw [hphase] at hallows ⊢
    refine ⟨rfl, o.executable_holding image, hallows, o.readable_holding hallows,
      fun l => o.takes_of_ne_empty (by simp) l, fun more => ?_⟩
    rw [← o.held?_phaseAfter, o.phaseAfter_append, hphase, o.phaseAfter_of_ne_empty (by simp)]
    rfl

/-- A staged region that is too small for the first image, takes the second one while the kernel
    permits it, and then has no use even for an empty one. -/
theorem lifecycle_loadAll_second :
    let second : Image := ⟨[7], none, []⟩
    let loads : List Loading := [⟨Kernel.noExecGain, ⟨[1, 2, 3, 4], none, []⟩⟩,
      ⟨Kernel.standard, second⟩, ⟨Kernel.standard, ⟨[], none, []⟩⟩]
    ∃ r events, acquire Kernel.standard 0 3 .staged = (.ok r, events) ∧
      taken? r loads = some second ∧ (r.loadAll loads).executable = true ∧
      (r.loadAll loads).readable = [7, 0, 0] := by
  intro second loads
  have hfits : 4096 < Kernel.space := by decide
  let r : Region := ⟨0, .writable ⟨4096, Kernel.place 0 4096 hfits, []⟩, 3, false⟩
  have hacquire : acquire Kernel.standard 0 3 .staged =
      (.ok r, [.acquired 0 3 4096 (Kernel.place 0 4096 hfits).base .staged]) := rfl
  have htaken : taken? r loads = some second := rfl
  obtain ⟨-, -, -, -, -, hholds⟩ := lifecycle_loadAll hacquire loads
  obtain ⟨-, hexecutable, -, hreadable, -⟩ := hholds second htaken
  exact ⟨r, _, hacquire, htaken, hexecutable, hreadable⟩

end Region

end Emplace
