import Emplace.Session
import Emplace.Proofs.Region.History

/-
  The outcome of one load.

  Several things can speak against a load at once: a site of the image may be pending, the image may
  be too long, the region may hold another image already or have lost its mapping, and the kernel may
  refuse.  The first of them, in this order, is the answer.  `load_outcome` is this table.

  The first four leave the region as it is.  The last one is noticed when the bytes are already
  stored, so the memory is given up with them (`Denied`), and no image that is in order will ever be
  answered anything but that the mapping is gone.  If nothing speaks against the load, the image is
  in the memory and zeros are behind it, up to the end of the last page (`Accepted`).
-/

namespace Emplace

namespace Region

/-- The kernel did not permit the region to be executed: it has no memory any more, and what could
    have been loaded into it finds none. -/
structure Denied (r : Region) (errno : Errno) (a : Attempt Payload) : Prop where
  answer : a.answer = .error (.mappingDenied r.size (.kernel errno))
  gone : a.region.mapping = .gone
  size : a.region.size = r.size
  loaded : a.region.loaded = false
  executable : a.region.executable = false
  readable : a.region.readable = []
  later : ∀ (loads : List Loading) (kernel : Kernel) (image : Image), image.pending = [] →
    image.size ≤ r.size →
      ((a.region.loadAll loads).load kernel image).answer = .error .mappingReleased

/-- The image was loaded: the payload is as long as the image and consists of its bytes, it starts
    where the region does, and all memory behind it is zero. -/
structure Accepted (r : Region) (image : Image) (a : Attempt Payload) : Prop where
  answer : a.answer = .ok ⟨a.region, image.size⟩
  bytes : Payload.bytes ⟨a.region, image.size⟩ = image.bytes
  entry : Payload.entry ⟨a.region, image.size⟩ = r.base
  size : a.region.size = r.size
  capacity : a.region.capacity = r.capacity
  loaded : a.region.loaded = true
  executable : a.region.executable = true
  memory : ∃ pages, a.region.mapping.pages? = some pages ∧ image.size ≤ pages.capacity ∧
    pages.bytes = image.bytes ++ List.replicate (pages.capacity - image.size) 0

end Region

namespace Origin

/-- Nothing brings lost memory back. -/
theorem denied_of_lost {o : Origin} {kernel : Kernel} {image : Image} {phase : Phase}
    {errno : Errno}
    (h : o.refusal? kernel image phase = some (.mappingDenied o.size (.kernel errno))) :
    Region.Denied (o.region phase) errno ((o.region phase).load kernel image) := by
  have hnext : o.next kernel image phase = .lost := by
    simp only [next, h]
  rw [o.load_region, hnext, h]
  refine ⟨by rw [o.size_region], rfl, by rw [o.size_region, o.size_region], rfl, rfl, rfl, ?_⟩
  intro loads kernel' image' hpending hsize
  rw [o.size_region] at hsize
  show (((o.region .lost).loadAll loads).load kernel' image').answer = _
  rw [o.loadAll_region, o.phaseAfter_of_ne_empty (by simp), o.load_region,
    refusal?_of_le hpending hsize]

/-- What is accepted lies in memory as it is. -/
theorem accepted_of_refusal?_eq_none {o : Origin} {kernel : Kernel} {image : Image}
    (h : o.refusal? kernel image .empty = none) :
    Region.Accepted (o.region .empty) image ((o.region .empty).load kernel image) := by
  obtain ⟨-, hsize, -, -⟩ := refusal?_eq_none_iff.mp h
  have hbytes : Payload.bytes ⟨o.region (.holding image), image.size⟩ = image.bytes := by
    rw [Payload.bytes, o.readable_holding hsize]
    exact List.take_left
  have hentry : Payload.entry ⟨o.region (.holding image), image.size⟩ = (o.region .empty).base := by
    rw [Payload.entry, o.base_region (by simp), o.base_region (by simp)]
  rw [o.load_region, next_of_refusal?_eq_none h, h]
  refine ⟨rfl, hbytes, hentry, ?_, ?_, rfl, o.executable_holding image,
    o.pages image.bytes, o.pages?_holding image, Nat.le_trans hsize o.size_le, rfl⟩
  · rw [o.size_region, o.size_region]
  · rw [o.capacity_region (by simp), o.capacity_region (by simp)]

end Origin

/-- Loading an image does not change it, nor any other one. -/
theorem Session.images_load (kernel : Kernel) (s : Session) (name region : String) (use : Use) :
    (s.perform kernel (.load name region use)).session.images = s.images := by
  show (s.withImage name fun image => s.withRegion region fun r =>
    s.load kernel region image r use).session.images = s.images
  unfold withImage
  split
  · unfold withRegion
    split
    · unfold load
      dsimp only
      split <;> rfl
    · rfl
  · rfl

namespace Region

/-- **The outcome of a load** of any image into any region: the first of five reasons not to load
    it, and success if there is none. -/
theorem load_outcome {r : Region} (hr : r.Reachable) (kernel : Kernel) (image : Image) :
    (∀ s rest, image.pending = s :: rest →
      r.load kernel image = ⟨.error (.unresolved s.field), r, []⟩) ∧
    (image.pending = [] → r.size < image.size →
      r.load kernel image = ⟨.error (.regionTooSmall image.size r.size), r, []⟩) ∧
    (image.pending = [] → image.size ≤ r.size → r.loaded = true →
      r.load kernel image = ⟨.error .alreadyLoaded, r, []⟩) ∧
    (image.pending = [] → image.size ≤ r.size → r.loaded = false → r.mapping = .gone →
      r.load kernel image = ⟨.error .mappingReleased, r, []⟩) ∧
    (image.pending = [] → image.size ≤ r.size → r.loaded = false →
      ∀ pages errno, r.mapping = .writable pages → kernel.permitExecute r.ticket = .error errno →
        Denied r errno (r.load kernel image)) ∧
    (image.pending = [] → image.size ≤ r.size → r.loaded = false → r.mapping ≠ .gone →
      (∀ pages, r.mapping = .writable pages → kernel.permitExecute r.ticket = .ok ()) →
        Accepted r image (r.load kernel image)) ∧
    ∀ (s : Session) (name region : String) (use : Session.Use),
      (s.perform kernel (.load name region use)).session.images = s.images := by
  obtain ⟨o, phase, hallows, rfl⟩ := hr.exists_phase
  simp only [o.size_region, o.ticket_region]
  refine ⟨?_, ?_, ?_, ?_, ?_, ?_, Session.images_load kernel⟩
  · intro s rest hpending
    exact Origin.load_region_of_refused (Origin.refusal?_of_pending hpending kernel phase) nofun
  · intro hpending hsize
    exact Origin.load_region_of_refused (Origin.refusal?_of_lt hpending hsize kernel phase) nofun
  · intro hpending hsize hloaded
    refine Origin.load_region_of_refused ?_ nofun
    rw [Origin.refusal?_of_le hpending hsize]
    cases phase with
    | empty => cases hloaded
    | holding old => rfl
    | altered stored => rfl
    | lost => cases hloaded
  · rintro hpending hsize - hgone
    obtain rfl := Origin.mapping_region_eq_gone_iff.mp hgone
    refine Origin.load_region_of_refused ?_ nofun
    rw [Origin.refusal?_of_le hpending hsize]
  · intro hpending hsize hloaded pages errno hwritable hpermit
    apply Origin.denied_of_lost
    rw [Origin.refusal?_of_le hpending hsize]
    cases phase with
    | empty =>
      have hstaged : o.strategy = .staged := ((o.consistent_region hallows).writable _ hwritable).1
      simp only [Origin.denial?, hstaged, hpermit, Option.map_some]
    | holding old => cases hloaded
    | altered stored => cases hloaded
    | lost => cases hwritable
  · intro hpending hsize hloaded hmapped hpermit
    cases phase with
    | empty =>
      apply Origin.accepted_of_refusal?_eq_none
      refine Origin.refusal?_eq_none_iff.mpr ⟨hpending, hsize, rfl, ?_⟩
      cases hstrategy : o.strategy with
      | rwx => simp only [Origin.denial?, hstrategy]
      | staged =>
        have hwritable : (o.region .empty).mapping = .writable (o.pages []) := by
          rw [Origin.region, hstrategy]
          rfl
        simp only [Origin.denial?, hstrategy, hpermit _ hwritable]
    | holding old => cases hloaded
    | altered stored => cases hloaded
    | lost => exact absurd rfl hmapped

/-- A staged region, its return instruction and a pending jump under a kernel that refuses, and the
    return instruction under one that does not. -/
theorem load_outcome_ret :
    let ret : Image := ⟨[0xC3], none, []⟩
    let jmp : Image := ⟨[0xEB, 0], none, [.trailing 0 2 .rel8]⟩
    ∃ r events, acquire Kernel.standard 0 1 .staged = (.ok r, events) ∧ r.Reachable ∧
      r.load Kernel.noExecGain jmp = ⟨.error (.unresolved 1), r, []⟩ ∧
      Denied r .accessDenied (r.load Kernel.noExecGain ret) ∧
      Accepted r ret (r.load Kernel.standard ret) := by
  intro ret jmp
  have hfits : 4096 < Kernel.space := by decide
  let r : Region := ⟨0, .writable ⟨4096, Kernel.place 0 4096 hfits, []⟩, 1, false⟩
  have hacquire : acquire Kernel.standard 0 1 .staged =
      (.ok r, [.acquired 0 1 4096 (Kernel.place 0 4096 hfits).base .staged]) := rfl
  have hr : r.Reachable := .acquired hacquire
  obtain ⟨-, -, -, -, hdenied, -⟩ := load_outcome hr Kernel.noExecGain ret
  refine ⟨r, _, hacquire, hr, (load_outcome hr Kernel.noExecGain jmp).1 _ [] rfl,
    hdenied rfl (Nat.le_refl 1) rfl _ _ rfl rfl,
    (load_outcome hr Kernel.standard ret).2.2.2.2.2.1 rfl (Nat.le_refl 1) rfl nofun ?_⟩
  intro _ _
  rfl

end Region

end Emplace
