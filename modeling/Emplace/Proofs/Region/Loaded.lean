import Emplace.Callable
import Emplace.Proofs.Region.Phase
import Emplace.Proofs.X64.Carried

/-
  What a load that succeeds leaves behind.

  Such a load takes a region from the phase in which it is empty to the one in which it holds the
  image (`exists_origin_of_load`), and its payload is this region (`Payload.Holds`).  So the bytes
  of the image lie at the base of the region, with zeros behind them (`readable_of_load`), and the
  processor finds them there and may execute them (`carries_of_load`).
-/

namespace Emplace

/-- The code is the image, in a region that was acquired for at least as much. -/
def Payload.Holds (p : Payload) (image : Image) : Prop :=
  ∃ o : Origin, image.size ≤ o.size ∧ p = ⟨o.region (.holding image), image.size⟩

namespace Region

/-- A region that was just acquired takes any resolved image that fits. -/
theorem load_of_acquire {kernel : Kernel} {ticket size : Nat} {strategy : Strategy} {r : Region}
    {events : List Event} {image : Image}
    (hr : acquire kernel ticket size strategy = (.ok r, events))
    (hpermit : strategy = .staged → kernel.permitExecute ticket = .ok ())
    (hpending : image.pending = []) (hsize : image.size ≤ size) :
    ∃ p, r.load kernel image =
      ⟨.ok p, p.region, [.payloadLoaded ticket image.size p.region.base]⟩ := by
  obtain ⟨o, rfl, rfl, rfl, rfl⟩ := exists_origin_of_acquire hr
  have hdenial : o.denial? kernel = none := by
    unfold Origin.denial?
    split
    · rename_i hstaged hdenied
      rw [hpermit hstaged] at hdenied
      cases hdenied
    · rfl
  have hnone : o.refusal? kernel image .empty = none :=
    Origin.refusal?_eq_none_iff.mpr ⟨hpending, hsize, rfl, hdenial⟩
  refine ⟨⟨o.region (.holding image), image.size⟩, ?_⟩
  rw [o.load_region, Origin.next_of_refusal?_eq_none hnone, Origin.loadEvents, hnone,
    o.base_region (by simp)]

/-- The standard kernel has a region for every resolved image that fits its address space. -/
theorem exists_load_standard {image : Image} (hpending : image.pending = [])
    (hsize : image.size + pageSize < Kernel.space) :
    ∃ (r : Region) (events : List Event) (p : Payload),
      acquire Kernel.standard 0 image.size .rwx = (.ok r, events) ∧
        (r.load Kernel.standard image).answer = .ok p := by
  have hspace : Kernel.space ≤ Offset.signedLimit := by decide
  have hgrants := Kernel.standard_grants 0 .rwx hsize
  obtain ⟨r, events, hr⟩ :=
    acquire_of_grants hgrants (Nat.le_of_lt (Nat.lt_of_lt_of_le hsize hspace))
  obtain ⟨p, hload⟩ := load_of_acquire hr hgrants.permitExecute hpending (Nat.le_refl _)
  exact ⟨r, events, p, hr, by rw [hload]⟩

/-- A load that succeeds fills an empty region. -/
theorem exists_origin_of_load {r : Region} (hr : r.Reachable) {kernel : Kernel} {image : Image}
    {p : Payload} (h : (r.load kernel image).answer = .ok p) :
    ∃ o : Origin, r = o.region .empty ∧ image.size ≤ o.size ∧
      p = ⟨o.region (.holding image), image.size⟩ := by
  obtain ⟨o, phase, -, rfl⟩ := hr.exists_phase
  rw [o.load_region] at h
  cases hrefusal : o.refusal? kernel image phase with
  | some e =>
    rw [hrefusal] at h
    cases h
  | none =>
    rw [hrefusal] at h
    obtain ⟨-, hsize, rfl, -⟩ := Origin.refusal?_eq_none_iff.mp hrefusal
    exact ⟨o, rfl, hsize, (Except.ok.inj h).symm⟩

/-- The payload holds the image, and its region is the one that is left. -/
theorem holds_of_load {r : Region} (hr : r.Reachable) {kernel : Kernel} {image : Image}
    {p : Payload} (h : (r.load kernel image).answer = .ok p) :
    (r.load kernel image).region = p.region ∧ p.Holds image := by
  obtain ⟨o, rfl, hsize, rfl⟩ := exists_origin_of_load hr h
  refine ⟨?_, o, hsize, rfl⟩
  rw [o.load_region] at h ⊢
  cases hrefusal : o.refusal? kernel image .empty with
  | none => rw [Origin.next_of_refusal?_eq_none hrefusal]
  | some e =>
    rw [hrefusal] at h
    cases h

/-- The payload is in memory that may be executed, and the memory holds the image's bytes and
    nothing else. -/
theorem stored_of_load {r : Region} (hr : r.Reachable) {kernel : Kernel} {image : Image}
    {p : Payload} (h : (r.load kernel image).answer = .ok p) :
    p.length = image.size ∧ p.region.size = r.size ∧ image.size ≤ r.size ∧
      p.region.mapping.isExecutable = true ∧
      ∃ pages, p.region.mapping.pages? = some pages ∧ pages.stored = image.bytes ∧
        r.size ≤ pages.capacity := by
  obtain ⟨o, rfl, hsize, rfl⟩ := exists_origin_of_load hr h
  rw [o.size_region .empty]
  exact ⟨rfl, o.size_region _, hsize, o.executable_holding image, o.pages image.bytes,
    o.pages?_holding image, rfl, o.size_le⟩

/-- What can be read of a region that was loaded: the image, and zeros behind it. -/
theorem readable_of_load {r : Region} (hr : r.Reachable) {kernel : Kernel} {image : Image}
    {p : Payload} (h : (r.load kernel image).answer = .ok p) :
    p.region.readable = image.bytes ++ List.replicate (r.size - image.size) 0 := by
  obtain ⟨o, rfl, hsize, rfl⟩ := exists_origin_of_load hr h
  rw [o.size_region .empty]
  exact o.readable_holding hsize

/-- The bytes of a payload are those of the image. -/
theorem bytes_of_load {r : Region} (hr : r.Reachable) {kernel : Kernel} {image : Image}
    {p : Payload} (h : (r.load kernel image).answer = .ok p) : p.bytes = image.bytes := by
  obtain ⟨hlength, -⟩ := stored_of_load hr h
  rw [Payload.bytes, readable_of_load hr h, hlength]
  exact List.take_left

/-- The mapped addresses do not wrap around. -/
theorem toNat_base_add {capacity : Nat} (place : Place capacity) {i : Nat} (hi : i < capacity) :
    (place.base + BitVec.ofNat 64 i).toNat = place.base.toNat + i := by
  have hfits := place.fits
  simp only [Offset.signedLimit] at hfits
  rw [BitVec.toNat_add, BitVec.toNat_ofNat]
  omega

/-- The processor finds the stored bytes at the base of a region that may be executed. -/
theorem memory_carries {r : Region} {pages : Pages} (hp : r.mapping.pages? = some pages)
    (hx : r.mapping.isExecutable = true) (hfit : pages.stored.length ≤ pages.capacity) :
    r.memory.Carries r.base pages.stored := by
  have hbase : r.base = pages.place.base := by
    rw [base, hp]
  have hmemory : r.memory = X64.Memory.mapped pages.place.base pages.capacity
      pages.stored.toArray r.mapping.isWritable true := by
    rw [memory, hp, hx]
  have hwithin : ∀ i, i < pages.stored.length → X64.Memory.within pages.place.base pages.capacity
      (pages.place.base + BitVec.ofNat 64 i) = true := by
    intro i hi
    rw [X64.Memory.within, toNat_base_add pages.place (by omega)]
    simp only [Bool.and_eq_true, decide_eq_true_eq]
    omega
  rw [hbase, hmemory]
  constructor
  · intro i b hb
    obtain ⟨hi, -⟩ := List.getElem?_eq_some_iff.mp hb
    rw [X64.Memory.read_mapped, X64.Memory.readMapped, if_pos (hwithin i hi),
      toNat_base_add pages.place (by omega), Nat.add_sub_cancel_left, List.getElem?_toArray, hb]
    rfl
  · intro i hi
    exact hwithin i hi

/-- **A loaded image is carried at the entry of its payload.** -/
theorem carries_of_load {r : Region} (hr : r.Reachable) {kernel : Kernel} {image : Image}
    {p : Payload} (h : (r.load kernel image).answer = .ok p) :
    p.region.memory.Carries p.entry image.bytes := by
  obtain ⟨-, -, hsize, hx, pages, hp, hstored, hcapacity⟩ := stored_of_load hr h
  have hfit : pages.stored.length ≤ pages.capacity := by
    rw [hstored]
    exact Nat.le_trans hsize hcapacity
  have hcarries := memory_carries hp hx hfit
  rw [hstored] at hcarries
  exact hcarries

end Region

end Emplace
