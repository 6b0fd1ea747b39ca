import Emplace.Routine
import Emplace.Proofs.Region.Phase

/-
  Regions that can never be executed.

  Some kernels let no memory be executed that can be written, or could be: they refuse mappings that
  are both from the start, and they refuse to change the one into the other (`DeniesExecution`).

  1. **Acquiring.**  What they grant are staged mappings, so every region is `Inert`: it is not
     executable, and holds nothing.

  2. **Loading.**  The first image that is in order costs an inert region its mapping, and every
     later one finds none (`Inert.load`).  Whether one was tried before is thus all there is to know
     about such a region; `Inert tried` says so of those whose tickets are listed.  The length of the
     image is of no account: an empty one is refused like any other.

  3. **Routines.**  None is ever made (`create_denied`).
-/

namespace Emplace

/-- The kernel lets nothing become executable that is writable, or was. -/
structure Kernel.DeniesExecution (kernel : Kernel) : Prop where
  map : ∀ ticket capacity, ∃ errno, kernel.map ticket .rwx capacity = .error errno
  permitExecute : ∀ ticket, ∃ errno, kernel.permitExecute ticket = .error errno

theorem Kernel.noExecGain_deniesExecution : Kernel.noExecGain.DeniesExecution := by
  constructor
  · intro ticket capacity
    by_cases h : capacity < Kernel.space
    · exact ⟨.accessDenied, dif_pos h⟩
    · exact ⟨.noMemory, dif_neg h⟩
  · intro ticket
    exact ⟨.accessDenied, rfl⟩

/-- Whether the event tells of code that can be used. -/
def Event.tellsOfCode : Event → Bool
  | payloadLoaded .. => true
  | callableBound .. => true
  | _ => false

namespace Region

variable {kernel : Kernel} {tried : List Nat} {r : Region} {image : Image}

/-! ## Acquiring -/

theorem tellsOfCode_of_acquire {ticket size : Nat} {strategy : Strategy}
    {answer : Except Error Region} {events : List Event}
    (h : acquire kernel ticket size strategy = (answer, events)) :
    ∀ e ∈ events, e.tellsOfCode = false := by
  cases answer with
  | error cause =>
    obtain ⟨denial, -, rfl | rfl⟩ := eq_of_acquire_error h
    · exact List.forall_mem_nil _
    · exact List.forall_mem_singleton.mpr rfl
  | ok r =>
    obtain ⟨capacity, place, -, -, -, -, rfl⟩ := acquire_eq_ok_iff.mp h
    exact List.forall_mem_singleton.mpr rfl

/-- Nothing but staged mappings is granted. -/
theorem staged_of_acquire (hkernel : kernel.DeniesExecution) {ticket size : Nat}
    {strategy : Strategy} {events : List Event}
    (h : acquire kernel ticket size strategy = (.ok r, events)) : strategy = .staged := by
  obtain ⟨capacity, place, -, -, hmap, -⟩ := acquire_eq_ok_iff.mp h
  cases strategy with
  | staged => rfl
  | rwx =>
    obtain ⟨errno, herror⟩ := hkernel.map ticket capacity
    cases hmap.symm.trans herror

/-- All other requests are denied, with the size that was asked for. -/
theorem acquire_rwx_denied (hkernel : kernel.DeniesExecution) (ticket size : Nat) :
    ∃ cause events,
      acquire kernel ticket size .rwx = (.error (.mappingDenied size cause), events) := by
  generalize hacquire : acquire kernel ticket size .rwx = made
  obtain ⟨answer, events⟩ := made
  cases answer with
  | error e =>
    obtain ⟨cause, rfl, -⟩ := eq_of_acquire_error hacquire
    exact ⟨cause, events, rfl⟩
  | ok r => cases staged_of_acquire hkernel hacquire

/-! ## Inert regions -/

/-- The region is staged and holds nothing: it is empty, or lost if its ticket is among those of the
    regions that some image was to be loaded into. -/
inductive Inert (tried : List Nat) : Region → Prop
  | empty {o : Origin} (hstaged : o.strategy = .staged) (htried : o.ticket ∉ tried) :
      Inert tried (o.region .empty)
  | lost {o : Origin} (hstaged : o.strategy = .staged) (htried : o.ticket ∈ tried) :
      Inert tried (o.region .lost)

theorem inert_of_acquire (hkernel : kernel.DeniesExecution) {ticket size : Nat}
    {strategy : Strategy} {events : List Event}
    (h : acquire kernel ticket size strategy = (.ok r, events)) (hticket : ticket ∉ tried) :
    r.Inert tried := by
  have hstaged := staged_of_acquire hkernel h
  obtain ⟨o, rfl, -, rfl, rfl⟩ := exists_origin_of_acquire h
  exact .empty hstaged hticket

/-- Memory that is not executable has no address to fetch instructions from. -/
theorem executable_memory (h : r.executable = false) (a : Word) : r.memory.executable a = false := by
  have hmapping : r.mapping.isExecutable = false := h
  unfold memory X64.Memory.mapped
  split
  · rename_i pages _
    show (r.mapping.isExecutable && X64.Memory.within pages.place.base pages.capacity a) = false
    rw [hmapping, Bool.false_and]
  · rfl

namespace Inert

theorem loaded (h : r.Inert tried) : r.loaded = false := by
  cases h with
  | empty => rfl
  | lost => rfl

theorem executable (h : r.Inert tried) : r.executable = false := by
  cases h with
  | lost => rfl
  | @empty o hstaged =>
    show (o.strategy.mapping (o.pages [])).isExecutable = false
    rw [hstaged]
    rfl

/-- What is tried on another region is no concern of this one. -/
theorem append (h : r.Inert tried) {more : List Nat} (hmore : r.ticket ∉ more) :
    r.Inert (tried ++ more) := by
  cases h with
  | @empty o hstaged htried =>
    rw [o.ticket_region] at hmore
    refine .empty hstaged ?_
    intro hmem
    rcases List.mem_append.mp hmem with hmem | hmem
    · exact htried hmem
    · exact hmore hmem
  | lost hstaged htried => exact .lost hstaged (List.mem_append_left _ htried)

/-! ## Loading -/

/-- An image that has something pending, or does not fit, is turned away. -/
theorem load_unfit (h : r.Inert tried) (kernel : Kernel)
    (himage : ¬ (image.pending = [] ∧ image.size ≤ r.size)) :
    ∃ cause, r.load kernel image = ⟨.error cause, r, []⟩ := by
  have hrefused : ∀ (o : Origin) (phase : Phase),
      ¬ (image.pending = [] ∧ image.size ≤ (o.region phase).size) →
        ∃ cause, (o.region phase).load kernel image = ⟨.error cause, o.region phase, []⟩ := by
    intro o phase hunfit
    rw [o.size_region] at hunfit
    cases hpending : image.pending with
    | cons s rest =>
      exact ⟨_,
        Origin.load_region_of_refused (Origin.refusal?_of_pending hpending kernel phase) nofun⟩
    | nil =>
      have hsize : o.size < image.size := Nat.lt_of_not_le fun hle => hunfit ⟨hpending, hle⟩
      exact ⟨_,
        Origin.load_region_of_refused (Origin.refusal?_of_lt hpending hsize kernel phase) nofun⟩
  cases h with
  | empty => exact hrefused _ _ himage
  | lost => exact hrefused _ _ himage

/-- **The first image that is in order** is refused when its bytes are stored, and the mapping is
    given up. -/
theorem load_untried (h : r.Inert tried) (hkernel : kernel.DeniesExecution)
    (hpending : image.pending = []) (hsize : image.size ≤ r.size) (htried : r.ticket ∉ tried) :
    ∃ errno, r.load kernel image = ⟨.error (.mappingDenied r.size (.kernel errno)),
      { r with mapping := .gone }, [.sealRefused r.ticket (.kernel errno)]⟩ := by
  cases h with
  | @lost o hstaged hmem =>
    rw [o.ticket_region] at htried
    exact absurd hmem htried
  | @empty o hstaged hnotin =>
    rw [o.size_region] at hsize
    obtain ⟨errno, hpermit⟩ := hkernel.permitExecute o.ticket
    have hrefusal : o.refusal? kernel image .empty =
        some (.mappingDenied o.size (.kernel errno)) := by
      rw [Origin.refusal?_of_le hpending hsize]
      simp only [Origin.denial?, hstaged, hpermit, Option.map_some]
    refine ⟨errno, ?_⟩
    rw [o.load_region, Origin.next, Origin.loadEvents, hrefusal]
    rfl

/-- **Every later one** finds no mapping. -/
theorem load_tried (h : r.Inert tried) (kernel : Kernel) (hpending : image.pending = [])
    (hsize : image.size ≤ r.size) (htried : r.ticket ∈ tried) :
    r.load kernel image = ⟨.error .mappingReleased, r, []⟩ := by
  cases h with
  | @empty o hstaged hnotin =>
    rw [o.ticket_region] at htried
    exact absurd htried hnotin
  | @lost o hstaged hmem =>
    rw [o.size_region] at hsize
    have hrefusal : o.refusal? kernel image .lost = some .mappingReleased :=
      Origin.refusal?_of_le hpending hsize kernel .lost
    exact Origin.load_region_of_refused hrefusal nofun

/-- Either way, the region is one that was tried. -/
theorem load_fit (h : r.Inert tried) (hkernel : kernel.DeniesExecution)
    (hpending : image.pending = []) (hsize : image.size ≤ r.size) :
    ∃ cause left events, r.load kernel image = ⟨.error cause, left, events⟩ ∧
      left.Inert (tried ++ [r.ticket]) ∧ ∀ e ∈ events, e.tellsOfCode = false := by
  by_cases htried : r.ticket ∈ tried
  · refine ⟨_, _, _, h.load_tried kernel hpending hsize htried, ?_, List.forall_mem_nil _⟩
    cases h with
    | @empty o hstaged hnotin =>
      rw [o.ticket_region] at htried
      exact absurd htried hnotin
    | lost hstaged hmem => exact .lost hstaged (List.mem_append_left _ hmem)
  · obtain ⟨errno, hload⟩ := h.load_untried hkernel hpending hsize htried
    refine ⟨_, _, _, hload, ?_, List.forall_mem_singleton.mpr rfl⟩
    cases h with
    | @empty o hstaged hnotin =>
      rw [o.ticket_region]
      exact .lost hstaged (List.mem_append_right _ (List.mem_singleton.mpr rfl))
    | @lost o hstaged hmem =>
      rw [o.ticket_region] at htried
      exact absurd hmem htried

end Inert

end Region

/-! ## Routines -/

namespace Routine

variable {kernel : Kernel}

/-- **No routine is made**: either its region is denied, or its image is. -/
theorem create_denied (hkernel : kernel.DeniesExecution) (ticket : Nat) (image : Image)
    (strategy : Strategy) :
    ∃ cause events, create kernel ticket image strategy = (.error cause, events) ∧
      (∀ e ∈ events, e.tellsOfCode = false) ∧
      (image.pending = [] → ∃ denial, cause = .mappingDenied image.size denial) := by
  unfold create
  split
  · rename_i cause events hacquire
    obtain ⟨denial, rfl, -⟩ := Region.eq_of_acquire_error hacquire
    exact ⟨_, events, rfl, Region.tellsOfCode_of_acquire hacquire, fun _ => ⟨denial, rfl⟩⟩
  · rename_i r events hacquire
    have hinert : r.Inert [] := Region.inert_of_acquire hkernel hacquire List.not_mem_nil
    -- the region is as long as the image, so there is no other reason to turn the image away
    have hsize : r.size = image.size := by
      obtain ⟨capacity, place, -, -, -, rfl, -⟩ := Region.acquire_eq_ok_iff.mp hacquire
      rfl
    have hreleased : ∀ (left : Region) (loadEvents : List Event),
        (∀ e ∈ loadEvents, e.tellsOfCode = false) →
        ∀ e ∈ events ++ loadEvents ++ [left.release], e.tellsOfCode = false := by
      intro left loadEvents hload e he
      rcases List.mem_append.mp he with he | he
      · rcases List.mem_append.mp he with he | he
        · exact Region.tellsOfCode_of_acquire hacquire e he
        · exact hload e he
      · obtain rfl := List.mem_singleton.mp he
        rfl
    dsimp only
    by_cases hpending : image.pending = []
    · obtain ⟨errno, hload⟩ := hinert.load_untried hkernel hpending (Nat.le_of_eq hsize.symm)
        List.not_mem_nil
      rw [hload, hsize]
      exact ⟨_, _, rfl, hreleased _ _ (List.forall_mem_singleton.mpr rfl), fun _ => ⟨_, rfl⟩⟩
    · obtain ⟨cause, hload⟩ := hinert.load_unfit kernel fun hfits => hpending hfits.1
      rw [hload]
      exact ⟨cause, _, rfl, hreleased _ _ (List.forall_mem_nil _), fun hnil => absurd hnil hpending⟩

end Routine

end Emplace
