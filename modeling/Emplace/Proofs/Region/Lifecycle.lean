import Emplace.Callable

/-
  The life of a region.

  A region comes into being when the kernel grants a mapping (`acquire_eq_ok_iff`).  From then on it
  is changed by loads, and, once it is loaded, by the code in it.  `Reachable` are the regions that
  come up in this way, with any kernel at every point and whatever the code leaves in memory.
-/

namespace Emplace

/-- A size is rounded up as long as a page more is still in the range of offsets. -/
theorem roundUp?_eq_some_iff {page size capacity : Nat} (hpage : 0 < page) :
    roundUp? page size = some capacity ↔
      max size 1 + page ≤ Offset.limit ∧
        capacity = Offset.clear (max size 1 + (page - 1)) (page - 1) := by
  simp only [roundUp?, Option.map_eq_some_iff, Offset.checkedAdd_eq_some_iff]
  constructor
  · rintro ⟨n, ⟨rfl, hn⟩, rfl⟩
    exact ⟨by omega, rfl⟩
  · rintro ⟨hn, rfl⟩
    exact ⟨_, ⟨rfl, by omega⟩, rfl⟩

/-- Rounding up takes the low bits away, and these are less than a page. -/
theorem add_and_of_roundUp? {page size capacity : Nat} (hpage : 0 < page)
    (h : roundUp? page size = some capacity) :
    capacity + ((max size 1 + (page - 1)) &&& (page - 1)) = max size 1 + (page - 1) := by
  obtain ⟨hn, rfl⟩ := (roundUp?_eq_some_iff hpage).mp h
  exact Offset.clear_add_and (by omega) (by omega)

/-- Rounding up leaves room for the size, and for one byte at least. -/
theorem le_of_roundUp? {page size capacity : Nat} (hpage : 0 < page)
    (h : roundUp? page size = some capacity) : max size 1 ≤ capacity := by
  have hsum := add_and_of_roundUp? hpage h
  have hlow : (max size 1 + (page - 1)) &&& (page - 1) ≤ page - 1 := Nat.and_le_right
  omega

/-- Rounding up adds less than a page. -/
theorem lt_of_roundUp? {page size capacity : Nat} (hpage : 0 < page)
    (h : roundUp? page size = some capacity) : capacity < max size 1 + page := by
  have hsum := add_and_of_roundUp? hpage h
  omega

/-- A size is rounded up as long as there is room for a page behind it. -/
theorem exists_roundUp? {size : Nat} (h : size + pageSize ≤ Offset.signedLimit) :
    ∃ capacity, roundUp? pageSize size = some capacity ∧ capacity < Offset.signedLimit := by
  have hpage : 0 < pageSize := by decide
  have hroom : max size 1 + pageSize ≤ Offset.limit := by
    simp only [pageSize, Offset.signedLimit, Offset.limit] at h ⊢
    omega
  have hround := (roundUp?_eq_some_iff hpage).mpr ⟨hroom, rfl⟩
  have hlt := lt_of_roundUp? hpage hround
  refine ⟨_, hround, ?_⟩
  simp only [pageSize, Offset.signedLimit] at h hlt ⊢
  omega

/-- The kernel grants the mapping for a size, and its change to executable where that is needed. -/
structure Kernel.Grants (kernel : Kernel) (ticket size : Nat) (strategy : Strategy) : Prop where
  map : ∀ capacity, roundUp? pageSize size = some capacity →
    ∃ place, kernel.map ticket strategy capacity = .ok place
  permitExecute : strategy = .staged → kernel.permitExecute ticket = .ok ()

/-- The standard kernel grants all that fits its address space. -/
theorem Kernel.standard_grants {size : Nat} (ticket : Nat) (strategy : Strategy)
    (h : size + pageSize < Kernel.space) : Kernel.standard.Grants ticket size strategy := by
  constructor
  · intro capacity hround
    have hlt := lt_of_roundUp? (by decide) hround
    have hfits : capacity < Kernel.space := by
      simp only [pageSize, Kernel.space] at h hlt ⊢
      omega
    exact ⟨Kernel.place ticket capacity hfits, dif_pos hfits⟩
  · intro _
    rfl

/-- How a strategy starts to use memory. -/
def Strategy.mapping : Strategy → Pages → Mapping
  | .rwx => .both
  | .staged => .writable

namespace Region

/-! ## Acquiring -/

/-- **All that asking for a region can lead to.**  If the size can be rounded up to pages, the
    kernel decides: it has no place for what is too long to be staged. -/
theorem acquireIn_cases (page : Nat) (kernel : Kernel) (ticket size : Nat) (strategy : Strategy) :
    (roundUp? page size = none ∧ acquireIn page kernel ticket size strategy =
      (.error (.mappingDenied size .unroundable), [])) ∨
    (∃ capacity errno cause, roundUp? page size = some capacity ∧
      kernel.map ticket strategy capacity = .error errno ∧
      acquireIn page kernel ticket size strategy =
        (.error (.mappingDenied size cause), [.mappingRefused size strategy cause])) ∨
    ∃ capacity place, roundUp? page size = some capacity ∧
      kernel.map ticket strategy capacity = .ok place ∧
      acquireIn page kernel ticket size strategy =
        (.ok ⟨ticket, strategy.mapping ⟨capacity, place, []⟩, size, false⟩,
          [.acquired ticket size capacity place.base strategy]) := by
  unfold acquireIn
  cases hround : roundUp? page size with
  | none => exact .inl ⟨rfl, rfl⟩
  | some capacity =>
    refine .inr ?_
    cases hmap : kernel.map ticket strategy capacity with
    | error errno =>
      refine .inl ?_
      by_cases hlong : strategy = .staged ∧ Offset.signedLimit ≤ capacity
      · exact ⟨capacity, errno, .tooLong, rfl, hmap, by simp only [hlong, and_self, if_true]⟩
      · exact ⟨capacity, errno, .kernel errno, rfl, hmap, by simp only [hlong, if_false, hmap]⟩
    | ok place =>
      refine .inr ⟨capacity, place, rfl, hmap, ?_⟩
      have hlong : ¬ (strategy = .staged ∧ Offset.signedLimit ≤ capacity) :=
        fun hlong => Nat.not_le.mpr place.capacity_lt hlong.2
      simp only [hlong, if_false, hmap]
      cases strategy <;> rfl

theorem acquire_of_map {kernel : Kernel} {ticket size capacity : Nat} {strategy : Strategy}
    {place : Place capacity} (hround : roundUp? pageSize size = some capacity)
    (hshort : ¬ (strategy = .staged ∧ Offset.signedLimit ≤ capacity))
    (hmap : kernel.map ticket strategy capacity = .ok place) :
    acquire kernel ticket size strategy =
      (.ok ⟨ticket, strategy.mapping ⟨capacity, place, []⟩, size, false⟩,
        [.acquired ticket size capacity place.base strategy]) := by
  unfold acquire acquireIn
  simp only [hround, hshort, if_false, hmap]
  cases strategy <;> rfl

/-- Exactly when a region is acquired, and what it is then. -/
theorem acquire_eq_ok_iff {kernel : Kernel} {ticket size : Nat} {strategy : Strategy} {r : Region}
    {events : List Event} :
    acquire kernel ticket size strategy = (.ok r, events) ↔
      ∃ capacity place, roundUp? pageSize size = some capacity ∧
        ¬ (strategy = .staged ∧ Offset.signedLimit ≤ capacity) ∧
        kernel.map ticket strategy capacity = .ok place ∧
        r = ⟨ticket, strategy.mapping ⟨capacity, place, []⟩, size, false⟩ ∧
        events = [.acquired ticket size capacity place.base strategy] := by
  constructor
  · intro h
    rcases acquireIn_cases pageSize kernel ticket size strategy with
      ⟨-, hacquire⟩ | ⟨_, _, _, -, -, hacquire⟩ | ⟨capacity, place, hround, hmap, hacquire⟩
    · rw [acquire, hacquire] at h
      cases h
    · rw [acquire, hacquire] at h
      cases h
    · rw [acquire, hacquire] at h
      obtain ⟨hr, hevents⟩ := Prod.mk.inj h
      exact ⟨capacity, place, hround, fun hlong => Nat.not_le.mpr place.capacity_lt hlong.2, hmap,
        (Except.ok.inj hr).symm, hevents.symm⟩
  · rintro ⟨capacity, place, hround, hshort, hmap, rfl, rfl⟩
    exact acquire_of_map hround hshort hmap

/-- A region that is not acquired is said to be denied, whatever the reason. -/
theorem eq_of_acquire_error {kernel : Kernel} {ticket size : Nat} {strategy : Strategy} {e : Error}
    {events : List Event} (h : acquire kernel ticket size strategy = (.error e, events)) :
    ∃ cause, e = .mappingDenied size cause ∧
      (events = [] ∨ events = [.mappingRefused size strategy cause]) := by
  rcases acquireIn_cases pageSize kernel ticket size strategy with
    ⟨-, hacquire⟩ | ⟨_, _, cause, -, -, hacquire⟩ | ⟨_, _, -, -, hacquire⟩
  · rw [acquire, hacquire] at h
    obtain ⟨he, rfl⟩ := Prod.mk.inj h
    exact ⟨_, (Except.error.inj he).symm, .inl rfl⟩
  · rw [acquire, hacquire] at h
    obtain ⟨he, rfl⟩ := Prod.mk.inj h
    exact ⟨cause, (Except.error.inj he).symm, .inr rfl⟩
  · rw [acquire, hacquire] at h
    cases h

theorem acquire_of_grants {kernel : Kernel} {ticket size : Nat} {strategy : Strategy}
    (h : kernel.Grants ticket size strategy) (hsize : size + pageSize ≤ Offset.signedLimit) :
    ∃ r events, acquire kernel ticket size strategy = (.ok r, events) := by
  obtain ⟨capacity, hround, hlt⟩ := exists_roundUp? hsize
  obtain ⟨place, hmap⟩ := h.map capacity hround
  exact ⟨_, _, acquire_of_map hround (fun hlong => Nat.not_le.mpr hlt hlong.2) hmap⟩

/-! ## Regions that come up -/

/-- The regions that come up: acquired, and since then loaded and changed by their own code any
    number of times. -/
inductive Reachable : Region → Prop
  | acquired {kernel : Kernel} {ticket size : Nat} {strategy : Strategy} {r : Region}
      {events : List Event} (h : acquire kernel ticket size strategy = (.ok r, events)) :
      Reachable r
  | loaded {r : Region} (h : Reachable r) (kernel : Kernel) (image : Image) :
      Reachable (r.load kernel image).region
  | ran {r r' : Region} (h : Reachable r) (hloaded : r.loaded = true) {m : X64.Memory}
      (hm : r.changedBy? m = some r') : Reachable r'

/-- The region as its own code may leave it, in any number of calls. -/
inductive Ran : Region → Region → Prop
  | refl (r : Region) : Ran r r
  | step {r r₁ r₂ : Region} (h : Ran r r₁) {m : X64.Memory} (hm : r₁.changedBy? m = some r₂) :
      Ran r r₂

theorem Ran.trans {r r₁ r₂ : Region} (h : r.Ran r₁) (h' : r₁.Ran r₂) : r.Ran r₂ := by
  induction h' with
  | refl => exact h
  | step _ hm ih => exact ih.step hm

/-- What code has no way to change of its region. -/
structure Remains (r r' : Region) : Prop where
  ticket : r'.ticket = r.ticket
  size : r'.size = r.size
  loaded : r'.loaded = r.loaded
  executable : r'.executable = r.executable
  writable : r'.mapping.isWritable = r.mapping.isWritable
  base : r'.base = r.base
  capacity : r'.capacity = r.capacity

theorem remains_of_changedBy? {r r' : Region} {m : X64.Memory} (h : r.changedBy? m = some r') :
    r.Remains r' := by
  have hplace : ∀ p p' : Pages, p.changedBy? m = some p' → ∃ stored, p' = { p with stored } := by
    intro p p' hp
    unfold Pages.changedBy? at hp
    split at hp
    · split at hp
      · cases hp
      · exact ⟨_, (Option.some.inj hp).symm⟩
    · cases hp
  obtain ⟨ticket, mapping, size, loaded⟩ := r
  obtain ⟨after, hchanged, rfl⟩ := Option.map_eq_some_iff.mp h
  cases mapping with
  | gone => cases hchanged
  | both pages =>
    obtain ⟨pages', hp, rfl⟩ := Option.map_eq_some_iff.mp hchanged
    obtain ⟨stored, rfl⟩ := hplace pages pages' hp
    exact ⟨rfl, rfl, rfl, rfl, rfl, rfl, rfl⟩
  | writable pages =>
    obtain ⟨pages', hp, rfl⟩ := Option.map_eq_some_iff.mp hchanged
    obtain ⟨stored, rfl⟩ := hplace pages pages' hp
    exact ⟨rfl, rfl, rfl, rfl, rfl, rfl, rfl⟩
  | executable pages =>
    obtain ⟨pages', hp, rfl⟩ := Option.map_eq_some_iff.mp hchanged
    obtain ⟨stored, rfl⟩ := hplace pages pages' hp
    exact ⟨rfl, rfl, rfl, rfl, rfl, rfl, rfl⟩

theorem Ran.remains {r r' : Region} (h : r.Ran r') : r.Remains r' := by
  induction h with
  | refl => exact ⟨rfl, rfl, rfl, rfl, rfl, rfl, rfl⟩
  | step _ hm ih =>
    have hlast := remains_of_changedBy? hm
    exact ⟨hlast.ticket.trans ih.ticket, hlast.size.trans ih.size, hlast.loaded.trans ih.loaded,
      hlast.executable.trans ih.executable, hlast.writable.trans ih.writable,
      hlast.base.trans ih.base, hlast.capacity.trans ih.capacity⟩

/-- What code leaves of a region that comes up, comes up. -/
theorem Reachable.ran_all {r r' : Region} (h : r.Reachable) (hloaded : r.loaded = true)
    (hran : r.Ran r') : r'.Reachable := by
  induction hran with
  | refl => exact h
  | step hran hm ih => exact .ran ih (hran.remains.loaded.trans hloaded) hm

end Region

end Emplace
