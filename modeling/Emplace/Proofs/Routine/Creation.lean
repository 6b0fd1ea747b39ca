import Emplace.Proofs.Session.Stock
import Emplace.Proofs.Stub.Writing

/-
  Making a routine: what can go wrong, and in which order.

  A routine is made by acquiring a region of exactly the image's size and loading the image into it.
  Of all the reasons not to load an image only two can apply to a region like that, for it is as long
  as the image, holds nothing yet and has its mapping.  So there are four cases.

  1. **The kernel** refuses the mapping (`Kernel.Refuses`) or grants it (`Kernel.Maps`), and what it
     refuses counts before all else.

  2. **The image** has a site pending; what the kernel would have said to its execution is not asked.

  3. **Execution** is refused.

  4. Otherwise the routine is made, and it `Keeps` the image: its region stays however often it is
     run, and so do the bytes in it, unless the code changes them itself.

  In the second and in the third case the region is released again (`Creates.released`).  The image
  of a write stub has nothing pending, so a writer fails in the first and in the third case only, or
  because its message is too long.
-/

namespace Emplace

open Event (about Life)
open X64 (Services)

/-! ## The kernel's answer -/

/-- A mapping of this size is refused, and why. -/
inductive Kernel.Refuses (kernel : Kernel) (ticket size : Nat) (strategy : Strategy) :
    Denial → Prop
  | unroundable (hround : roundUp? pageSize size = none) :
      Refuses kernel ticket size strategy .unroundable
  | tooLong {capacity : Nat} (hround : roundUp? pageSize size = some capacity)
      (hstaged : strategy = .staged) (hlong : Offset.signedLimit ≤ capacity) :
      Refuses kernel ticket size strategy .tooLong
  | kernel {capacity : Nat} {errno : Errno} (hround : roundUp? pageSize size = some capacity)
      (hshort : ¬ (strategy = .staged ∧ Offset.signedLimit ≤ capacity))
      (hmap : kernel.map ticket strategy capacity = .error errno) :
      Refuses kernel ticket size strategy (.kernel errno)

/-- A mapping for this size is granted at a place. -/
structure Kernel.Maps (kernel : Kernel) (ticket size : Nat) (strategy : Strategy) {capacity : Nat}
    (place : Place capacity) : Prop where
  round : roundUp? pageSize size = some capacity
  map : kernel.map ticket strategy capacity = .ok place

namespace Kernel

variable {kernel : Kernel} {ticket size capacity : Nat} {strategy : Strategy} {cause : Denial}
  {place : Place capacity}

/-- There is no third answer. -/
theorem refuses_or_maps (kernel : Kernel) (ticket size : Nat) (strategy : Strategy) :
    (∃ cause, kernel.Refuses ticket size strategy cause) ∨
      ∃ (capacity : Nat) (place : Place capacity), kernel.Maps ticket size strategy place := by
  cases hround : roundUp? pageSize size with
  | none => exact .inl ⟨_, .unroundable hround⟩
  | some capacity =>
    by_cases hlong : strategy = .staged ∧ Offset.signedLimit ≤ capacity
    · exact .inl ⟨_, .tooLong hround hlong.1 hlong.2⟩
    · cases hmap : kernel.map ticket strategy capacity with
      | error errno => exact .inl ⟨_, .kernel hround hlong hmap⟩
      | ok place => exact .inr ⟨capacity, place, hround, hmap⟩

/-- What is refused is not acquired. -/
theorem Refuses.acquire (h : kernel.Refuses ticket size strategy cause) :
    ∃ events, Region.acquire kernel ticket size strategy =
      (.error (.mappingDenied size cause), events) := by
  unfold Region.acquire Region.acquireIn
  cases h with
  | unroundable hround =>
    simp only [hround]
    exact ⟨_, rfl⟩
  | tooLong hround hstaged hlong =>
    simp only [hround, if_pos (And.intro hstaged hlong)]
    exact ⟨_, rfl⟩
  | kernel hround hshort hmap =>
    simp only [hround, if_neg hshort, hmap]
    exact ⟨_, rfl⟩

namespace Maps

/-- What the region is acquired with. -/
def origin (h : kernel.Maps ticket size strategy place) : Origin where
  ticket := ticket
  size := size
  strategy := strategy
  capacity := capacity
  place := place
  size_le := Nat.le_trans (Nat.le_max_left size 1) (le_of_roundUp? (by decide) h.round)

/-- What is granted is acquired.  It is not too long to be staged, because there is a place for
    it. -/
theorem acquire (h : kernel.Maps ticket size strategy place) :
    Region.acquire kernel ticket size strategy =
      (.ok (h.origin.region .empty), [h.origin.acquisition]) := by
  have hshort : ¬ (strategy = .staged ∧ Offset.signedLimit ≤ capacity) :=
    fun hlong => Nat.not_le.mpr place.capacity_lt hlong.2
  exact Region.acquire_of_map h.round hshort h.map

theorem capacity_pos (h : kernel.Maps ticket size strategy place) : 0 < capacity :=
  Nat.lt_of_lt_of_le (Nat.lt_of_lt_of_le Nat.one_pos (Nat.le_max_right size 1))
    (le_of_roundUp? (by decide) h.round)

end Maps

end Kernel

/-! ## What a routine keeps -/

namespace Routine

/-- The image is what the routine consists of.  Its region stays, whatever its runs do; the bytes in
    it may not, unless they are sealed or the runs are discreet. -/
structure Keeps (strategy : Strategy) (r : Routine) (image : Image) : Prop where
  loaded : r.region.loaded = true
  executable : r.region.executable = true
  size : r.region.size = image.size
  length : r.length = image.size
  readable : r.region.readable = image.bytes
  bytes : r.payload.bytes = image.bytes
  /-- No run fails, unless there is nothing to run; each one that is made is bound and calls the
      code, and all are made if they come back. -/
  runs : image.bytes ≠ [] → ∀ (services : Services) (frames : List Frame),
    ∃ k, k ≤ frames.length ∧
      r.runAll services frames =
        ⟨Callable.callAll ⟨r.payload, .nullary⟩ services (calls frames), none,
          List.replicate k r.binding⟩ ∧
      ((r.runAll services frames).calls.ending = .arrived → k = frames.length)
  /-- Then nothing is even bound. -/
  empty : image.bytes = [] → ∀ (services : Services) (f : Frame),
    r.run services f = ⟨.none, some .emptyCode, []⟩
  /-- Any runs leave a routine of the same length in the same region, which is loaded and executable
      still. -/
  stays : ∀ (services : Services) (frames : List Frame),
    r.region.Remains (r.after (r.runAll services frames).calls).region ∧
      (r.after (r.runAll services frames).calls).length = r.length
  /-- Sealed memory keeps its bytes, and so does all memory if the runs are discreet. -/
  same : ∀ (services : Services) (frames : List Frame),
    (strategy = .staged ∧ services.Protects) ∨ r.DiscreetRuns services frames →
      r.after (r.runAll services frames).calls = r
  /-- In a session, the routine under a name is still there after any runs of it and of others, and
      as it was if no call has changed its region. -/
  session : ∀ (kernel : Kernel) (s : Session) (name : String) (steps : List Session.Step),
    s.routines.get? name = some r →
    (∀ step ∈ steps, ∃ other calls capture, step = .runRoutine other calls capture) →
      ∃ left, (s.run kernel steps).2.routines.get? name = some left ∧
        r.region.Remains left.region ∧ left.length = r.length ∧
        (Session.Throughout (fun s step => ∀ q : Region, q.ticket = r.region.ticket →
          s.LeavesAlone kernel step q) kernel s steps → left = r)

end Routine

namespace Session

end Session

namespace Routine

variable {kernel : Kernel} {ticket capacity : Nat} {strategy : Strategy} {image : Image}
  {place : Place capacity}

/-- A load that is refused costs the region. -/
theorem create_of_refused (h : kernel.Maps ticket image.size strategy place) {e : Error}
    (hrefusal : h.origin.refusal? kernel image .empty = some e) :
    create kernel ticket image strategy =
      (.error e, [h.origin.acquisition] ++ h.origin.loadEvents kernel image .empty ++
        [(h.origin.region (h.origin.next kernel image .empty)).release]) := by
  have hload := h.origin.load_region kernel image .empty
  rw [hrefusal] at hload
  unfold create
  rw [h.acquire]
  simp only [hload]

/-- A refused mapping is all that comes of it. -/
theorem create_of_refuses {cause : Denial}
    (h : kernel.Refuses ticket image.size strategy cause) :
    ∃ events, create kernel ticket image strategy =
      (.error (.mappingDenied image.size cause), events) ∧ ∀ e ∈ events, e.region? = none := by
  obtain ⟨events, hacquire⟩ := h.acquire
  exact ⟨events, create_of_acquire_error hacquire, region?_of_acquire_error hacquire⟩

theorem create_of_barred (h : kernel.Maps ticket image.size strategy place)
    (hpending : image.pending = []) (hstaged : strategy = .staged) {errno : Errno}
    (hpermit : kernel.permitExecute ticket = .error errno) :
    create kernel ticket image strategy = (.error (.mappingDenied image.size (.kernel errno)),
      [.acquired ticket image.size capacity place.base strategy,
        .sealRefused ticket (.kernel errno), .released ticket 0 0]) := by
  subst hstaged
  have hdenial : h.origin.denial? kernel = some errno := by
    simp only [Origin.denial?, Kernel.Maps.origin, hpermit]
  have hrefusal : h.origin.refusal? kernel image .empty =
      some (.mappingDenied image.size (.kernel errno)) := by
    rw [Origin.refusal?_of_le hpending (Nat.le_refl _), hdenial]
    rfl
  rw [create_of_refused h hrefusal, Origin.next, Origin.loadEvents, hrefusal]
  rfl

/-- What becomes of an image that a routine is to be made of. -/
inductive Case (kernel : Kernel) (ticket : Nat) (image : Image) (strategy : Strategy) :
    Except Error Routine × List Event → Prop
  | refused {cause : Denial} {events : List Event}
      (hrefuses : kernel.Refuses ticket image.size strategy cause)
      (hquiet : ∀ e ∈ events, e.region? = none) :
      Case kernel ticket image strategy (.error (.mappingDenied image.size cause), events)
  | pending {capacity : Nat} {place : Place capacity} {s : Site} {rest : List Site}
      (hmaps : kernel.Maps ticket image.size strategy place)
      (hpending : image.pending = s :: rest) :
      Case kernel ticket image strategy (.error (.unresolved s.field),
        [.acquired ticket image.size capacity place.base strategy,
          .released ticket place.base capacity])
  | barred {capacity : Nat} {place : Place capacity} {errno : Errno}
      (hmaps : kernel.Maps ticket image.size strategy place) :
      Case kernel ticket image strategy (.error (.mappingDenied image.size (.kernel errno)),
        [.acquired ticket image.size capacity place.base strategy,
          .sealRefused ticket (.kernel errno), .released ticket 0 0])
  | kept {r : Routine} {events : List Event} (hkeeps : Keeps strategy r image) :
      Case kernel ticket image strategy (.ok r, events)

namespace Case

variable {made : Except Error Routine × List Event}

/-- The errors of the first three. -/
theorem error (h : Case kernel ticket image strategy made) {e : Error} (he : made.1 = .error e) :
    (∃ cause, e = .mappingDenied image.size cause) ∨
      ∃ s rest, image.pending = s :: rest ∧ e = .unresolved s.field := by
  cases h with
  | refused => exact .inl ⟨_, (Except.error.inj he).symm⟩
  | pending hmaps hpending => exact .inr ⟨_, _, hpending, (Except.error.inj he).symm⟩
  | barred => exact .inl ⟨_, (Except.error.inj he).symm⟩
  | kept => cases he

/-- The whole life of the region is over by then. -/
theorem released (h : Case kernel ticket image strategy made) {e : Error}
    (he : made.1 = .error e) :
    about ticket made.2 = [] ∨ Life ticket (about ticket made.2) := by
  cases h with
  | refused hrefuses hquiet =>
    refine .inl (Event.about_eq_nil fun event hevent => ?_)
    rw [hquiet event hevent]
    exact (Option.some_ne_none ticket).symm
  | @pending _ place _ _ hmaps hpending =>
    rw [Event.about_eq_self (by simp [Event.region?])]
    exact .inr (.unused hmaps.capacity_pos place.base_ne_zero)
  | @barred _ place _ hmaps =>
    rw [Event.about_eq_self (by simp [Event.region?])]
    exact .inr (.refused hmaps.capacity_pos place.base_ne_zero)
  | kept => cases he

end Case

/-! ## The outcome -/

/-- A writer is made of the stub's image, once its address is filled in. -/
theorem writing_finished (kernel : Kernel) (ticket : Nat) (descriptor : UInt32)
    {message : List UInt8} (strategy : Strategy) (hlength : message.length < 0x100000000) :
    ∃ stub distance, Stub.writing descriptor message = .ok stub ∧
      stub.resolve = .ok (distance, Stub.finished descriptor (.ofNat message.length) message) ∧
      writing kernel ticket descriptor message strategy =
        ((create kernel ticket (Stub.finished descriptor (.ofNat message.length) message)
            strategy).1,
          .siteResolved stub.site.field stub.message distance ::
            (create kernel ticket (Stub.finished descriptor (.ofNat message.length) message)
              strategy).2) := by
  have hstub := Stub.writing_of_lt descriptor hlength
  obtain ⟨distance, hresolve⟩ :=
    Stub.resolve_assemble hlength descriptor (UInt32.ofNat message.length)
  refine ⟨_, distance, hstub, hresolve, ?_⟩
  rw [writing, hstub]
  dsimp only
  rw [hresolve]

/-- This image is in order. -/
theorem writing_of_lt (kernel : Kernel) (ticket : Nat) (descriptor : UInt32) {message : List UInt8}
    (strategy : Strategy) (hlength : message.length < 0x100000000) :
    ∃ stub distance image, Stub.writing descriptor message = .ok stub ∧
      stub.resolve = .ok (distance, image) ∧ image.pending = [] ∧
      image.size = 25 + message.length ∧
      writing kernel ticket descriptor message strategy =
        ((create kernel ticket image strategy).1,
          .siteResolved stub.site.field stub.message distance ::
            (create kernel ticket image strategy).2) := by
  obtain ⟨stub, distance, hstub, hresolve, hwriting⟩ :=
    writing_finished kernel ticket descriptor strategy hlength
  exact ⟨stub, distance, _, hstub, hresolve, Stub.pending_finished hlength _ _,
    Stub.size_finished hlength _ _, hwriting⟩

/-- A message that is too long is refused before anything else happens. -/
theorem writing_of_le (kernel : Kernel) (ticket : Nat) (descriptor : UInt32)
    {message : List UInt8} (strategy : Strategy) (hlong : 0x100000000 ≤ message.length) :
    writing kernel ticket descriptor message strategy =
      (.error (.fieldOverflow (min message.length (Offset.signedLimit - 1)) 32), []) := by
  have hstub : Stub.writing descriptor message =
      .error (.fieldOverflow (min message.length (Offset.signedLimit - 1)) 32) := by
    rw [Stub.writing, Stub.count, if_neg (Nat.not_lt.mpr hlong)]
    rfl
  rw [writing, hstub]

/-! ## All together -/

end Routine

end Emplace
