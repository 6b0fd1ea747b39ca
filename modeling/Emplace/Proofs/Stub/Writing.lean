import Emplace.Session
import Emplace.Proofs.Routine.Runs
import Emplace.Proofs.Stub.Program

/-
  The write stub, from the message to the write.

  A payload that was loaded from the stub's image does one thing whenever it is invoked: it asks for
  one write of the message, goes back to the caller, and leaves the region as it is
  (`writes_of_load`).  It does so from every frame of a caller, so the registers that one call
  leaves behind cannot spoil the next one.

  A routine made from the stub is such a payload in a region of its own.  `writing_runs` is the
  whole way: a message whose length has 32 bits is written once for each run of the routine, and a
  longer one is refused before any memory is asked for.
-/

namespace Emplace.Stub

open Labelled (Program State Surroundings)
open X64 (Cpu LowRegister Registers Services WriteCall)

/-! ## Invoking the loaded stub -/

/-- The processor is back at the caller and has asked for one write.  The region is as it was, and
    so are the caller's registers but for those that the stub overwrites. -/
structure Returned (c : Callable) (f : Frame) (call : WriteCall) (cpu : Cpu) : Prop where
  next : cpu.next = f.back
  writes : cpu.writes = [call]
  registers : ∀ r, r ∉ clobbered → cpu.get r = f.registers.get r
  region : cpu.memory.Shows c.payload.region.memory

/-- Whoever calls the payload, it asks for this write and returns, and stores nothing. -/
def Writes (p : Payload) (call : WriteCall) : Prop :=
  ∀ (services : Services) (f : Frame), f.Hosts p.region →
    Callable.Discreet ⟨p, .nullary⟩ services f [] ∧
    ∃ cpu, Callable.invoke ⟨p, .nullary⟩ services f [] = (.arrived, some cpu) ∧
      Returned ⟨p, .nullary⟩ f call cpu

/-- **The loaded stub writes the message.** -/
theorem writes_of_load {descriptor count : UInt32} {message : List UInt8}
    (hlength : message.length < 0x100000000) (hcount : count.toNat = message.length) {r : Region}
    (hr : r.Reachable) {kernel : Kernel} {p : Payload}
    (hload : (r.load kernel (finished descriptor count message)).answer = .ok p) :
    Writes p ⟨descriptor, message⟩ := by
  intro services f hf
  have hcarries := Region.carries_of_load hr hload
  obtain ⟨m, henter, hshows, hback⟩ :=
    Callable.enter_of_hosts (c := ⟨p, .nullary⟩) hf []
  have hlies : (program descriptor count).LiesAt p.entry p.region.memory :=
    Program.liesAt_of_relocated
      (Offset.lt_limit_of_lt_signedLimit (size_unresolved_lt hlength descriptor count))
      (relocated_finished hlength descriptor count) (resolvedBy_finished hlength descriptor count)
      hcarries
  let env : Surroundings := ⟨services, p.entry, m, 0x202#64⟩
  have hmessage : env.memory.load message.length (env.base + BitVec.ofNat 64 25) =
      some message := by
    have hslice := (hshows.carries hcarries).slice 25 message.length
    rw [message_finished hlength descriptor count] at hslice
    exact X64.Memory.load_of_read hslice.read
  let before := f.registers.set LowRegister.rsp (f.registers.get LowRegister.rsp - 8)
  have hrsp : before.get LowRegister.rsp = f.registers.get LowRegister.rsp - 8 := by
    rw [Registers.get_set, if_pos rfl]
  have htop : env.memory.load 8 (before.get LowRegister.rsp) =
      some (LittleEndian.encode 8 f.back.toNat) := by
    rw [hrsp]
    exact hback
  obtain ⟨after, hsteps, hpopped, hkept⟩ :=
    steps_program descriptor before hcount hmessage htop []
  have hstart : Callable.enter ⟨p, .nullary⟩ f [] =
      some (env.cpu (program descriptor count) ⟨before, .inside 0, []⟩) := by
    rw [henter, Surroundings.cpu, Surroundings.address_zero]
    rfl
  obtain ⟨hinvoke, hdiscreet⟩ :=
    Callable.invoke_of_steps hf hstart rfl hshows hlies hsteps rfl
  refine ⟨hdiscreet, _, hinvoke, rfl, rfl, ?_, hshows⟩
  intro r hr
  -- the stack pointer is back where it was, and no other kept register was ever changed
  show after.get r = f.registers.get r
  by_cases hne : r = LowRegister.rsp
  · rw [hne, hpopped, hrsp, BitVec.sub_add_cancel]
  · rw [hkept r hr hne, Registers.get_set, if_neg hne]

/-! ## Routines -/

/-- What is left of such runs: they have come back, and the region is as it was. -/
structure Wrote (runs : Routine.Runs) (times : Nat) (call : WriteCall) : Prop where
  error : runs.error? = none
  writes : runs.calls.writes = List.replicate times call
  ending : runs.calls.ending = .arrived
  changed : runs.calls.changed? = none

/-- Each run of a routine asks for one write, from whichever frames it is called. -/
theorem runAll_of_writes {routine : Routine} {call : WriteCall} (hlength : routine.length ≠ 0)
    (hfits : routine.region.Fits) (h : Writes routine.payload call) (services : Services)
    {frames : List Frame} (hframes : ∀ f ∈ frames, f.Hosts routine.region) :
    Wrote (routine.runAll services frames) frames.length call := by
  induction frames with
  | nil => exact ⟨rfl, rfl, rfl, rfl⟩
  | cons f frames ih =>
    have hothers := ih fun f' hf' => hframes f' (List.mem_cons_of_mem f hf')
    obtain ⟨hdiscreet, cpu, hinvoke, hreturned⟩ := h services f (hframes f (List.mem_cons_self ..))
    have hrun := Routine.run_of_length_ne hlength services f
    have hchanged : (routine.run services f).calls.changed? = none := by
      rw [hrun]
      exact Callable.changed?_call hfits hdiscreet
    have hwrites : (routine.run services f).calls.writes = [call] := by
      rw [hrun, Callable.call, hinvoke]
      exact hreturned.writes
    have hending : (routine.run services f).calls.ending = .arrived := by
      rw [hrun, Callable.call, hinvoke]
    have herror : (routine.run services f).error? = none := by
      rw [hrun]
    have hgoes : (routine.run services f).goesOn = true := by
      simp only [Routine.Runs.goesOn, herror, hending, Option.isNone_none, decide_true,
        Bool.and_self]
    have hafter : routine.after (routine.run services f).calls = routine := by
      simp only [Routine.after, hchanged, Option.getD_none]
    rw [Routine.runAll, if_pos hgoes, hafter]
    refine ⟨hothers.error, ?_, hothers.ending, ?_⟩
    · show (routine.run services f).calls.writes ++ _ = _
      rw [hwrites, hothers.writes]
      rfl
    · show (Calls.changed? _).or _ = none
      rw [hothers.changed, hchanged]
      rfl

/-- The image of a stub can be acquired for, loaded and kept as a routine. -/
theorem create_of_grants {kernel : Kernel} {ticket : Nat} {image : Image} {strategy : Strategy}
    (hgrants : kernel.Grants ticket image.size strategy) (hpending : image.pending = [])
    (hroom : image.size + pageSize ≤ Offset.signedLimit) :
    ∃ (region : Region) (payload : Payload) (events : List Event),
      region.Reachable ∧ region.size = image.size ∧
      (region.load kernel image).answer = .ok payload ∧
      Routine.create kernel ticket image strategy =
        (.ok ⟨payload.region, payload.length⟩, events) := by
  obtain ⟨region, events, hacquire⟩ := Region.acquire_of_grants hgrants hroom
  obtain ⟨payload, hload⟩ :=
    Region.load_of_acquire hacquire hgrants.permitExecute hpending (Nat.le_refl _)
  have hsize : region.size = image.size := by
    obtain ⟨capacity, place, -, -, -, rfl, -⟩ := Region.acquire_eq_ok_iff.mp hacquire
    rfl
  have hanswer : (region.load kernel image).answer = .ok payload := by
    rw [hload]
  refine ⟨region, payload, events ++ [.payloadLoaded ticket image.size payload.region.base],
    .acquired hacquire, hsize, hanswer, ?_⟩
  -- unfolded by hand, for a simplifier would start to compute the size in pages
  unfold Routine.create
  rw [hacquire]
  simp only [hload]

/-- A routine that was made is what was loaded into a region acquired for it. -/
theorem exists_load_of_create {kernel : Kernel} {ticket : Nat} {image : Image}
    {strategy : Strategy} {routine : Routine}
    (h : (Routine.create kernel ticket image strategy).1 = .ok routine) :
    ∃ (region : Region) (events : List Event),
      Region.acquire kernel ticket image.size strategy = (.ok region, events) ∧
        (region.load kernel image).answer = .ok routine.payload := by
  unfold Routine.create at h
  split at h
  · cases h
  · rename_i region events hacquire
    dsimp only at h
    split at h
    · rename_i payload hload
      obtain rfl := Except.ok.inj h
      exact ⟨region, events, hacquire, hload⟩
    · cases h

/-- It lies where the kernel has put the region. -/
theorem sparesHost_of_create {kernel : Kernel} (hkernel : kernel.SparesHost) {ticket : Nat}
    {image : Image} {strategy : Strategy} {routine : Routine}
    (h : (Routine.create kernel ticket image strategy).1 = .ok routine) :
    routine.region.SparesHost := by
  obtain ⟨region, events, hacquire, hload⟩ := exists_load_of_create h
  exact (Region.sparesHost_of_acquire hkernel hacquire).load (.acquired hacquire) hload

/-- So does one that writes. -/
theorem sparesHost_of_writing {kernel : Kernel} (hkernel : kernel.SparesHost) {ticket : Nat}
    {descriptor : UInt32} {message : List UInt8} {strategy : Strategy} {routine : Routine}
    {events : List Event}
    (h : Routine.writing kernel ticket descriptor message strategy = (.ok routine, events)) :
    routine.region.SparesHost := by
  unfold Routine.writing at h
  split at h
  · cases h
  · split at h
    · cases h
    · rename_i distance image hresolve
      generalize hcreate : Routine.create kernel ticket image strategy = made at h
      obtain ⟨answer, made⟩ := made
      obtain ⟨rfl, -⟩ := Prod.mk.inj h
      exact sparesHost_of_create hkernel (congrArg Prod.fst hcreate)

/-- A message whose length has 32 bits is assembled with that length. -/
theorem writing_of_lt (descriptor : UInt32) {message : List UInt8}
    (h : message.length < 0x100000000) : Stub.writing descriptor message =
      .ok (assemble descriptor (.ofNat message.length) message) := by
  rw [writing, count, if_pos h]
  rfl

/-- A longer one is not, and the refusal names its length. -/
theorem writing_of_le (descriptor : UInt32) {message : List UInt8}
    (h : 0x100000000 ≤ message.length) (hlimit : message.length < Offset.signedLimit) :
    Stub.writing descriptor message = .error (.fieldOverflow message.length 32) := by
  have hmin : min (message.length : Int) (Offset.signedLimit - 1) = message.length :=
    Int.min_eq_left (by omega)
  rw [writing, count, if_neg (Nat.not_lt.mpr h), hmin]
  rfl

/-- What a descriptor receives that is written to again and again. -/
theorem captured_replicate (n : Nat) (descriptor : UInt32) (message : List UInt8) :
    Session.captured (some descriptor) (List.replicate n ⟨descriptor, message⟩) =
      some (List.replicate n message).flatten := by
  show some ((List.filter _ _).flatMap _) = _
  rw [List.filter_replicate]
  simp only [decide_true, if_true, List.flatMap, List.map_replicate]

/-! ## The whole way -/

/-- **A message is written once for each run**, whatever it is and from whichever frames the
    routine is called; so is it when the stub is loaded and bound by hand.  A message that is too
    long for its count is refused, and no memory is asked for. -/
theorem writing_runs (descriptor : UInt32) (message : List UInt8) (kernel : Kernel) (ticket : Nat)
    (strategy : Strategy) :
    (message.length < 0x100000000 → kernel.Grants ticket (25 + message.length) strategy →
      ∃ (stub : Stub) (distance : Int) (image : Image) (routine : Routine) (events : List Event),
        Stub.writing descriptor message = .ok stub ∧ stub.resolve = .ok (distance, image) ∧
        Routine.writing kernel ticket descriptor message strategy = (.ok routine, events) ∧
        routine.region.readable = image.bytes ∧
        Writes routine.payload ⟨descriptor, message⟩ ∧
        (∀ (services : Services) (frames : List Frame), (∀ f ∈ frames, f.Hosts routine.region) →
          Wrote (routine.runAll services frames) frames.length ⟨descriptor, message⟩ ∧
          Session.captured (some descriptor) (routine.runAll services frames).calls.writes =
            some (List.replicate frames.length message).flatten) ∧
        (∀ (size : Nat) (region : Region) (events' : List Event), image.size ≤ size →
          Region.acquire kernel ticket size strategy = (.ok region, events') →
          ∃ payload, (region.load kernel image).answer = .ok payload) ∧
        ∀ (region : Region) (kernel' : Kernel) (payload : Payload), region.Reachable →
          (region.load kernel' image).answer = .ok payload →
          payload.bytes = image.bytes ∧
          (∃ events', Callable.bind payload .nullary = (.ok ⟨payload, .nullary⟩, events')) ∧
          Writes payload ⟨descriptor, message⟩) ∧
    (0x100000000 ≤ message.length → message.length < Offset.signedLimit →
      Stub.writing descriptor message = .error (.fieldOverflow message.length 32) ∧
      Routine.writing kernel ticket descriptor message strategy =
        (.error (.fieldOverflow message.length 32), [])) := by
  constructor
  · intro hlength hgrants
    have hstub := writing_of_lt descriptor hlength
    have hcount : (UInt32.ofNat message.length).toNat = message.length :=
      UInt32.toNat_ofNat_of_lt' hlength
    obtain ⟨distance, hresolve⟩ :=
      resolve_assemble hlength descriptor (UInt32.ofNat message.length)
    have hpending := pending_finished hlength descriptor (UInt32.ofNat message.length)
    have hsize := size_finished hlength descriptor (UInt32.ofNat message.length)
    have hroom : (finished descriptor (.ofNat message.length) message).size + pageSize ≤
        Offset.signedLimit := by
      simp only [hsize, pageSize, Offset.signedLimit]
      omega
    rw [← hsize] at hgrants
    obtain ⟨region, payload, events, hreachable, hregion, hload, hcreate⟩ :=
      create_of_grants hgrants hpending hroom
    have hwrites := writes_of_load hlength hcount hreachable hload
    obtain ⟨hpayload, -⟩ := Region.stored_of_load hreachable hload
    have hne : payload.length ≠ 0 := by omega
    have hwriting : Routine.writing kernel ticket descriptor message strategy =
        (.ok ⟨payload.region, payload.length⟩,
          .siteResolved request.site.field request.target distance :: events) := by
      rw [Routine.writing, hstub]
      dsimp only
      rw [hresolve]
      dsimp only
      rw [hcreate]
      rfl
    refine ⟨_, distance, _, ⟨payload.region, payload.length⟩, _, hstub, hresolve, hwriting, ?_,
      hwrites, ?_, ?_, ?_⟩
    · show payload.region.readable = _
      rw [Region.readable_of_load hreachable hload, hregion, Nat.sub_self]
      exact List.append_nil _
    · intro services frames hframes
      let routine : Routine := ⟨payload.region, payload.length⟩
      have hroutine : Writes routine.payload ⟨descriptor, message⟩ := hwrites
      obtain ⟨-, hholds⟩ := Region.holds_of_load hreachable hload
      have hwrote : Wrote (routine.runAll services frames) _ _ :=
        runAll_of_writes hne hholds.fits hroutine services hframes
      refine ⟨hwrote, ?_⟩
      rw [hwrote.writes]
      exact captured_replicate _ _ _
    · intro size region' events' hle hacquire
      obtain ⟨payload', hload'⟩ :=
        Region.load_of_acquire hacquire hgrants.permitExecute hpending hle
      exact ⟨payload', by rw [hload']⟩
    · intro region' kernel' payload' hreachable' hload'
      obtain ⟨hpayload', -⟩ := Region.stored_of_load hreachable' hload'
      have hne' : payload'.length ≠ 0 := by omega
      exact ⟨Region.bytes_of_load hreachable' hload', ⟨_, if_neg hne'⟩,
        writes_of_load hlength hcount hreachable' hload'⟩
  · intro hlong hlimit
    have hstub := writing_of_le descriptor hlong hlimit
    refine ⟨hstub, ?_⟩
    rw [Routine.writing, hstub]

/-- The greeting, written twice by an idle host, and a message of four gigabytes, refused. -/
theorem writing_runs_greeting :
    let long : List UInt8 := List.replicate 0x100000000 0
    greeting.length < 0x100000000 ∧ Kernel.standard.Grants 0 (25 + greeting.length) .staged ∧
    (∃ routine events,
      Routine.writing Kernel.standard 0 1 greeting .staged = (.ok routine, events) ∧
      Session.captured (some 1)
        (routine.runAll (Kernel.standard.services fun _ => true)
          [Frame.idle, Frame.idle]).calls.writes = some (greeting ++ greeting)) ∧
    0x100000000 ≤ long.length ∧ long.length < Offset.signedLimit ∧
    Stub.writing 1 long = .error (.fieldOverflow long.length 32) := by
  intro long
  have hlength : greeting.length < 0x100000000 := by decide
  have hgrants : Kernel.standard.Grants 0 (25 + greeting.length) .staged :=
    Kernel.standard_grants 0 .staged (by decide)
  have hlong : long.length = 0x100000000 := List.length_replicate
  have hmin : 0x100000000 ≤ long.length := Nat.le_of_eq hlong.symm
  have hmax : long.length < Offset.signedLimit := by
    rw [hlong]
    decide
  obtain ⟨-, -, -, routine, events, -, -, hwriting, -, -, hruns, -⟩ :=
    (writing_runs 1 greeting Kernel.standard 0 .staged).1 hlength hgrants
  have hhosts : ∀ f ∈ [Frame.idle, Frame.idle], f.Hosts routine.region := by
    intro f hf
    have hidle : f = Frame.idle := by
      simp only [List.mem_cons, List.not_mem_nil, or_false, or_self] at hf
      exact hf
    rw [hidle]
    exact Frame.idle_hosts (sparesHost_of_writing Kernel.standard_sparesHost hwriting)
  refine ⟨hlength, hgrants, ⟨routine, events, hwriting, ?_⟩, hmin, hmax,
    ((writing_runs 1 long Kernel.standard 0 .staged).2 hmin hmax).1⟩
  exact (hruns (Kernel.standard.services fun _ => true) [Frame.idle, Frame.idle] hhosts).2

end Emplace.Stub
