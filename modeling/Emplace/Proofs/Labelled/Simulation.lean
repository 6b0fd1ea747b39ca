import Emplace.Proofs.Labelled.Program
import Emplace.Proofs.Region.Loaded
import Emplace.Proofs.X64.Storing

/-
  Written code simulates the labelled program.

  `Surroundings.cpu` gives the processor's state for a state of a labelled program: it stands at the
  address of the command, and all else is the same.  As long as the bytes of every command, with
  the way to its target in the field, are carried where the command lies (`Program.LiesAt`), one
  step of the processor is one step of the program (`step_cpu`), and so are `n` steps
  (`steps_cpu`).

  Code that was written, resolved to the program's targets and loaded lies at the base of its region
  (`liesAt_of_relocated`).  This is where the encodings, the lengths of instructions, the signs of
  displacements, the patching and the copy into the region come together: `steps_loaded`.
-/

namespace Emplace.Labelled

open X64 (Cpu Emission Encodes Instruction LowRegister Memory Register Registers Services
  WriteCall)

/-! ## Commands as instructions -/

/-- The instruction of a command with a displacement in its field. -/
def Command.instruction (d : Int) : Command → Instruction
  | mov r v => .movImm .dword r v.toNat
  | lea r _ => .lea .qword r (.relative d)
  | jmp w _ => .jmp w d
  | syscall => .syscall
  | ret => .ret

theorem Command.encodes (c : Command) {d : Int} (h : ∀ w ∈ c.emission.field?, w.Holds d) :
    Encodes (c.emission.encode d) (c.instruction d) := by
  have hparts : c.emission.parts d = [⟨c.emission.encode d, c.instruction d⟩] := by
    cases c with
    | jmp w label => cases w <;> rfl
    | _ => rfl
  exact Emission.encodes_of_mem_parts h (hparts ▸ List.mem_singleton_self _)

/-- Only a state at a command has a next one, the one that the command leads to. -/
theorem Program.run_of_step {p : Program} {env : Surroundings} {s s' : State}
    (h : p.step env s = some s') :
    ∃ i c, s.control = .inside i ∧ p[i]? = some c ∧ c.run env p (i + 1) s = some s' := by
  unfold step at h
  split at h
  · rename_i i hcontrol
    obtain ⟨c, hc, hrun⟩ := Option.bind_eq_some_iff.mp h
    exact ⟨i, c, hcontrol, hc, hrun⟩
  · cases h

/-- The displacement that leads from the end of a command to its target. -/
def Program.displacement (p : Program) (i : Nat) (c : Command) : Int :=
  match p.target? c with
  | some target => target - p.offsetOf (i + 1)
  | none => 0

/-- The bytes of every command lie in memory where the command does, and lead to its target. -/
structure Program.LiesAt (p : Program) (base : Word) (m : Memory) : Prop where
  carries : ∀ (i : Nat) (c : Command), p[i]? = some c →
    m.Carries (base + BitVec.ofNat 64 (p.offsetOf i)) (c.emission.encode (p.displacement i c))
  holds : ∀ (i : Nat) (c : Command), p[i]? = some c →
    ∀ w ∈ c.emission.field?, w.Holds (p.displacement i c)

/-- A program lies wherever the memory shows a part in which it lies. -/
theorem Program.LiesAt.mono {p : Program} {base : Word} {m part : Memory} (h : p.LiesAt base part)
    (hm : m.Shows part) : p.LiesAt base m :=
  ⟨fun i c hc => hm.carries (h.carries i c hc), h.holds⟩

/-! ## One step -/

namespace Surroundings

/-- The processor's state for a state of the program. -/
def cpu (env : Surroundings) (p : Program) (s : State) : Cpu where
  registers := s.registers
  next := env.address p s.control
  flags := env.flags
  memory := env.memory
  asked := s.asked

variable {p : Program} {env : Surroundings} {s : State} {i : Nat} {c : Command}

theorem narrow_ofNat (v : UInt32) :
    Cpu.narrow .dword (BitVec.ofNat 64 v.toNat) = BitVec.ofNat 64 v.toNat := by
  have hv := v.toNat_lt
  apply BitVec.eq_of_toNat_eq
  simp only [Cpu.narrow, BitVec.toNat_setWidth, BitVec.toNat_ofNat]
  omega

/-- The first command lies at the base. -/
theorem address_zero (env : Surroundings) (p : Program) : env.address p (.inside 0) = env.base :=
  BitVec.add_zero _

/-- A displacement leads to the target. -/
theorem address_add_displacement {target : Nat} (h : p.target? c = some target) :
    env.address p (.inside (i + 1)) + BitVec.ofInt 64 (p.displacement i c) =
      env.base + BitVec.ofNat 64 target := by
  have hd : p.displacement i c = (target : Int) - p.offsetOf (i + 1) := by
    rw [Program.displacement, h]
  rw [hd]
  exact Word.add_ofInt_sub _ _ _

/-- The program tells what the command does: it asks for no service but `write`. -/
def Tells (env : Surroundings) (s : State) (c : Command) : Prop :=
  c = .syscall → env.services.Plain s.registers

/-- It does wherever it goes on. -/
theorem tells_of_run {next : Nat} {s' : State} (h : c.run env p next s = some s') :
    env.Tells s c := by
  rintro rfl
  rw [Command.run] at h
  split at h
  · exact .inl ‹_›
  · cases h

/-- Carrying out the instruction of a command is carrying out the command. -/
theorem execute_cpu (i : Nat) (htells : env.Tells s c) :
    (env.cpu p s).execute env.services (env.address p (.inside (i + 1)))
      (c.instruction (p.displacement i c)) = (c.run env p (i + 1) s).map (env.cpu p) := by
  cases c with
  | mov r v =>
    show some (Cpu.set _ r (Cpu.narrow .dword (BitVec.ofNat 64 v.toNat))) = _
    rw [narrow_ofNat]
    rfl
  | lea r offset =>
    have hto : env.address p (.inside (i + 1)) +
        BitVec.ofInt 64 (p.displacement i (.lea r offset)) = env.base + BitVec.ofNat 64 offset :=
      address_add_displacement rfl
    show some (Cpu.set _ r (env.address p (.inside (i + 1)) +
      BitVec.ofInt 64 (p.displacement i (.lea r offset)))) = _
    rw [hto]
    rfl
  | jmp w label =>
    have hto : env.address p (.inside (i + 1)) +
        BitVec.ofInt 64 (p.displacement i (.jmp w label)) = env.address p (.inside label) :=
      address_add_displacement rfl
    rw [Command.instruction, Cpu.execute, hto]
    rfl
  | syscall =>
    show Cpu.systemCall _ _ _ = _
    rw [Cpu.systemCall, Command.run]
    show (if (s.registers.get LowRegister.rax).setWidth 32 = 1#32 then _ else _) = _
    split
    · rfl
    · rename_i hother
      exact (htells rfl).resolve_left hother _
  | ret =>
    show (Cpu.pop _).bind _ = _
    rw [Cpu.pop, Command.run]
    show ((env.memory.load 8 (s.registers.get LowRegister.rsp)).bind _).bind _ =
      ((env.memory.load 8 (s.registers.get LowRegister.rsp)).map _).map _
    cases env.memory.load 8 (s.registers.get LowRegister.rsp) with
    | none => rfl
    | some bytes => rfl

/-- At a command, the processor comes to its instruction next. -/
theorem upcoming?_cpu (hlies : p.LiesAt env.base env.memory) (hcontrol : s.control = .inside i)
    (hc : p[i]? = some c) : (env.cpu p s).upcoming? =
      some (c.instruction (p.displacement i c), env.address p (.inside (i + 1))) := by
  have hnext : (env.cpu p s).next = env.base + BitVec.ofNat 64 (p.offsetOf i) := by
    show env.address p s.control = _
    rw [hcontrol]
    rfl
  have hcarries : (env.cpu p s).memory.Carries (env.cpu p s).next
      (c.emission.encode (p.displacement i c)) := by
    rw [hnext]
    exact hlies.carries i c hc
  have hstop : (env.cpu p s).next +
      BitVec.ofNat 64 (c.emission.encode (p.displacement i c)).length =
        env.address p (.inside (i + 1)) := by
    rw [hnext, Emission.length_encode, Word.add_ofNat, ← Program.offsetOf_succ hc]
    rfl
  rw [Cpu.upcoming?_of_carries hcarries (c.encodes (hlies.holds i c hc)), hstop]

/-- **One step**: the processor does at a command what the program does. -/
theorem step_cpu (hlies : p.LiesAt env.base env.memory) (hcontrol : s.control = .inside i)
    (hc : p[i]? = some c) (htells : env.Tells s c) :
    (env.cpu p s).step env.services = (p.step env s).map (env.cpu p) := by
  have hstep : p.step env s = c.run env p (i + 1) s := by
    rw [Program.step, hcontrol]
    show p[i]?.bind _ = _
    rw [hc]
    rfl
  rw [Cpu.step_eq, upcoming?_cpu hlies hcontrol hc]
  show Cpu.execute _ _ _ _ = _
  rw [execute_cpu i htells, hstep]

/-- Where the program has a step, the processor has the same. -/
theorem step_cpu_of_step (hlies : p.LiesAt env.base env.memory) {s' : State}
    (h : p.step env s = some s') : (env.cpu p s).step env.services = some (env.cpu p s') := by
  obtain ⟨i, c, hcontrol, hc, hrun⟩ := Program.run_of_step h
  rw [step_cpu hlies hcontrol hc (tells_of_run hrun), h]
  rfl

/-- **Any number of steps**, by induction: each of the program's steps starts at a command. -/
theorem steps_cpu (hlies : p.LiesAt env.base env.memory) {n : Nat} {s' : State}
    (h : p.steps env n s = some s') :
    (env.cpu p s).steps env.services n = some (env.cpu p s') := by
  induction n generalizing s with
  | zero =>
    obtain rfl := Option.some.inj h
    rfl
  | succ n ih =>
    obtain ⟨s₁, hstep, hrest⟩ := Option.bind_eq_some_iff.mp h
    rw [Cpu.steps_succ, step_cpu_of_step hlies hstep]
    exact ih hrest

end Surroundings

/-! ## Code that was written, resolved and loaded -/

namespace Program

/-- The site of every command was last resolved to the target of the command. -/
def ResolvedBy (p : Program) (target? : Site → Option Nat) : Prop :=
  ∀ (i : Nat) (c : Command), p[i]? = some c → ∀ s, c.emission.siteAt? (p.offsetOf i) = some s →
    target? s = p.target? c

variable {p : Program} {target? : Site → Option Nat}

/-- The displacement in the field of a command is the one to the command's target. -/
theorem ResolvedBy.displacementAt (h : p.ResolvedBy target?) {i : Nat} {c : Command}
    (hc : p[i]? = some c) :
    c.emission.displacementAt target? (p.offsetOf i) = p.displacement i c := by
  unfold Emission.displacementAt displacement
  cases hs : c.emission.siteAt? (p.offsetOf i) with
  | none =>
    have htarget : p.target? c = none := by
      cases c with
      | lea r offset => cases hs
      | jmp w label => cases w <;> cases hs
      | _ => rfl
    rw [htarget]
  | some s =>
    have hstop : s.start + s.length = p.offsetOf (i + 1) := by
      obtain ⟨width, -, rfl⟩ := Option.map_eq_some_iff.mp hs
      rw [offsetOf_succ hc]
      rfl
    show ((target? s).map s.displacement).getD 0 = _
    rw [h i c hc s hs]
    cases p.target? c with
    | none => rfl
    | some target =>
      show (target : Int) - (s.start + s.length : Nat) = _
      rw [hstop]

/-- A program lies wherever the image lies that was written from it and resolved to its targets. -/
theorem liesAt_of_relocated {rest? : Option (List UInt8 × List Edit)} {image : Image}
    (hsize : (Draft.ofEdits (Draft.writing p.emissions rest?)).size < Offset.limit)
    (h : Image.Relocated (Draft.ofEdits (Draft.writing p.emissions rest?)).finish target? image)
    (hresolved : p.ResolvedBy target?) {base : Word} {m : Memory}
    (hm : m.Carries base image.bytes) : p.LiesAt base m := by
  have hplaced : ∀ (i : Nat) (c : Command), p[i]? = some c →
      (p.offsetOf i, c.emission) ∈ Emission.placed 0 p.emissions := by
    intro i c hc
    have hmem : (0 + p.offsetOf i, c.emission) ∈ Emission.placed 0 p.emissions :=
      Emission.mem_placed_of_getElem? (emissions_getElem? hc)
    rw [Nat.zero_add] at hmem
    exact hmem
  constructor
  · intro i c hc
    have hslice := h.slice_of_mem_placed hsize (hplaced i c hc)
    have hcarries := hm.slice (p.offsetOf i) c.emission.length
    rw [hslice, hresolved.displacementAt hc] at hcarries
    exact hcarries
  · intro i c hc w hw
    have hholds := h.holds_of_mem_placed hsize (hplaced i c hc) hw
    rw [hresolved.displacementAt hc] at hholds
    exact hholds

end Program

/-- **Loaded code does what the labelled program does, step by step.**  Take any program, written
    with or without data behind it, any run of requests after which each of its sites is resolved
    to the command's target, and any region that the image was then loaded into.  As long as the
    program goes on, the processor that starts at the entry with the same registers stands at the
    program's command after each step, with the registers, the memory and the writes that the
    program has.  At a command they also agree in whether there is a next step, unless it asks for a
    service that the program does not have. -/
theorem steps_loaded (p : Program) (rest? : Option (List UInt8 × List Edit))
    (requests : List Request)
    (hsize : (Draft.ofEdits (Draft.writing p.emissions rest?)).size < Offset.signedLimit)
    (hrequests : ∀ r ∈ requests,
      r.site ∈ (Draft.ofEdits (Draft.writing p.emissions rest?)).finish.pending)
    (hresolved : p.ResolvedBy fun s =>
      Image.settled? s (Draft.ofEdits (Draft.writing p.emissions rest?)).finish requests)
    {region : Region} (hregion : region.Reachable) {kernel : Kernel} {payload : Payload}
    (hload : (region.load kernel ((Draft.ofEdits
      (Draft.writing p.emissions rest?)).finish.attemptAll requests)).answer = .ok payload)
    {memory : Memory} (hmemory : memory.Shows payload.region.memory) (services : Services)
    (flags : Word) (registers : Registers) (asked : List WriteCall) (n : Nat) (s : State) :
    let env : Surroundings := ⟨services, payload.entry, memory, flags⟩
    p.steps env n ⟨registers, .inside 0, asked⟩ = some s →
      Cpu.steps services n ⟨registers, payload.entry, flags, memory, asked⟩ =
        some ⟨s.registers, env.address p s.control, flags, memory, s.asked⟩ ∧
      ∀ i c, s.control = .inside i → p[i]? = some c → env.Tells s c →
        Cpu.step services ⟨s.registers, env.address p s.control, flags, memory, s.asked⟩ =
          (p.step env s).map (env.cpu p) := by
  intro env hsteps
  have hlimit : (Draft.ofEdits (Draft.writing p.emissions rest?)).size < Offset.limit :=
    Offset.lt_limit_of_lt_signedLimit hsize
  have hrun := Image.Relocated.attemptAll_refl (Draft.laidOut_ofEdits hlimit) hrequests
  have hlies : p.LiesAt env.base env.memory :=
    Program.liesAt_of_relocated hlimit hrun hresolved
      (hmemory.carries (Region.carries_of_load hregion hload))
  have hcpu := Surroundings.steps_cpu hlies hsteps
  constructor
  · rw [Surroundings.cpu] at hcpu
    simp only [Surroundings.address_zero] at hcpu
    exact hcpu
  · intro i c hcontrol hc htells
    exact Surroundings.step_cpu hlies hcontrol hc htells

/-- A loop that goes backwards, behind a jump that goes forwards. -/
theorem steps_loaded_jmp_loop :
    let p : Program := [.jmp .rel32 2, .ret, .mov .rdi 7, .jmp .rel8 2]
    let requests : List Request := [⟨.trailing 11 2 .rel8, 6⟩, ⟨.trailing 0 5 .rel32, 6⟩]
    let built := (Draft.ofEdits (Draft.writing p.emissions none)).finish
    let after := Registers.zero.set LowRegister.rdi 7#64
    (Draft.ofEdits (Draft.writing p.emissions none)).size < Offset.signedLimit ∧
    (∀ r ∈ requests, r.site ∈ built.pending) ∧
    (p.ResolvedBy fun s => Image.settled? s built requests) ∧
    ∃ region payload, Region.Reachable region ∧
      (region.load Kernel.standard (built.attemptAll requests)).answer = .ok payload ∧
      Cpu.steps (Kernel.standard.services fun _ => true) 3
        ⟨Registers.zero, payload.entry, 0, payload.region.memory.backedBy Frame.idle.memory, []⟩ =
        some ⟨after, payload.entry + 6#64, 0,
          payload.region.memory.backedBy Frame.idle.memory, []⟩ := by
  intro p requests built after
  have hsize : (Draft.ofEdits (Draft.writing p.emissions none)).size < Offset.signedLimit := by
    decide
  have hrequests : ∀ r ∈ requests, r.site ∈ built.pending := by decide
  have hresolved : p.ResolvedBy fun s => Image.settled? s built requests := by
    intro i c hc s hs
    obtain ⟨hi, rfl⟩ := List.getElem?_eq_some_iff.mp hc
    have hi' : i < 4 := hi
    match i, hi' with
    | 0, _ => obtain rfl := Option.some.inj hs; rfl
    | 1, _ => cases hs
    | 2, _ => cases hs
    | 3, _ => obtain rfl := Option.some.inj hs; rfl
  obtain ⟨region, events, hregion⟩ : ∃ region events,
      Region.acquire Kernel.standard 0 13 .rwx = (.ok region, events) :=
    ⟨_, _, Region.acquire_of_map rfl (by decide) rfl⟩
  obtain ⟨payload, hload⟩ := Region.load_of_acquire hregion (fun h => (nomatch h))
    (show (built.attemptAll requests).pending = [] by decide) (by decide)
  have hanswer :
      (region.load Kernel.standard (built.attemptAll requests)).answer = .ok payload := by
    rw [hload]
  refine ⟨hsize, hrequests, hresolved, region, payload, .acquired hregion, hanswer, ?_⟩
  exact (steps_loaded p none requests hsize hrequests hresolved (.acquired hregion) hanswer
    (Memory.Shows.backedBy _ _) (Kernel.standard.services fun _ => true) 0 Registers.zero [] 3
    ⟨after, .inside 2, []⟩ rfl).1

end Emplace.Labelled
