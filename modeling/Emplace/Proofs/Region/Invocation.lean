import Emplace.Proofs.Labelled.Simulation

/-
  Invoking loaded code.

  A caller puts the address to return to on its stack and goes to the entry.  `Frame.Hosts` says
  what a region needs of its caller: there is room on the stack, and neither the stack nor the
  caller's code lies in the region.  An idle host is such a caller for every region that spares its
  range of addresses (`Frame.idle_hosts`), as all regions do of a kernel that maps nothing there
  (`Kernel.SparesHost`).

  Then the call is entered with the region as it was loaded and the return address on top of the
  stack (`Callable.enter_of_hosts`).  If the code is a labelled program that returns there after
  some steps, the invocation arrives at the caller in the state the program returned in
  (`Callable.invoke_of_steps`); it does not arrive earlier because the program's commands all lie in
  the region.  On the way it stores nothing (`Surroundings.discreet_cpu`).
-/

namespace Emplace

open X64 (Cpu LowRegister Memory Registers Services)

/-! ## What a region needs of its caller -/

/-- There is room for an address on the caller's stack, and the region lies apart from there and
    from where the caller goes on. -/
structure Frame.Hosts (f : Frame) (r : Region) : Prop where
  writable : f.memory.admitsStore 8 (f.registers.get LowRegister.rsp - 8) = true
  stack_apart : ∀ i, i < 8 →
    r.memory.read (f.registers.get LowRegister.rsp - 8 + BitVec.ofNat 64 i) = none
  back_apart : r.memory.read f.back = none

/-- The addresses from `hostStart` up to `hostStop` are those of an idle host: its code and its
    stack, and some that are not mapped around them. -/
def hostStart : Nat := 0x7FFF00000000

def hostStop : Nat := 0x7FFF01000000

/-- The region lies apart from the host's addresses. -/
def Region.SparesHost (r : Region) : Prop :=
  r.base.toNat + r.capacity ≤ hostStart ∨ hostStop ≤ r.base.toNat

/-- No mapping is placed where the host is. -/
def Kernel.SparesHost (kernel : Kernel) : Prop :=
  ∀ (ticket : Nat) (strategy : Strategy) (capacity : Nat) (place : Place capacity),
    kernel.map ticket strategy capacity = .ok place →
      place.base.toNat + capacity ≤ hostStart ∨ hostStop ≤ place.base.toNat

theorem Kernel.place_sparesHost (ticket : Nat) {capacity : Nat} (h : capacity < space) :
    hostStop ≤ (place ticket capacity h).base.toNat :=
  Nat.le_trans (by decide) (space_le_baseOf ticket)

theorem Kernel.standard_sparesHost : Kernel.standard.SparesHost := by
  intro ticket strategy capacity place h
  unfold standard at h
  dsimp only at h
  split at h
  · obtain rfl := Except.ok.inj h
    exact .inr (place_sparesHost ticket _)
  · cases h

theorem Kernel.noExecGain_sparesHost : Kernel.noExecGain.SparesHost := by
  intro ticket strategy capacity place h
  unfold noExecGain at h
  dsimp only at h
  split at h
  · cases strategy with
    | rwx => cases h
    | staged =>
      obtain rfl := Except.ok.inj h
      exact .inr (place_sparesHost ticket _)
  · cases h

namespace Region

theorem sparesHost_of_acquire {kernel : Kernel} (hkernel : kernel.SparesHost) {ticket size : Nat}
    {strategy : Strategy} {r : Region} {events : List Event}
    (h : acquire kernel ticket size strategy = (.ok r, events)) : r.SparesHost := by
  obtain ⟨capacity, place, -, -, hmap, rfl, -⟩ := acquire_eq_ok_iff.mp h
  cases strategy <;> exact hkernel _ _ _ _ hmap

/-- A region that was loaded lies where it did. -/
theorem SparesHost.load {r : Region} (h : r.SparesHost) (hr : r.Reachable) {kernel : Kernel}
    {image : Image} {p : Payload} (hload : (r.load kernel image).answer = .ok p) :
    p.region.SparesHost := by
  obtain ⟨o, rfl, -, rfl⟩ := exists_origin_of_load hr hload
  unfold SparesHost at h ⊢
  rw [o.base_region (by simp), o.capacity_region (by simp)] at h ⊢
  exact h

/-- Nothing of it lies in the host's range of addresses. -/
theorem SparesHost.read_eq_none {r : Region} (h : r.SparesHost) {a : Word}
    (lo : hostStart ≤ a.toNat) (hi : a.toNat < hostStop) : r.memory.read a = none := by
  unfold SparesHost base capacity at h
  unfold memory
  cases hp : r.mapping.pages? with
  | none =>
    show (Memory.mapped 0 0 #[] false false).read a = none
    rw [X64.Memory.read_mapped, Memory.readMapped]
    exact if_neg (by simp [Memory.within])
  | some pages =>
    have hspares : pages.place.base.toNat + pages.capacity ≤ hostStart ∨
        hostStop ≤ pages.place.base.toNat := by
      rw [hp] at h
      exact h
    have hwithin : Memory.within pages.place.base pages.capacity a = false := by
      unfold Memory.within
      simp only [Bool.and_eq_false_iff, decide_eq_false_iff_not]
      rcases hspares with hbelow | habove <;> omega
    show (Memory.mapped pages.place.base pages.capacity pages.stored.toArray _ _).read a = none
    rw [X64.Memory.read_mapped, Memory.readMapped, hwithin]
    rfl

end Region

/-- An idle host can call the code of every region that spares it. -/
theorem Frame.idle_hosts {r : Region} (h : r.SparesHost) : Frame.idle.Hosts r := by
  refine ⟨by decide, ?_, h.read_eq_none (by decide) (by decide)⟩
  intro i hi
  have hat : Frame.idle.registers.get LowRegister.rsp - 8 = 0x7FFF00BFEFF8#64 := by decide
  have hsum : (0x7FFF00BFEFF8#64 + BitVec.ofNat 64 i).toNat = 0x7FFF00BFEFF8 + i := by
    rw [BitVec.toNat_add, BitVec.toNat_ofNat, BitVec.toNat_ofNat]
    omega
  rw [hat]
  apply h.read_eq_none
  · rw [hsum, hostStart]
    omega
  · rw [hsum, hostStop]
    omega

/-! ## Entering -/

/-- Arguments are passed in no other registers. -/
theorem passing_get {r : X64.Register} (hr : r ∉ argumentRegisters) (args : List Word)
    (rs : Registers) : (passing args rs).get r = rs.get r := by
  have hfold : ∀ (pairs : List (X64.Register × Word)), (∀ q ∈ pairs, q.1 ≠ r) → ∀ rs : Registers,
      (pairs.foldl (fun rs q => rs.set q.1 q.2) rs).get r = rs.get r := by
    intro pairs
    induction pairs with
    | nil => exact fun _ _ => rfl
    | cons q pairs ih =>
      intro hne rs
      show (pairs.foldl _ (rs.set q.1 q.2)).get r = _
      rw [ih fun q' hq' => hne q' (List.mem_cons_of_mem q hq'), Registers.get_set,
        if_neg (hne q (List.mem_cons_self ..)).symm]
  refine hfold _ (fun q hq heq => hr ?_) rs
  rw [← heq]
  exact (List.of_mem_zip hq).1

/-- Entering a call puts the return address on the stack. -/
theorem Callable.exists_enter {c : Callable} {f : Frame} (hf : f.Hosts c.payload.region)
    (args : List Word) :
    ∃ m, (c.payload.region.memory.backedBy f.memory).store
        (f.registers.get LowRegister.rsp - 8) (LittleEndian.encode 8 f.back.toNat) = some m ∧
      c.enter f args = some
        ⟨(passing args f.registers).set LowRegister.rsp (f.registers.get LowRegister.rsp - 8),
          c.payload.entry, 0x202#64, m, []⟩ := by
  have hrsp : (passing args f.registers).get LowRegister.rsp = f.registers.get LowRegister.rsp :=
    passing_get (by decide) args f.registers
  have hadmits : (c.payload.region.memory.backedBy f.memory).admitsStore
      (LittleEndian.encode 8 f.back.toNat).length (f.registers.get LowRegister.rsp - 8) = true := by
    rw [LittleEndian.length_encode, X64.Memory.admitsStore_backedBy hf.stack_apart]
    exact hf.writable
  obtain ⟨m, hstore⟩ : ∃ m, (c.payload.region.memory.backedBy f.memory).store
      (f.registers.get LowRegister.rsp - 8) (LittleEndian.encode 8 f.back.toNat) = some m :=
    ⟨_, if_pos hadmits⟩
  refine ⟨m, hstore, ?_⟩
  unfold Callable.enter Cpu.push Cpu.get
  simp only [hrsp, hstore]
  rfl

/-- **Entering a call** leaves the region as it is and the return address on top of the stack. -/
theorem Callable.enter_of_hosts {c : Callable} {f : Frame} (hf : f.Hosts c.payload.region)
    (args : List Word) :
    ∃ m, c.enter f args = some
        ⟨(passing args f.registers).set LowRegister.rsp (f.registers.get LowRegister.rsp - 8),
          c.payload.entry, 0x202#64, m, []⟩ ∧
      m.Shows c.payload.region.memory ∧
      m.load 8 (f.registers.get LowRegister.rsp - 8) =
        some (LittleEndian.encode 8 f.back.toNat) := by
  obtain ⟨m, hstore, henter⟩ := c.exists_enter hf args
  refine ⟨m, henter, ?_, ?_⟩
  · apply (X64.Memory.Shows.backedBy _ _).store hstore
    rw [LittleEndian.length_encode]
    exact hf.stack_apart
  · have hload := X64.Memory.load_of_store hstore (by rw [LittleEndian.length_encode]; decide)
    rw [LittleEndian.length_encode] at hload
    exact hload

/-! ## Running until control is back -/

namespace Labelled

variable {p : Program} {env : Surroundings} {s s' : State}

/-- Something lies at the address of every command. -/
theorem Program.LiesAt.read_ne_none {base : Word} {m : Memory} (h : p.LiesAt base m) {i : Nat}
    (hi : i < p.length) : m.read (base + BitVec.ofNat 64 (p.offsetOf i)) ≠ none := by
  have hc : p[i]? = some p[i] := List.getElem?_eq_getElem hi
  have hpos := (p[i].encodes (h.holds i p[i] hc)).length_pos
  have hread := (h.carries i p[i] hc).read 0 _ (List.getElem?_eq_getElem hpos)
  rw [BitVec.add_zero] at hread
  rw [hread]
  exact Option.some_ne_none _

/-- The program's own steps store nothing and ask for no service but `write`. -/
theorem Surroundings.discreet_of_step (hlies : p.LiesAt env.base env.memory) {part : Memory}
    (h : p.step env s = some s') : (env.cpu p s).Discreet env.services part := by
  obtain ⟨i, c, hcontrol, hc, hrun⟩ := Program.run_of_step h
  have hupcoming := upcoming?_cpu hlies hcontrol hc
  constructor
  · intro i' stop a n hup htarget
    obtain ⟨rfl, rfl⟩ := Prod.mk.inj (Option.some.inj (hupcoming.symm.trans hup))
    cases c <;> cases htarget
  · intro stop hup
    obtain ⟨hsyscall, -⟩ := Prod.mk.inj (Option.some.inj (hupcoming.symm.trans hup))
    have hc : c = .syscall := by cases c <;> first | rfl | cases hsyscall
    exact tells_of_run hrun hc

/-- At a command the goal is not reached. -/
theorem Surroundings.next_ne_of_step {goal : Word}
    (hgoal : ∀ i, i < p.length → env.address p (.inside i) ≠ goal)
    (h : p.step env s = some s') : (env.cpu p s).next ≠ goal := by
  obtain ⟨i, c, hcontrol, hc, -⟩ := Program.run_of_step h
  show env.address p s.control ≠ goal
  rw [hcontrol]
  exact hgoal i (List.getElem?_eq_some_iff.mp hc).1

/-- The processor runs until the program has left for the goal, and no command lies there. -/
theorem Surroundings.runUntil_cpu (hlies : p.LiesAt env.base env.memory) {goal : Word}
    (hgoal : ∀ i, i < p.length → env.address p (.inside i) ≠ goal) {n : Nat}
    (hsteps : p.steps env n s = some s')
    (hend : env.address p s'.control = goal) :
    (env.cpu p s).runUntil env.services goal = some (.arrived, env.cpu p s') := by
  induction n generalizing s with
  | zero =>
    obtain rfl := Option.some.inj hsteps
    exact Cpu.runUntil_of_next hend env.services
  | succ n ih =>
    obtain ⟨s₁, hstep, hrest⟩ := Option.bind_eq_some_iff.mp hsteps
    rw [Cpu.runUntil_of_step (next_ne_of_step hgoal hstep) (step_cpu_of_step hlies hstep)]
    exact ih hrest

/-- It is discreet until then. -/
theorem Surroundings.discreet_cpu (hlies : p.LiesAt env.base env.memory) {goal : Word} {n : Nat}
    (hsteps : p.steps env n s = some s') (hend : env.address p s'.control = goal)
    (part : Memory) :
    (env.cpu p s).Throughout env.services goal (Cpu.Discreet env.services part) := by
  induction n generalizing s with
  | zero =>
    obtain rfl := Option.some.inj hsteps
    exact .of_next hend
  | succ n ih =>
    obtain ⟨s₁, hstep, hrest⟩ := Option.bind_eq_some_iff.mp hsteps
    exact .of_step (step_cpu_of_step hlies hstep) (discreet_of_step hlies hstep) (ih hrest)

end Labelled

/-- A call stores nothing into its region, and asks the kernel for nothing but `write`. -/
structure Callable.Discreet (c : Callable) (services : Services) (f : Frame) (args : List Word) :
    Prop where
  /-- The return address is put somewhere else. -/
  enter : ∀ i, i < 8 → c.payload.region.memory.read
    (f.registers.get LowRegister.rsp - 8 + BitVec.ofNat 64 i) = none
  run : ∀ cpu, c.enter f args = some cpu →
    cpu.Throughout services f.back (Cpu.Discreet services c.payload.region.memory)

open Labelled in
/-- **An invocation arrives** as soon as the program it runs returns to the caller, and it is
    discreet. -/
theorem Callable.invoke_of_steps {c : Callable} {f : Frame} {args : List Word} {p : Program}
    {env : Surroundings} {s s' : State} {n : Nat} (hf : f.Hosts c.payload.region)
    (henter : c.enter f args = some (env.cpu p s)) (hbase : env.base = c.payload.entry)
    (hshows : env.memory.Shows c.payload.region.memory)
    (hlies : p.LiesAt c.payload.entry c.payload.region.memory)
    (hsteps : p.steps env n s = some s') (hend : s'.control = .returned f.back) :
    c.invoke env.services f args = (.arrived, some (env.cpu p s')) ∧
      c.Discreet env.services f args := by
  have hgoal : ∀ i, i < p.length → env.address p (.inside i) ≠ f.back := by
    intro i hi heq
    have hread := hlies.read_ne_none hi
    rw [← hbase] at hread
    rw [Surroundings.address] at heq
    rw [heq] at hread
    exact hread hf.back_apart
  have hthere : p.LiesAt env.base env.memory := hbase ▸ hlies.mono hshows
  have hback : env.address p s'.control = f.back := by
    rw [hend]
    rfl
  constructor
  · simp only [invoke, henter, Surroundings.runUntil_cpu hthere hgoal hsteps hback]
  · refine ⟨hf.stack_apart, fun cpu hcpu => ?_⟩
    obtain rfl := Option.some.inj (henter.symm.trans hcpu)
    exact Surroundings.discreet_cpu hthere hsteps hback _

end Emplace
