import Emplace.X64.Cpu
import Emplace.Proofs.Image.Placement

/-
  Programs whose jumps name instructions.

  A labelled program is a list of commands, and a jump says which of them is next.  Its meaning
  speaks of no bytes and no displacements: a state stands at a command, or has returned to an
  address, and `Program.step` carries out the command.  A program has no step behind its last
  command, after it has returned, and where a command faults (`step_eq_none_iff`).

  What a command is written as is `Command.emission`.  `Program.offsetOf` says where each of them
  then starts, and `Program.target?` to which offset its field has to lead.
-/

namespace Emplace.Labelled

open X64 (Cpu Emission LowRegister Memory Register Registers Services WriteCall)

/-- An instruction whose jumps name the command to go on with. -/
inductive Command
  | mov (target : LowRegister) (value : UInt32)
  /-- Sets a register to the address of an offset from the first command. -/
  | lea (target : LowRegister) (offset : Nat)
  | jmp (width : FieldWidth) (label : Nat)
  | syscall
  | ret
  deriving DecidableEq

/-- Commands, numbered from zero on. -/
abbrev Program := List Command

/-! ## How a program is written -/

/-- What the command is written as. -/
def Command.emission : Command → Emission
  | mov r v => .mov r v
  | lea r _ => .lea r
  | jmp .rel8 _ => .jmpShort
  | jmp .rel32 _ => .jmpNear
  | syscall => .syscall
  | ret => .ret

namespace Program

def emissions (p : Program) : List Emission := p.map Command.emission

/-- The offset of the command with a number, or of the end of the code. -/
def offsetOf (p : Program) (i : Nat) : Nat := Emission.extent (p.emissions.take i)

/-- The offset that the command's field has to lead to. -/
def target? (p : Program) : Command → Option Nat
  | .lea _ offset => some offset
  | .jmp _ label => some (p.offsetOf label)
  | _ => none

theorem emissions_getElem? {p : Program} {i : Nat} {c : Command} (h : p[i]? = some c) :
    p.emissions[i]? = some c.emission := by
  rw [emissions, List.getElem?_map, h]
  rfl

/-- The next command starts where the bytes of the command end. -/
theorem offsetOf_succ {p : Program} {i : Nat} {c : Command} (h : p[i]? = some c) :
    p.offsetOf (i + 1) = p.offsetOf i + c.emission.length := by
  rw [offsetOf, List.take_add_one, emissions_getElem? h, Emission.extent_append]
  rfl

end Program

/-! ## What a program does -/

/-- Where a state stands. -/
inductive Control
  /-- At the command with this number. -/
  | inside (label : Nat)
  /-- Back at the caller. -/
  | returned (address : Word)
  deriving DecidableEq

structure State where
  registers : Registers
  control : Control
  /-- All writes so far, the last one first. -/
  asked : List WriteCall

/-- What a program finds around it and does not change. -/
structure Surroundings where
  services : Services
  /-- The address of the first command. -/
  base : Word
  memory : Memory
  flags : Word

namespace Surroundings

/-- The address at which a state stands. -/
def address (env : Surroundings) (p : Program) : Control → Word
  | .inside i => env.base + BitVec.ofNat 64 (p.offsetOf i)
  | .returned a => a

/-- The kernel's `write` service for a command whose successor stands at `next`. -/
def write (env : Surroundings) (p : Program) (next : Control) (s : State) : State :=
  let descriptor : UInt32 := ⟨(s.registers.get LowRegister.rdi).setWidth 32⟩
  let bytes? := env.memory.load (s.registers.get LowRegister.rdx).toNat
    (s.registers.get LowRegister.rsi)
  let answer :=
    match env.services.accepts descriptor, bytes? with
    | false, _ => Cpu.badDescriptor
    | true, none => Cpu.badAddress
    | true, some bytes => BitVec.ofNat 64 bytes.length
  { registers := ((s.registers.set LowRegister.rax answer).set LowRegister.rcx
      (env.address p next)).set Register.r11 env.flags
    control := next
    asked := (bytes?.map fun bytes => ⟨descriptor, bytes⟩).toList ++ s.asked }

variable {env : Surroundings} {p : Program} {next : Control} {s : State}

/-- The service overwrites no other registers. -/
theorem write_get {r : Register} (hr : r ∉ [↑LowRegister.rax, ↑LowRegister.rcx, Register.r11]) :
    (env.write p next s).registers.get r = s.registers.get r := by
  simp only [List.mem_cons, List.not_mem_nil, or_false, not_or] at hr
  obtain ⟨hrax, hrcx, hr11⟩ := hr
  simp only [write, Registers.get_set, if_neg hrax, if_neg hrcx, if_neg hr11]

/-- The service records a write of the bytes that the arguments name. -/
theorem write_asked {bytes : List UInt8}
    (h : env.memory.load (s.registers.get LowRegister.rdx).toNat
      (s.registers.get LowRegister.rsi) = some bytes) :
    (env.write p next s).asked =
      ⟨⟨(s.registers.get LowRegister.rdi).setWidth 32⟩, bytes⟩ :: s.asked := by
  simp only [write, h]
  rfl

end Surroundings

/-- Carries out a command whose successor has the number `next`.  Of the services, a program has
    `write` alone: it stops where it asks for another one. -/
def Command.run (env : Surroundings) (p : Program) (next : Nat) (s : State) :
    Command → Option State
  | mov r v =>
      some { s with
        registers := s.registers.set r (BitVec.ofNat 64 v.toNat), control := .inside next }
  | lea r offset =>
      some { s with
        registers := s.registers.set r (env.base + BitVec.ofNat 64 offset)
        control := .inside next }
  | jmp _ label => some { s with control := .inside label }
  | syscall =>
      if (s.registers.get LowRegister.rax).setWidth 32 = 1#32 then
        some (env.write p (.inside next) s)
      else none
  | ret =>
      let top := s.registers.get LowRegister.rsp
      (env.memory.load 8 top).map fun bytes =>
        { s with
          registers := s.registers.set LowRegister.rsp (top + 8)
          control := .returned (BitVec.ofNat 64 (LittleEndian.decode bytes)) }

namespace Program

/-- One command. -/
def step (p : Program) (env : Surroundings) (s : State) : Option State :=
  match s.control with
  | .inside i => p[i]?.bind fun c => c.run env p (i + 1) s
  | .returned _ => none

/-- `n` commands. -/
def steps (p : Program) (env : Surroundings) : Nat → State → Option State
  | 0, s => some s
  | n + 1, s => (p.step env s).bind (p.steps env n)

theorem steps_of_step {p : Program} {env : Surroundings} {n : Nat} {s s₁ s' : State}
    (h : p.step env s = some s₁) (hrest : p.steps env n s₁ = some s') :
    p.steps env (n + 1) s = some s' := by
  show (p.step env s).bind (p.steps env n) = some s'
  rw [h]
  exact hrest

theorem steps_trans {p : Program} {env : Surroundings} {m n : Nat} {s s₁ s' : State}
    (h : p.steps env m s = some s₁) (hrest : p.steps env n s₁ = some s') :
    p.steps env (m + n) s = some s' := by
  induction m generalizing s with
  | zero =>
    obtain rfl := Option.some.inj h
    rw [Nat.zero_add]
    exact hrest
  | succ m ih =>
    obtain ⟨s₂, hstep, hm⟩ := Option.bind_eq_some_iff.mp h
    rw [Nat.add_right_comm]
    exact steps_of_step hstep (ih hm)

/-- Exactly where a program stops. -/
theorem step_eq_none_iff {p : Program} {env : Surroundings} {s : State} :
    p.step env s = none ↔
      (∃ a, s.control = .returned a) ∨
      ∃ i, s.control = .inside i ∧
        (p.length ≤ i ∨
        (p[i]? = some .syscall ∧ (s.registers.get LowRegister.rax).setWidth 32 ≠ 1#32) ∨
        (p[i]? = some .ret ∧ env.memory.load 8 (s.registers.get LowRegister.rsp) = none)) := by
  cases hs : s.control with
  | returned a => simp [step, hs]
  | inside i =>
    cases hi : p[i]? with
    | none =>
      have hlen := List.getElem?_eq_none_iff.mp hi
      simp [step, hs, hlen]
    | some c =>
      obtain ⟨hlt, -⟩ := List.getElem?_eq_some_iff.mp hi
      have hlen : ¬ p.length ≤ i := Nat.not_le.mpr hlt
      cases c <;> simp [step, hs, hi, hlen, Command.run]

end Program

end Emplace.Labelled
