import Emplace.X64.Decode
import Emplace.X64.Flags
import Emplace.X64.Memory
import Emplace.X64.Registers

/-
  The processor: what instructions do.

  A state is the sixteen registers, the address of the next instruction, the flags, the memory, and
  the record of the writes that were asked of the kernel.  `step` fetches, decodes and carries out
  one instruction; it has no answer where the processor faults or traps.

  Of the kernel's services, `write` is told here in full.  What any other one does is a parameter,
  and so is which descriptors are open (`Services`).

  A run goes on until control reaches an address (`runUntil`).  It has no answer when it goes on
  forever.  `runFor` is the same run with a bound on its steps, and the first is whatever the second
  comes to (`runUntil_eq_some_iff`).
-/

namespace Emplace.X64

/-- A write that was asked of the kernel. -/
structure WriteCall where
  descriptor : UInt32
  bytes : List UInt8
  deriving DecidableEq

/-- Which descriptors can be written to. -/
abbrev Descriptors := UInt32 → Bool

structure Cpu where
  registers : Registers
  /-- The address of the next instruction. -/
  next : Word
  flags : Word
  memory : Memory
  /-- All writes so far, the last one first. -/
  asked : List WriteCall

/-- What the kernel does for running code. -/
structure Services where
  accepts : Descriptors
  /-- What a service other than `write` makes of the state behind the system call; no answer where
      it does not come back. -/
  serve : Cpu → Option Cpu

namespace Cpu

/-- All writes so far, in order. -/
def writes (c : Cpu) : List WriteCall := c.asked.reverse

def get (c : Cpu) (r : Register) : Word := c.registers.get r

def set (c : Cpu) (r : Register) (v : Word) : Cpu := { c with registers := c.registers.set r v }

/-- The value as an operand of a width leaves it: a narrow one clears the upper half. -/
def narrow (w : OperandWidth) (v : Word) : Word :=
  match w with
  | .dword => (v.setWidth 32).setWidth 64
  | .qword => v

/-- Assigns a value at a width. -/
def assign (c : Cpu) (w : OperandWidth) (r : Register) (v : Word) : Cpu := c.set r (narrow w v)

/-- The address of an operand when the instruction ends at `stop`. -/
def addressOf (c : Cpu) (stop : Word) : Address → Word
  | .relative d => stop + BitVec.ofInt 64 d
  | .based r d => c.get r + BitVec.ofInt 64 d

/-- The operand that lies in memory at an address. -/
def load (c : Cpu) (w : OperandWidth) (a : Word) : Option Word :=
  (c.memory.load w.bytes a).map fun bytes => BitVec.ofNat 64 (LittleEndian.decode bytes)

/-- Stores an operand in memory. -/
def store (c : Cpu) (w : OperandWidth) (a v : Word) : Option Cpu :=
  (c.memory.store a (LittleEndian.encode w.bytes v.toNat)).map fun memory =>
    { c with memory := memory }

/-- Puts a word on the stack. -/
def push (c : Cpu) (v : Word) : Option Cpu := do
  let top := c.get LowRegister.rsp - 8
  let memory ← c.memory.store top (LittleEndian.encode 8 v.toNat)
  return { c with memory := memory }.set LowRegister.rsp top

/-- Takes a word off the stack. -/
def pop (c : Cpu) : Option (Word × Cpu) := do
  let top := c.get LowRegister.rsp
  let bytes ← c.memory.load 8 top
  return (BitVec.ofNat 64 (LittleEndian.decode bytes), c.set LowRegister.rsp (top + 8))

/-! ## Arithmetic -/

def xorStatus (w : OperandWidth) (v : Word) : Status :=
  match w with
  | .dword => .ofResult (v.setWidth 32)
  | .qword => .ofResult v

def incStatus (w : OperandWidth) (flags v : Word) : Status :=
  match w with
  | .dword => .ofSuccessor (.ofFlags flags) (v.setWidth 32)
  | .qword => .ofSuccessor (.ofFlags flags) v

/-! ## The kernel's services -/

/-- What the kernel answers for a descriptor that is not open. -/
def badDescriptor : Word := BitVec.ofInt 64 (-9)

/-- What the kernel answers for bytes that cannot be read. -/
def badAddress : Word := BitVec.ofInt 64 (-14)

/-- The `write` service for a system call that ends at `stop`.  The arguments are in `rdi`, `rsi`
    and `rdx`; the answer is left in `rax`, and `rcx` and `r11` are overwritten. -/
def write (accepts : Descriptors) (stop : Word) (c : Cpu) : Cpu :=
  let descriptor : UInt32 := ⟨(c.get LowRegister.rdi).setWidth 32⟩
  let bytes? := c.memory.load (c.get LowRegister.rdx).toNat (c.get LowRegister.rsi)
  let answer :=
    match accepts descriptor, bytes? with
    | false, _ => badDescriptor
    | true, none => badAddress
    | true, some bytes => BitVec.ofNat 64 bytes.length
  -- a write is recorded whether or not the descriptor is open
  let asked := (bytes?.map fun bytes => ⟨descriptor, bytes⟩).toList ++ c.asked
  (({ c with asked := asked, next := stop }.set LowRegister.rax answer).set
    LowRegister.rcx stop).set Register.r11 c.flags

/-- The state that a service other than `write` finds. -/
def calling (stop : Word) (c : Cpu) : Cpu :=
  ({ c with next := stop }.set LowRegister.rcx stop).set Register.r11 c.flags

/-- The system call of an instruction that ends at `stop`; `eax` names the service. -/
def systemCall (services : Services) (stop : Word) (c : Cpu) : Option Cpu :=
  if (c.get LowRegister.rax).setWidth 32 = 1#32 then some (c.write services.accepts stop)
  else services.serve (c.calling stop)

/-! ## Steps -/

/-- Carries out an instruction that ends at `stop`.  Operands are read before anything is changed. -/
def execute (services : Services) (stop : Word) (c : Cpu) : Instruction → Option Cpu
  | .nop => some { c with next := stop }
  | .movImm w r v => some ({ c with next := stop }.assign w r (BitVec.ofNat 64 v))
  | .mov w r s => some ({ c with next := stop }.assign w r (c.get s))
  | .lea w r a => some ({ c with next := stop }.assign w r (c.addressOf stop a))
  | .xor w r s =>
      let v := c.get r ^^^ c.get s
      some ({ c with next := stop, flags := (xorStatus w v).into c.flags }.assign w r v)
  | .load w r a => do
      let v ← c.load w (c.addressOf stop a)
      return { c with next := stop }.assign w r v
  | .store w a s => { c with next := stop }.store w (c.addressOf stop a) (c.get s)
  | .storeImm w a v => { c with next := stop }.store w (c.addressOf stop a) (BitVec.ofNat 64 v)
  | .cmpByte a v => do
      let bytes ← c.memory.load 1 (c.addressOf stop a)
      let status := Status.ofDifference (BitVec.ofNat 8 (LittleEndian.decode bytes)) (.ofNat 8 v)
      return { c with next := stop, flags := status.into c.flags }
  | .lockInc w a => do
      let v ← c.load w (c.addressOf stop a)
      { c with next := stop, flags := (incStatus w c.flags v).into c.flags }.store w
        (c.addressOf stop a) (v + 1)
  | .push r => { c with next := stop }.push (c.get r)
  | .pop r => do
      let (v, c) ← c.pop
      return { c with next := stop }.assign .qword r v
  | .leave => do
      let (v, c) ← (c.set LowRegister.rsp (c.get LowRegister.rbp)).pop
      return { c with next := stop }.set LowRegister.rbp v
  | .call d => { c with next := stop + BitVec.ofInt 64 d }.push stop
  | .callReg r => { c with next := c.get r }.push stop
  | .callMem a => do
      let v ← c.load .qword (c.addressOf stop a)
      { c with next := v }.push stop
  | .jmp _ d => some { c with next := stop + BitVec.ofInt 64 d }
  | .jmpReg r => some { c with next := c.get r }
  | .jmpMem a => (c.load .qword (c.addressOf stop a)).map fun v => { c with next := v }
  | .jcc condition _ d =>
      some { c with
        next := if condition.holds (.ofFlags c.flags) then stop + BitVec.ofInt 64 d else stop }
  | .syscall => c.systemCall services stop
  | .ret => do
      let (v, c) ← c.pop
      return { c with next := v }
  | .retPop n => do
      let (v, c) ← c.pop
      return { c with next := v }.set LowRegister.rsp (c.get LowRegister.rsp + BitVec.ofNat 64 n)
  -- these stop the program, or are refused to it; a far return would leave its code segment
  | .hlt => none
  | .int3 => none
  | .ud2 => none
  | .sysret => none
  | .retFar => none

/-- One instruction. -/
def step (services : Services) (c : Cpu) : Option Cpu :=
  match decode (c.memory.fetch maxLength c.next) with
  | .instruction i length => c.execute services (c.next.advance length) i
  | .bad _ => none

/-- `n` instructions. -/
def steps (services : Services) : Nat → Cpu → Option Cpu
  | 0, c => some c
  | n + 1, c => (c.step services).bind (steps services n)

/-! ## Runs -/

/-- How a run ends. -/
inductive Ending
  /-- Control reached the address. -/
  | arrived
  /-- The processor could not go on. -/
  | stuck
  /-- It does not. -/
  | endless
  deriving DecidableEq

/-- Steps until control reaches `goal`. -/
def runUntil (services : Services) (goal : Word) (c : Cpu) : Option (Ending × Cpu) :=
  if c.next = goal then some (.arrived, c)
  else
    match c.step services with
    | some c' => c' |>.runUntil services goal
    | none => some (.stuck, c)
partial_fixpoint

/-- Steps until control reaches `goal`, fewer than `n` times. -/
def runFor (services : Services) (goal : Word) : Nat → Cpu → Option (Ending × Cpu)
  | 0, _ => none
  | n + 1, c =>
      if c.next = goal then some (.arrived, c)
      else
        match c.step services with
        | some c' => runFor services goal n c'
        | none => some (.stuck, c)

theorem runUntil_of_runFor {services : Services} {goal : Word} {n : Nat} {c : Cpu}
    {r : Ending × Cpu} (h : c.runFor services goal n = some r) :
    c.runUntil services goal = some r := by
  induction n generalizing c with
  | zero => cases h
  | succ n ih =>
    rw [runFor] at h
    rw [runUntil]
    by_cases hnext : c.next = goal
    · rw [if_pos hnext] at h ⊢
      exact h
    · rw [if_neg hnext] at h ⊢
      cases hstep : c.step services with
      | none =>
        rw [hstep] at h
        exact h
      | some c' =>
        rw [hstep] at h
        exact ih h

/-- **A run comes to what it comes to within some number of steps**, if to anything. -/
theorem runUntil_eq_some_iff {services : Services} {goal : Word} {c : Cpu} {r : Ending × Cpu} :
    c.runUntil services goal = some r ↔ ∃ n, c.runFor services goal n = some r := by
  constructor
  · refine runUntil.partial_correctness services goal
      (fun c r => ∃ n, c.runFor services goal n = some r) ?_ c r
    intro run ih c r hr
    by_cases hnext : c.next = goal
    · rw [if_pos hnext] at hr
      exact ⟨1, by rw [runFor, if_pos hnext, hr]⟩
    · rw [if_neg hnext] at hr
      cases hstep : c.step services with
      | none =>
        rw [hstep] at hr
        exact ⟨1, by rw [runFor, if_neg hnext, hstep]; exact hr⟩
      | some c' =>
        rw [hstep] at hr
        obtain ⟨n, hn⟩ := ih c' r hr
        exact ⟨n + 1, by rw [runFor, if_neg hnext, hstep]; exact hn⟩
  · rintro ⟨n, h⟩
    exact runUntil_of_runFor h

end Cpu

end Emplace.X64
