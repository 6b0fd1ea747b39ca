import Emplace.X64.Instruction

/-
  Reading instructions from bytes.

  A reader takes bytes from the front of a list and answers what it read together with the rest.
  It stops for one of two reasons: the bytes end inside an instruction, or they begin none that is
  known here.  `decode` reads one instruction from the first bytes of a list and always says how
  many bytes it took, so repeated decoding divides any list.

  The bytes of an instruction are an optional REX byte, an opcode of one or two bytes, an optional
  operand byte with the displacement it asks for, and an optional immediate value.
-/

namespace Emplace.X64

/-- Why no instruction was read. -/
inductive Obstacle
  /-- The bytes end inside an instruction. -/
  | truncated
  /-- No known instruction begins like this. -/
  | unknown
  deriving DecidableEq

/-- Reads from the front of a list of bytes. -/
def Reader (α : Type) := List UInt8 → Except Obstacle (α × List UInt8)

namespace Reader

instance : Monad Reader where
  pure a bytes := .ok (a, bytes)
  bind x f bytes :=
    match x bytes with
    | .ok (a, rest) => f a rest
    | .error e => .error e

/-- Stops reading. -/
def stop {α : Type} (e : Obstacle) : Reader α := fun _ => .error e

@[simp] theorem pure_apply {α : Type} (a : α) (bytes : List UInt8) :
    (pure a : Reader α) bytes = .ok (a, bytes) := rfl

@[simp] theorem bind_apply {α β : Type} (x : Reader α) (f : α → Reader β) (bytes : List UInt8) :
    (x >>= f) bytes = match x bytes with
      | .ok (a, rest) => f a rest
      | .error e => .error e := rfl

@[simp] theorem stop_apply {α : Type} (e : Obstacle) (bytes : List UInt8) :
    (stop e : Reader α) bytes = .error e := rfl

end Reader

open Reader (stop)

/-! ## Reading fields -/

/-- The next `n` bytes. -/
def readBytes (n : Nat) : Reader (List UInt8) := fun bytes =>
  if n ≤ bytes.length then .ok (bytes.take n, bytes.drop n) else .error .truncated

def readByte : Reader UInt8
  | [] => .error .truncated
  | b :: rest => .ok (b, rest)

def readUnsigned (n : Nat) : Reader Nat := do
  return LittleEndian.decode (← readBytes n)

def readSigned (n : Nat) : Reader Int := do
  return LittleEndian.decodeInt (← readBytes n)

@[simp] theorem readByte_cons (b : UInt8) (rest : List UInt8) :
    readByte (b :: rest) = .ok (b, rest) := rfl

theorem readBytes_append {n : Nat} {front rest : List UInt8} (h : front.length = n) :
    readBytes n (front ++ rest) = .ok (front, rest) := by
  subst h
  simp [readBytes]

theorem readUnsigned_append {n : Nat} {front rest : List UInt8} (h : front.length = n) :
    readUnsigned n (front ++ rest) = .ok (LittleEndian.decode front, rest) := by
  simp [readUnsigned, readBytes_append h]

theorem readSigned_append {n : Nat} {front rest : List UInt8} (h : front.length = n) :
    readSigned n (front ++ rest) = .ok (LittleEndian.decodeInt front, rest) := by
  simp [readSigned, readBytes_append h]

/-! ## Operands -/

/-- The bits of a REX byte: full operand width, and one more bit for each register code. -/
structure Rex where
  wide : Bool
  reg : Bool
  rm : Bool

namespace Rex

/-- What holds without a REX byte. -/
def absent : Rex := ⟨false, false, false⟩

/-- The REX byte's bits, when it is one. -/
def ofByte? (b : UInt8) : Option Rex :=
  if b.toNat / 16 = 4 then
    some ⟨b.toNat / 8 % 2 = 1, b.toNat / 4 % 2 = 1, b.toNat % 2 = 1⟩
  else none

def width (rex : Rex) : OperandWidth := if rex.wide then .qword else .dword

/-- The register that the three bits beside an operand name. -/
def register (rex : Rex) (code : Nat) : Register := ⟨.ofCode code, rex.reg⟩

end Rex

inductive Operand
  | register (register : Register)
  | memory (address : Address)

/-- Reads an operand byte and the displacement that it asks for.  Answers the three bits that name
    a register or extend the opcode, and the operand that the other bits name. -/
def readOperand (rex : Rex) : Reader (Nat × Operand) := do
  let b ← readByte
  let mode := b.toNat / 64
  let reg := b.toNat / 8 % 8
  let rm : Register := ⟨.ofCode b.toNat, rex.rm⟩
  if mode = 3 then return (reg, .register rm)
  else if b.toNat % 8 = 4 then stop .unknown
  else if mode = 0 then
    if b.toNat % 8 = 5 then return (reg, .memory (.relative (← readSigned 4)))
    else return (reg, .memory (.based rm 0))
  else if mode = 1 then return (reg, .memory (.based rm (← readSigned 1)))
  else return (reg, .memory (.based rm (← readSigned 4)))

/-! ## Opcodes -/

/-- Opcodes of two bytes; the first one, `0F`, has been read. -/
def readExtended : Reader Instruction := do
  let b ← readByte
  if b.toNat / 16 = 8 then return .jcc (.ofCode b.toNat) .rel32 (← readSigned 4)
  else if b = 0x05 then return .syscall
  else if b = 0x07 then return .sysret
  else if b = 0x0B then return .ud2
  else stop .unknown

/-- Opcodes that an operand byte follows. -/
def readWithOperand (rex : Rex) (op : UInt8) : Reader Instruction := do
  match op.toNat, ← readOperand rex with
  | 0x31, (reg, .register r) => return .xor rex.width r (rex.register reg)
  | 0x89, (reg, .register r) => return .mov rex.width r (rex.register reg)
  | 0x89, (reg, .memory a) => return .store rex.width a (rex.register reg)
  | 0x8B, (reg, .memory a) => return .load rex.width (rex.register reg) a
  | 0x8D, (reg, .memory a) => return .lea rex.width (rex.register reg) a
  | 0x80, (7, .memory a) => return .cmpByte a (← readUnsigned 1)
  | 0xC7, (0, .memory a) =>
      return .storeImm rex.width a ((← readSigned 4) % (rex.width.values : Int)).toNat
  | 0xFF, (2, .memory a) => return .callMem a
  | 0xFF, (4, .memory a) => return .jmpMem a
  | 0xFF, (2, .register r) => return .callReg r
  | 0xFF, (4, .register r) => return .jmpReg r
  | _, _ => stop .unknown

/-- The instruction of an opcode and of what follows it.  Some opcodes name a register in their low
    three bits, and some a condition in their low four. -/
def readOpcode (rex : Rex) (op : UInt8) : Reader Instruction :=
  let r : Register := ⟨.ofCode op.toNat, rex.rm⟩
  match op.toNat / 8, op.toNat with
  | 0x0A, _ => return .push r
  | 0x0B, _ => return .pop r
  | 0x0E, _ => return .jcc (.ofCode op.toNat) .rel8 (← readSigned 1)
  | 0x0F, _ => return .jcc (.ofCode op.toNat) .rel8 (← readSigned 1)
  | 0x17, _ => return .movImm rex.width r (← readUnsigned (if rex.wide then 8 else 4))
  | _, 0x0F => readExtended
  | _, 0x90 => return .nop
  | _, 0xC2 => return .retPop (← readUnsigned 2)
  | _, 0xC3 => return .ret
  | _, 0xC9 => return .leave
  | _, 0xCB => return .retFar
  | _, 0xCC => return .int3
  | _, 0xE8 => return .call (← readSigned 4)
  | _, 0xE9 => return .jmp .rel32 (← readSigned 4)
  | _, 0xEB => return .jmp .rel8 (← readSigned 1)
  | _, 0xF4 => return .hlt
  -- all other opcodes known here have an operand byte
  | _, _ =>
      if op ∈ [0x31, 0x80, 0x89, 0x8B, 0x8D, 0xC7, 0xFF] then readWithOperand rex op
      else stop .unknown

/-- An opcode and the REX byte before it. -/
def readRex : Reader (Rex × UInt8) := do
  let b ← readByte
  match Rex.ofByte? b with
  | none => return (.absent, b)
  | some rex => return (rex, ← readByte)

/-- The one instruction known here that takes the lock of the memory bus. -/
def readLocked : Reader Instruction := do
  let (rex, op) ← readRex
  if op = 0xFF then
    match ← readOperand rex with
    | (0, .memory a) => return .lockInc rex.width a
    | _ => stop .unknown
  else stop .unknown

def readInstruction : Reader Instruction := do
  let (rex, op) ← readRex
  if op = 0xF0 then readLocked else readOpcode rex op

/-! ## One instruction from the front of a list -/

/-- The longest an instruction can be. -/
def maxLength : Nat := 15

/-- What begins a list of bytes, and how many of them it takes. -/
inductive Decoded
  | instruction (instruction : Instruction) (length : Nat)
  | bad (length : Nat)
  deriving DecidableEq

namespace Decoded

def length : Decoded → Nat
  | instruction _ n => n
  | bad n => n

def instruction? : Decoded → Option Instruction
  | instruction i _ => some i
  | bad _ => none

end Decoded

/-- A way to read one instruction from the front of a list. -/
abbrev Decoder := List UInt8 → Decoded

/-- Reads one instruction.  An instruction cut off by the end takes all bytes that are left, and
    bytes that begin no instruction are taken two at a time. -/
def decode (bytes : List UInt8) : Decoded :=
  let window := bytes.take maxLength
  match readInstruction window with
  | .ok (i, rest) => .instruction i (window.length - rest.length)
  | .error .truncated => .bad window.length
  | .error .unknown => .bad (min 2 window.length)

example :
    decode [0x48, 0x8D, 0x35, 3, 0, 0, 0, 0x0F] =
      .instruction (.lea .qword ⟨.rsi, false⟩ (.relative 3)) 7 := by
  decide
example :
    decode [0xE9, 0, 0] = .bad 3 ∧ decode [0x06, 0x90, 0x90] = .bad 2 ∧ decode [0x06] = .bad 1 := by
  decide

end Emplace.X64
