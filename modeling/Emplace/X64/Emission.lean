import Emplace.Site
import Emplace.X64.Register

/-
  Emissions: the pieces of machine code that can be written by name.

  An emission is a run of bytes known when it is written, possibly followed by a displacement
  field whose value is known only later.  `leading` gives the known bytes, `field?` the width of the
  field that ends the instruction.
-/

namespace Emplace.X64

/-- The number of the kernel's `write` service. -/
def writeService : UInt32 := 1

inductive Emission
  /-- Sets the low half of a register and clears the high half. -/
  | mov (target : LowRegister) (value : UInt32)
  /-- Sets a register to the address of the target. -/
  | lea (target : LowRegister)
  | jmpNear
  | jmpShort
  | syscall
  | ret
  /-- Saves the caller's frame pointer and starts a frame of its own. -/
  | prologue
  /-- Restores the caller's frame pointer and returns. -/
  | epilogue
  deriving DecidableEq

namespace Emission

/-- The bytes before the displacement field, or all bytes where there is none. -/
def leading : Emission → List UInt8
  | mov r v => UInt8.ofNat (0xB8 + r.code) :: LittleEndian.encode 4 v.toNat
  | lea r => [0x48, 0x8D, UInt8.ofNat (0x05 + 8 * r.code)]
  | jmpNear => [0xE9]
  | jmpShort => [0xEB]
  | syscall => [0x0F, 0x05]
  | ret => [0xC3]
  | prologue => [0x55, 0x48, 0x89, 0xE5]
  | epilogue => [0x5D, 0xC3]

/-- The width of the displacement field that ends the instruction. -/
def field? : Emission → Option FieldWidth
  | lea _ => some .rel32
  | jmpNear => some .rel32
  | jmpShort => some .rel8
  | _ => none

/-- The number of bytes with the field. -/
def length (e : Emission) : Nat := e.leading.length + (e.field?.map FieldWidth.bytes).getD 0

example : (mov .rdi 1).leading = [0xBF, 1, 0, 0, 0] := by decide
example : (lea .rsi).leading = [0x48, 0x8D, 0x35] ∧ (lea .rsi).length = 7 := by decide

end Emission

end Emplace.X64
