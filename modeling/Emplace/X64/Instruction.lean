import Emplace.Site
import Emplace.X64.Register

/-
  Instructions of the processor, as far as this library reads them.

  Displacements are signed and measured from the end of the instruction that holds them.
  `Instruction.address?` gives the memory operand, and `Instruction.leaves` says which instructions
  never go on with the one behind them.
-/

namespace Emplace.X64

/-- A memory operand. -/
inductive Address
  /-- So many bytes from the end of the instruction. -/
  | relative (displacement : Int)
  /-- So many bytes from where a register points. -/
  | based (base : Register) (displacement : Int)
  deriving DecidableEq

/-- The conditions of a branch, in the order of their codes. -/
inductive Condition
  | o | no | b | ae | e | ne | be | a | s | ns | p | np | l | ge | le | g
  deriving DecidableEq

namespace Condition

/-- The condition of the low four bits of a code. -/
def ofCode (code : Nat) : Condition :=
  match code % 16 with
  | 0 => o
  | 1 => no
  | 2 => b
  | 3 => ae
  | 4 => e
  | 5 => ne
  | 6 => be
  | 7 => a
  | 8 => s
  | 9 => ns
  | 10 => p
  | 11 => np
  | 12 => l
  | 13 => ge
  | 14 => le
  | _ => g

def name : Condition → String
  | o => "o"
  | no => "no"
  | b => "b"
  | ae => "ae"
  | e => "e"
  | ne => "ne"
  | be => "be"
  | a => "a"
  | s => "s"
  | ns => "ns"
  | p => "p"
  | np => "np"
  | l => "l"
  | ge => "ge"
  | le => "le"
  | g => "g"

end Condition

inductive Instruction
  | nop
  | ret
  /-- Returns and drops so many bytes of arguments. -/
  | retPop (count : Nat)
  | retFar
  | hlt
  | int3
  | leave
  | ud2
  | syscall
  | sysret
  | push (source : Register)
  | pop (target : Register)
  | movImm (w : OperandWidth) (target : Register) (value : Nat)
  | mov (w : OperandWidth) (target source : Register)
  | xor (w : OperandWidth) (target source : Register)
  | lea (w : OperandWidth) (target : Register) (address : Address)
  | load (w : OperandWidth) (target : Register) (address : Address)
  | store (w : OperandWidth) (address : Address) (source : Register)
  | storeImm (w : OperandWidth) (address : Address) (value : Nat)
  | cmpByte (address : Address) (value : Nat)
  | lockInc (w : OperandWidth) (address : Address)
  | callMem (address : Address)
  | jmpMem (address : Address)
  | callReg (target : Register)
  | jmpReg (target : Register)
  | call (displacement : Int)
  | jmp (width : FieldWidth) (displacement : Int)
  | jcc (condition : Condition) (width : FieldWidth) (displacement : Int)
  deriving DecidableEq

namespace Instruction

/-- The memory operand. -/
def address? : Instruction → Option Address
  | lea _ _ address => some address
  | load _ _ address => some address
  | store _ address _ => some address
  | storeImm _ address _ => some address
  | cmpByte address _ => some address
  | lockInc _ address => some address
  | callMem address => some address
  | jmpMem address => some address
  | _ => none

/-- Whether control always goes elsewhere than to the next instruction. -/
def leaves : Instruction → Bool
  | ret => true
  | retPop _ => true
  | retFar => true
  | sysret => true
  | jmpMem _ => true
  | jmpReg _ => true
  | jmp .. => true
  | _ => false

end Instruction

end Emplace.X64
