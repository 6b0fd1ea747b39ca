/-
  The sixteen general registers.

  An opcode or an operand byte names one of eight registers; a bit of the REX byte before it says
  whether the lower or the upper eight are meant.  `LowRegister` is what three bits name,
  `Register` what three bits and the REX bit name.
-/

namespace Emplace.X64

/-- The registers that three bits name, in the order of their codes. -/
inductive LowRegister
  | rax | rcx | rdx | rbx | rsp | rbp | rsi | rdi
  deriving DecidableEq

namespace LowRegister

def code : LowRegister → Nat
  | rax => 0
  | rcx => 1
  | rdx => 2
  | rbx => 3
  | rsp => 4
  | rbp => 5
  | rsi => 6
  | rdi => 7

/-- The register of the low three bits of a code. -/
def ofCode (code : Nat) : LowRegister :=
  match code % 8 with
  | 0 => rax
  | 1 => rcx
  | 2 => rdx
  | 3 => rbx
  | 4 => rsp
  | 5 => rbp
  | 6 => rsi
  | _ => rdi

theorem code_lt (r : LowRegister) : r.code < 8 := by cases r <;> decide

theorem ofCode_code (r : LowRegister) : ofCode r.code = r := by cases r <;> rfl

/-- The two letters that the names of all widths share. -/
def stem : LowRegister → String
  | rax => "ax"
  | rcx => "cx"
  | rdx => "dx"
  | rbx => "bx"
  | rsp => "sp"
  | rbp => "bp"
  | rsi => "si"
  | rdi => "di"

end LowRegister

/-- How much of a register an instruction works on. -/
inductive OperandWidth
  | dword
  | qword
  deriving DecidableEq

/-- How many values an operand of this width has. -/
def OperandWidth.values : OperandWidth → Nat
  | dword => 0x100000000
  | qword => 0x10000000000000000

/-- How many bytes it has in memory. -/
def OperandWidth.bytes : OperandWidth → Nat
  | dword => 4
  | qword => 8

structure Register where
  low : LowRegister
  /-- Whether the upper eight registers are meant. -/
  extended : Bool
  deriving DecidableEq

instance : Coe LowRegister Register := ⟨fun r => ⟨r, false⟩⟩

/-- The register in which a system call leaves the flags. -/
def Register.r11 : Register := ⟨.rbx, true⟩

/-- The assembler's name of the register at a width. -/
def Register.name (r : Register) (w : OperandWidth) : String :=
  match r.extended, w with
  | false, .dword => s!"e{r.low.stem}"
  | false, .qword => s!"r{r.low.stem}"
  | true, .dword => s!"r{8 + r.low.code}d"
  | true, .qword => s!"r{8 + r.low.code}"

example :
    Register.name ⟨.rsi, false⟩ .dword = "esi" ∧ Register.name ⟨.rcx, true⟩ .qword = "r9" := by
  decide

end Emplace.X64
