import Emplace.Numeral
import Emplace.Offset
import Emplace.X64.Decode

/-
  The assembler's spelling of instructions.

  Numbers are one decimal digit below ten and otherwise upper-case hexadecimal with the letter `h`
  behind it, with a zero in front of a leading letter.  Targets of branches always show all sixteen
  digits.  Both are offsets from the start of the code, so the text of an instruction depends on
  the offset behind it.
-/

namespace Emplace.X64

namespace Spelling

/-- The digits with the mark of hexadecimal, kept apart from a name by a leading zero. -/
def marked (digits : String) : String :=
  match digits.toList with
  | c :: _ => (if c.isDigit then "" else "0") ++ digits ++ "h"
  | [] => "h"

def number (n : Nat) : String :=
  if n < 10 then toString n else marked (Numeral.upper n)

def branchTarget (n : Nat) : String :=
  if n < 10 then toString n else marked (Numeral.padStart '0' 16 (Numeral.upper n))

example : number 9 = "9" ∧ number 10 = "0Ah" ∧ number 0x17 = "17h" := by decide
example : branchTarget 0x16 = "0000000000000016h" := by decide

end Spelling

/-- The offset at a distance from another one, modulo `2 ^ 64`. -/
def displaced (stop : Nat) (displacement : Int) : Nat :=
  ((stop + displacement) % Offset.limit).toNat

namespace OperandWidth

def name : OperandWidth → String
  | dword => "dword"
  | qword => "qword"

end OperandWidth

/-- The operand in an instruction that ends at `stop`. -/
def Address.text (stop : Nat) : Address → String
  | relative d => "[rel " ++ Spelling.number (displaced stop d) ++ "]"
  | based r d =>
      let shift :=
        if d = 0 then ""
        else if d < 0 then "-" ++ Spelling.number d.natAbs
        else "+" ++ Spelling.number d.natAbs
      "[" ++ r.name .qword ++ shift ++ "]"

namespace Instruction

/-- The instruction's text when it ends at `stop`. -/
def text (stop : Nat) : Instruction → String
  | nop => "nop"
  | ret => "ret"
  | retPop n => "ret " ++ Spelling.number n
  | retFar => "retf"
  | hlt => "hlt"
  | int3 => "int3"
  | leave => "leave"
  | ud2 => "ud2"
  | syscall => "syscall"
  | sysret => "sysret"
  | push r => "push " ++ r.name .qword
  | pop r => "pop " ++ r.name .qword
  | movImm w r v => "mov " ++ r.name w ++ "," ++ Spelling.number v
  | mov w r s => "mov " ++ r.name w ++ "," ++ s.name w
  | xor w r s => "xor " ++ r.name w ++ "," ++ s.name w
  | lea w r a => "lea " ++ r.name w ++ "," ++ a.text stop
  | load w r a => "mov " ++ r.name w ++ "," ++ a.text stop
  | store w a s => "mov " ++ a.text stop ++ "," ++ s.name w
  | storeImm w a v => "mov " ++ w.name ++ " " ++ a.text stop ++ "," ++ Spelling.number v
  | cmpByte a v => "cmp byte " ++ a.text stop ++ "," ++ Spelling.number v
  | lockInc w a => "lock inc " ++ w.name ++ " " ++ a.text stop
  | callMem a => "call qword " ++ a.text stop
  | jmpMem a => "jmp qword " ++ a.text stop
  | callReg r => "call " ++ r.name .qword
  | jmpReg r => "jmp " ++ r.name .qword
  | call d => "call " ++ Spelling.branchTarget (displaced stop d)
  | jmp .rel32 d => "jmp " ++ Spelling.branchTarget (displaced stop d)
  | jmp .rel8 d => "jmp short " ++ Spelling.branchTarget (displaced stop d)
  | jcc c .rel32 d => "j" ++ c.name ++ " near " ++ Spelling.branchTarget (displaced stop d)
  | jcc c .rel8 d => "j" ++ c.name ++ " short " ++ Spelling.branchTarget (displaced stop d)

end Instruction

end Emplace.X64
