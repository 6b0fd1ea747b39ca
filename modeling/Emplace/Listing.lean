import Emplace.Image
import Emplace.X64.Text

/-
  Listings: the code of an image, instruction by instruction.

  `lines` divides the code from its first byte on; each line takes at least one byte.  How an
  instruction is read from bytes is a parameter.  What the other functions report is read off the
  lines: the system calls, the targets of operands that are relative to the instruction, and
  whether control can run off the end.
-/

namespace Emplace.Listing

open X64 (Decoder)

/-- A piece of code and what it says. -/
structure Line where
  /-- Where the piece starts. -/
  offset : Nat
  bytes : List UInt8
  /-- The instruction, unless the bytes are none. -/
  instruction? : Option X64.Instruction
  deriving DecidableEq

namespace Line

/-- The offset behind the piece. -/
def stop (l : Line) : Nat := l.offset + l.bytes.length

def text (l : Line) : String :=
  match l.instruction? with
  | some i => i.text l.stop
  | none => "(bad)"

end Line

/-- The lines of code that starts at `offset`. -/
def lines (decode : Decoder) (offset : Nat) (code : List UInt8) : List Line :=
  match code with
  | [] => []
  | b :: rest =>
      let decoded := decode (b :: rest)
      let more := decoded.length - 1
      ⟨offset, b :: rest.take more, decoded.instruction?⟩ ::
        lines decode (offset + 1 + more) (rest.drop more)
termination_by code.length
decreasing_by simp only [List.length_cons, List.length_drop]; omega

/-- The lines divide the code: nothing is left out and nothing is taken twice. -/
theorem flatMap_bytes_lines (decode : Decoder) (offset : Nat) (code : List UInt8) :
    (lines decode offset code).flatMap Line.bytes = code := by
  fun_induction lines decode offset code with
  | case1 => rfl
  | case2 offset b rest decoded more ih =>
    rw [List.flatMap_cons, ih]
    simp

/-- The lines of an image's code. -/
def ofImage (decode : Decoder) (image : Image) : List Line := lines decode 0 image.code

/-- Where the system calls are, and how long each instruction is. -/
def syscalls (ls : List Line) : List (Nat × Nat) :=
  (ls.filter fun l => l.instruction? = some .syscall).map fun l => (l.offset, l.bytes.length)

/-- The offset that the line's operand names relative to the end of the line. -/
def Line.relativeTarget? (l : Line) : Option Nat :=
  match l.instruction?.bind X64.Instruction.address? with
  | some (.relative d) => some (X64.displaced l.stop d)
  | _ => none

/-- Where the relative operands are, and the offset that each one names. -/
def relativeTargets (ls : List Line) : List (Nat × Nat) :=
  ls.filterMap fun l => l.relativeTarget?.map fun target => (l.offset, target)

/-- Whether control can go on behind the last line, as far as the last line tells. -/
def fallsThrough (ls : List Line) : Bool :=
  match ls.getLast? with
  | some l =>
      match l.instruction? with
      | some i => !i.leaves
      | none => true
  | none => true

end Emplace.Listing
