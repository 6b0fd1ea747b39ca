import Emplace.X64.Instruction

/-
  The status flags.

  Arithmetic leaves six flags behind, and a branch is taken or not as its condition says of them.
  They stand in a word together with flags of other kinds, which arithmetic leaves as they are.
-/

namespace Emplace.X64

/-- What arithmetic says of its result. -/
structure Status where
  carry : Bool
  parity : Bool
  adjust : Bool
  zero : Bool
  sign : Bool
  overflow : Bool
  deriving DecidableEq

namespace Status

/-- The bits of the word at which the six flags stand. -/
def mask : Word := 0x8D5#64

def ofFlags (flags : Word) : Status where
  carry := flags.getLsbD 0
  parity := flags.getLsbD 2
  adjust := flags.getLsbD 4
  zero := flags.getLsbD 6
  sign := flags.getLsbD 7
  overflow := flags.getLsbD 11

/-- The word with the six flags replaced. -/
def into (s : Status) (flags : Word) : Word :=
  let bit (i : Nat) (b : Bool) : Word := if b then 1#64 <<< i else 0
  (flags &&& ~~~mask) ||| bit 0 s.carry ||| bit 2 s.parity ||| bit 4 s.adjust ||| bit 6 s.zero |||
    bit 7 s.sign ||| bit 11 s.overflow

/-- What a result alone decides: nothing was carried. -/
def ofResult {n : Nat} (result : BitVec n) : Status where
  carry := false
  -- only the lowest byte counts
  parity := ((List.range 8).filter result.getLsbD).length % 2 = 0
  adjust := false
  zero := result.toNat = 0
  sign := result.msb
  overflow := false

/-- The status of `x - y`. -/
def ofDifference {n : Nat} (x y : BitVec n) : Status :=
  { ofResult (x - y) with
    carry := x.toNat < y.toNat
    adjust := x.toNat % 16 < y.toNat % 16
    overflow := x.ssubOverflow y }

/-- The status of `x + 1`, which keeps the carry from before. -/
def ofSuccessor {n : Nat} (before : Status) (x : BitVec n) : Status :=
  { ofResult (x + 1#n) with
    carry := before.carry
    adjust := x.toNat % 16 = 15
    overflow := x.saddOverflow 1#n }

end Status

/-- Whether a branch with this condition is taken. -/
def Condition.holds (status : Status) : Condition → Bool
  | .o => status.overflow
  | .no => !status.overflow
  | .b => status.carry
  | .ae => !status.carry
  | .e => status.zero
  | .ne => !status.zero
  | .be => status.carry || status.zero
  | .a => !(status.carry || status.zero)
  | .s => status.sign
  | .ns => !status.sign
  | .p => status.parity
  | .np => !status.parity
  | .l => status.sign != status.overflow
  | .ge => status.sign == status.overflow
  | .le => status.zero || status.sign != status.overflow
  | .g => !status.zero && status.sign == status.overflow

/-- The least byte is below one as a signed byte, and not as an unsigned one. -/
example :
    Condition.holds (.ofDifference 0x80#8 1#8) .l = true ∧
      Condition.holds (.ofDifference 0x80#8 1#8) .b = false := by
  decide

end Emplace.X64
