import Emplace.Error
import Emplace.X64.Cpu

/-
  The kernel.

  A kernel grants or refuses two kinds of request: a mapping of a number of bytes, and the change
  of a mapping from writable to executable (`permitExecute`).  Each mapping asked for has a
  `ticket`, so the kernel may answer every request in a way of its own.  A granted mapping is a
  `Place`: a range in the lower half of all addresses.  Besides, it serves running code (`serve`).

  `Kernel.standard` grants all that fits its address space.  `Kernel.noExecGain` also refuses
  whatever would make writable memory executable.  Of services for running code, both have `write`
  and `waitingSignals`.
-/

namespace Emplace

/-- How a region comes by its execute permission. -/
inductive Strategy
  /-- Readable, writable and executable from the start. -/
  | rwx
  /-- Readable and writable until the code is stored, then readable and executable. -/
  | staged
  deriving DecidableEq

/-- The strategy's full name, as reports show it. -/
def Strategy.name : Strategy → String
  | rwx => "ReadWriteExecute"
  | staged => "WriteThenExecute"

/-- Where a mapping of `capacity` bytes lies. -/
structure Place (capacity : Nat) where
  base : Word
  base_ne_zero : base ≠ 0
  fits : base.toNat + capacity ≤ Offset.signedLimit

/-- There is no place for more bytes than a signed word counts. -/
theorem Place.capacity_lt {capacity : Nat} (p : Place capacity) : capacity < Offset.signedLimit := by
  have hfits := p.fits
  have hbase : p.base.toNat ≠ 0 := fun h => p.base_ne_zero (BitVec.eq_of_toNat_eq h)
  omega

structure Kernel where
  /-- The answer to the mapping with this ticket. -/
  map : (ticket : Nat) → Strategy → (capacity : Nat) → Except Errno (Place capacity)
  /-- The answer to making this mapping executable with this ticket. -/
  permitExecute : (ticket : Nat) → Except Errno Unit
  /-- What a service other than `write` makes of the processor that asks for it. -/
  serve : X64.Cpu → Option X64.Cpu

namespace Kernel

/-- The size of the address space that is left for mappings. -/
def space : Nat := 0x800000000000

/-- The ticket's base: one for each of 32768 tickets, `space` bytes apart. -/
def baseOf (ticket : Nat) : Word := BitVec.ofNat 64 ((ticket % 0x8000 + 1) * space)

theorem toNat_baseOf (ticket : Nat) : (baseOf ticket).toNat = (ticket % 0x8000 + 1) * space := by
  simp only [baseOf, BitVec.toNat_ofNat, space]
  omega

theorem space_le_baseOf (ticket : Nat) : space ≤ (baseOf ticket).toNat := by
  rw [toNat_baseOf]
  exact Nat.le_mul_of_pos_left _ (Nat.succ_pos _)

theorem baseOf_add_lt (ticket : Nat) {capacity : Nat} (h : capacity < space) :
    (baseOf ticket).toNat + capacity ≤ Offset.signedLimit := by
  rw [toNat_baseOf]
  simp only [space, Offset.signedLimit] at *
  omega

theorem baseOf_ne_zero (ticket : Nat) : baseOf ticket ≠ 0 := by
  intro h
  have hspace := space_le_baseOf ticket
  rw [h] at hspace
  exact absurd hspace (by decide)

/-- The place that a ticket gets. -/
def place (ticket capacity : Nat) (h : capacity < space) : Place capacity where
  base := baseOf ticket
  base_ne_zero := baseOf_ne_zero ticket
  fits := baseOf_add_lt ticket h

/-- The services for running code, when these descriptors are open. -/
def services (kernel : Kernel) (accepts : X64.Descriptors) : X64.Services := ⟨accepts, kernel.serve⟩

/-- What the kernel answers for an argument that makes no sense. -/
def badArgument : Word := BitVec.ofInt 64 (-22)

/-- The service that tells which signals wait: none do.  It stores a zero for each of `rsi` bytes,
    at most eight, from the address in `rdi` on. -/
def waitingSignals (c : X64.Cpu) : Option X64.Cpu :=
  let count := (c.get X64.LowRegister.rsi).toNat
  if (c.get X64.LowRegister.rax).setWidth 32 = 127#32 then
    if 8 < count then some (c.set X64.LowRegister.rax badArgument)
    else
      match c.memory.store (c.get X64.LowRegister.rdi) (List.replicate count 0) with
      | some memory => some ({ c with memory := memory }.set X64.LowRegister.rax 0)
      | none => some (c.set X64.LowRegister.rax X64.Cpu.badAddress)
  else none

/-- Grants every mapping smaller than the address space, and every change to executable. -/
def standard : Kernel where
  map ticket _ capacity :=
    if h : capacity < space then .ok (place ticket capacity h) else .error .noMemory
  permitExecute _ := .ok ()
  serve := waitingSignals

/-- Like `standard`, but refuses memory that is writable and executable at once, and every change
    to executable. -/
def noExecGain : Kernel where
  map ticket strategy capacity :=
    if h : capacity < space then
      match strategy with
      | .rwx => .error .accessDenied
      | .staged => .ok (place ticket capacity h)
    else .error .noMemory
  permitExecute _ := .error .accessDenied
  serve := waitingSignals

end Kernel

end Emplace
