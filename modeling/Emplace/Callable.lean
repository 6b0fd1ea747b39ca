import Emplace.Region.Load
import Emplace.X64.Cpu

/-
  Callables: loaded code with a calling convention.

  `bind` turns a payload into a callable of a given shape; only empty code is refused.  Invoking a
  callable runs the processor from the base of the region until control is back at the caller.

  The caller's side of a call is a `Frame`: its registers, its memory with the stack in it, and the
  address to return to.  Up to six arguments are passed in registers, and the result comes back in
  `rax`.

  What `Calls` leave behind is what they wrote and returned, the region if they changed it, and how
  the last one ended: none follows one that does not come back.
-/

namespace Emplace

/-- What a routine takes and whether it gives something back. -/
structure Shape where
  args : Nat
  returns : Bool
  deriving DecidableEq

namespace Shape

/-- Nothing in, nothing out. -/
def nullary : Shape := ⟨0, false⟩

/-- One word in, one word out. -/
def unary : Shape := ⟨1, true⟩

end Shape

structure Callable where
  payload : Payload
  shape : Shape

/-- The caller's side of a call. -/
structure Frame where
  registers : X64.Registers
  memory : X64.Memory
  /-- Where the caller goes on. -/
  back : Word

/-- The registers that take the arguments of a call, in order. -/
def argumentRegisters : List X64.Register :=
  [X64.LowRegister.rdi, X64.LowRegister.rsi, X64.LowRegister.rdx, X64.LowRegister.rcx,
    ⟨.rax, true⟩, ⟨.rcx, true⟩]

/-- A register file with the arguments of a call in their places. -/
def passing (args : List Word) (rs : X64.Registers) : X64.Registers :=
  (argumentRegisters.zip args).foldl (fun rs (r, v) => rs.set r v) rs

namespace Frame

/-- Where the stack of an idle host starts, and how many bytes it has. -/
def stackBase : Word := 0x7FFF00400000#64
def stackSize : Nat := 0x800000

/-- A host with nothing in its registers and nearly all of its stack free. -/
def idle : Frame where
  registers := X64.Registers.zero.set X64.LowRegister.rsp (stackBase + 0x7FF000#64)
  memory := X64.Memory.mapped stackBase stackSize #[] true false
  back := 0x7FFF00000000#64

end Frame

/-! ## Memory before and after a call -/

/-- The pages as memory has them, if that is not what they hold already. -/
def Pages.changedBy? (m : X64.Memory) (p : Pages) : Option Pages :=
  match m.load p.capacity p.place.base with
  | some bytes => if bytes = p.bytes then none else some { p with stored := bytes }
  | none => none

/-- The mapping with other pages in it. -/
def Mapping.changedBy? (m : X64.Memory) : Mapping → Option Mapping
  | .both pages => (pages.changedBy? m).map .both
  | .writable pages => (pages.changedBy? m).map .writable
  | .executable pages => (pages.changedBy? m).map .executable
  | .gone => none

namespace Region

/-- The region's bytes as the processor sees them. -/
def memory (r : Region) : X64.Memory :=
  match r.mapping.pages? with
  | some pages =>
      X64.Memory.mapped pages.place.base pages.capacity pages.stored.toArray r.mapping.isWritable
        r.mapping.isExecutable
  | none => X64.Memory.mapped 0 0 #[] false false

/-- The region as memory has it after a call, if the call has changed it. -/
def changedBy? (m : X64.Memory) (r : Region) : Option Region :=
  (r.mapping.changedBy? m).map fun mapping => { r with mapping := mapping }

end Region

namespace Callable

/-- Binds a payload to a shape.  There is nothing to call in empty code. -/
def bind (p : Payload) (shape : Shape) : Except Error Callable × List Event :=
  if p.length = 0 then (.error .emptyCode, [])
  else
    (.ok ⟨p, shape⟩,
      [.callableBound p.region.ticket p.entry p.length shape.args shape.returns])

/-- The callable's facts on one line; `address` shows where it lies. -/
def describe (c : Callable) (address : Word → String) : String :=
  "CallableHandle \x7b base: " ++ address c.payload.entry ++ ", len: " ++
    toString c.payload.length ++ ", shape: Shape \x7b args: " ++ toString c.shape.args ++
    ", returns: " ++ toString c.shape.returns ++ " \x7d \x7d"

/-! ## Invoking -/

/-- The processor at the first instruction of the callable, the address to return to on top of the
    stack; no state when there is no room for it. -/
def enter (c : Callable) (frame : Frame) (args : List Word) : Option X64.Cpu :=
  X64.Cpu.push
    { registers := passing args frame.registers
      next := c.payload.entry
      flags := 0x202#64
      memory := c.payload.region.memory.backedBy frame.memory
      asked := [] }
    frame.back

/-- Runs the callable until control is back at the caller. -/
def invoke (c : Callable) (services : X64.Services) (frame : Frame) (args : List Word) :
    X64.Cpu.Ending × Option X64.Cpu :=
  match c.enter frame args with
  | none => (.stuck, none)
  | some cpu =>
      match cpu.runUntil services frame.back with
      | some (ending, cpu) => (ending, some cpu)
      | none => (.endless, none)

end Callable

/-- What calls leave behind. -/
structure Calls where
  /-- The writes that were asked for, in order. -/
  writes : List X64.WriteCall
  /-- What was in `rax` after each call that came back. -/
  results : List Word
  /-- The region, if it was changed. -/
  changed? : Option Region
  /-- How the last call ended.  There is none behind one that does not come back. -/
  ending : X64.Cpu.Ending

namespace Calls

/-- No calls. -/
def none : Calls := ⟨[], [], .none, .arrived⟩

/-- Calls that are made after others. -/
def andThen (first others : Calls) : Calls where
  writes := first.writes ++ others.writes
  results := first.results ++ others.results
  changed? := others.changed?.or first.changed?
  ending := others.ending

/-- The same calls `n` times, of calls that change nothing. -/
def times (n : Nat) (c : Calls) : Calls where
  writes := (List.replicate n c.writes).flatten
  results := (List.replicate n c.results).flatten
  changed? := .none
  ending := c.ending

end Calls

/-- The payload in its region as calls have left it. -/
def Payload.after (p : Payload) (calls : Calls) : Payload :=
  { p with region := calls.changed?.getD p.region }

namespace Callable

/-- The callable in its region as calls have left it. -/
def after (c : Callable) (calls : Calls) : Callable := { c with payload := c.payload.after calls }

/-- One call.  Code has its own region and its caller's memory; it faults where it reaches for
    more. -/
def call (c : Callable) (services : X64.Services) (frame : Frame) (args : List Word) : Calls :=
  match c.invoke services frame args with
  | (ending, some cpu) =>
      ⟨cpu.writes, if ending = .arrived then [cpu.get X64.LowRegister.rax] else [],
        c.payload.region.changedBy? cpu.memory, ending⟩
  | (ending, none) => ⟨[], [], none, ending⟩

/-- One call after the other, each from a frame and with arguments of its own. -/
def callAll (c : Callable) (services : X64.Services) : List (Frame × List Word) → Calls
  | [] => .none
  | (frame, args) :: more =>
      let first := c.call services frame args
      if first.ending = .arrived then first.andThen ((c.after first).callAll services more)
      else first

/-- `n` calls without arguments.  Calls that change nothing are all alike, so one of them is enough
    to know them all. -/
def callTimes (c : Callable) (services : X64.Services) (frame : Frame) : Nat → Calls
  | 0 => .none
  | n + 1 =>
      let first := c.call services frame []
      if first.ending = .arrived then
        match first.changed? with
        | none => first.times (n + 1)
        | some _ => first.andThen ((c.after first).callTimes services frame n)
      else first

/-- `n` calls are made one after the other. -/
theorem callTimes_eq (c : Callable) (services : X64.Services) (frame : Frame) (n : Nat) :
    c.callTimes services frame n = c.callAll services (List.replicate n (frame, [])) := by
  induction n generalizing c with
  | zero => rfl
  | succ n ih =>
    rw [List.replicate_succ, callTimes, callAll, ← ih]
    split
    · rename_i harrived
      cases hchanged : (c.call services frame []).changed? with
      | some region => rfl
      | none =>
        have hafter : c.after (c.call services frame []) = c := by
          simp only [after, Payload.after, hchanged, Option.getD_none]
        rw [hafter]
        -- behind a call that changes nothing the others are that one, too
        cases n with
        | zero => simp [callTimes, Calls.times, Calls.andThen, Calls.none, hchanged, harrived]
        | succ n =>
          simp [callTimes, Calls.times, Calls.andThen, hchanged, harrived, List.replicate_succ]
    · rfl

end Callable

end Emplace
