import Emplace.Proofs.X64.Storing

/-
  What the processor notices of the permission to write.

  Memory with other permissions to write is the same memory but for what may be stored
  (`Memory.permitting`).  So a processor notices the difference by storing where only one of the two
  memories lets it, and in no other way (`Cpu.execute_permitting`).

  `Cpu.Bars p part` says that the permissions `p` bar a part of memory: beside it they are the
  processor's own.  A processor that is discreet towards the part has nothing to notice then, so
  each step is the same under both (`Cpu.step_permitting`), and hence so is each run
  (`Cpu.runUntil_permitting`), whether it ends or not.
-/

namespace Emplace.X64

/-! ## Memory -/

namespace Memory

/-- The memory with other permissions to write. -/
def permitting (m : Memory) (p : Word → Bool) : Memory := { m with writable := p }

@[simp] theorem read_permitting (m : Memory) (p : Word → Bool) : (m.permitting p).read = m.read :=
  rfl

@[simp] theorem load_permitting (m : Memory) (p : Word → Bool) (n : Nat) (a : Word) :
    (m.permitting p).load n a = m.load n a := by
  induction n generalizing a with
  | zero => rfl
  | succ n ih => rw [load_succ, load_succ, read_permitting, ih]

@[simp] theorem fetch_permitting (m : Memory) (p : Word → Bool) (n : Nat) (a : Word) :
    (m.permitting p).fetch n a = m.fetch n a := by
  induction n generalizing a with
  | zero => rfl
  | succ n ih =>
    rw [fetch, fetch, read_permitting]
    cases m.read a with
    | none => rfl
    | some b =>
      show (if m.executable a then _ else _) = _
      rw [ih]

/-- A store is the same where both memories admit it or neither does. -/
theorem store_permitting {m : Memory} {p : Word → Bool} {a : Word} {bytes : List UInt8}
    (h : (m.permitting p).admitsStore bytes.length a = m.admitsStore bytes.length a) :
    (m.permitting p).store a bytes = (m.store a bytes).map fun m => m.permitting p := by
  unfold store
  rw [h]
  split <;> rfl

end Memory

/-! ## Instructions -/

namespace Cpu

variable {services : Services} {goal : Word} {part : Memory} {c c' : Cpu} {p : Word → Bool}

/-- The processor with other permissions to write. -/
def permitting (c : Cpu) (p : Word → Bool) : Cpu := { c with memory := c.memory.permitting p }

theorem load_permitting (c : Cpu) (p : Word → Bool) (w : OperandWidth) (a : Word) :
    (c.permitting p).load w a = c.load w a := by
  rw [load, load]
  show ((c.memory.permitting p).load _ _).map _ = _
  rw [Memory.load_permitting]

theorem pop_permitting (c : Cpu) (p : Word → Bool) :
    (c.permitting p).pop = c.pop.map fun r => (r.1, r.2.permitting p) := by
  rw [pop, pop]
  show ((c.memory.permitting p).load 8 (c.get LowRegister.rsp)).bind _ = _
  rw [Memory.load_permitting]
  cases c.memory.load 8 (c.get LowRegister.rsp) <;> rfl

theorem push_permitting {v : Word}
    (h : (c.memory.permitting p).admitsStore 8 (c.get LowRegister.rsp - 8) =
      c.memory.admitsStore 8 (c.get LowRegister.rsp - 8)) :
    (c.permitting p).push v = (c.push v).map fun c => c.permitting p := by
  have hadmits := h
  rw [← LittleEndian.length_encode 8 v.toNat] at hadmits
  have hstore := Memory.store_permitting hadmits
  rw [push, push]
  show ((c.memory.permitting p).store (c.get LowRegister.rsp - 8) _).bind _ = _
  rw [hstore]
  cases c.memory.store (c.get LowRegister.rsp - 8) (LittleEndian.encode 8 v.toNat) <;> rfl

theorem store_permitting {w : OperandWidth} {a v : Word}
    (h : (c.memory.permitting p).admitsStore w.bytes a = c.memory.admitsStore w.bytes a) :
    (c.permitting p).store w a v = (c.store w a v).map fun c => c.permitting p := by
  have hadmits := h
  rw [← LittleEndian.length_encode w.bytes v.toNat] at hadmits
  have hstore := Memory.store_permitting hadmits
  rw [store, store]
  show ((c.memory.permitting p).store a _).map _ = _
  rw [hstore]
  cases c.memory.store a (LittleEndian.encode w.bytes v.toNat) <;> rfl

theorem write_permitting (c : Cpu) (p : Word → Bool) (accepts : Descriptors) (stop : Word) :
    (c.permitting p).write accepts stop = (c.write accepts stop).permitting p := by
  unfold write permitting
  simp only [Memory.load_permitting]
  rfl

theorem systemCall_permitting (hplain : services.Plain c.registers) (stop : Word) :
    (c.permitting p).systemCall services stop =
      (c.systemCall services stop).map fun c => c.permitting p := by
  unfold systemCall
  show (if (c.get LowRegister.rax).setWidth 32 = 1#32 then _ else _) = _
  split
  · rw [write_permitting]
    rfl
  · rename_i hother
    have hnone := hplain.resolve_left hother
    rw [hnone, hnone]
    rfl

/-- **An instruction is the same** when its store is admitted by both memories or by neither. -/
theorem execute_permitting {stop : Word} {i : Instruction}
    (hstores : ∀ a n, c.target? stop i = some (a, n) →
      (c.memory.permitting p).admitsStore n a = c.memory.admitsStore n a)
    (hplain : i = .syscall → services.Plain c.registers) :
    (c.permitting p).execute services stop i =
      (c.execute services stop i).map fun c => c.permitting p := by
  cases i with
  | store _ _ _ | storeImm _ _ _ =>
    exact store_permitting (c := { c with next := stop }) (hstores _ _ rfl)
  | lockInc w a =>
    show ((c.permitting p).load w (c.addressOf stop a)).bind _ =
      ((c.load w (c.addressOf stop a)).bind _).map _
    rw [load_permitting]
    cases c.load w (c.addressOf stop a) with
    | none => rfl
    | some v =>
      exact store_permitting
        (c := { c with next := stop, flags := (incStatus w c.flags v).into c.flags })
        (hstores _ _ rfl)
  | push r => exact push_permitting (c := { c with next := stop }) (hstores _ _ rfl)
  | call d =>
    exact push_permitting (c := { c with next := stop + BitVec.ofInt 64 d }) (hstores _ _ rfl)
  | callReg r => exact push_permitting (c := { c with next := c.get r }) (hstores _ _ rfl)
  | callMem a =>
    show ((c.permitting p).load .qword (c.addressOf stop a)).bind _ =
      ((c.load .qword (c.addressOf stop a)).bind _).map _
    rw [load_permitting]
    cases c.load .qword (c.addressOf stop a) with
    | none => rfl
    | some v => exact push_permitting (c := { c with next := v }) (hstores _ _ rfl)
  | syscall => exact systemCall_permitting (hplain rfl) stop
  | load w r a =>
    show ((c.permitting p).load w (c.addressOf stop a)).bind _ =
      ((c.load w (c.addressOf stop a)).bind _).map _
    rw [load_permitting]
    cases c.load w (c.addressOf stop a) <;> rfl
  | cmpByte a v =>
    show ((c.memory.permitting p).load 1 (c.addressOf stop a)).bind _ =
      ((c.memory.load 1 (c.addressOf stop a)).bind _).map _
    rw [Memory.load_permitting]
    cases c.memory.load 1 (c.addressOf stop a) <;> rfl
  | jmpMem a =>
    show ((c.permitting p).load .qword (c.addressOf stop a)).map _ =
      ((c.load .qword (c.addressOf stop a)).map _).map _
    rw [load_permitting]
    cases c.load .qword (c.addressOf stop a) <;> rfl
  | pop _ | ret | retPop _ =>
    show (c.permitting p).pop.bind _ = (c.pop.bind _).map _
    rw [pop_permitting]
    cases c.pop <;> rfl
  | leave =>
    show ((c.set LowRegister.rsp (c.get LowRegister.rbp)).permitting p).pop.bind _ =
      ((c.set LowRegister.rsp (c.get LowRegister.rbp)).pop.bind _).map _
    rw [pop_permitting]
    cases (c.set LowRegister.rsp (c.get LowRegister.rbp)).pop <;> rfl
  | nop | movImm | mov | lea | xor | jmp | jmpReg | jcc => rfl
  | hlt | int3 | ud2 | sysret | retFar => rfl

/-! ## Steps and runs -/

theorem upcoming?_permitting (c : Cpu) (p : Word → Bool) :
    (c.permitting p).upcoming? = c.upcoming? := by
  unfold upcoming? permitting
  simp only [Memory.fetch_permitting]

/-- The permissions are the processor's own beside the part, and none are added within. -/
structure Bars (p : Word → Bool) (part : Memory) (c : Cpu) : Prop where
  beside : ∀ a, part.read a = none → p a = c.memory.writable a
  within : ∀ a, p a = true → c.memory.writable a = true

/-- The one store that is admitted is beside the part. -/
theorem Bars.admitsStore_eq (h : Bars p part c) {n : Nat} {a : Word}
    (hbeside : c.memory.admitsStore n a = true →
      ∀ j, j < n → part.read (a + BitVec.ofNat 64 j) = none) :
    (c.memory.permitting p).admitsStore n a = c.memory.admitsStore n a := by
  rw [Bool.eq_iff_iff]
  constructor
  · intro hadmits
    rw [Memory.admitsStore_iff] at hadmits ⊢
    exact fun j hj => h.within _ (hadmits j hj)
  · intro hadmits
    have hapart := hbeside hadmits
    rw [Memory.admitsStore_iff] at hadmits ⊢
    intro j hj
    show p _ = true
    rw [h.beside _ (hapart j hj)]
    exact hadmits j hj

/-- **A discreet step is the same** under permissions that bar the part. -/
theorem step_permitting (h : Discreet services part c) (hbars : Bars p part c) :
    (c.permitting p).step services = (c.step services).map fun c => c.permitting p := by
  rw [step_eq, step_eq, upcoming?_permitting]
  cases hupcoming : c.upcoming? with
  | none => rfl
  | some upcoming =>
    obtain ⟨i, stop⟩ := upcoming
    apply execute_permitting
    · exact fun a n htarget => hbars.admitsStore_eq (h.stores i stop a n hupcoming htarget)
    · rintro rfl
      exact h.asks stop hupcoming

/-- They still bar it after the step. -/
theorem Bars.step (hbars : Bars p part c) (h : Discreet services part c)
    (hstep : c.step services = some c') : Bars p part c' := by
  have hwritable : c'.memory.writable = c.memory.writable := by
    rcases h.memory_of_step hstep with hsame | ⟨a, bytes, hstore, -⟩
    · rw [hsame]
    · exact Memory.writable_of_store hstore
  exact ⟨fun a ha => by rw [hwritable, hbars.beside a ha],
    fun a ha => by rw [hwritable, hbars.within a ha]⟩

theorem runFor_permitting (h : Throughout services goal (Discreet services part) c)
    (hbars : Bars p part c) (n : Nat) :
    (c.permitting p).runFor services goal n =
      (c.runFor services goal n).map fun r => (r.1, r.2.permitting p) := by
  induction n generalizing c with
  | zero => rfl
  | succ n ih =>
    rw [runFor, runFor]
    show (if c.next = goal then _ else _) = _
    by_cases hnext : c.next = goal
    · rw [if_pos hnext, if_pos hnext]
      rfl
    · have hhere := h.here hnext
      rw [if_neg hnext, if_neg hnext, step_permitting hhere hbars]
      cases hstep : c.step services with
      | none => rfl
      | some c' => exact ih (h.step hnext hstep) (hbars.step hhere hstep)

/-- **A run that is discreet throughout is the same** under permissions that bar the part. -/
theorem runUntil_permitting (h : Throughout services goal (Discreet services part) c)
    (hbars : Bars p part c) :
    (c.permitting p).runUntil services goal =
      (c.runUntil services goal).map fun r => (r.1, r.2.permitting p) := by
  apply Option.ext
  intro r
  rw [runUntil_eq_some_iff, Option.map_eq_some_iff]
  constructor
  · rintro ⟨n, hn⟩
    rw [runFor_permitting h hbars, Option.map_eq_some_iff] at hn
    obtain ⟨r', hn, hr⟩ := hn
    exact ⟨r', runUntil_of_runFor hn, hr⟩
  · rintro ⟨r', hrun, hr⟩
    obtain ⟨n, hn⟩ := runUntil_eq_some_iff.mp hrun
    refine ⟨n, ?_⟩
    rw [runFor_permitting h hbars, hn]
    exact congrArg some hr

end Cpu

end Emplace.X64
