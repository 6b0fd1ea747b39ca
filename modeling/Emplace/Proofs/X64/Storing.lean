import Emplace.Proofs.X64.Carried

/-
  What running code stores.

  An instruction stores in one place at most, and where that is can be told before it is carried
  out (`Cpu.target?`).  Nothing else changes memory (`Cpu.memory_of_execute`), but for the services
  of the kernel: those other than `write` may do as they like.

  1. **Discretion.**  A part of memory stays as it is while the processor is `Discreet`: its next
     instruction stores nothing there, and asks for no service but `write`.  If that is so at each
     state of a run (`Cpu.Throughout`), the run leaves the part as it was (`Cpu.Throughout.shows`).

  2. **Seals.**  A part that cannot be written stays as it is whatever the processor does, as long
     as the services keep to that (`Memory.Seals.runUntil`).
-/

namespace Emplace.X64

/-- A system call from these registers asks for `write`, or no other service ever comes back. -/
def Services.Plain (services : Services) (rs : Registers) : Prop :=
  (rs.get LowRegister.rax).setWidth 32 = 1#32 ∨ ∀ c, services.serve c = none

/-- What was stored could be. -/
theorem Memory.admitsStore_of_store {m m' : Memory} {a : Word} {bytes : List UInt8}
    (h : m.store a bytes = some m') : m.admitsStore bytes.length a = true := by
  unfold store at h
  split at h
  · assumption
  · cases h

/-- Storing changes no permission. -/
theorem Memory.writable_of_store {m m' : Memory} {a : Word} {bytes : List UInt8}
    (h : m.store a bytes = some m') : m'.writable = m.writable := by
  unfold store at h
  split at h
  · obtain rfl := Option.some.inj h
    rfl
  · cases h

namespace Cpu

variable {services : Services} {goal : Word} {part : Memory} {c c' : Cpu}

/-! ## What changes memory -/

/-- Where an instruction that ends at `stop` stores, and how many bytes. -/
def target? (c : Cpu) (stop : Word) : Instruction → Option (Word × Nat)
  | .store w a _ => some (c.addressOf stop a, w.bytes)
  | .storeImm w a _ => some (c.addressOf stop a, w.bytes)
  | .lockInc w a => some (c.addressOf stop a, w.bytes)
  | .push _ => some (c.get LowRegister.rsp - 8, 8)
  | .call _ => some (c.get LowRegister.rsp - 8, 8)
  | .callReg _ => some (c.get LowRegister.rsp - 8, 8)
  | .callMem _ => some (c.get LowRegister.rsp - 8, 8)
  | _ => none

theorem memory_of_pop {v : Word} (h : c.pop = some (v, c')) : c'.memory = c.memory := by
  obtain ⟨bytes, -, hc'⟩ := Option.bind_eq_some_iff.mp h
  obtain ⟨-, rfl⟩ := Prod.mk.inj (Option.some.inj hc')
  rfl

theorem store_of_push {v : Word} (h : c.push v = some c') :
    c.memory.store (c.get LowRegister.rsp - 8) (LittleEndian.encode 8 v.toNat) =
      some c'.memory := by
  obtain ⟨m, hstore, hc'⟩ := Option.bind_eq_some_iff.mp h
  obtain rfl := Option.some.inj hc'
  exact hstore

theorem store_of_store {w : OperandWidth} {a v : Word} (h : c.store w a v = some c') :
    c.memory.store a (LittleEndian.encode w.bytes v.toNat) = some c'.memory := by
  obtain ⟨m, hstore, rfl⟩ := Option.map_eq_some_iff.mp h
  exact hstore

/-- A service that comes back from a plain system call is `write`. -/
theorem systemCall_eq_write {stop : Word} (hplain : services.Plain c.registers)
    (h : c.systemCall services stop = some c') : c' = c.write services.accepts stop := by
  unfold systemCall at h
  split at h
  · exact (Option.some.inj h).symm
  · rename_i hother
    have hnone := hplain.resolve_left hother (c.calling stop)
    rw [hnone] at h
    cases h

/-- **Memory is changed by a store to the target**, and in no other way. -/
theorem memory_of_execute {stop : Word} {i : Instruction}
    (h : c.execute services stop i = some c')
    (hplain : i = .syscall → services.Plain c.registers) :
    c'.memory = c.memory ∨ ∃ a bytes, c.target? stop i = some (a, List.length bytes) ∧
      c.memory.store a bytes = some c'.memory := by
  -- what is put on the stack, and what is stored elsewhere
  have hpush : ∀ (next v : Word), { c with next := next }.push v = some c' →
      ∃ bytes, (8 : Nat) = List.length bytes ∧
        c.memory.store (c.get LowRegister.rsp - 8) bytes = some c'.memory := by
    intro next v hpush
    exact ⟨_, (LittleEndian.length_encode _ _).symm,
      store_of_push (c := { c with next := next }) hpush⟩
  have hstore : ∀ (next flags : Word) (w : OperandWidth) (a v : Word),
      { c with next := next, flags := flags }.store w a v = some c' →
      ∃ bytes, w.bytes = List.length bytes ∧ c.memory.store a bytes = some c'.memory := by
    intro next flags w a v hstore
    exact ⟨_, (LittleEndian.length_encode _ _).symm,
      store_of_store (c := { c with next := next, flags := flags }) hstore⟩
  cases i with
  | store w a _ | storeImm w a _ =>
    obtain ⟨bytes, hlen, hbytes⟩ := hstore stop c.flags w _ _ h
    exact .inr ⟨_, bytes, by rw [target?, hlen], hbytes⟩
  | lockInc w a =>
    obtain ⟨v, -, hv⟩ := Option.bind_eq_some_iff.mp h
    obtain ⟨bytes, hlen, hbytes⟩ := hstore stop _ w _ _ hv
    exact .inr ⟨_, bytes, by rw [target?, hlen], hbytes⟩
  | push r =>
    obtain ⟨bytes, hlen, hbytes⟩ := hpush stop _ h
    exact .inr ⟨_, bytes, by rw [target?, hlen], hbytes⟩
  | call _ | callReg _ =>
    obtain ⟨bytes, hlen, hbytes⟩ := hpush _ stop h
    exact .inr ⟨_, bytes, by rw [target?, hlen], hbytes⟩
  | callMem a =>
    obtain ⟨v, -, hv⟩ := Option.bind_eq_some_iff.mp h
    obtain ⟨bytes, hlen, hbytes⟩ := hpush _ stop hv
    exact .inr ⟨_, bytes, by rw [target?, hlen], hbytes⟩
  | syscall =>
    obtain rfl := systemCall_eq_write (hplain rfl) h
    exact .inl rfl
  | load w r a =>
    obtain ⟨v, -, hc'⟩ := Option.bind_eq_some_iff.mp h
    obtain rfl := Option.some.inj hc'
    exact .inl rfl
  | cmpByte a v =>
    obtain ⟨bytes, -, hc'⟩ := Option.bind_eq_some_iff.mp h
    obtain rfl := Option.some.inj hc'
    exact .inl rfl
  | jmpMem a =>
    obtain ⟨v, -, rfl⟩ := Option.map_eq_some_iff.mp h
    exact .inl rfl
  | pop _ | ret | retPop _ =>
    obtain ⟨⟨v, c₁⟩, hpop, hc'⟩ := Option.bind_eq_some_iff.mp h
    obtain rfl := Option.some.inj hc'
    have hsame : c₁.memory = c.memory := memory_of_pop hpop
    exact .inl hsame
  | leave =>
    obtain ⟨⟨v, c₁⟩, hpop, hc'⟩ := Option.bind_eq_some_iff.mp h
    obtain rfl := Option.some.inj hc'
    have hsame : c₁.memory = (c.set LowRegister.rsp (c.get LowRegister.rbp)).memory :=
      memory_of_pop hpop
    exact .inl hsame
  -- the others change registers at most, or are not carried out
  | nop | movImm | mov | lea | xor | jmp | jmpReg | jcc =>
    obtain rfl := Option.some.inj h
    exact .inl rfl
  | hlt | int3 | ud2 | sysret | retFar => cases h

/-! ## The next instruction -/

/-- The instruction that the processor stands at, and where it ends. -/
def upcoming? (c : Cpu) : Option (Instruction × Word) :=
  match decode (c.memory.fetch maxLength c.next) with
  | .instruction i length => some (i, c.next.advance length)
  | .bad _ => none

theorem step_eq (services : Services) (c : Cpu) :
    c.step services = c.upcoming?.bind fun (i, stop) => c.execute services stop i := by
  unfold step upcoming?
  cases decode (c.memory.fetch maxLength c.next) <;> rfl

theorem upcoming?_of_carries {bytes : List UInt8} {i : Instruction}
    (hc : c.memory.Carries c.next bytes) (hi : Encodes bytes i) :
    c.upcoming? = some (i, c.next + BitVec.ofNat 64 bytes.length) := by
  obtain ⟨rest, hfetch⟩ := hc.fetch hi.length_le
  rw [upcoming?, hfetch, hi.decode_append, ← Word.advance_eq]

/-- The next instruction stores nothing into this part of memory, and asks for no service but
    `write`.  A store that is not admitted stores nothing. -/
structure Discreet (services : Services) (part : Memory) (c : Cpu) : Prop where
  stores : ∀ i stop a n, c.upcoming? = some (i, stop) → c.target? stop i = some (a, n) →
    c.memory.admitsStore n a = true → ∀ j, j < n → part.read (a + BitVec.ofNat 64 j) = none
  asks : ∀ stop, c.upcoming? = some (.syscall, stop) → services.Plain c.registers

/-- **A discreet step stores beside the part**, if it stores at all. -/
theorem Discreet.memory_of_step (h : Discreet services part c) (hstep : c.step services = some c') :
    c'.memory = c.memory ∨ ∃ a bytes, c.memory.store a bytes = some c'.memory ∧
      ∀ j, j < bytes.length → part.read (a + BitVec.ofNat 64 j) = none := by
  rw [step_eq] at hstep
  obtain ⟨⟨i, stop⟩, hupcoming, hexecute⟩ := Option.bind_eq_some_iff.mp hstep
  have hplain : i = .syscall → services.Plain c.registers := by
    rintro rfl
    exact h.asks stop hupcoming
  rcases memory_of_execute hexecute hplain with hsame | ⟨a, bytes, htarget, hstore⟩
  · exact .inl hsame
  · have hadmits := Memory.admitsStore_of_store hstore
    exact .inr ⟨a, bytes, hstore, h.stores i stop a _ hupcoming htarget hadmits⟩

/-- So it leaves the part as it is. -/
theorem Discreet.shows (h : Discreet services part c) (hshows : c.memory.Shows part)
    (hstep : c.step services = some c') : c'.memory.Shows part := by
  rcases h.memory_of_step hstep with hsame | ⟨a, bytes, hstore, hbeside⟩
  · rw [hsame]
    exact hshows
  · exact hshows.store hstore hbeside

/-! ## Services that spare a part of memory -/

/-- A service other than `write` that the processor asks for next comes back behind the system
    call, if at all, with this part of memory as it is. -/
def Spares (services : Services) (part : Memory) (c : Cpu) : Prop :=
  ∀ stop c', c.upcoming? = some (.syscall, stop) →
    (c.get LowRegister.rax).setWidth 32 ≠ 1#32 → services.serve (c.calling stop) = some c' →
      c'.next = stop ∧ c'.memory.Shows part

/-- The `write` service spares all memory. -/
theorem Spares.systemCall {stop : Word} (h : c.Spares services part) (hshows : c.memory.Shows part)
    (hupcoming : c.upcoming? = some (.syscall, stop)) (hcall : c.systemCall services stop = some c') :
    c'.next = stop ∧ c'.memory.Shows part := by
  unfold Cpu.systemCall at hcall
  split at hcall
  · obtain rfl := Option.some.inj hcall
    exact ⟨rfl, hshows⟩
  · exact h stop c' hupcoming ‹_› hcall

/-- A service that the processor asks for next comes back. -/
def Answered (services : Services) (c : Cpu) : Prop :=
  ∀ stop, c.upcoming? = some (.syscall, stop) → ∃ c', c.systemCall services stop = some c'

/-! ## All states of a run -/

/-- What every step keeps, a run keeps, by induction on its steps. -/
theorem runUntil_keeps {P : Cpu → Prop}
    (hkeeps : ∀ c c', c.next ≠ goal → c.step services = some c' → P c → P c') (h : P c)
    {ending : Ending} (hrun : c.runUntil services goal = some (ending, c')) : P c' := by
  obtain ⟨n, hn⟩ := runUntil_eq_some_iff.mp hrun
  clear hrun
  induction n generalizing c with
  | zero => cases hn
  | succ n ih =>
    rw [runFor] at hn
    by_cases hnext : c.next = goal
    · rw [if_pos hnext] at hn
      obtain ⟨-, rfl⟩ := Prod.mk.inj (Option.some.inj hn)
      exact h
    · rw [if_neg hnext] at hn
      cases hstep : c.step services with
      | none =>
        rw [hstep] at hn
        obtain ⟨-, rfl⟩ := Prod.mk.inj (Option.some.inj hn)
        exact h
      | some c₁ =>
        rw [hstep] at hn
        exact ih (hkeeps c c₁ hnext hstep h) hn

/-- A run to `goal` comes from one state to the other. -/
inductive Comes (services : Services) (goal : Word) : Cpu → Cpu → Prop
  | refl (c : Cpu) : Comes services goal c c
  | step {c c₁ c' : Cpu} (hnext : c.next ≠ goal) (hstep : c.step services = some c₁)
      (hrest : Comes services goal c₁ c') : Comes services goal c c'

/-- The property holds wherever a run to `goal` comes before it is there. -/
def Throughout (services : Services) (goal : Word) (P : Cpu → Prop) (c : Cpu) : Prop :=
  ∀ c', Comes services goal c c' → c'.next ≠ goal → P c'

namespace Throughout

variable {P : Cpu → Prop}

theorem here (h : Throughout services goal P c) (hnext : c.next ≠ goal) : P c := h c (.refl c) hnext

theorem step (h : Throughout services goal P c) (hnext : c.next ≠ goal)
    (hstep : c.step services = some c') : Throughout services goal P c' :=
  fun c'' hcomes => h c'' (.step hnext hstep hcomes)

/-- A run that is at its goal has no states before it. -/
theorem of_next (h : c.next = goal) : Throughout services goal P c := by
  intro c' hcomes hnext
  cases hcomes with
  | refl => exact absurd h hnext
  | step hne => exact absurd h hne

theorem of_step (hstep : c.step services = some c') (hhere : P c)
    (hrest : Throughout services goal P c') : Throughout services goal P c := by
  intro c'' hcomes hne
  cases hcomes with
  | refl => exact hhere
  | step _ hstep' hcomes =>
    obtain rfl := Option.some.inj (hstep.symm.trans hstep')
    exact hrest c'' hcomes hne

/-- **A run that is discreet throughout leaves the part as it was.** -/
theorem shows (h : Throughout services goal (Discreet services part) c)
    (hshows : c.memory.Shows part) {ending : Ending}
    (hrun : c.runUntil services goal = some (ending, c')) : c'.memory.Shows part := by
  have hkeeps : ∀ c c', c.next ≠ goal → c.step services = some c' →
      Throughout services goal (Discreet services part) c ∧ c.memory.Shows part →
      Throughout services goal (Discreet services part) c' ∧ c'.memory.Shows part := by
    rintro c c' hnext hstep ⟨h, hshows⟩
    exact ⟨h.step hnext hstep, (h.here hnext).shows hshows hstep⟩
  exact (runUntil_keeps hkeeps ⟨h, hshows⟩ hrun).2

end Throughout

end Cpu

/-! ## Parts that cannot be written -/

/-- The memory shows the part, and no byte of it may be written. -/
structure Memory.Seals (m part : Memory) : Prop where
  shows : m.Shows part
  barred : ∀ a, part.read a ≠ none → m.writable a = false

/-- What the processor could not store, no service stores for it, nor does one permit it. -/
def Services.Protects (services : Services) : Prop :=
  ∀ (part : Memory) (c c' : Cpu), c.memory.Seals part → services.serve c = some c' →
    c'.memory.Seals part

namespace Memory.Seals

variable {services : Services} {m m' part : Memory} {c c' : Cpu}

/-- Whatever is stored lies beside a sealed part. -/
theorem store (h : m.Seals part) {a : Word} {bytes : List UInt8}
    (hstore : m.store a bytes = some m') : m'.Seals part := by
  refine ⟨h.shows.store hstore ?_, ?_⟩
  · intro i hi
    have hwritable := Memory.admitsStore_iff.mp (Memory.admitsStore_of_store hstore) i hi
    cases hread : part.read (a + BitVec.ofNat 64 i) with
    | none => rfl
    | some b =>
      rw [h.barred _ (by rw [hread]; exact Option.some_ne_none b)] at hwritable
      cases hwritable
  · rw [Memory.writable_of_store hstore]
    exact h.barred

/-- **No instruction changes a sealed part**, and neither do services that protect it. -/
theorem step (h : c.memory.Seals part) (hprotects : services.Protects)
    (hstep : c.step services = some c') : c'.memory.Seals part := by
  rw [Cpu.step_eq] at hstep
  obtain ⟨⟨i, stop⟩, -, hexecute⟩ := Option.bind_eq_some_iff.mp hstep
  by_cases hsyscall : i = .syscall
  · subst hsyscall
    have hcall : c.systemCall services stop = some c' := hexecute
    unfold Cpu.systemCall at hcall
    split at hcall
    · obtain rfl := Option.some.inj hcall
      exact h
    · exact hprotects part (c.calling stop) c' h hcall
  · rcases Cpu.memory_of_execute hexecute fun heq => absurd heq hsyscall with
      hsame | ⟨a, bytes, -, hstore⟩
    · rw [hsame]
      exact h
    · exact h.store hstore

/-- Nor does any run. -/
theorem runUntil (h : c.memory.Seals part) (hprotects : services.Protects) {goal : Word}
    {ending : Cpu.Ending} (hrun : c.runUntil services goal = some (ending, c')) :
    c'.memory.Seals part := by
  have hkeeps : ∀ c c' : Cpu, c.next ≠ goal → c.step services = some c' →
      c.memory.Seals part → c'.memory.Seals part :=
    fun _ _ _ hstep h => h.step hprotects hstep
  exact Cpu.runUntil_keeps hkeeps h hrun

end Memory.Seals

end Emplace.X64
