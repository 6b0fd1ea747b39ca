import Emplace.Proofs.Framed.Body
import Emplace.Proofs.Region.Succession

/-
  Calling a routine that has a frame of its own.

  The prologue saves the caller's frame pointer below the return address and points it there; the
  epilogue takes it back and returns.  Between them the body runs on registers of which two hold
  something else than they did, but those are none that a body looks at.  So what is left in the
  registers in the end is what the body alone leaves there (`restored`), and the stack holds the two
  words that were put on it, one below the other.

  `runUntil_routine` is the run of the routine from a return address on the stack, step by step, and
  `invoke_of_load` the call of a loaded one.  It leaves a caller who has the same room on his stack
  as before (`Frame.HostsFrame.after`), so calls can follow one another, and as each of them finds
  the same code, only the registers could carry something over from one to the next.  They do not
  where the body sets `rax` (`results_of_calls`).
-/

namespace Emplace

open X64 (Cpu LowRegister Memory Register Registers Services)

/-! ## Room for a frame -/

/-- There is room for the return address and one more word on the caller's stack, and the region lies
    apart from both. -/
structure Frame.HostsFrame (f : Frame) (r : Region) : Prop extends f.Hosts r where
  below_writable : f.memory.admitsStore 8 (f.registers.get LowRegister.rsp - 16) = true
  below_apart : ∀ i, i < 8 →
    r.memory.read (f.registers.get LowRegister.rsp - 16 + BitVec.ofNat 64 i) = none

theorem Frame.idle_hostsFrame {r : Region} (h : r.SparesHost) : Frame.idle.HostsFrame r := by
  refine ⟨Frame.idle_hosts h, by decide, fun i hi => ?_⟩
  have hlow : Frame.idle.registers.get LowRegister.rsp - 16 = 0x7FFF00BFEFF0#64 := by decide
  have hsum : (0x7FFF00BFEFF0#64 + BitVec.ofNat 64 i).toNat = 0x7FFF00BFEFF0 + i := by
    rw [BitVec.toNat_add, BitVec.toNat_ofNat, BitVec.toNat_ofNat]
    omega
  rw [hlow]
  apply h.read_eq_none
  · rw [hsum, hostStart]
    omega
  · rw [hsum, hostStop]
    omega

/-- The word below the return address. -/
theorem Word.sub_sixteen_add (v : Word) : v - 16 + 8 = v - 8 := by bv_omega

/-- The caller's memory with two words on its stack: `m` has the return address there, and `m'` the
    other word as well. -/
structure Frame.Stacked (f : Frame) (r : Region) (word : Word) (m m' : Memory) : Prop where
  store : (r.memory.backedBy f.memory).store (f.registers.get LowRegister.rsp - 8)
    (LittleEndian.encode 8 f.back.toNat) = some m
  store' : m.store (f.registers.get LowRegister.rsp - 16) (LittleEndian.encode 8 word.toNat) =
    some m'
  shows : m.Shows r.memory
  shows' : m'.Shows r.memory
  saved : m'.load 8 (f.registers.get LowRegister.rsp - 16) =
    some (LittleEndian.encode 8 word.toNat)
  back : m'.load 8 (f.registers.get LowRegister.rsp - 16 + 8) =
    some (LittleEndian.encode 8 f.back.toNat)
  read : ∀ a, m'.read a =
    ((LittleEndian.encode 8 word.toNat ++ LittleEndian.encode 8 f.back.toNat)[
      (a - (f.registers.get LowRegister.rsp - 16)).toNat]?).or
        ((r.memory.backedBy f.memory).read a)
  writable : m'.writable = (r.memory.backedBy f.memory).writable

namespace Frame.HostsFrame

variable {f : Frame} {r : Region}

/-- There is room for both words. -/
theorem exists_stacked (hf : f.HostsFrame r) (word : Word) : ∃ m m', f.Stacked r word m m' := by
  have hadmits : (r.memory.backedBy f.memory).admitsStore
      (LittleEndian.encode 8 f.back.toNat).length (f.registers.get LowRegister.rsp - 8) = true := by
    rw [LittleEndian.length_encode, X64.Memory.admitsStore_backedBy hf.stack_apart]
    exact hf.writable
  obtain ⟨m, hstore⟩ : ∃ m, (r.memory.backedBy f.memory).store
      (f.registers.get LowRegister.rsp - 8) (LittleEndian.encode 8 f.back.toNat) = some m :=
    ⟨_, if_pos hadmits⟩
  have hwritable := X64.Memory.writable_of_store hstore
  have hadmits' : m.admitsStore (LittleEndian.encode 8 word.toNat).length
      (f.registers.get LowRegister.rsp - 16) = true := by
    rw [LittleEndian.length_encode, X64.Memory.admitsStore_congr hwritable,
      X64.Memory.admitsStore_backedBy hf.below_apart]
    exact hf.below_writable
  obtain ⟨m', hstore'⟩ : ∃ m', m.store (f.registers.get LowRegister.rsp - 16)
      (LittleEndian.encode 8 word.toNat) = some m' := ⟨_, if_pos hadmits'⟩
  have hshows : m.Shows r.memory := by
    apply (X64.Memory.Shows.backedBy _ _).store hstore
    rw [LittleEndian.length_encode]
    exact hf.stack_apart
  have hshows' : m'.Shows r.memory := by
    apply hshows.store hstore'
    rw [LittleEndian.length_encode]
    exact hf.below_apart
  -- the two words lie side by side
  have hbehind : f.registers.get LowRegister.rsp - 16 +
      BitVec.ofNat 64 (LittleEndian.encode 8 word.toNat).length =
        f.registers.get LowRegister.rsp - 8 := by
    rw [LittleEndian.length_encode]
    exact Word.sub_sixteen_add _
  have hfirst := hstore
  rw [← hbehind] at hfirst
  have hlength : (LittleEndian.encode 8 word.toNat ++
      LittleEndian.encode 8 f.back.toNat).length < Offset.limit := by
    rw [List.length_append, LittleEndian.length_encode, LittleEndian.length_encode]
    decide
  obtain ⟨hsaved, hback⟩ := X64.Memory.load_of_stores hfirst hstore' hlength
  rw [LittleEndian.length_encode] at hsaved
  rw [LittleEndian.length_encode, LittleEndian.length_encode] at hback
  exact ⟨m, m', hstore, hstore', hshows, hshows', hsaved, hback,
    X64.Memory.read_of_stores hfirst hstore',
    (X64.Memory.writable_of_store hstore').trans hwritable⟩

/-- Whoever has kept his stack and his permissions has room for the next call. -/
theorem after (hf : f.HostsFrame r) {cpu : Cpu}
    (hrsp : cpu.get LowRegister.rsp = f.registers.get LowRegister.rsp)
    (hwritable : cpu.memory.writable = (r.memory.backedBy f.memory).writable) :
    (f.after cpu).HostsFrame r := by
  have hrsp' : (f.after cpu).registers.get LowRegister.rsp = f.registers.get LowRegister.rsp := hrsp
  refine ⟨⟨?_, ?_, hf.back_apart⟩, ?_, ?_⟩
  · rw [hrsp']
    show cpu.memory.admitsStore 8 _ = true
    rw [X64.Memory.admitsStore_congr hwritable, X64.Memory.admitsStore_backedBy hf.stack_apart]
    exact hf.writable
  · rw [hrsp']
    exact hf.stack_apart
  · rw [hrsp']
    show cpu.memory.admitsStore 8 _ = true
    rw [X64.Memory.admitsStore_congr hwritable, X64.Memory.admitsStore_backedBy hf.below_apart]
    exact hf.below_writable
  · rw [hrsp']
    exact hf.below_apart

end Frame.HostsFrame

namespace Framed

/-! ## Registers -/

/-- Neither of the frame's registers is one that a body sets. -/
theorem rsp_ne (s : Scratch) : (LowRegister.rsp : Register) ≠ s.low := by cases s <;> decide

theorem rbp_ne (s : Scratch) : (LowRegister.rbp : Register) ≠ s.low := by cases s <;> decide

/-- What the prologue sets and the epilogue restores makes no difference. -/
theorem restored (body : List Command) (rs : Registers) (low mid top : Word) :
    (((run body ((rs.set LowRegister.rsp low).set LowRegister.rbp low)).set
      LowRegister.rsp mid).set LowRegister.rbp (rs.get LowRegister.rbp)).set LowRegister.rsp top =
        (run body rs).set LowRegister.rsp top := by
  rw [run_set rbp_ne, run_set rsp_ne]
  apply Registers.ext_get
  intro r
  simp only [Registers.get_set]
  by_cases hrsp : r = LowRegister.rsp
  · rw [if_pos hrsp, if_pos hrsp]
  · by_cases hrbp : r = LowRegister.rbp
    · subst hrbp
      rw [if_neg hrsp, if_pos rfl, if_neg hrsp, run_get rbp_ne]
    · simp only [if_neg hrsp, if_neg hrbp]

/-- Nor does it make any that the return address was on the stack meanwhile. -/
theorem run_returned (body : List Command) (rs : Registers) (low : Word) :
    (run body (rs.set LowRegister.rsp low)).set LowRegister.rsp (rs.get LowRegister.rsp) =
      run body rs := by
  rw [run_set rsp_ne]
  apply Registers.ext_get
  intro r
  simp only [Registers.get_set]
  by_cases hrsp : r = LowRegister.rsp
  · rw [if_pos hrsp, hrsp, run_get rsp_ne]
  · rw [if_neg hrsp, if_neg hrsp]

/-! ## The run of the routine -/

section

variable {part m m' : Memory} {services : Services} {goal low next flags : Word}
  {rs : Registers} {asked : List X64.WriteCall}

/-- **A body is carried out command by command**, wherever it is carried. -/
theorem runUntil_body {body : List Command} (hshows : m.Shows part)
    (hcode : part.Carries next (code body)) (hgoal : part.read goal = none) :
    Cpu.runUntil services goal ⟨rs, next, flags, m, asked⟩ =
      Cpu.runUntil services goal
        ⟨run body rs, next + BitVec.ofNat 64 (code body).length, flags, m, asked⟩ := by
  induction body generalizing rs next with
  | nil =>
    show Cpu.runUntil services goal ⟨rs, next, flags, m, asked⟩ =
      Cpu.runUntil services goal ⟨rs, next + BitVec.ofNat 64 0, flags, m, asked⟩
    rw [BitVec.add_zero]
  | cons command body ih =>
    rw [code_cons] at hcode
    obtain ⟨hhead, htail⟩ := hcode.append
    let before : Cpu := ⟨rs, next, flags, m, asked⟩
    have hexecute := command.execute services
      (next + BitVec.ofNat 64 command.edit.bytes.length) before
    rw [Cpu.runUntil_of_carries (c := before) hshows hhead command.encodes hgoal hexecute,
      ih htail, Word.add_ofNat, code_cons, List.length_append, run_cons]

/-- The prologue saves the frame pointer and sets it to where it was saved. -/
theorem runUntil_prologue (hrsp : rs.get LowRegister.rsp = low + 8) (hshows : m.Shows part)
    (hpush : part.Carries next [0x55])
    (hmov : part.Carries (next + BitVec.ofNat 64 1) [0x48, 0x89, 0xE5])
    (hgoal : part.read goal = none)
    (hstore : m.store low (LittleEndian.encode 8 (rs.get LowRegister.rbp).toNat) = some m')
    (hshows' : m'.Shows part) :
    Cpu.runUntil services goal ⟨rs, next, flags, m, asked⟩ =
      Cpu.runUntil services goal ⟨(rs.set LowRegister.rsp low).set LowRegister.rbp low,
        next + BitVec.ofNat 64 1 + BitVec.ofNat 64 3, flags, m', asked⟩ := by
  let before : Cpu := ⟨rs, next, flags, m, asked⟩
  let between : Cpu :=
    ⟨rs.set LowRegister.rsp low, next + BitVec.ofNat 64 1, flags, m', asked⟩
  have hsave : before.execute services (next + BitVec.ofNat 64 1) (.push LowRegister.rbp) =
      some between :=
    Cpu.push_of_store (c := { before with next := next + BitVec.ofNat 64 1 }) hrsp hstore
  have hset : between.execute services (next + BitVec.ofNat 64 1 + BitVec.ofNat 64 3)
      (.mov .qword LowRegister.rbp LowRegister.rsp) =
        some ⟨(rs.set LowRegister.rsp low).set LowRegister.rbp low,
          next + BitVec.ofNat 64 1 + BitVec.ofNat 64 3, flags, m', asked⟩ := by
    have hget : between.get LowRegister.rsp = low := by
      show (rs.set LowRegister.rsp low).get LowRegister.rsp = low
      rw [Registers.get_set, if_pos rfl]
    show some (Cpu.assign _ .qword LowRegister.rbp (between.get LowRegister.rsp)) = _
    rw [hget]
    rfl
  rw [Cpu.runUntil_of_carries (c := before) hshows hpush X64.encodes_push_rbp hgoal hsave,
    Cpu.runUntil_of_carries (c := between) hshows' hmov X64.encodes_mov_rbp_rsp hgoal hset]

/-- The epilogue takes two words off the stack and goes where the second one says. -/
theorem runUntil_epilogue {saved : Word} (hrsp : rs.get LowRegister.rsp = low)
    (hshows : m.Shows part) (hpop : part.Carries next [0x5D])
    (hret : part.Carries (next + BitVec.ofNat 64 1) [0xC3]) (hgoal : part.read goal = none)
    (hsaved : m.load 8 low = some (LittleEndian.encode 8 saved.toNat))
    (hback : m.load 8 (low + 8) = some (LittleEndian.encode 8 goal.toNat)) :
    Cpu.runUntil services goal ⟨rs, next, flags, m, asked⟩ =
      some (.arrived, ⟨((rs.set LowRegister.rsp (low + 8)).set LowRegister.rbp saved).set
        LowRegister.rsp (low + 8 + 8), goal, flags, m, asked⟩) := by
  let before : Cpu := ⟨rs, next, flags, m, asked⟩
  let between : Cpu := ⟨(rs.set LowRegister.rsp (low + 8)).set LowRegister.rbp saved,
    next + BitVec.ofNat 64 1, flags, m, asked⟩
  let after : Cpu := ⟨((rs.set LowRegister.rsp (low + 8)).set LowRegister.rbp saved).set
    LowRegister.rsp (low + 8 + 8), goal, flags, m, asked⟩
  have hrestore : before.execute services (next + BitVec.ofNat 64 1) (.pop LowRegister.rbp) =
      some between := by
    have htop : before.memory.load 8 (before.get LowRegister.rsp) =
        some (LittleEndian.encode 8 saved.toNat) := by
      rw [← hsaved, ← hrsp]
      rfl
    show before.pop.bind _ = _
    rw [Cpu.pop_of_load htop]
    show some _ = some between
    congr 1
    show (⟨(rs.set _ (rs.get LowRegister.rsp + 8)).set _ saved, _, flags, m, asked⟩ : Cpu) = between
    rw [hrsp]
  have hget : between.get LowRegister.rsp = low + 8 := by
    show ((rs.set LowRegister.rsp (low + 8)).set LowRegister.rbp saved).get LowRegister.rsp = _
    rw [Registers.get_set, if_neg (by decide), Registers.get_set, if_pos rfl]
  have hreturn : between.execute services
      (next + BitVec.ofNat 64 1 + BitVec.ofNat 64 1) .ret = some after := by
    have htop : between.memory.load 8 (between.get LowRegister.rsp) =
        some (LittleEndian.encode 8 goal.toNat) := by
      rw [hget]
      exact hback
    show between.pop.bind _ = _
    rw [Cpu.pop_of_load htop, hget]
    rfl
  rw [Cpu.runUntil_of_carries (c := before) hshows hpop X64.encodes_pop_rbp hgoal hrestore,
    Cpu.runUntil_of_carries (c := between) hshows hret X64.encodes_ret hgoal hreturn]
  exact Cpu.runUntil_of_next (c := after) rfl services

/-- **The routine runs through** and returns, and its registers are as the body leaves them. -/
theorem runUntil_routine {body : List Command} (hrsp : rs.get LowRegister.rsp = low + 8)
    (hshows : m.Shows part) (hcarries : part.Carries next (image body).bytes)
    (hgoal : part.read goal = none)
    (hstore : m.store low (LittleEndian.encode 8 (rs.get LowRegister.rbp).toNat) = some m')
    (hshows' : m'.Shows part)
    (hsaved : m'.load 8 low = some (LittleEndian.encode 8 (rs.get LowRegister.rbp).toNat))
    (hback : m'.load 8 (low + 8) = some (LittleEndian.encode 8 goal.toNat)) :
    Cpu.runUntil services goal ⟨rs, next, flags, m, asked⟩ =
      some (.arrived, ⟨(run body rs).set LowRegister.rsp (low + 8 + 8), goal, flags, m', asked⟩) := by
  rw [bytes_image] at hcarries
  obtain ⟨hpush, hcarries⟩ := hcarries.append
  obtain ⟨hmov, hcarries⟩ := hcarries.append
  obtain ⟨hbody, hcarries⟩ := hcarries.append
  obtain ⟨hpop, hret⟩ := hcarries.append
  have hlow : (run body ((rs.set LowRegister.rsp low).set LowRegister.rbp low)).get
      LowRegister.rsp = low := by
    rw [run_get rsp_ne, Registers.get_set, if_neg (by decide), Registers.get_set, if_pos rfl]
  rw [runUntil_prologue hrsp hshows hpush hmov hgoal hstore hshows']
  refine (runUntil_body hshows' hbody hgoal).trans ?_
  rw [← restored body rs low (low + 8)]
  exact runUntil_epilogue hlow hshows' hpop hret hgoal hsaved hback

end

/-! ## Calls -/

/-- The processor is back at the caller. -/
structure Returned (body : List Command) (p : Payload) (f : Frame) (arg : Word) (cpu : Cpu) :
    Prop where
  next : cpu.next = f.back
  /-- The registers are as the body alone leaves them. -/
  registers : cpu.registers = run body (passing [arg] f.registers)
  /-- Those that a body does not set are as they were, the stack pointer and the frame pointer among
      them. -/
  kept : ∀ r : Register, (∀ s : Scratch, r ≠ s.low) → cpu.get r = f.registers.get r
  /-- Once the body sets `rax`, the argument is all that counts. -/
  result : body.any Command.setsResult = true →
    cpu.get LowRegister.rax = Framed.result body arg
  /-- The code is where it was. -/
  code : cpu.memory.Carries p.entry (image body).bytes
  region : cpu.memory.Shows p.region.memory
  /-- Below the caller's part of the stack there are two words, the saved frame pointer and the
      return address; all other memory is as it was. -/
  memory : ∀ a, cpu.memory.read a =
    ((LittleEndian.encode 8 (f.registers.get LowRegister.rbp).toNat ++
      LittleEndian.encode 8 f.back.toNat)[(a - (f.registers.get LowRegister.rsp - 16)).toNat]?).or
        ((p.region.memory.backedBy f.memory).read a)
  writable : cpu.memory.writable = (p.region.memory.backedBy f.memory).writable
  writes : cpu.writes = []

variable {body : List Command} {r : Region} {kernel : Kernel} {p : Payload} {f : Frame}

theorem passing_rdi (arg : Word) (rs : Registers) :
    (passing [arg] rs).get LowRegister.rdi = arg := by
  show (rs.set LowRegister.rdi arg).get LowRegister.rdi = arg
  rw [Registers.get_set, if_pos rfl]

/-- An argument is passed in a register that bodies may set. -/
theorem passing_kept {q : Register} (hq : ∀ s : Scratch, q ≠ s.low) (arg : Word)
    (rs : Registers) : (passing [arg] rs).get q = rs.get q := by
  show (rs.set LowRegister.rdi arg).get q = rs.get q
  rw [Registers.get_set]
  exact if_neg (hq .rdi)

/-- **A loaded routine returns from every call**, and leaves things as `Returned` says. -/
theorem invoke_of_load (hr : r.Reachable) (hload : (r.load kernel (image body)).answer = .ok p)
    (services : Services) (hf : f.HostsFrame p.region) (arg : Word) :
    ∃ cpu, Callable.invoke ⟨p, .unary⟩ services f [arg] = (.arrived, some cpu) ∧
      Returned body p f arg cpu := by
  let passed := passing [arg] f.registers
  let rs := passed.set LowRegister.rsp (f.registers.get LowRegister.rsp - 8)
  have hpassed : passed.get LowRegister.rsp = f.registers.get LowRegister.rsp :=
    passing_kept rsp_ne arg f.registers
  have hrsp : rs.get LowRegister.rsp = f.registers.get LowRegister.rsp - 16 + 8 := by
    show (passed.set LowRegister.rsp (f.registers.get LowRegister.rsp - 8)).get _ = _
    rw [Registers.get_set, if_pos rfl, Word.sub_sixteen_add]
  have hrbp : rs.get LowRegister.rbp = f.registers.get LowRegister.rbp := by
    show (passed.set LowRegister.rsp (f.registers.get LowRegister.rsp - 8)).get _ = _
    rw [Registers.get_set, if_neg (by decide)]
    exact passing_kept rbp_ne arg f.registers
  have htop : f.registers.get LowRegister.rsp - 16 + 8 + 8 = f.registers.get LowRegister.rsp := by
    rw [Word.sub_sixteen_add, BitVec.sub_add_cancel]
  have hcarries := Region.carries_of_load hr hload
  obtain ⟨m, m', hstacked⟩ := hf.exists_stacked (rs.get LowRegister.rbp)
  obtain ⟨m₀, hstore, henter⟩ := Callable.exists_enter (c := ⟨p, .unary⟩) hf.toHosts [arg]
  obtain rfl : m₀ = m := Option.some.inj (hstore.symm.trans hstacked.store)
  let left : Cpu := ⟨run body passed, f.back, 0x202#64, m', []⟩
  have hrun : Cpu.runUntil services f.back ⟨rs, p.entry, 0x202#64, m₀, []⟩ =
      some (.arrived, left) := by
    rw [runUntil_routine hrsp hstacked.shows hcarries hf.back_apart hstacked.store'
      hstacked.shows' hstacked.saved hstacked.back, htop, ← hpassed, run_returned]
  have hinvoke : Callable.invoke ⟨p, .unary⟩ services f [arg] = (.arrived, some left) := by
    have hentered : Callable.enter ⟨p, .unary⟩ f [arg] =
        some ⟨rs, p.entry, 0x202#64, m₀, []⟩ := henter
    simp only [Callable.invoke, hentered, hrun]
  have hkept : ∀ q : Register, (∀ s : Scratch, q ≠ s.low) → left.get q = f.registers.get q :=
    fun q hq => (run_get hq body passed).trans (passing_kept hq arg f.registers)
  refine ⟨left, hinvoke, rfl, rfl, hkept, ?_, hstacked.shows'.carries hcarries, hstacked.shows', ?_,
    hstacked.writable, rfl⟩
  · intro hsets
    show (run body passed).get LowRegister.rax = _
    rw [run_eq_result hsets, passing_rdi]
  · rw [← hrbp]
    exact hstacked.read

/-- **Call after call**, the result is that of the argument alone, if the body sets one. -/
theorem results_of_calls (hr : r.Reachable)
    (hload : (r.load kernel (image body)).answer = .ok p)
    (hsets : body.any Command.setsResult = true) (services : Services)
    (hf : f.HostsFrame p.region) (args : List Word) :
    (Callable.calls ⟨p, .unary⟩ services f (args.map fun arg => [arg])).map
        (fun made => (made.1, made.2.map fun cpu => cpu.get LowRegister.rax)) =
      args.map fun arg => (.arrived, some (result body arg)) := by
  -- the frame is generalized, for each call starts where the one before has left the processor
  induction args generalizing f with
  | nil => rfl
  | cons arg args ih =>
    obtain ⟨cpu, hinvoke, hreturned⟩ := invoke_of_load hr hload services hf arg
    have hnext := hf.after (hreturned.kept _ rsp_ne) hreturned.writable
    -- nor has it changed the code
    have hchanged : (Callable.call ⟨p, .unary⟩ services f [arg]).changed? = none := by
      obtain ⟨-, hholds⟩ := Region.holds_of_load hr hload
      unfold Callable.call
      rw [hinvoke]
      exact Region.changedBy?_of_shows hholds.fits hreturned.region
    rw [List.map_cons, List.map_cons, Callable.calls, hinvoke,
      Callable.after_of_changed? hchanged]
    show (Cpu.Ending.arrived, some (cpu.get LowRegister.rax)) :: _ = _
    rw [hreturned.result hsets]
    exact congrArg _ (ih hnext)

/-! ## All together -/

/-- **Prologue and epilogue form a frame** around every body: whatever region it is loaded into, and
    whoever calls it, it returns with its result and everything else as it was. -/
theorem framed_returns (body : List Command) :
    (∀ (kernel : Kernel) (ticket size : Nat) (strategy : Strategy) (r : Region)
      (events : List Event), Region.acquire kernel ticket size strategy = (.ok r, events) →
      (image body).size ≤ size → (strategy = .staged → kernel.permitExecute ticket = .ok ()) →
        ∃ p, (r.load kernel (image body)).answer = .ok p) ∧
    ∀ (r : Region) (kernel : Kernel) (p : Payload), r.Reachable →
      (r.load kernel (image body)).answer = .ok p →
        (∃ events, Callable.bind p .unary = (.ok ⟨p, .unary⟩, events)) ∧
        ∀ (services : Services) (f : Frame), f.HostsFrame p.region →
          (∀ arg, ∃ cpu, Callable.invoke ⟨p, .unary⟩ services f [arg] = (.arrived, some cpu) ∧
            Returned body p f arg cpu) ∧
          (body.any Command.setsResult = true → ∀ args : List Word,
            (Callable.calls ⟨p, .unary⟩ services f (args.map fun arg => [arg])).map
                (fun made => (made.1, made.2.map fun cpu => cpu.get LowRegister.rax)) =
              args.map fun arg => (.arrived, some (result body arg))) := by
  constructor
  · intro kernel ticket size strategy r events hacquire hsize hpermit
    obtain ⟨p, hload⟩ :=
      Region.load_of_acquire hacquire hpermit (pending_image body) hsize
    exact ⟨p, by rw [hload]⟩
  · intro r kernel p hr hload
    obtain ⟨hlength, -⟩ := Region.stored_of_load hr hload
    have hshort := length_lt_size body
    have hne : p.length ≠ 0 := by omega
    refine ⟨⟨_, if_neg hne⟩, fun services f hf => ⟨?_, ?_⟩⟩
    · exact invoke_of_load hr hload services hf
    · exact fun hsets => results_of_calls hr hload hsets services hf

/-- One more than the argument, called twice by an idle host. -/
theorem framed_returns_successor :
    let successor : List Command := [.lea 1]
    (image successor).bytes =
      [0x55, 0x48, 0x89, 0xE5, 0x48, 0x8D, 0x47, 0x01, 0x5D, 0xC3] ∧
    ∃ (r : Region) (p : Payload), r.Reachable ∧
      (r.load Kernel.standard (image successor)).answer = .ok p ∧
      (Callable.calls ⟨p, .unary⟩ (Kernel.standard.services fun _ => false) Frame.idle
          [[41], [-1]]).map
          (fun made => (made.1, made.2.map fun cpu => cpu.get LowRegister.rax)) =
        [(.arrived, some 42), (.arrived, some 0)] := by
  intro successor
  have hsize : (image successor).size + pageSize < Kernel.space := by decide
  obtain ⟨r, events, p, hacquire, hload⟩ :=
    Region.exists_load_standard (pending_image successor) hsize
  have hr : r.Reachable := .acquired hacquire
  have hspares : p.region.SparesHost :=
    (Region.sparesHost_of_acquire Kernel.standard_sparesHost hacquire).load hr hload
  obtain ⟨-, hcalls⟩ := ((framed_returns successor).2 r Kernel.standard p hr hload).2
    (Kernel.standard.services fun _ => false) Frame.idle (Frame.idle_hostsFrame hspares)
  refine ⟨rfl, r, p, hr, hload, ?_⟩
  exact hcalls rfl [41, -1]

end Framed

end Emplace
