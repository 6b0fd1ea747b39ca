import Emplace.Proofs.Labelled.Simulation
import Emplace.Proofs.Listing.Division

/-
  Whether control stays in the code.

  A listing says that code falls through unless its last instruction is a return or a jump.  That is
  not all there is to it: control also runs off the end of code through a jump that leads there,
  and the listing does not look where jumps lead (`jump_runs_off`).

  1. **Ways of control.**  `Program.Reaches` are the commands that control can come to from the first
     one on, whatever is in registers and memory and whatever the kernel answers.  The number of
     commands stands for the end of the code.

  2. **The exact condition.**  When the last command does not go on with the one behind it, control
     stays among the commands just when no jump leads out that it can come to (`contained_iff`).

  3. **The processor.**  Where the program lies in memory, every step of the processor is one along
     these ways, so it stands at a command until it carries out a return (`stands_at_command`).
     The commands themselves store nothing, but a service that they ask for may overwrite them, or
     come back elsewhere.  So this is said of runs whose services spare the program (`Cpu.Spares`).
-/

namespace Emplace.Labelled

open X64 (Cpu Decoder Emission LowRegister Memory Registers Services WriteCall)

/-! ## The ways of control -/

/-- Whether control goes on with the next command. -/
def Command.goesOn : Command → Bool
  | jmp _ _ => false
  | ret => false
  | _ => true

/-- The number that control goes on with from the command with number `i`, unless it returns. -/
def Command.successor? (i : Nat) : Command → Option Nat
  | jmp _ label => some label
  | ret => none
  | _ => some (i + 1)

namespace Program

/-- Control can come to this number from the first command on. -/
inductive Reaches (p : Program) : Nat → Prop
  | entry : p.Reaches 0
  | step {i j : Nat} {c : Command} :
      p.Reaches i → p[i]? = some c → c.successor? i = some j → p.Reaches j

/-- Control stays among the commands. -/
def Contained (p : Program) : Prop := ∀ i, p.Reaches i → i < p.length

/-- No jump that control can come to leads behind the last command. -/
def JumpsInside (p : Program) : Prop :=
  ∀ i w label, p.Reaches i → p[i]? = some (.jmp w label) → label < p.length

variable {p : Program}

/-- **What keeps control in the code**, when the last command does not let it go on. -/
theorem contained_iff {last : Command} (hlast : p.getLast? = some last)
    (hcloses : last.goesOn = false) : p.Contained ↔ p.JumpsInside := by
  constructor
  · intro h i w label hi hc
    exact h label (.step hi hc rfl)
  · intro h i hi
    induction hi with
    | entry =>
      have hne : p ≠ [] := by
        rintro rfl
        cases hlast
      exact List.length_pos_iff.mpr hne
    | @step i j c hi hc hj ih =>
      cases c with
      | jmp w label =>
        obtain rfl := Option.some.inj hj
        exact h i w label hi hc
      | ret => cases hj
      | _ =>
        obtain rfl := Option.some.inj hj
        -- a command that goes on is not the last one
        have hnot : i + 1 ≠ p.length := by
          intro hend
          rw [List.getLast?_eq_getElem?, ← hend, Nat.add_sub_cancel, hc] at hlast
          obtain rfl := Option.some.inj hlast
          cases hcloses
        omega

/-- The listing of code that was written and resolved falls through unless the last command does not
    go on. -/
theorem fallsThrough_relocated_iff {decode : Decoder} (hdecode : decode.ReadsBack)
    {rest? : Option (List UInt8 × List Edit)} {target? : Site → Option Nat} {image : Image}
    (hsize : (Draft.ofEdits (Draft.writing p.emissions rest?)).size < Offset.limit)
    (h : Image.Relocated (Draft.ofEdits (Draft.writing p.emissions rest?)).finish target? image) :
    Listing.fallsThrough (Listing.ofImage decode image) = false ↔
      ∃ last, p.getLast? = some last ∧ last.goesOn = false := by
  have hget : p.emissions.getLast? = p.getLast?.map Command.emission := List.getLast?_map
  rw [Listing.ofImage_relocated hdecode hsize h, Listing.fallsThrough_flatMap, hget]
  cases p.getLast? with
  | none => simp
  | some last =>
    cases last with
    | jmp w label => cases w <;> simp [Command.emission, Command.goesOn]
    | _ => simp [Command.emission, Command.goesOn]

/-! ## Offsets of commands -/

/-- The commands lie before the end of the code. -/
theorem offsetOf_lt {i : Nat} (hi : i < p.length) : p.offsetOf i < Emission.extent p.emissions := by
  have hc : p[i]? = some p[i] := List.getElem?_eq_getElem hi
  have hpos := p[i].emission.length_pos
  have hsucc := offsetOf_succ hc
  have hsplit : Emission.extent p.emissions =
      p.offsetOf (i + 1) + Emission.extent (p.emissions.drop (i + 1)) := by
    rw [offsetOf, ← Emission.extent_append, List.take_append_drop]
  omega

/-- Behind them is the end of the code. -/
theorem offsetOf_of_le {i : Nat} (hi : p.length ≤ i) :
    p.offsetOf i = Emission.extent p.emissions := by
  have hlength : p.emissions.length ≤ i := by
    rw [emissions, List.length_map]
    exact hi
  rw [offsetOf, List.take_of_length_le hlength]

/-! ## Steps of the program -/

/-- A step goes on as the command says, unless it is a return. -/
theorem control_of_step {env : Surroundings} {s s' : State} {i : Nat} {c : Command}
    (hcontrol : s.control = .inside i) (hc : p[i]? = some c) (hne : c ≠ .ret)
    (h : p.step env s = some s') : ∃ j, c.successor? i = some j ∧ s'.control = .inside j := by
  rw [step, hcontrol] at h
  obtain ⟨c', hc', hrun⟩ := Option.bind_eq_some_iff.mp h
  obtain rfl := Option.some.inj (hc.symm.trans hc')
  cases c with
  | mov r v =>
    obtain rfl := Option.some.inj hrun
    exact ⟨_, rfl, rfl⟩
  | lea r offset =>
    obtain rfl := Option.some.inj hrun
    exact ⟨_, rfl, rfl⟩
  | jmp w label =>
    obtain rfl := Option.some.inj hrun
    exact ⟨_, rfl, rfl⟩
  | syscall =>
    rw [Command.run] at hrun
    split at hrun
    · obtain rfl := Option.some.inj hrun
      exact ⟨_, rfl, rfl⟩
    · cases hrun
  | ret => exact absurd rfl hne

end Program

/-! ## Runs of the processor -/

/-- The processor stands at the command with a number of the program at `base`. -/
def Program.StandsAt (p : Program) (base : Word) (i : Nat) (c : Cpu) : Prop :=
  c.next = base + BitVec.ofNat 64 (p.offsetOf i)

/-- In fewer than `n` steps the processor comes to a return of the program at `base`. -/
def Program.ReturnsBefore (p : Program) (base : Word) (services : Services) (n : Nat)
    (c : Cpu) : Prop :=
  ∃ k i c', k < n ∧ Cpu.steps services k c = some c' ∧ p[i]? = some .ret ∧ p.StandsAt base i c'

theorem Program.ReturnsBefore.succ {p : Program} {base : Word} {services : Services} {n : Nat}
    {c c₁ : Cpu} (h : p.ReturnsBefore base services n c₁) (hstep : c.step services = some c₁) :
    p.ReturnsBefore base services (n + 1) c := by
  obtain ⟨k, i, c', hk, hsteps, hret, hnext⟩ := h
  refine ⟨k + 1, i, c', Nat.succ_lt_succ hk, ?_, hret, hnext⟩
  rw [Cpu.steps_succ, hstep]
  exact hsteps

section

variable {p : Program} {base : Word} {part : Memory} {services : Services} {c c' : Cpu} {i : Nat}

/-- It is in a state that the program knows, too. -/
theorem Program.StandsAt.cpu_eq (h : p.StandsAt base i c) (services : Services) :
    Surroundings.cpu ⟨services, base, c.memory, c.flags⟩ p ⟨c.registers, .inside i, c.asked⟩ = c := by
  show (⟨c.registers, base + BitVec.ofNat 64 (p.offsetOf i), c.flags, c.memory, c.asked⟩ : Cpu) = c
  rw [← h]

/-- **A step of the processor** from a command leads where the command says, and the program still
    lies there. -/
theorem Program.StandsAt.step (hlies : p.LiesAt base part) (hshows : c.memory.Shows part)
    (hstands : p.StandsAt base i c) {command : Command} (hc : p[i]? = some command)
    (hne : command ≠ .ret) (hspares : c.Spares services part) (h : c.step services = some c') :
    ∃ j, command.successor? i = some j ∧ p.StandsAt base j c' ∧ c'.memory.Shows part := by
  let env : Surroundings := ⟨services, base, c.memory, c.flags⟩
  let s : State := ⟨c.registers, .inside i, c.asked⟩
  have hcpu : env.cpu p s = c := hstands.cpu_eq services
  have hhere : p.LiesAt env.base env.memory := hlies.mono hshows
  by_cases hsyscall : command = .syscall
  · -- a service may do more than the program tells
    subst hsyscall
    have hupcoming := Surroundings.upcoming?_cpu (s := s) hhere rfl hc
    rw [hcpu] at hupcoming
    rw [Cpu.step_eq, hupcoming] at h
    exact ⟨i + 1, rfl, hspares.systemCall hshows hupcoming h⟩
  · have hmap := Surroundings.step_cpu (s := s) hhere rfl hc fun h => absurd h hsyscall
    rw [hcpu] at hmap
    obtain ⟨s', hs', rfl⟩ := Option.map_eq_some_iff.mp (hmap.symm.trans h)
    obtain ⟨j, hj, hcontrol⟩ := control_of_step rfl hc hne hs'
    refine ⟨j, hj, ?_, hshows⟩
    show env.address p s'.control = _
    rw [hcontrol]
    rfl

/-- There is such a step, unless a service does not come back. -/
theorem Program.StandsAt.exists_step (hlies : p.LiesAt base part) (hshows : c.memory.Shows part)
    (hstands : p.StandsAt base i c) {command : Command} (hc : p[i]? = some command)
    (hne : command ≠ .ret) (hanswered : c.Answered services) : ∃ c', c.step services = some c' := by
  let env : Surroundings := ⟨services, base, c.memory, c.flags⟩
  let s : State := ⟨c.registers, .inside i, c.asked⟩
  have hcpu : env.cpu p s = c := hstands.cpu_eq services
  have hhere : p.LiesAt env.base env.memory := hlies.mono hshows
  by_cases hsyscall : command = .syscall
  · subst hsyscall
    have hupcoming := Surroundings.upcoming?_cpu (s := s) hhere rfl hc
    rw [hcpu] at hupcoming
    rw [Cpu.step_eq, hupcoming]
    exact hanswered _ hupcoming
  · have hmap := Surroundings.step_cpu (s := s) hhere rfl hc fun h => absurd h hsyscall
    rw [hcpu] at hmap
    have hstops : p.step env s ≠ none := by
      intro hnone
      rcases Program.step_eq_none_iff.mp hnone with ⟨a, ha⟩ | ⟨j, hj, hend | ⟨hj', -⟩ | ⟨hj', -⟩⟩
      · cases ha
      · obtain rfl := Control.inside.inj hj
        rw [List.getElem?_eq_none_iff.mpr hend] at hc
        cases hc
      · obtain rfl := Control.inside.inj hj
        exact hsyscall (Option.some.inj (hc.symm.trans hj'))
      · obtain rfl := Control.inside.inj hj
        exact hne (Option.some.inj (hc.symm.trans hj'))
    obtain ⟨s', hs'⟩ := Option.ne_none_iff_exists'.mp hstops
    exact ⟨env.cpu p s', by rw [hmap, hs']; rfl⟩

/-- **The processor comes wherever control can come to**, as long as all services come back and
    spare the program.  By induction on the way there. -/
theorem Program.Reaches.exists_steps (hlies : p.LiesAt base part) (hshows : c.memory.Shows part)
    (hstands : p.StandsAt base 0 c) (hservices : ∀ k c', Cpu.steps services k c = some c' →
      c'.Spares services part ∧ c'.Answered services) (hi : p.Reaches i) :
    ∃ n c', Cpu.steps services n c = some c' ∧ p.StandsAt base i c' ∧ c'.memory.Shows part := by
  induction hi with
  | entry => exact ⟨0, c, rfl, hstands, hshows⟩
  | @step i j command hi hc hj ih =>
    obtain ⟨n, c₁, hsteps, hstands₁, hshows₁⟩ := ih
    have hne : command ≠ .ret := by
      rintro rfl
      cases hj
    obtain ⟨hspares, hanswered⟩ := hservices n c₁ hsteps
    obtain ⟨c₂, hstep⟩ := hstands₁.exists_step hlies hshows₁ hc hne hanswered
    obtain ⟨j', hj', hstands₂, hshows₂⟩ := hstands₁.step hlies hshows₁ hc hne hspares hstep
    obtain rfl := Option.some.inj (hj.symm.trans hj')
    exact ⟨n + 1, c₂, Cpu.steps_trans hsteps (by rw [Cpu.steps_succ, hstep]; rfl), hstands₂, hshows₂⟩

/-- **The processor stands at a command**, one that control can come to, until it has returned, as
    long as the services spare the program.  By induction on the number of steps, each of which goes
    on from a command as the command says. -/
theorem Program.StandsAt.steps (hlies : p.LiesAt base part) (hcontained : p.Contained)
    (hshows : c.memory.Shows part) (hstands : p.StandsAt base i c) (hi : p.Reaches i) {n : Nat}
    (hspares : ∀ k c', k < n → Cpu.steps services k c = some c' → c'.Spares services part)
    (h : Cpu.steps services n c = some c') :
    p.ReturnsBefore base services n c ∨ ∃ j, p.Reaches j ∧ p.StandsAt base j c' := by
  induction n generalizing c i with
  | zero =>
    obtain rfl := Option.some.inj h
    exact .inr ⟨i, hi, hstands⟩
  | succ n ih =>
    rw [Cpu.steps_succ] at h
    obtain ⟨c₁, hstep, hrest⟩ := Option.bind_eq_some_iff.mp h
    obtain ⟨command, hc⟩ : ∃ command, p[i]? = some command :=
      ⟨_, List.getElem?_eq_getElem (hcontained i hi)⟩
    by_cases hret : command = .ret
    · exact .inl ⟨0, i, c, Nat.succ_pos n, rfl, hret ▸ hc, hstands⟩
    · obtain ⟨j, hj, hstands₁, hshows₁⟩ := hstands.step hlies hshows hc hret
        (hspares 0 c (Nat.succ_pos n) rfl) hstep
      have hspares₁ : ∀ k c', k < n → Cpu.steps services k c₁ = some c' →
          c'.Spares services part := by
        intro k c' hk hsteps
        apply hspares (k + 1) c' (Nat.succ_lt_succ hk)
        rw [Cpu.steps_succ, hstep]
        exact hsteps
      rcases ih hshows₁ hstands₁ (.step hi hc hj) hspares₁ hrest with hreturns | hthere
      · exact .inl (hreturns.succ hstep)
      · exact .inr hthere

end

/-! ## Code that was written, resolved and loaded -/

/-- A program lies at the entry of every payload that its image was loaded as. -/
theorem Program.liesAt_of_load {p : Program} {rest? : Option (List UInt8 × List Edit)}
    {target? : Site → Option Nat} {image : Image}
    (hsize : (Draft.ofEdits (Draft.writing p.emissions rest?)).size < Offset.limit)
    (h : Image.Relocated (Draft.ofEdits (Draft.writing p.emissions rest?)).finish target? image)
    (hresolved : p.ResolvedBy target?) {region : Region} (hregion : region.Reachable)
    {kernel : Kernel} {payload : Payload} (hload : (region.load kernel image).answer = .ok payload)
    {memory : Memory} (hmemory : memory.Shows payload.region.memory) :
    p.LiesAt payload.entry memory :=
  liesAt_of_relocated hsize h hresolved (hmemory.carries (Region.carries_of_load hregion hload))

/-- **When the listing's answer can be relied on.**  Take any program, written with or without data
    behind it, and any run of requests after which each of its sites is resolved to the command's
    target; and let the listing say that the code does not fall through.  Whatever registers and
    memory hold and the kernel answers, control then comes to the end of the code just when it comes
    to a jump that leads there.

    If there is no such jump, the processor, started at the entry in any region that the image was
    loaded into, stands at a command, and not at the end of the code, for as long as it has not come
    to a return and no service has overwritten the code or come back elsewhere.  If there is one, and
    all services come back and spare the code, the processor does come to the end. -/
theorem contained_of_not_fallsThrough {decode : Decoder} (hdecode : decode.ReadsBack) (p : Program)
    (rest? : Option (List UInt8 × List Edit)) (requests : List Request)
    (hsize : (Draft.ofEdits (Draft.writing p.emissions rest?)).size < Offset.signedLimit)
    (hrequests : ∀ r ∈ requests,
      r.site ∈ (Draft.ofEdits (Draft.writing p.emissions rest?)).finish.pending)
    (hresolved : p.ResolvedBy fun s =>
      Image.settled? s (Draft.ofEdits (Draft.writing p.emissions rest?)).finish requests)
    (hfalls : Listing.fallsThrough (Listing.ofImage decode ((Draft.ofEdits
      (Draft.writing p.emissions rest?)).finish.attemptAll requests)) = false) :
    let image := (Draft.ofEdits (Draft.writing p.emissions rest?)).finish.attemptAll requests
    (p.Contained ↔ p.JumpsInside) ∧
    ∀ (region : Region) (kernel : Kernel) (payload : Payload), region.Reachable →
      (region.load kernel image).answer = .ok payload →
      ∀ memory : Memory, memory.Shows payload.region.memory →
      ∀ (services : Services) (flags : Word) (registers : Registers) (asked : List WriteCall),
        let start : Cpu := ⟨registers, payload.entry, flags, memory, asked⟩
        let finish := payload.entry + BitVec.ofNat 64 image.code.length
        (p.JumpsInside → ∀ (n : Nat) (c : Cpu), Cpu.steps services n start = some c →
          (∀ k c', k < n → Cpu.steps services k start = some c' →
            c'.Spares services payload.region.memory) →
          p.ReturnsBefore payload.entry services n start ∨
            (∃ i, i < p.length ∧ p.StandsAt payload.entry i c) ∧ c.next ≠ finish) ∧
        (¬ p.JumpsInside → (∀ k c', Cpu.steps services k start = some c' →
            c'.Spares services payload.region.memory ∧ c'.Answered services) →
          ∃ n c, Cpu.steps services n start = some c ∧ c.next = finish) := by
  intro image
  have hlimit : (Draft.ofEdits (Draft.writing p.emissions rest?)).size < Offset.limit :=
    Offset.lt_limit_of_lt_signedLimit hsize
  have hrun := Image.Relocated.attemptAll_refl (Draft.laidOut_ofEdits hlimit) hrequests
  have hcontained : p.Contained ↔ p.JumpsInside := by
    obtain ⟨last, hlast, hcloses⟩ :=
      (Program.fallsThrough_relocated_iff hdecode hlimit hrun).mp hfalls
    exact Program.contained_iff hlast hcloses
  refine ⟨hcontained, ?_⟩
  intro region kernel payload hregion hload memory hmemory services flags registers asked start finish
  have hlies : p.LiesAt payload.entry payload.region.memory :=
    Program.liesAt_of_load hlimit hrun hresolved hregion hload fun _ _ h => ⟨h, rfl⟩
  have hstart : p.StandsAt payload.entry 0 start := (BitVec.add_zero _).symm
  constructor
  · intro hjumps n c hsteps hspares
    have hin : p.Contained := hcontained.mpr hjumps
    rcases hstart.steps hlies hin hmemory .entry hspares hsteps with hreturns | ⟨i, hi, hstands⟩
    · exact .inl hreturns
    · have hlt := Program.offsetOf_lt (hin i hi)
      have hend : Emission.extent p.emissions < Offset.limit :=
        Nat.lt_of_le_of_lt (Image.Relocated.extent_le_size p.emissions rest?) hlimit
      refine .inr ⟨⟨i, hin i hi, hstands⟩, ?_⟩
      rw [hstands, show finish = payload.entry + BitVec.ofNat 64 image.code.length from rfl,
        hrun.length_code]
      exact Word.add_ofNat_ne payload.entry hlt hend
  · intro hjumps hservices
    obtain ⟨i, hout⟩ := Classical.not_forall.mp (mt hcontained.mp hjumps)
    obtain ⟨hi, hout⟩ := Classical.not_imp.mp hout
    obtain ⟨n, c, hsteps, hstands, -⟩ := hi.exists_steps hlies hmemory hstart hservices
    refine ⟨n, c, hsteps, ?_⟩
    rw [hstands, show finish = payload.entry + BitVec.ofNat 64 image.code.length from rfl,
      hrun.length_code, Program.offsetOf_of_le (Nat.not_lt.mp hout)]

/-- Jumps forwards and backwards, the last of them at the end of the code. -/
theorem contained_of_not_fallsThrough_loop :
    let p : Program := [.jmp .rel8 2, .mov .rdi 7, .jmp .rel32 1]
    let rest? : Option (List UInt8 × List Edit) := some ([0xC3], [])
    let requests : List Request := [⟨.trailing 7 5 .rel32, 2⟩, ⟨.trailing 0 2 .rel8, 7⟩]
    let built := (Draft.ofEdits (Draft.writing p.emissions rest?)).finish
    let image := built.attemptAll requests
    -- a kernel that serves `write` alone
    let services : Services := ⟨fun _ => true, fun _ => none⟩
    (Draft.ofEdits (Draft.writing p.emissions rest?)).size < Offset.signedLimit ∧
    (∀ r ∈ requests, r.site ∈ built.pending) ∧
    (p.ResolvedBy fun s => Image.settled? s built requests) ∧
    Listing.fallsThrough (Listing.ofImage X64.decode image) = false ∧ p.JumpsInside ∧
    ∃ region payload, Region.Reachable region ∧
      (region.load Kernel.standard image).answer = .ok payload ∧
      ∀ n c, Cpu.steps services n
        ⟨Registers.zero, payload.entry, 0, payload.region.memory.backedBy Frame.idle.memory, []⟩ =
          some c → c.next ≠ payload.entry + 12#64 := by
  intro p rest? requests built image services
  have hsize : (Draft.ofEdits (Draft.writing p.emissions rest?)).size < Offset.signedLimit := by
    decide
  have hrequests : ∀ r ∈ requests, r.site ∈ built.pending := by decide
  have hresolved : p.ResolvedBy fun s => Image.settled? s built requests := by
    intro i c hc s hs
    obtain ⟨hi, rfl⟩ := List.getElem?_eq_some_iff.mp hc
    have hi' : i < 3 := hi
    match i, hi' with
    | 0, _ => obtain rfl := Option.some.inj hs; rfl
    | 1, _ => cases hs
    | 2, _ => obtain rfl := Option.some.inj hs; rfl
  have hlimit : (Draft.ofEdits (Draft.writing p.emissions rest?)).size < Offset.limit :=
    Offset.lt_limit_of_lt_signedLimit hsize
  have hrun := Image.Relocated.attemptAll_refl (Draft.laidOut_ofEdits hlimit) hrequests
  have hfalls : Listing.fallsThrough (Listing.ofImage X64.decode image) = false :=
    (Program.fallsThrough_relocated_iff X64.decode_readsBack hlimit hrun).mpr
      ⟨.jmp .rel32 1, rfl, rfl⟩
  have hjumps : p.JumpsInside := by
    intro i w label _ hc
    obtain ⟨hi, hc⟩ := List.getElem?_eq_some_iff.mp hc
    have hi' : i < 3 := hi
    match i, hi' with
    | 0, _ => obtain ⟨-, rfl⟩ := Command.jmp.inj hc; decide
    | 1, _ => cases hc
    | 2, _ => obtain ⟨-, rfl⟩ := Command.jmp.inj hc; decide
  obtain ⟨region, events, payload, hacquire, hload⟩ :=
    Region.exists_load_standard (show image.pending = [] by decide) (by decide)
  have hregion : region.Reachable := .acquired hacquire
  obtain ⟨-, hprocessor⟩ := contained_of_not_fallsThrough X64.decode_readsBack p rest? requests hsize
    hrequests hresolved hfalls
  refine ⟨hsize, hrequests, hresolved, hfalls, hjumps, region, payload, hregion, hload, ?_⟩
  intro n c hsteps
  obtain ⟨hstands, -⟩ := hprocessor region Kernel.standard payload hregion hload _
    (Memory.Shows.backedBy _ _) services 0 Registers.zero []
  rcases hstands hjumps n c hsteps (fun _ _ _ _ _ _ _ _ h => nomatch h) with
    ⟨k, i, c', -, -, hret, -⟩ | ⟨-, hend⟩
  · -- there is no return in the program
    have hmem := List.mem_of_getElem? hret
    exact absurd hmem (by decide)
  · exact hend

/-- **Code that does not fall through and is left all the same**: its one instruction is a jump to the
    end of the code, where the data begins. -/
theorem jump_runs_off :
    let p : Program := [.jmp .rel8 1]
    let rest? : Option (List UInt8 × List Edit) := some ([0xB8, 42, 0, 0, 0, 0xC3], [])
    let requests : List Request := [⟨.trailing 0 2 .rel8, 2⟩]
    let built := (Draft.ofEdits (Draft.writing p.emissions rest?)).finish
    let image := built.attemptAll requests
    let services := Kernel.standard.services fun _ => true
    Listing.fallsThrough (Listing.ofImage X64.decode image) = false ∧
    ∃ region payload c, Region.Reachable region ∧
      (region.load Kernel.standard image).answer = .ok payload ∧
      Cpu.steps services 1
        ⟨Registers.zero, payload.entry, 0, payload.region.memory.backedBy Frame.idle.memory, []⟩ =
          some c ∧ c.next = payload.entry + BitVec.ofNat 64 image.code.length := by
  intro p rest? requests built image services
  have hlimit : (Draft.ofEdits (Draft.writing p.emissions rest?)).size < Offset.limit := by decide
  have hrequests : ∀ r ∈ requests, r.site ∈ built.pending := by decide
  have hresolved : p.ResolvedBy fun s => Image.settled? s built requests := by
    intro i c hc s hs
    obtain ⟨hi, rfl⟩ := List.getElem?_eq_some_iff.mp hc
    obtain rfl : i = 0 := Nat.lt_one_iff.mp hi
    obtain rfl := Option.some.inj hs
    rfl
  have hrun := Image.Relocated.attemptAll_refl (Draft.laidOut_ofEdits hlimit) hrequests
  have hfalls : Listing.fallsThrough (Listing.ofImage X64.decode image) = false :=
    (Program.fallsThrough_relocated_iff X64.decode_readsBack hlimit hrun).mpr ⟨.jmp .rel8 1, rfl, rfl⟩
  obtain ⟨region, events, payload, hacquire, hload⟩ :=
    Region.exists_load_standard (show image.pending = [] by decide) (by decide)
  have hregion : region.Reachable := .acquired hacquire
  let env : Surroundings :=
    ⟨services, payload.entry, payload.region.memory.backedBy Frame.idle.memory, 0⟩
  have hlies : p.LiesAt env.base env.memory :=
    Program.liesAt_of_load hlimit hrun hresolved hregion hload (Memory.Shows.backedBy _ _)
  have hsteps := Surroundings.steps_cpu hlies
    (show p.steps env 1 ⟨Registers.zero, .inside 0, []⟩ = some ⟨Registers.zero, .inside 1, []⟩
      from rfl)
  simp only [Surroundings.cpu, Surroundings.address_zero] at hsteps
  refine ⟨hfalls, region, payload, _, hregion, hload, hsteps, ?_⟩
  rw [hrun.length_code]
  rfl

end Emplace.Labelled
