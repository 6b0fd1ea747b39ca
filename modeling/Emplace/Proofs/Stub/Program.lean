import Emplace.Stub
import Emplace.Proofs.Labelled.Simulation

/-
  The write stub as a labelled program.

  The stub's code is six commands, and the message lies behind them at offset 25.  Resolving always
  succeeds, because that is three bytes behind the instruction that names the message; the image
  then is `finished`.  It waits for nothing, holds the message as its data, and its one site is
  resolved to the program's target (`resolvedBy_finished`).

  What the program does is `steps_program`: where the message can be read and an address lies on top
  of the stack, it asks for one write of the message and returns there.  It starts by overwriting
  every register that it uses later, so nothing depends on what they held.
-/

namespace Emplace.Stub

open Image (Relocated settled?)
open Labelled (Command Program State Surroundings)
open X64 (Cpu LowRegister Register Registers)

/-- The code of the stub. -/
def program (descriptor count : UInt32) : Program :=
  [.mov .rax X64.writeService, .mov .rdi descriptor, .mov .rdx count, .lea .rsi 25, .syscall, .ret]

/-- The edits that write the stub. -/
def edits (descriptor count : UInt32) (message : List UInt8) : List Edit :=
  Draft.writing (program descriptor count).emissions (some (message, []))

/-- The request for the way to the message. -/
def request : Request := ⟨.trailing 15 7 .rel32, 25⟩

/-- The image of the stub before its site is resolved. -/
def unresolved (descriptor count : UInt32) (message : List UInt8) : Image :=
  (Draft.ofEdits (edits descriptor count message)).finish

/-- The image of the stub when its site is resolved. -/
def finished (descriptor count : UInt32) (message : List UInt8) : Image :=
  (unresolved descriptor count message).attemptAll [request]

/-! ## The image -/

section

variable (descriptor count : UInt32) (message : List UInt8)

theorem assemble_eq : assemble descriptor count message =
    ⟨unresolved descriptor count message, request.site, request.target⟩ :=
  rfl

theorem bytes_unresolved : ∃ code, code.length = 25 ∧
    (unresolved descriptor count message).bytes = code ++ message :=
  ⟨_, rfl, rfl⟩

theorem size_unresolved :
    (unresolved descriptor count message).size = 25 + message.length := by
  obtain ⟨code, hcode, hbytes⟩ := bytes_unresolved descriptor count message
  rw [Image.size, hbytes, List.length_append, hcode]

theorem pending_unresolved : (unresolved descriptor count message).pending = [request.site] :=
  rfl

theorem data_unresolved :
    (unresolved descriptor count message).data = some ⟨25, 25 + message.length⟩ :=
  rfl

/-- The message is three bytes behind the instruction that names it. -/
theorem reaches_request :
    request.site.Reaches (unresolved descriptor count message).size request.target := by
  refine ⟨?_, by decide⟩
  rw [size_unresolved]
  exact Nat.le_add_right _ _

end

section

variable {message : List UInt8} (hlength : message.length < 0x100000000) (descriptor count : UInt32)
include hlength

theorem size_unresolved_lt : (unresolved descriptor count message).size < Offset.signedLimit := by
  rw [size_unresolved]
  simp only [Offset.signedLimit]
  omega

theorem laidOut_unresolved : (unresolved descriptor count message).LaidOut :=
  Draft.laidOut_ofEdits
    (Offset.lt_limit_of_lt_signedLimit (size_unresolved_lt hlength descriptor count))

theorem grants_request : (unresolved descriptor count message).grants request = true := by
  have hfits := (laidOut_unresolved hlength descriptor count).fits request.site
    (List.mem_singleton_self _)
  exact (Image.grants_iff (size_unresolved_lt hlength descriptor count) hfits).mpr
    (reaches_request descriptor count message)

/-- Resolving the stub always succeeds. -/
theorem resolve_assemble : ∃ distance, (assemble descriptor count message).resolve =
    .ok (distance, finished descriptor count message) := by
  have hgrants := grants_request hlength descriptor count
  rw [Image.grants] at hgrants
  have hfinished : finished descriptor count message =
      (unresolved descriptor count message).attempt request :=
    rfl
  rw [assemble_eq, resolve, hfinished, Image.attempt]
  dsimp only
  cases hresolve : (unresolved descriptor count message).resolve request.site request.target with
  | error e =>
    rw [hresolve] at hgrants
    cases hgrants
  | ok answer => exact ⟨answer.1, rfl⟩

theorem settled_request : settled? request.site (unresolved descriptor count message) [request] =
    some request.target := by
  show (none : Option Nat).or _ = _
  rw [Option.none_or, if_pos ⟨rfl, grants_request hlength descriptor count⟩]

theorem relocated_finished : Relocated (unresolved descriptor count message)
    (fun s => settled? s (unresolved descriptor count message) [request])
    (finished descriptor count message) := by
  apply Relocated.attemptAll_refl (laidOut_unresolved hlength descriptor count)
  intro r hr
  rw [List.mem_singleton.mp hr, pending_unresolved]
  exact List.mem_singleton_self _

theorem pending_finished : (finished descriptor count message).pending = [] := by
  rw [(relocated_finished hlength descriptor count).pending, pending_unresolved,
    List.filter_cons_of_neg, List.filter_nil]
  rw [settled_request hlength descriptor count]
  exact Bool.false_ne_true

theorem size_finished : (finished descriptor count message).size = 25 + message.length := by
  rw [(relocated_finished hlength descriptor count).size, size_unresolved]

/-- The message lies behind the code. -/
theorem message_finished :
    ((finished descriptor count message).bytes.drop 25).take message.length = message := by
  have hrelocated := relocated_finished hlength descriptor count
  have hdata := hrelocated.dataBytes (laidOut_unresolved hlength descriptor count)
  obtain ⟨code, hcode, hbytes⟩ := bytes_unresolved descriptor count message
  rw [Image.dataBytes, Image.dataBytes, hrelocated.data, data_unresolved] at hdata
  simp only [Nat.add_sub_cancel_left] at hdata
  rw [hdata, hbytes, List.drop_left' hcode, List.take_length]

theorem resolvedBy_finished : (program descriptor count).ResolvedBy fun s =>
    settled? s (unresolved descriptor count message) [request] := by
  intro i c hc s hs
  obtain ⟨hi, rfl⟩ := List.getElem?_eq_some_iff.mp hc
  have hi' : i < 6 := hi
  -- only the fourth command has a site
  match i, hi' with
  | 0, _ => cases hs
  | 1, _ => cases hs
  | 2, _ => cases hs
  | 3, _ =>
    obtain rfl := Option.some.inj hs
    exact settled_request hlength descriptor count
  | 4, _ => cases hs
  | 5, _ => cases hs

end

/-! ## What the program does -/

/-- The registers that the stub overwrites. -/
def clobbered : List Register :=
  [LowRegister.rax, LowRegister.rcx, LowRegister.rdx, LowRegister.rsi, LowRegister.rdi,
    Register.r11]

/-- The registers before the system call. -/
def prepared (descriptor count : UInt32) (base : Word) (rs : Registers) : Registers :=
  (((rs.set LowRegister.rax (BitVec.ofNat 64 X64.writeService.toNat)).set LowRegister.rdi
    (BitVec.ofNat 64 descriptor.toNat)).set LowRegister.rdx (BitVec.ofNat 64 count.toNat)).set
      LowRegister.rsi (base + BitVec.ofNat 64 25)

theorem prepared_get {r : Register} (hr : r ∉ clobbered) (descriptor count : UInt32) (base : Word)
    (rs : Registers) : (prepared descriptor count base rs).get r = rs.get r := by
  simp only [clobbered, List.mem_cons, List.not_mem_nil, or_false, not_or] at hr
  obtain ⟨hrax, -, hrdx, hrsi, hrdi, -⟩ := hr
  simp only [prepared, Registers.get_set, if_neg hrax, if_neg hrdx, if_neg hrsi, if_neg hrdi]

section

variable {count : UInt32} {message : List UInt8} {env : Surroundings} (descriptor : UInt32)
  (rs : Registers)

/-- The system call finds the message and its length, whatever the registers held before. -/
theorem step_service (hcount : count.toNat = message.length)
    (hmessage : env.memory.load message.length (env.base + BitVec.ofNat 64 25) = some message)
    (asked : List X64.WriteCall) :
    ∃ s : State, (program descriptor count).step env
        ⟨prepared descriptor count env.base rs, .inside 4, asked⟩ = some s ∧
      s.control = .inside 5 ∧ s.asked = ⟨descriptor, message⟩ :: asked ∧
      ∀ r, r ∉ clobbered → s.registers.get r = rs.get r := by
  have hrax :
      ((prepared descriptor count env.base rs).get LowRegister.rax).setWidth 32 = 1#32 := by
    simp [prepared, Registers.get_set, X64.writeService]
  have hrdi : (⟨((prepared descriptor count env.base rs).get LowRegister.rdi).setWidth 32⟩ :
      UInt32) = descriptor := by
    simp [prepared, Registers.get_set]
  have hload : env.memory.load
      ((prepared descriptor count env.base rs).get LowRegister.rdx).toNat
      ((prepared descriptor count env.base rs).get LowRegister.rsi) = some message := by
    have hrdx : ((prepared descriptor count env.base rs).get LowRegister.rdx).toNat =
        message.length := by
      rw [← hcount]
      simp [prepared, Registers.get_set]
    have hrsi : (prepared descriptor count env.base rs).get LowRegister.rsi =
        env.base + BitVec.ofNat 64 25 := by
      simp [prepared, Registers.get_set]
    rw [hrdx, hrsi]
    exact hmessage
  let before : State := ⟨prepared descriptor count env.base rs, .inside 4, asked⟩
  have hasked : (env.write (program descriptor count) (.inside 5) before).asked =
      ⟨⟨(before.registers.get LowRegister.rdi).setWidth 32⟩, message⟩ :: asked :=
    Surroundings.write_asked hload
  refine ⟨env.write (program descriptor count) (.inside 5) before, if_pos hrax, rfl, ?_, ?_⟩
  · rw [hasked, hrdi]
  · intro r hr
    have hsub : ∀ r ∈ [(LowRegister.rax : Register), LowRegister.rcx, Register.r11],
        r ∈ clobbered := by
      decide
    rw [Surroundings.write_get fun h => hr (hsub r h)]
    exact prepared_get hr descriptor count env.base rs

/-- **The program asks for one write** of the message and returns. -/
theorem steps_program {back : Word} (hcount : count.toNat = message.length)
    (hmessage : env.memory.load message.length (env.base + BitVec.ofNat 64 25) = some message)
    (hback : env.memory.load 8 (rs.get LowRegister.rsp) =
      some (LittleEndian.encode 8 back.toNat)) (asked : List X64.WriteCall) :
    ∃ rs', (program descriptor count).steps env 6 ⟨rs, .inside 0, asked⟩ =
        some ⟨rs', .returned back, ⟨descriptor, message⟩ :: asked⟩ ∧
      rs'.get LowRegister.rsp = rs.get LowRegister.rsp + 8 ∧
      ∀ r, r ∉ clobbered → r ≠ LowRegister.rsp → rs'.get r = rs.get r := by
  -- the four commands before the system call
  have hprepare : (program descriptor count).steps env 4 ⟨rs, .inside 0, asked⟩ =
      some ⟨prepared descriptor count env.base rs, .inside 4, asked⟩ :=
    rfl
  obtain ⟨⟨rs₁, control, asked₁⟩, hservice, hcontrol, hasked, hkept⟩ :=
    step_service descriptor rs hcount hmessage asked
  obtain rfl : control = .inside 5 := hcontrol
  obtain rfl : asked₁ = ⟨descriptor, message⟩ :: asked := hasked
  have htop : rs₁.get LowRegister.rsp = rs.get LowRegister.rsp := hkept _ (by decide)
  have hreturn : (program descriptor count).step env
      ⟨rs₁, .inside 5, ⟨descriptor, message⟩ :: asked⟩ =
      some ⟨rs₁.set LowRegister.rsp (rs.get LowRegister.rsp + 8), .returned back,
        ⟨descriptor, message⟩ :: asked⟩ := by
    show (env.memory.load 8 (rs₁.get LowRegister.rsp)).map _ = _
    rw [htop, hback, Option.map_some, Word.ofNat_decode_encode]
  refine ⟨rs₁.set LowRegister.rsp (rs.get LowRegister.rsp + 8), ?_, ?_, ?_⟩
  · have hrest : (program descriptor count).steps env 2
        ⟨prepared descriptor count env.base rs, .inside 4, asked⟩ =
        some ⟨rs₁.set LowRegister.rsp (rs.get LowRegister.rsp + 8), .returned back,
          ⟨descriptor, message⟩ :: asked⟩ :=
      Program.steps_of_step hservice (Program.steps_of_step hreturn rfl)
    exact Program.steps_trans hprepare hrest
  · rw [Registers.get_set, if_pos rfl]
  · intro r hr hne
    rw [Registers.get_set, if_neg hne, hkept r hr]

end

end Emplace.Stub
