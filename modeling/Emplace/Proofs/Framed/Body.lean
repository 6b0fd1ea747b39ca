import Emplace.Proofs.Draft.Transcript
import Emplace.Proofs.X64.Carried

/-
  Routines with a frame of their own, and what stands between prologue and epilogue.

  A body is a list of commands that set a few registers which no caller relies on (`Scratch`).  What
  it does can be told without a processor: `run` says what becomes of the registers.  Nothing else
  is changed, which is the frame of the body in both senses of the word:

    * all other registers keep what they hold (`run_get`), and do so whatever that is (`run_set`);
    * if the body sets `rax` at all, what it leaves there depends on `rdi` alone (`run_rax`).

  `Command.execute` says that the processor carries out a command in this way, and the bytes of a
  command are an encoding (`Command.encodes`).
-/

namespace Emplace.Framed

open X64 (Cpu Encodes Instruction LowRegister Register Registers Services)

/-! ## Commands -/

/-- The registers that a body may set. -/
inductive Scratch
  | rax | rcx | rdx | rsi | rdi
  deriving DecidableEq

def Scratch.low : Scratch → LowRegister
  | rax => .rax
  | rcx => .rcx
  | rdx => .rdx
  | rsi => .rsi
  | rdi => .rdi

inductive Command
  | nop
  /-- Sets the low half of a register and clears the high half. -/
  | mov (target : Scratch) (value : UInt32)
  /-- Sets `rax` to the sum of `rdi` and a signed byte. -/
  | lea (displacement : Int8)
  deriving DecidableEq

namespace Command

/-- How a command is written. -/
def edit : Command → Edit
  | nop => .word8 0x90
  | mov r v => .instruction (.mov r.low v)
  | lea d => .append [0x48, 0x8D, 0x47, d.toUInt8]

/-- What the processor reads. -/
def instruction : Command → Instruction
  | nop => .nop
  | mov r v => .movImm .dword r.low v.toNat
  | lea d => .lea .qword LowRegister.rax (.based LowRegister.rdi d.toInt)

/-- What becomes of the registers: 32 bits are extended by zeros, 8 bits by their sign. -/
def run (rs : Registers) : Command → Registers
  | nop => rs
  | mov r v => rs.set r.low (v.toBitVec.setWidth 64)
  | lea d => rs.set LowRegister.rax (rs.get LowRegister.rdi + d.toBitVec.signExtend 64)

/-- Whether the command sets `rax`. -/
def setsResult : Command → Bool
  | nop => false
  | mov r _ => r = .rax
  | lea _ => true

/-! ## Reading a command back -/

theorem decodeInt_singleton (d : Int8) : LittleEndian.decodeInt [d.toUInt8] = d.toInt := by
  have hbyte : (LittleEndian.decode [d.toUInt8] : Int) = d.toBitVec.toNat := rfl
  have hvalues : LittleEndian.values 1 = 256 := rfl
  rw [LittleEndian.decodeInt, hbyte, List.length_singleton, hvalues]
  exact (BitVec.toInt_eq_toNat_bmod d.toBitVec).symm

theorem encodes_nop : Encodes [0x90] .nop :=
  ⟨by decide, by decide, fun rest => by
    simp [X64.readInstruction, X64.readRex, X64.Rex.ofByte?, X64.readOpcode]⟩

theorem encodes_lea (d : Int8) : Encodes [0x48, 0x8D, 0x47, d.toUInt8]
    (.lea .qword LowRegister.rax (.based LowRegister.rdi d.toInt)) := by
  refine ⟨by simp, by simp [X64.maxLength], fun rest => ?_⟩
  have hread : X64.readSigned 1 ([d.toUInt8] ++ rest) = _ :=
    X64.readSigned_append (List.length_singleton ..)
  rw [decodeInt_singleton] at hread
  simp only [List.cons_append, List.nil_append] at hread ⊢
  simp [X64.readInstruction, X64.readRex, X64.Rex.ofByte?, X64.readOpcode, X64.readWithOperand,
    X64.readOperand, X64.Rex.register, X64.Rex.width, LowRegister.ofCode, hread]

/-- **The bytes of a command** are read as its instruction. -/
theorem encodes (c : Command) : Encodes c.edit.bytes c.instruction := by
  cases c with
  | nop => exact encodes_nop
  | mov r v => exact X64.encodes_mov r.low v
  | lea d => exact encodes_lea d

/-! ## Carrying a command out -/

theorem narrow_ofNat_toNat (v : UInt32) :
    Cpu.narrow .dword (BitVec.ofNat 64 v.toNat) = v.toBitVec.setWidth 64 := by
  have hv := v.toNat_lt
  apply BitVec.eq_of_toNat_eq
  simp only [Cpu.narrow, BitVec.toNat_setWidth, BitVec.toNat_ofNat, UInt32.toNat_toBitVec]
  omega

/-- **The processor does what the command says**, and goes on behind it. -/
theorem execute (c : Command) (services : Services) (stop : Word) (cpu : Cpu) :
    cpu.execute services stop c.instruction =
      some { cpu with registers := run cpu.registers c, next := stop } := by
  cases c with
  | nop => rfl
  | mov r v =>
    have hnarrow := narrow_ofNat_toNat v
    show some ({ cpu with next := stop }.set r.low (Cpu.narrow .dword (BitVec.ofNat 64 v.toNat))) = _
    rw [hnarrow]
    rfl
  | lea d => rfl

/-! ## What a command changes -/

section

variable {r : Register} (hr : ∀ s : Scratch, r ≠ s.low)
include hr

theorem run_get (c : Command) (rs : Registers) : (run rs c).get r = rs.get r := by
  cases c with
  | nop => rfl
  | mov s v => rw [run, Registers.get_set, if_neg (hr s)]
  | lea d =>
    rw [run, Registers.get_set]
    exact if_neg (hr .rax)

/-- What a command does not change has no influence on what it does. -/
theorem run_set (c : Command) (rs : Registers) (v : Word) :
    run (rs.set r v) c = (run rs c).set r v := by
  have hcomm : ∀ (s : Scratch) (w : Word),
      (rs.set r v).set s.low w = (rs.set s.low w).set r v := by
    intro s w
    apply Registers.ext_get
    intro q
    simp only [Registers.get_set]
    by_cases hq : q = s.low
    · rw [if_pos hq, if_pos hq, if_neg fun heq => hr s (heq.symm.trans hq)]
    · rw [if_neg hq, if_neg hq]
  cases c with
  | nop => rfl
  | mov s w => exact hcomm s _
  | lea d =>
    have hrdi : (rs.set r v).get LowRegister.rdi = rs.get LowRegister.rdi := by
      rw [Registers.get_set]
      exact if_neg (hr .rdi).symm
    rw [run, run, hrdi]
    exact hcomm .rax _

end

/-- Files that agree on `rdi` go on to do so. -/
theorem run_rdi (c : Command) {rs rs' : Registers}
    (h : rs.get LowRegister.rdi = rs'.get LowRegister.rdi) :
    (run rs c).get LowRegister.rdi = (run rs' c).get LowRegister.rdi := by
  cases c with
  | nop => exact h
  | mov s v => rw [run, run, Registers.get_set, Registers.get_set, h]
  | lea d => rw [run, run, Registers.get_set, Registers.get_set, h]

/-- They agree on `rax`, too, if they did or if it is set. -/
theorem run_rax (c : Command) {rs rs' : Registers}
    (h : rs.get LowRegister.rdi = rs'.get LowRegister.rdi)
    (hrax : rs.get LowRegister.rax = rs'.get LowRegister.rax ∨ c.setsResult = true) :
    (run rs c).get LowRegister.rax = (run rs' c).get LowRegister.rax := by
  cases c with
  | nop => exact hrax.resolve_right Bool.false_ne_true
  | lea d => rw [run, run, Registers.get_set, Registers.get_set, if_pos rfl, if_pos rfl, h]
  | mov s v =>
    rw [run, run, Registers.get_set, Registers.get_set]
    rcases hrax with hsame | hsets
    · rw [hsame]
    · obtain rfl : s = .rax := of_decide_eq_true hsets
      rfl

end Command

/-! ## Bodies -/

/-- What becomes of the registers in a body. -/
def run (body : List Command) (rs : Registers) : Registers := body.foldl Command.run rs

/-- The word that a body leaves in `rax` when it finds one in `rdi` and nothing elsewhere. -/
def result (body : List Command) (arg : Word) : Word :=
  (run body (Registers.zero.set LowRegister.rdi arg)).get LowRegister.rax

theorem run_cons (c : Command) (body : List Command) (rs : Registers) :
    run (c :: body) rs = run body (c.run rs) :=
  rfl

section

variable {r : Register} (hr : ∀ s : Scratch, r ≠ s.low)
include hr

/-- All other registers are kept. -/
theorem run_get (body : List Command) (rs : Registers) : (run body rs).get r = rs.get r := by
  induction body generalizing rs with
  | nil => rfl
  | cons c body ih => rw [run_cons, ih, c.run_get hr]

/-- They have no influence on the body. -/
theorem run_set (body : List Command) (rs : Registers) (v : Word) :
    run body (rs.set r v) = (run body rs).set r v := by
  induction body generalizing rs with
  | nil => rfl
  | cons c body ih => rw [run_cons, run_cons, c.run_set hr, ih]

end

/-- **What a body leaves in `rax`**, if it sets it at all, depends on `rdi` alone. -/
theorem run_rax {body : List Command} {rs rs' : Registers}
    (h : rs.get LowRegister.rdi = rs'.get LowRegister.rdi)
    (hrax : rs.get LowRegister.rax = rs'.get LowRegister.rax ∨
      body.any Command.setsResult = true) :
    (run body rs).get LowRegister.rax = (run body rs').get LowRegister.rax := by
  induction body generalizing rs rs' with
  | nil => exact hrax.resolve_right Bool.false_ne_true
  | cons c body ih =>
    rw [run_cons, run_cons]
    apply ih (c.run_rdi h)
    rw [List.any_cons, Bool.or_eq_true] at hrax
    rcases hrax with hsame | hsets | hlater
    · exact .inl (c.run_rax h (.inl hsame))
    · exact .inl (c.run_rax h (.inr hsets))
    · exact .inr hlater

theorem run_eq_result {body : List Command} (hsets : body.any Command.setsResult = true)
    (rs : Registers) :
    (run body rs).get LowRegister.rax = result body (rs.get LowRegister.rdi) := by
  refine run_rax ?_ (.inr hsets)
  rw [Registers.get_set, if_pos rfl]

/-! ## The routine around a body -/

/-- The bytes of a body. -/
def code (body : List Command) : List UInt8 := body.flatMap fun c => c.edit.bytes

theorem code_cons (c : Command) (body : List Command) :
    code (c :: body) = c.edit.bytes ++ code body :=
  rfl

def edits (body : List Command) : List Edit :=
  .instruction .prologue :: (body.map Command.edit ++ [.instruction .epilogue])

/-- The body between prologue and epilogue. -/
def image (body : List Command) : Image := (Draft.ofEdits (edits body)).finish

/-- No edit of the routine leaves anything open or is data. -/
theorem plain_of_mem_edits {body : List Command} {e : Edit} (he : e ∈ edits body) :
    e.open? = none ∧ e.isData = false := by
  rcases List.mem_cons.mp he with rfl | he
  · exact ⟨rfl, rfl⟩
  · rcases List.mem_append.mp he with he | he
    · obtain ⟨c, -, rfl⟩ := List.mem_map.mp he
      cases c <;> exact ⟨rfl, rfl⟩
    · obtain rfl := List.mem_singleton.mp he
      exact ⟨rfl, rfl⟩

theorem accepted_edits (body : List Command) : Edit.accepted false (edits body) = edits body :=
  Edit.accepted_eq_self (fun _ he => (plain_of_mem_edits he).2) false

theorem bytes_image (body : List Command) :
    (image body).bytes = [0x55] ++ ([0x48, 0x89, 0xE5] ++ (code body ++ ([0x5D] ++ [0xC3]))) := by
  have hbytes := Draft.bytes_run_eq Draft.empty (edits body)
  have htaken : Edit.accepted Draft.empty.data.isSome (edits body) = edits body :=
    accepted_edits body
  rw [htaken, edits, List.flatMap_cons, List.flatMap_append, List.flatMap_map] at hbytes
  exact hbytes

theorem pending_image (body : List Command) : (image body).pending = [] := by
  have hpending := Draft.pending_run_sites Draft.empty (edits body)
  have htaken : Edit.accepted Draft.empty.data.isSome (edits body) = edits body :=
    accepted_edits body
  rw [htaken, Edit.sites_eq_nil fun _ he => (plain_of_mem_edits he).1] at hpending
  exact hpending

/-- Every command takes a byte at least. -/
theorem length_le_code (body : List Command) : body.length ≤ (code body).length := by
  induction body with
  | nil => exact Nat.le_refl 0
  | cons c body ih =>
    have hpos := c.encodes.length_pos
    rw [code_cons, List.length_append, List.length_cons]
    omega

theorem length_lt_size (body : List Command) : body.length + 5 < (image body).size := by
  have hcode := length_le_code body
  rw [Image.size, bytes_image]
  simp only [List.length_append, List.length_cons, List.length_nil]
  omega

end Emplace.Framed
