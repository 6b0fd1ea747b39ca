import Emplace.X64.Decode
import Emplace.X64.Emission

/-
  Encodings: the bytes that the processor reads back as an instruction.

  `Encodes bytes i` says that a reader which finds `bytes` in front of anything takes exactly these
  bytes and reads `i`.  Nothing behind an encoding can change how it is read, so the division of
  code into instructions never depends on what an immediate value, a displacement or the data
  behind the code happens to look like.

  An emission is one instruction or, for a frame, two.  `Emission.parts` gives them with their
  bytes when the open field holds a displacement, and `encodes_of_mem_parts` says that they are
  encodings as long as the field can hold it.  `encode_eq_flatMap_parts` says that there is nothing
  else in the emission.
-/

namespace Emplace.X64

/-- Whatever follows, reading takes these bytes and finds this instruction. -/
structure Encodes (bytes : List UInt8) (i : Instruction) : Prop where
  length_pos : 0 < bytes.length
  length_le : bytes.length ≤ maxLength
  read_append : ∀ rest, readInstruction (bytes ++ rest) = .ok (i, rest)

/-- Decoding finds the instruction at the front of a list and its length. -/
theorem Encodes.decode_append {bytes : List UInt8} {i : Instruction} (h : Encodes bytes i)
    (rest : List UInt8) : decode (bytes ++ rest) = .instruction i bytes.length := by
  have hwindow : (bytes ++ rest).take maxLength =
      bytes ++ rest.take (maxLength - bytes.length) := by
    rw [List.take_append, List.take_of_length_le h.length_le]
  simp only [decode, hwindow, h.read_append, List.length_append, Nat.add_sub_cancel]

/-! ## Instructions without a field -/

theorem encodes_mov (r : LowRegister) (v : UInt32) :
    Encodes (Emission.mov r v).leading (.movImm .dword r v.toNat) := by
  refine ⟨by simp [Emission.leading], by simp [Emission.leading, maxLength], fun rest => ?_⟩
  have hv : LittleEndian.decode (LittleEndian.encode 4 v.toNat) = v.toNat := by
    rw [LittleEndian.decode_encode]
    exact Nat.mod_eq_of_lt v.toNat_lt
  have hread : readUnsigned 4 (LittleEndian.encode 4 v.toNat ++ rest) = _ :=
    readUnsigned_append (LittleEndian.length_encode 4 v.toNat)
  rw [hv] at hread
  -- the opcode names the register, so it is read register by register
  cases r <;>
    simp [readInstruction, readRex, Emission.leading, LowRegister.code, Rex.ofByte?, readOpcode,
      Rex.absent, Rex.width, hread, LowRegister.ofCode]

theorem encodes_syscall : Encodes Emission.syscall.leading .syscall :=
  ⟨by decide, by decide, fun rest => by
    simp [Emission.leading, readInstruction, readRex, Rex.ofByte?, readOpcode, readExtended]⟩

theorem encodes_ret : Encodes [0xC3] .ret :=
  ⟨by decide, by decide, fun rest => by simp [readInstruction, readRex, Rex.ofByte?, readOpcode]⟩

theorem encodes_push_rbp : Encodes [0x55] (.push LowRegister.rbp) :=
  ⟨by decide, by decide, fun rest => by
    simp [readInstruction, readRex, Rex.ofByte?, readOpcode, LowRegister.ofCode, Rex.absent]⟩

theorem encodes_pop_rbp : Encodes [0x5D] (.pop LowRegister.rbp) :=
  ⟨by decide, by decide, fun rest => by
    simp [readInstruction, readRex, Rex.ofByte?, readOpcode, LowRegister.ofCode, Rex.absent]⟩

theorem encodes_mov_rbp_rsp :
    Encodes [0x48, 0x89, 0xE5] (.mov .qword LowRegister.rbp LowRegister.rsp) :=
  ⟨by decide, by decide, fun rest => by
    simp [readInstruction, readRex, Rex.ofByte?, readOpcode, readWithOperand, readOperand,
      LowRegister.ofCode, Rex.absent, Rex.register, Rex.width]⟩

/-! ## Instructions that end in a field -/

/-- The operand byte for a register and an address relative to the instruction. -/
theorem readOperand_relative (rex : Rex) (r : LowRegister) {field : List UInt8}
    (hf : field.length = 4) (rest : List UInt8) :
    readOperand rex (UInt8.ofNat (0x05 + 8 * r.code) :: (field ++ rest)) =
      .ok ((r.code, .memory (.relative (LittleEndian.decodeInt field))), rest) := by
  have hread : readSigned 4 (field ++ rest) = _ := readSigned_append hf
  cases r <;> simp [readOperand, LowRegister.code, hread]

theorem encodes_lea (r : LowRegister) {field : List UInt8} (hf : field.length = 4) :
    Encodes ((Emission.lea r).leading ++ field)
      (.lea .qword r (.relative (LittleEndian.decodeInt field))) := by
  refine ⟨by simp [Emission.leading], by simp [Emission.leading, maxLength, hf], fun rest => ?_⟩
  show readInstruction (0x48 :: 0x8D :: UInt8.ofNat (0x05 + 8 * r.code) :: (field ++ rest)) = _
  have hread := fun rex => readOperand_relative rex r hf rest
  -- from here on only the reading of the operand byte matters, not its value
  generalize UInt8.ofNat (0x05 + 8 * r.code) = operand at hread ⊢
  simp [readInstruction, readRex, Rex.ofByte?, readOpcode, readWithOperand, hread, Rex.register,
    Rex.width, r.ofCode_code]

theorem encodes_jmpNear {field : List UInt8} (hf : field.length = 4) :
    Encodes (Emission.jmpNear.leading ++ field) (.jmp .rel32 (LittleEndian.decodeInt field)) := by
  refine ⟨by simp [Emission.leading], by simp [Emission.leading, maxLength, hf], fun rest => ?_⟩
  have hread : readSigned 4 (field ++ rest) = _ := readSigned_append hf
  simp [readInstruction, readRex, Emission.leading, Rex.ofByte?, readOpcode, hread]

theorem encodes_jmpShort {field : List UInt8} (hf : field.length = 1) :
    Encodes (Emission.jmpShort.leading ++ field) (.jmp .rel8 (LittleEndian.decodeInt field)) := by
  refine ⟨by simp [Emission.leading], by simp [Emission.leading, maxLength, hf], fun rest => ?_⟩
  have hread : readSigned 1 (field ++ rest) = _ := readSigned_append hf
  simp [readInstruction, readRex, Emission.leading, Rex.ofByte?, readOpcode, hread]

/-! ## Emissions as instructions -/

/-- An instruction with its bytes. -/
structure Part where
  bytes : List UInt8
  instruction : Instruction
  deriving DecidableEq

namespace Emission

/-- The bytes of the emission with a displacement in its field. -/
def encode (e : Emission) (d : Int) : List UInt8 :=
  e.leading ++ ((e.field?.map fun w => LittleEndian.encodeInt w.bytes d).getD [])

/-- The instructions of the emission with a displacement in its field. -/
def parts (e : Emission) (d : Int) : List Part :=
  match e with
  | mov r v => [⟨e.encode d, .movImm .dword r v.toNat⟩]
  | lea r => [⟨e.encode d, .lea .qword r (.relative d)⟩]
  | jmpNear => [⟨e.encode d, .jmp .rel32 d⟩]
  | jmpShort => [⟨e.encode d, .jmp .rel8 d⟩]
  | syscall => [⟨e.encode d, .syscall⟩]
  | ret => [⟨e.encode d, .ret⟩]
  | prologue => [⟨[0x55], .push LowRegister.rbp⟩,
      ⟨[0x48, 0x89, 0xE5], .mov .qword LowRegister.rbp LowRegister.rsp⟩]
  | epilogue => [⟨[0x5D], .pop LowRegister.rbp⟩, ⟨[0xC3], .ret⟩]

@[simp] theorem length_encode (e : Emission) (d : Int) : (e.encode d).length = e.length := by
  rw [encode, length, List.length_append]
  cases e.field? <;> simp

theorem encode_eq_flatMap_parts (e : Emission) (d : Int) :
    e.encode d = (e.parts d).flatMap Part.bytes := by
  cases e <;> simp [parts, encode, leading, field?]

/-- The instructions of an emission are read back from its bytes. -/
theorem encodes_of_mem_parts {e : Emission} {d : Int} (h : ∀ w ∈ e.field?, w.Holds d) {p : Part}
    (hp : p ∈ e.parts d) : Encodes p.bytes p.instruction := by
  -- the field of a width is read back when it holds the displacement
  have hback : ∀ w ∈ e.field?, LittleEndian.decodeInt (LittleEndian.encodeInt w.bytes d) = d :=
    fun w hw => FieldWidth.decodeInt_of_holds (h w hw)
  cases e with
  | mov r v =>
    obtain rfl := List.mem_singleton.mp hp
    simpa [encode, field?] using encodes_mov r v
  | lea r =>
    obtain rfl := List.mem_singleton.mp hp
    have henc := encodes_lea r (LittleEndian.length_encodeInt FieldWidth.rel32.bytes d)
    rw [hback .rel32 rfl] at henc
    exact henc
  | jmpNear =>
    obtain rfl := List.mem_singleton.mp hp
    have henc := encodes_jmpNear (LittleEndian.length_encodeInt FieldWidth.rel32.bytes d)
    rw [hback .rel32 rfl] at henc
    exact henc
  | jmpShort =>
    obtain rfl := List.mem_singleton.mp hp
    have henc := encodes_jmpShort (LittleEndian.length_encodeInt FieldWidth.rel8.bytes d)
    rw [hback .rel8 rfl] at henc
    exact henc
  | syscall =>
    obtain rfl := List.mem_singleton.mp hp
    exact encodes_syscall
  | ret =>
    obtain rfl := List.mem_singleton.mp hp
    exact encodes_ret
  | prologue =>
    rcases List.mem_cons.mp hp with rfl | hp
    · exact encodes_push_rbp
    · obtain rfl := List.mem_singleton.mp hp
      exact encodes_mov_rbp_rsp
  | epilogue =>
    rcases List.mem_cons.mp hp with rfl | hp
    · exact encodes_pop_rbp
    · obtain rfl := List.mem_singleton.mp hp
      exact encodes_ret

end Emission

/-! ## Decoders -/

/-- What is asked of a decoder: the instructions of emissions are read back from their bytes,
    whatever follows these, and no more bytes are taken than there are. -/
structure Decoder.ReadsBack (decode : Decoder) : Prop where
  decode_append : ∀ (e : Emission) (d : Int), (∀ w ∈ e.field?, w.Holds d) → ∀ p ∈ e.parts d,
    ∀ rest, decode (p.bytes ++ rest) = .instruction p.instruction p.bytes.length
  length_le : ∀ bytes, (decode bytes).length ≤ bytes.length

/-- The processor's own reading does that. -/
theorem decode_readsBack : Decoder.ReadsBack decode where
  decode_append e d h p hp rest := (Emission.encodes_of_mem_parts h hp).decode_append rest
  length_le bytes := by
    have hwindow : (bytes.take maxLength).length ≤ bytes.length := by
      rw [List.length_take]
      exact Nat.min_le_right _ _
    unfold decode
    dsimp only
    split
    · exact Nat.le_trans (Nat.sub_le _ _) hwindow
    · exact hwindow
    · exact Nat.le_trans (Nat.min_le_right _ _) hwindow

end Emplace.X64
