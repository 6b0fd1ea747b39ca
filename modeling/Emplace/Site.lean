import Emplace.Offset
import Emplace.LittleEndian
import Emplace.Error

/-
  Sites: the places in machine code that wait for a displacement.

  An instruction that names a target holds the signed distance from its own end to that target.
  A `Site` says where such an instruction lies and where in it the distance is written, as
  offsets from the start of the code.  `Site.distance` measures; `FieldWidth.encode` writes.

  Main statements: `distance_eq_ok_iff` (the distance is exact or refused) and
  `FieldWidth.encode_eq_ok_iff` (a field takes exactly the signed values of its width).
-/

namespace Emplace

/-- How wide a displacement field is. -/
inductive FieldWidth
  /-- One signed byte. -/
  | rel8
  /-- Four signed bytes. -/
  | rel32
  deriving DecidableEq

namespace FieldWidth

def bytes : FieldWidth → Nat
  | rel8 => 1
  | rel32 => 4

def bits (w : FieldWidth) : Nat := 8 * w.bytes

/-- Half the number of values that a field of this width has. -/
def bound : FieldWidth → Int
  | rel8 => 0x80
  | rel32 => 0x80000000

/-- The signed values a field of this width can hold. -/
def Holds (w : FieldWidth) (d : Int) : Prop := -w.bound ≤ d ∧ d < w.bound

instance (w : FieldWidth) (d : Int) : Decidable (w.Holds d) := by unfold Holds; infer_instance

/-- Two's complement in the width's bytes, refused for a value they cannot hold. -/
def encode (w : FieldWidth) (d : Int) : Except Error (List UInt8) :=
  if w.Holds d then .ok (LittleEndian.encodeInt w.bytes d) else .error (.fieldOverflow d w.bits)

theorem values_bytes (w : FieldWidth) : (LittleEndian.values w.bytes : Int) = 2 * w.bound := by
  cases w <;> rfl

theorem bytes_pos (w : FieldWidth) : 0 < w.bytes := by cases w <;> decide

/-- What a field holds is read back from it. -/
theorem decodeInt_of_holds {w : FieldWidth} {d : Int} (h : w.Holds d) :
    LittleEndian.decodeInt (LittleEndian.encodeInt w.bytes d) = d := by
  obtain ⟨lo, hi⟩ := h
  have hv := w.values_bytes
  exact LittleEndian.decodeInt_encodeInt (by omega) (by omega)

theorem encode_eq_ok_iff {w : FieldWidth} {d : Int} {bs : List UInt8} :
    w.encode d = .ok bs ↔ w.Holds d ∧ bs = LittleEndian.encodeInt w.bytes d := by
  unfold encode
  split <;> simp_all [eq_comm]

theorem encode_eq_error_iff {w : FieldWidth} {d : Int} {e : Error} :
    w.encode d = .error e ↔ ¬ w.Holds d ∧ e = .fieldOverflow d w.bits := by
  unfold encode
  split <;> simp_all [eq_comm]

end FieldWidth

/-- A displacement field and the instruction that it belongs to. -/
structure Site where
  /-- Where the instruction starts. -/
  start : Nat
  /-- How long the instruction is. -/
  length : Nat
  /-- Where the field starts. -/
  field : Nat
  width : FieldWidth
  deriving DecidableEq

namespace Site

/-- The site of an instruction whose last bytes are the field.  Both sums stay in the range of
    offsets, so an instruction beyond that range, or one shorter than the field, gets a field that
    no code contains. -/
def trailing (start length : Nat) (width : FieldWidth) : Site :=
  ⟨start, length, Offset.saturatingAdd start length - width.bytes, width⟩

/-- The offset after the instruction, or the largest offset when there is none. -/
def stop (s : Site) : Nat := Offset.saturatingAdd s.start s.length

/-- The signed distance from the end of the instruction to `target`, refused when either is no
    non-negative signed word. -/
def distance (s : Site) (target : Nat) : Except Error Int :=
  if target < Offset.signedLimit ∧ s.stop < Offset.signedLimit then
    .ok (Offset.signedSub target s.stop)
  else .error (.fieldOverflow (Offset.signedLimit - 1) 64)

/-! ## The distance is exact or refused -/

/-- Saturation never yields a wrong distance: every saturated end is refused. -/
theorem distance_eq_ok_iff {s : Site} {target : Nat} {d : Int} :
    s.distance target = .ok d ↔
      target < Offset.signedLimit ∧ s.start + s.length < Offset.signedLimit ∧
        d = target - (s.start + s.length : Nat) := by
  simp only [distance, stop, Offset.saturatingAdd_lt_signedLimit_iff]
  split
  · rename_i h
    rw [Offset.saturatingAdd_of_lt_signedLimit h.2, Offset.signedSub_eq h.1 h.2]
    simp only [Except.ok.injEq]
    exact ⟨fun hd => ⟨h.1, h.2, hd.symm⟩, fun hd => hd.2.2.symm⟩
  · rename_i h
    simp only [reduceCtorEq, false_iff]
    exact fun hd => h ⟨hd.1, hd.2.1⟩

theorem distance_eq_error_iff {s : Site} {target : Nat} {e : Error} :
    s.distance target = .error e ↔
      ¬ (target < Offset.signedLimit ∧ s.start + s.length < Offset.signedLimit) ∧
        e = .fieldOverflow (Offset.signedLimit - 1) 64 := by
  simp only [distance, stop, Offset.saturatingAdd_lt_signedLimit_iff]
  split <;> simp_all [eq_comm]

example : (trailing 15 7 .rel32).field = 18 ∧ (trailing 15 7 .rel32).stop = 22 := by decide
example : (trailing 0 1 .rel32).field = 0 := by decide

end Site

end Emplace
