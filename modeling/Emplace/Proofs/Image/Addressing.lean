import Mathlib.Algebra.Group.Nat.Defs
import Emplace.Proofs.Image.Domain
import Emplace.Proofs.Region.Loaded

/-
  Where a resolved field leads.

  A resolution that succeeds writes one field and settles one site (`patched_of_resolve`).  The field
  then holds the displacement in two's complement, and reading it back gives the very number that
  was answered, whichever of the two widths it has (`Patched.decodeInt_contents`).

  The processor knows no targets.  It extends what it reads in the field to a word, with the sign,
  and adds it to the address behind the instruction.  That address and the one of the target move
  together with the image, and sums of addresses wrap around, so wherever the image lies the sum is
  the address of the target (`Patched.leads`).  A copy of the image is as good as the image.
-/

namespace Emplace

/-- The contents of a field as the processor adds them to an address: extended to a word, with the
    sign. -/
def Word.ofField (bytes : List UInt8) : Word :=
  (BitVec.ofNat (8 * bytes.length) (LittleEndian.decode bytes)).signExtend 64

namespace LittleEndian

theorem values_eq_two_pow (n : Nat) : values n = 2 ^ (8 * n) := by
  induction n with
  | zero => rfl
  | succ n ih =>
    have hexp : 8 * (n + 1) = 8 * n + 8 := by omega
    rw [values, ih, hexp, Nat.pow_add, Nat.mul_comm]

/-- Extending with the sign is reading in two's complement. -/
theorem ofField_eq_ofInt_decodeInt (bytes : List UInt8) :
    Word.ofField bytes = BitVec.ofInt 64 (decodeInt bytes) := by
  rw [Word.ofField, BitVec.signExtend, BitVec.toInt_ofNat', decodeInt, values_eq_two_pow]

end LittleEndian

namespace Image

/-- **A resolution that succeeds** answers the exact displacement and writes it. -/
theorem patched_of_resolve {image image' : Image} {s : Site} {target : Nat} {d : Int}
    (h : image.resolve s target = .ok (d, image')) :
    d = s.displacement target ∧ s.width.Holds d ∧ s.start + s.length < Offset.signedLimit ∧
      image.Patched s d image' := by
  obtain ⟨hadmits, hdistance, hholds, rfl⟩ := resolve_eq_ok_iff.mp h
  obtain ⟨-, hstop, hd⟩ := Site.distance_eq_ok_iff.mp hdistance
  exact ⟨hd, hholds, hstop, patched_of_admits (admits_sound hadmits) d⟩

namespace Patched

variable {image image' : Image} {s : Site} {d : Int}

/-- What was written is read back. -/
theorem decodeInt_contents (h : image.Patched s d image') (hholds : s.width.Holds d) :
    LittleEndian.decodeInt (s.contents image'.bytes) = d := by
  rw [h.field]
  exact FieldWidth.decodeInt_of_holds hholds

/-- **The address that the processor forms is that of the target**, wherever the code lies. -/
theorem leads {target : Nat} (h : image.Patched s (s.displacement target) image')
    (hholds : s.width.Holds (s.displacement target))
    (hstop : s.start + s.length < Offset.signedLimit) (base : Word) :
    base + BitVec.ofNat 64 s.stop + Word.ofField (s.contents image'.bytes) =
      base + BitVec.ofNat 64 target := by
  rw [LittleEndian.ofField_eq_ofInt_decodeInt, h.decodeInt_contents hholds, Site.stop,
    Offset.saturatingAdd_of_lt_signedLimit hstop]
  exact Word.add_ofInt_sub base _ target

/-- A memory that carries the image carries what the field holds. -/
theorem load_field (h : image.Patched s d image') {m : X64.Memory} {base : Word}
    (hm : m.Carries base image'.bytes) :
    m.load s.width.bytes (base + BitVec.ofNat 64 s.field) = some (s.contents image'.bytes) := by
  have hlength : (s.contents image'.bytes).length = s.width.bytes := by
    rw [h.field]
    exact LittleEndian.length_encodeInt _ _
  rw [← hlength]
  exact X64.Memory.load_of_read (hm.slice s.field s.width.bytes).read

end Patched

/-- **What a resolution that succeeds leaves, and where it leads.**  The answer is the exact distance
    from the end of the instruction to the target.  The field holds it; all other bytes, the length
    and the data segment are as they were; and the sites that are still pending are all that differ
    from this one, in their old order.  At every base the processor comes from the field to the
    target, and so it does in every region into which the image is copied. -/
theorem resolve_leads {image image' : Image} {s : Site} {target : Nat} {d : Int}
    (h : image.resolve s target = .ok (d, image')) :
    d = target - (s.start + s.length : Nat) ∧
    LittleEndian.decodeInt (s.contents image'.bytes) = d ∧
    image.Patched s d image' ∧
    (∀ base : Word,
      base + BitVec.ofNat 64 s.stop + Word.ofField (s.contents image'.bytes) =
        base + BitVec.ofNat 64 target) ∧
    ∀ (kernel : Kernel) (region : Region) (payload : Payload), region.Reachable →
      (region.load kernel image').answer = .ok payload →
        ∃ bytes, payload.region.memory.load s.width.bytes
            (payload.entry + BitVec.ofNat 64 s.field) = some bytes ∧
          payload.entry + BitVec.ofNat 64 s.stop + Word.ofField bytes =
            payload.entry + BitVec.ofNat 64 target := by
  obtain ⟨rfl, hholds, hstop, hpatched⟩ := patched_of_resolve h
  refine ⟨rfl, hpatched.decodeInt_contents hholds, hpatched, hpatched.leads hholds hstop, ?_⟩
  intro kernel region payload hregion hload
  have hcarries := Region.carries_of_load hregion hload
  exact ⟨_, hpatched.load_field hcarries, hpatched.leads hholds hstop payload.entry⟩

/-- A reference backwards to the first byte, in code whose end lies at the last address. -/
theorem resolve_leads_backwards :
    let s : Site := .trailing 4 7 .rel32
    let image : Image := ⟨[0x90, 0x90, 0x90, 0x90, 0x48, 0x8D, 0x35, 0, 0, 0, 0], none, [s]⟩
    let image' : Image :=
      ⟨[0x90, 0x90, 0x90, 0x90, 0x48, 0x8D, 0x35, 0xF5, 0xFF, 0xFF, 0xFF], none, []⟩
    let base : Word := 0xFFFFFFFFFFFFFFF5#64
    image.resolve s 0 = .ok (-11, image') ∧
    LittleEndian.decodeInt [0xF5, 0xFF, 0xFF, 0xFF] = -11 ∧
    base + BitVec.ofNat 64 s.stop + Word.ofField (s.contents image'.bytes) =
      base + BitVec.ofNat 64 0 := by
  intro s image image' base
  have hresolve : image.resolve s 0 = .ok (-11, image') :=
    resolve_eq_ok_iff.mpr ⟨by decide, rfl, by decide, by decide⟩
  obtain ⟨-, hdecode, -, hleads, -⟩ := resolve_leads hresolve
  exact ⟨hresolve, hdecode, hleads base⟩

end Image

end Emplace
