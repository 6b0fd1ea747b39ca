import Emplace.Offset
import Emplace.X64.Register

/-
  The contents of the sixteen general registers.

  A register file is read and changed register by register.  Main statements: `get_set` (what a
  change does to each register) and `ext_get` (a file is known by what its registers hold).
-/

namespace Emplace.X64

namespace Register

/-- The place of the register in a file. -/
def index (r : Register) : Nat := r.low.code + if r.extended then 8 else 0

theorem index_lt (r : Register) : r.index < 16 := by
  have h := r.low.code_lt
  unfold index
  split <;> omega

theorem index_inj {r s : Register} : r.index = s.index ↔ r = s := by
  constructor
  · intro h
    obtain ⟨low, extended⟩ := r
    obtain ⟨low', extended'⟩ := s
    have hl := low.code_lt
    have hl' := low'.code_lt
    have hcode : low.code = low'.code ∧ extended = extended' := by
      unfold index at h
      cases extended <;> cases extended' <;> simp at h ⊢ <;> omega
    obtain ⟨hlow, rfl⟩ := hcode
    rw [← low.ofCode_code, hlow, low'.ofCode_code]
  · rintro rfl
    rfl

/-- The register at a place. -/
def ofIndex (i : Nat) : Register := ⟨.ofCode i, 8 ≤ i⟩

theorem index_ofIndex {i : Nat} (h : i < 16) : (ofIndex i).index = i := by
  revert i
  decide

end Register

structure Registers where
  words : Vector Word 16

namespace Registers

/-- Zero in every register. -/
def zero : Registers := ⟨Vector.replicate 16 0⟩

def get (rs : Registers) (r : Register) : Word := getElem rs.words r.index r.index_lt

/-- The file with one of the registers changed. -/
def set (rs : Registers) (r : Register) (v : Word) : Registers :=
  ⟨rs.words.set r.index v r.index_lt⟩

theorem get_set (rs : Registers) (r s : Register) (v : Word) :
    (rs.set r v).get s = if s = r then v else rs.get s := by
  simp only [get, set, Vector.getElem_set, Register.index_inj, eq_comm]

theorem ext_get {rs rs' : Registers} (h : ∀ r, rs.get r = rs'.get r) : rs = rs' := by
  obtain ⟨words⟩ := rs
  obtain ⟨words'⟩ := rs'
  congr 1
  apply Vector.ext
  intro i hi
  have hr := h (.ofIndex i)
  simpa [get, Register.index_ofIndex hi] using hr

end Registers

end Emplace.X64
