/-
  Offsets, lengths and addresses as natural numbers.

  An offset of a 64-bit machine is a natural number below `limit = 2 ^ 64`.  The sums taken of them
  never wrap: `saturatingAdd` stops at the largest offset and `checkedAdd` refuses a sum that is
  not an offset.  Two operations are done on words: `clear` takes bits away, and `signedSub`
  subtracts signed words.  Everything else is plain arithmetic on `Nat`, so a statement about
  offsets is one about exact sums.  Only the addresses that the processor forms wrap
  (`Word.advance`).
-/

namespace Emplace

/-- A general register, or an address the processor forms. -/
abbrev Word := BitVec 64

namespace Offset

/-- The number of offsets a 64-bit machine has. -/
def limit : Nat := 0x10000000000000000

/-- The number of offsets that are also non-negative signed words. -/
def signedLimit : Nat := 0x8000000000000000

/-- The sum, or the largest offset when the sum is none. -/
def saturatingAdd (a b : Nat) : Nat := min (a + b) (limit - 1)

/-- The sum, when it is an offset. -/
def checkedAdd (a b : Nat) : Option Nat := if a + b < limit then some (a + b) else none

/-- The offset with no bit that is set in the mask. -/
def clear (n mask : Nat) : Nat := (BitVec.ofNat 64 n &&& ~~~BitVec.ofNat 64 mask).toNat

/-- The difference of two signed words.  It is a signed word, too, so a large one would wrap. -/
def signedSub (a b : Nat) : Int := (BitVec.ofNat 64 a - BitVec.ofNat 64 b).toInt

/-! ## Each sum in exact arithmetic -/

/-- A non-negative signed word is an offset. -/
theorem lt_limit_of_lt_signedLimit {n : Nat} (h : n < signedLimit) : n < limit :=
  Nat.lt_trans h (by decide)

theorem saturatingAdd_eq_of_lt {a b : Nat} (h : a + b < limit) : saturatingAdd a b = a + b :=
  Nat.min_eq_left (by omega)

/-- Saturation is seen only above every non-negative signed word. -/
theorem saturatingAdd_lt_signedLimit_iff (a b : Nat) :
    saturatingAdd a b < signedLimit ↔ a + b < signedLimit := by
  simp only [saturatingAdd, limit, signedLimit]
  omega

theorem saturatingAdd_of_lt_signedLimit {a b : Nat} (h : a + b < signedLimit) :
    saturatingAdd a b = a + b :=
  saturatingAdd_eq_of_lt (lt_limit_of_lt_signedLimit h)

theorem checkedAdd_eq_some_iff {a b c : Nat} :
    checkedAdd a b = some c ↔ a + b = c ∧ c < limit := by
  unfold checkedAdd
  split <;> simp only [Option.some.injEq, reduceCtorEq, false_iff] <;> omega

/-! ## Each operation on words in exact arithmetic -/

theorem toNat_ofNat_of_lt {n : Nat} (h : n < limit) : (BitVec.ofNat 64 n).toNat = n := by
  rw [BitVec.toNat_ofNat]
  exact Nat.mod_eq_of_lt h

theorem toInt_ofNat_of_lt {n : Nat} (h : n < signedLimit) : (BitVec.ofNat 64 n).toInt = n := by
  have hn : (BitVec.ofNat 64 n).toNat = n := toNat_ofNat_of_lt (lt_limit_of_lt_signedLimit h)
  have hshort : 2 * (BitVec.ofNat 64 n).toNat < 2 ^ 64 := by
    simp only [signedLimit] at h
    omega
  rw [BitVec.toInt_eq_toNat_of_lt hshort, hn]

/-- What is left and what is taken away have no bit in common, so they add up. -/
theorem clear_add_and {n mask : Nat} (hn : n < limit) (hmask : mask < limit) :
    clear n mask + (n &&& mask) = n := by
  let word := BitVec.ofNat 64 n
  let bits := BitVec.ofNat 64 mask
  have hapart : (word &&& ~~~bits) &&& (word &&& bits) = 0#64 := by
    ext i
    simp only [BitVec.getElem_and, BitVec.getElem_not, BitVec.getElem_zero]
    cases word[i] <;> cases bits[i] <;> rfl
  have hboth : (word &&& ~~~bits) ||| (word &&& bits) = word := by
    ext i
    simp only [BitVec.getElem_or, BitVec.getElem_and, BitVec.getElem_not]
    cases word[i] <;> cases bits[i] <;> rfl
  have htaken : (word &&& bits).toNat = n &&& mask := by
    rw [BitVec.toNat_and, toNat_ofNat_of_lt hn, toNat_ofNat_of_lt hmask]
  calc clear n mask + (n &&& mask)
    _ = (word &&& ~~~bits).toNat + (word &&& bits).toNat := by rw [htaken, clear]
    _ = ((word &&& ~~~bits) + (word &&& bits)).toNat :=
      (BitVec.toNat_add_of_and_eq_zero hapart).symm
    _ = word.toNat := by rw [BitVec.add_eq_or_of_and_eq_zero _ _ hapart, hboth]
    _ = n := toNat_ofNat_of_lt hn

/-- The difference of two offsets that are signed words is a signed word. -/
theorem ssubOverflow_eq_false {a b : Nat} (ha : a < signedLimit) (hb : b < signedLimit) :
    (BitVec.ofNat 64 a).ssubOverflow (BitVec.ofNat 64 b) = false := by
  rw [BitVec.ssubOverflow, toInt_ofNat_of_lt ha, toInt_ofNat_of_lt hb]
  simp only [signedLimit] at ha hb
  simp only [Bool.or_eq_false_iff, decide_eq_false_iff_not]
  omega

theorem signedSub_eq {a b : Nat} (ha : a < signedLimit) (hb : b < signedLimit) :
    signedSub a b = a - b := by
  have hfits : ¬ (BitVec.ofNat 64 a).ssubOverflow (BitVec.ofNat 64 b) = true := by
    rw [ssubOverflow_eq_false ha hb]
    decide
  rw [signedSub, BitVec.toInt_sub_of_not_ssubOverflow hfits, toInt_ofNat_of_lt ha,
    toInt_ofNat_of_lt hb]

end Offset

/-! ## Addresses -/

/-- The address so many bytes on.  Short of the last address the sum is taken as it is. -/
def Word.advance (a : Word) (n : Nat) : Word :=
  if h : a.toNat + n < Offset.limit then BitVec.ofNatLT (a.toNat + n) h else a + BitVec.ofNat 64 n

theorem Word.advance_eq (a : Word) (n : Nat) : a.advance n = a + BitVec.ofNat 64 n := by
  unfold advance
  split
  · rename_i h
    apply BitVec.eq_of_toNat_eq
    simp only [Offset.limit] at h
    simp only [BitVec.toNat_ofNatLT, BitVec.toNat_add, BitVec.toNat_ofNat]
    omega
  · rfl

end Emplace
