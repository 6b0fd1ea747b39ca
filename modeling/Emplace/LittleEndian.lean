/-
  Little-endian numerals of a fixed number of bytes.

  `n` bytes have `values n` values: 256 for each byte.  `encode n v` writes the residue of `v`
  modulo `values n`, lowest byte first, and `decode` reads any list of bytes back.  `encodeInt` and
  `decodeInt` do the same for two's complement.  Reading undoes writing:

    * `decode (encode n v) = v % values n` (`decode_encode`),
    * `decodeInt (encodeInt n v) = v` for every `v` that `n` bytes can hold (`decodeInt_encodeInt`).
-/

namespace Emplace.LittleEndian

/-- How many values `n` bytes have. -/
def values : Nat → Nat
  | 0 => 1
  | n + 1 => 256 * values n

def encode : Nat → Nat → List UInt8
  | 0, _ => []
  | n + 1, v => UInt8.ofNat v :: encode n (v / 256)

def decode : List UInt8 → Nat
  | [] => 0
  | b :: bs => b.toNat + 256 * decode bs

/-- Two's complement: a negative value is written as its residue. -/
def encodeInt (n : Nat) (v : Int) : List UInt8 := encode n (v % (values n : Int)).toNat

/-- Two's complement: the upper half of the residues stands for the negative values. -/
def decodeInt (bytes : List UInt8) : Int := (decode bytes : Int).bmod (values bytes.length)

/-! ## Lengths -/

theorem values_pos (n : Nat) : 0 < values n := by
  induction n with
  | zero => exact Nat.one_pos
  | succ n ih => exact Nat.mul_pos (by decide) ih

@[simp] theorem length_encode (n v : Nat) : (encode n v).length = n := by
  induction n generalizing v with
  | zero => rfl
  | succ n ih => simp [encode, ih]

@[simp] theorem length_encodeInt (n : Nat) (v : Int) : (encodeInt n v).length = n :=
  length_encode _ _

theorem encode_zero (n : Nat) : encode n 0 = List.replicate n 0 := by
  induction n with
  | zero => rfl
  | succ n ih => simpa [encode, List.replicate_succ] using ih

theorem encodeInt_zero (n : Nat) : encodeInt n 0 = List.replicate n 0 := by
  rw [encodeInt, Int.zero_emod]
  exact encode_zero n

/-! ## Reading undoes writing -/

theorem decode_encode (n v : Nat) : decode (encode n v) = v % values n := by
  induction n generalizing v with
  | zero => simp [encode, decode, values, Nat.mod_one]
  | succ n ih =>
    have hb : (UInt8.ofNat v).toNat = v % 256 := by simp
    rw [encode, decode, ih, hb, values, Nat.mod_mul]

/-- The residue that two's complement writes. -/
theorem decode_encodeInt (n : Nat) (v : Int) : (decode (encodeInt n v) : Int) = v % values n := by
  have hpos : (0 : Int) < values n := Int.natCast_pos.mpr (values_pos n)
  have h0 : 0 ≤ v % values n := Int.emod_nonneg _ (by omega)
  have h1 : v % values n < values n := Int.emod_lt_of_pos _ hpos
  rw [encodeInt, decode_encode, Nat.mod_eq_of_lt (by omega)]
  omega

theorem decodeInt_encodeInt_eq_bmod (n : Nat) (v : Int) :
    decodeInt (encodeInt n v) = v.bmod (values n) := by
  rw [decodeInt, decode_encodeInt, length_encodeInt, Int.emod_bmod]

/-- Two's complement reads back every value in its range. -/
theorem decodeInt_encodeInt {n : Nat} {v : Int} (lo : -(values n : Int) ≤ 2 * v)
    (hi : 2 * v < values n) : decodeInt (encodeInt n v) = v := by
  rw [decodeInt_encodeInt_eq_bmod]
  exact Int.bmod_eq_of_le_mul_two (by omega) (by omega)

example : encode 4 0x01020304 = [0x04, 0x03, 0x02, 0x01] := by decide
example : encodeInt 4 (-2) = [0xFE, 0xFF, 0xFF, 0xFF] := by decide
example : decodeInt [0x80] = -128 ∧ decodeInt [0x7F] = 127 := by decide

end Emplace.LittleEndian
