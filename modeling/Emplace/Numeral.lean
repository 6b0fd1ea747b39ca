/-
  Hexadecimal text.

  Numbers are written without leading zeros and padded on demand; bytes always take two digits.
  Digits are lower case, and `upper` is there for the assembler's spelling.
-/

namespace Emplace.Numeral

/-- The number in lower-case hexadecimal, without leading zeros. -/
def hex (n : Nat) : String := String.ofList (Nat.toDigits 16 n)

/-- The number in upper-case hexadecimal, without leading zeros. -/
def upper (n : Nat) : String := String.ofList ((Nat.toDigits 16 n).map Char.toUpper)

/-- Pads on the left with `fill` to at least `width` characters. -/
def padStart (fill : Char) (width : Nat) (text : String) : String :=
  String.ofList (List.replicate (width - text.length) fill) ++ text

/-- Pads on the right with blanks to at least `width` characters. -/
def padEnd (width : Nat) (text : String) : String :=
  text ++ String.ofList (List.replicate (width - text.length) ' ')

/-- Hexadecimal of at least `width` digits. -/
def paddedHex (width n : Nat) : String := padStart '0' width (hex n)

/-- The two digits of a byte. -/
def byte (b : UInt8) : List Char :=
  [Nat.digitChar (b.toNat / 16), Nat.digitChar (b.toNat % 16)]

/-- Two digits for each byte, in order. -/
def bytes (bs : List UInt8) : String := String.ofList (bs.flatMap byte)

/-- Two digits for each byte, with blanks between the bytes. -/
def spacedBytes (bs : List UInt8) : String :=
  " ".intercalate (bs.map fun b => String.ofList (byte b))

example : bytes [0xB8, 0x01, 0x00] = "b80100" := by decide
example : hex 25 = "19" ∧ paddedHex 4 25 = "0019" := by decide

end Emplace.Numeral
