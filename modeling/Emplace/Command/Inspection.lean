import Emplace.Listing

/-
  Inspection: the report on an image.

  It shows the code line by line and the data as text, then where the system calls, the relative
  operands and the open sites are, and warns when control can run off the code.
-/

namespace Emplace.Command

/-- A character as it stands between quotes: quotes, backslashes and control characters escaped. -/
def escaped (c : Char) : List Char :=
  match c with
  | '"' => ['\\', '"']
  | '\\' => ['\\', '\\']
  | '\n' => ['\\', 'n']
  | '\r' => ['\\', 'r']
  | '\t' => ['\\', 't']
  | '\x00' => ['\\', '0']
  | c =>
      if c.toNat < 0x20 ∨ c.toNat = 0x7F then
        ['\\', 'u', '\x7b'] ++ Nat.toDigits 16 c.toNat ++ ['\x7d']
      else [c]

/-- ASCII text between quotes. -/
def quoted (bytes : List UInt8) : String :=
  String.ofList ('"' :: bytes.flatMap (fun b => escaped (Char.ofNat b.toNat)) ++ ['"'])

/-- An offset of at least four digits, marked as hexadecimal. -/
def offset (n : Nat) : String := "0x" ++ Numeral.paddedHex 4 n

def codeLine (l : Listing.Line) : String :=
  Numeral.paddedHex 4 l.offset ++ "  " ++ Numeral.padEnd 24 (Numeral.spacedBytes l.bytes) ++ l.text

def dataLine (image : Image) (span : Span) : String :=
  Numeral.paddedHex 4 span.start ++ "  data " ++ quoted image.dataBytes

/-- The lines of the report. -/
def inspection (image : Image) : List String :=
  let code := Listing.ofImage X64.decode image
  code.map codeLine ++
    (image.data.map (dataLine image)).toList ++
    (Listing.syscalls code).map (fun call => "syscall at " ++ offset call.1) ++
    (Listing.relativeTargets code).map (fun use =>
      "rip-relative at " ++ offset use.1 ++ " -> " ++ offset use.2) ++
    image.pending.map (fun site => "unresolved placeholder at " ++ offset site.field) ++
    if Listing.fallsThrough code then ["warning: code falls through into data"] else []

end Emplace.Command
