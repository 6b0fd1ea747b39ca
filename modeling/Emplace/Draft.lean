import Emplace.Image

/-
  Drafts: machine code that still grows.

  Bytes are only ever added at the end.  Two kinds of addition leave a note besides their bytes: an
  instruction with an open displacement field is recorded as a pending site, and the one data
  segment is recorded as a span.  `finish` freezes the draft into an image.
-/

namespace Emplace

structure Draft where
  bytes : List UInt8
  data : Option Span
  pending : List Site
  deriving DecidableEq

namespace Draft

def empty : Draft := ⟨[], none, []⟩

/-- The offset of the next byte to be added. -/
def size (d : Draft) : Nat := d.bytes.length

def append (d : Draft) (bytes : List UInt8) : Draft := { d with bytes := d.bytes ++ bytes }

/-- The site of an instruction written at the end of the draft: `leading` and then the field. -/
def nextSite (d : Draft) (leading : List UInt8) (width : FieldWidth) : Site :=
  .trailing d.size (leading.length + width.bytes) width

/-- Adds an instruction that ends in a zeroed displacement field and records its site. -/
def reserve (d : Draft) (leading : List UInt8) (width : FieldWidth) : Draft :=
  { d with
    bytes := d.bytes ++ (leading ++ List.replicate width.bytes 0)
    pending := d.pending ++ [d.nextSite leading width] }

/-- Adds the data segment.  A draft takes only one, even an empty one. -/
def appendData (d : Draft) (bytes : List UInt8) : Except Error Draft :=
  match d.data with
  | some _ => .error .secondData
  | none =>
      .ok { d with bytes := d.bytes ++ bytes, data := some ⟨d.size, d.size + bytes.length⟩ }

/-- Freezes the layout: from here on only displacement fields change. -/
def finish (d : Draft) : Image := ⟨d.bytes, d.data, d.pending⟩

end Draft

end Emplace
