import Emplace.Site

/-
  Images: finished machine code whose length no longer changes.

  An image is a run of bytes, the part of it that is data, and the sites that still wait for their
  displacement.  The code is what lies before the data.
-/

namespace Emplace

/-- The offsets from `start` up to, but not including, `stop`. -/
structure Span where
  start : Nat
  stop : Nat
  deriving DecidableEq

structure Image where
  bytes : List UInt8
  /-- The one data segment. -/
  data : Option Span
  /-- The recorded sites without a displacement, in the order of recording. -/
  pending : List Site
  deriving DecidableEq

namespace Image

def size (image : Image) : Nat := image.bytes.length

/-- The bytes before the data segment; all of them when there is none. -/
def code (image : Image) : List UInt8 :=
  match image.data with
  | some span => image.bytes.take span.start
  | none => image.bytes

/-- The bytes of the data segment. -/
def dataBytes (image : Image) : List UInt8 :=
  match image.data with
  | some span => (image.bytes.drop span.start).take (span.stop - span.start)
  | none => []

end Image

end Emplace
