import Emplace.Numeral

/-
  What can go wrong between writing code and calling it.

  Every refusal of the library is a constructor of `Error` that carries the facts of the refusal;
  the sentence shown to a user is `Error.message`.  A refused mapping also says who refused it:
  the arithmetic on sizes, or the kernel with one of its error numbers.
-/

namespace Emplace

/-- An error number of the kernel. -/
inductive Errno
  | noMemory
  | accessDenied
  deriving DecidableEq

namespace Errno

def number : Errno → Nat
  | noMemory => 12
  | accessDenied => 13

def message : Errno → String
  | noMemory => "Cannot allocate memory (os error 12)"
  | accessDenied => "Permission denied (os error 13)"

end Errno

/-- Why memory was not granted. -/
inductive Denial
  /-- Rounding the size up to whole pages leaves the range of offsets. -/
  | unroundable
  /-- A writable mapping is longer than any signed word. -/
  | tooLong
  /-- The kernel answered a request for memory or permission with an error number. -/
  | kernel (errno : Errno)
  deriving DecidableEq

def Denial.message : Denial → String
  | unroundable => "out of memory"
  | tooLong => "memory map length overflows isize"
  | kernel errno => errno.message

inductive Error
  /-- A value needs more bits than its field has. -/
  | fieldOverflow (value : Int) (bits : Nat)
  /-- A site, or the target asked for, lies outside the bytes that are to be patched. -/
  | siteOutside (field width length : Nat)
  /-- A site that still waits for its target; `field` is the first such field. -/
  | unresolved (field : Nat)
  | mappingDenied (requested : Nat) (cause : Denial)
  | regionTooSmall (required available : Nat)
  | alreadyLoaded
  /-- The region lost its mapping when the kernel refused to make it executable. -/
  | mappingReleased
  | emptyCode
  /-- A draft has room for one data segment only. -/
  | secondData
  deriving DecidableEq

def Error.message : Error → String
  | fieldOverflow value bits => s!"value {value} does not fit in a {bits}-bit field"
  | siteOutside field width length =>
      s!"relocation site at 0x{Numeral.hex field} (width {width}) lies outside "
        ++ s!"a buffer of {length} bytes"
  | unresolved field => s!"relocation at 0x{Numeral.hex field} has not been resolved"
  | mappingDenied requested cause =>
      s!"executable mapping of {requested} bytes denied: {cause.message}"
  | regionTooSmall required available =>
      s!"region too small: code needs {required} bytes, region holds {available}"
  | alreadyLoaded => "region already holds a payload"
  | mappingReleased => "region mapping was released"
  | emptyCode => "cannot bind a callable to empty code"
  | secondData => "buffer already holds a data segment"

end Emplace
