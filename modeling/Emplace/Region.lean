import Emplace.Region.Kernel
import Emplace.Event

/-
  Regions: memory that machine code is stored in once and then executed from.

  A region is acquired from the kernel for a number of bytes; it is mapped in whole pages, all zero.
  Under the strategy `rwx` it is writable and executable from the start.  Under `staged` it is
  writable first, and executable in place of that once it is loaded; if the kernel refuses the
  change, the mapping is given back and the region stays without one.

  `Region.readable` is the view the rest of the library reasons with: the bytes of the region as
  long as it is mapped.
-/

namespace Emplace

/-- The number of bytes the kernel maps at once. -/
def pageSize : Nat := 4096

/-- The least multiple of `page`, a power of two, that holds `size` bytes and is not zero, when it
    is an offset. -/
def roundUp? (page size : Nat) : Option Nat :=
  (Offset.checkedAdd (max size 1) (page - 1)).map fun n => Offset.clear n (page - 1)

/-- Mapped memory: what was stored at its start, and zeros from there on. -/
structure Pages where
  capacity : Nat
  place : Place capacity
  stored : List UInt8

namespace Pages

/-- All bytes of the memory. -/
def bytes (p : Pages) : List UInt8 := p.stored ++ List.replicate (p.capacity - p.stored.length) 0

/-- Stores bytes at the start. -/
def store (p : Pages) (new : List UInt8) : Pages :=
  { p with stored := new ++ p.stored.drop new.length }

end Pages

/-- What the region's memory may be used for besides reading. -/
inductive Mapping
  /-- Writing and executing. -/
  | both (pages : Pages)
  | writable (pages : Pages)
  | executable (pages : Pages)
  /-- There is no memory any more. -/
  | gone

namespace Mapping

def pages? : Mapping → Option Pages
  | both pages => some pages
  | writable pages => some pages
  | executable pages => some pages
  | gone => none

def isExecutable : Mapping → Bool
  | both _ => true
  | executable _ => true
  | _ => false

def isWritable : Mapping → Bool
  | both _ => true
  | writable _ => true
  | _ => false

end Mapping

structure Region where
  /-- Which of all mappings asked for this one is. -/
  ticket : Nat
  mapping : Mapping
  /-- The number of bytes that were asked for. -/
  size : Nat
  loaded : Bool

namespace Region

/-- The number of bytes mapped. -/
def capacity (r : Region) : Nat :=
  match r.mapping.pages? with
  | some pages => pages.capacity
  | none => 0

/-- The address of the first byte; zero when there is no mapping. -/
def base (r : Region) : Word :=
  match r.mapping.pages? with
  | some pages => pages.place.base
  | none => 0

/-- Whether the processor may fetch instructions from the region. -/
def executable (r : Region) : Bool := r.mapping.isExecutable

/-- The bytes that were asked for, as long as they are mapped. -/
def readable (r : Region) : List UInt8 :=
  match r.mapping.pages? with
  | some pages => pages.bytes.take r.size
  | none => []

/-- How many bytes are readable. -/
def readableSize (r : Region) : Nat :=
  match r.mapping.pages? with
  | some pages => min r.size (pages.stored.length + (pages.capacity - pages.stored.length))
  | none => 0

/-- The list without the zeros at its end. -/
def trimZeros (bytes : List UInt8) : List UInt8 := (bytes.reverse.dropWhile (· = 0)).reverse

/-- The readable bytes up to the last one that is not zero.  The zeros behind the stored bytes are
    not looked at. -/
def trimmed (r : Region) : List UInt8 :=
  match r.mapping.pages? with
  | some pages => trimZeros (pages.stored.take r.size)
  | none => []

/-- The region's facts on one line, or on a line each; `address` shows where it lies. -/
def describe (r : Region) (address : Word → String) (onLines : Bool) : String :=
  let fields := [
    s!"base: {address r.base}", s!"len: {r.size}", s!"capacity: {r.capacity}",
    s!"executable: {r.executable}", s!"loaded: {r.loaded}"]
  if onLines then
    "ExecutableRegion \x7b\n" ++ String.join (fields.map fun f => "    " ++ f ++ ",\n") ++ "\x7d"
  else
    "ExecutableRegion \x7b " ++ ", ".intercalate fields ++ " \x7d"

/-! ## The short ways to the readable bytes -/

theorem readableSize_eq (r : Region) : r.readableSize = r.readable.length := by
  unfold readableSize readable
  cases r.mapping.pages? with
  | none => rfl
  | some pages => simp [Pages.bytes]

theorem trimZeros_append_replicate (bytes : List UInt8) (n : Nat) :
    trimZeros (bytes ++ List.replicate n 0) = trimZeros bytes := by
  have h : ∀ rest : List UInt8,
      (List.replicate n 0 ++ rest).dropWhile (· = 0) = rest.dropWhile (· = 0) := by
    intro rest
    induction n with
    | zero => rfl
    | succ n ih => simp [List.replicate_succ, ih]
  rw [trimZeros, List.reverse_append, List.reverse_replicate, h]
  rfl

/-- Nothing but zeros lies behind the stored bytes. -/
theorem trimmed_eq (r : Region) : r.trimmed = trimZeros r.readable := by
  unfold trimmed readable
  cases r.mapping.pages? with
  | none => rfl
  | some pages =>
    show _ = trimZeros (pages.bytes.take r.size)
    rw [Pages.bytes, List.take_append, List.take_replicate, trimZeros_append_replicate]

/-! ## Acquiring and releasing -/

/-- Asks the kernel for a region of `size` bytes, in whole pages of `page` bytes.  A size that cannot
    be rounded up to pages never reaches the kernel, and a staged one that is no signed word is
    refused before it does; the first of these is not reported. -/
def acquireIn (page : Nat) (kernel : Kernel) (ticket size : Nat) (strategy : Strategy) :
    Except Error Region × List Event :=
  let refuse (cause : Denial) : Except Error Region × List Event :=
    (.error (.mappingDenied size cause), [.mappingRefused size strategy cause])
  match roundUp? page size with
  | none => (.error (.mappingDenied size .unroundable), [])
  | some capacity =>
      if strategy = .staged ∧ Offset.signedLimit ≤ capacity then refuse .tooLong
      else
        match kernel.map ticket strategy capacity with
        | .error errno => refuse (.kernel errno)
        | .ok place =>
            let pages : Pages := ⟨capacity, place, []⟩
            let mapping := match strategy with
              | .rwx => Mapping.both pages
              | .staged => Mapping.writable pages
            (.ok ⟨ticket, mapping, size, false⟩,
              [.acquired ticket size capacity place.base strategy])

/-- Asks the kernel for a region, in pages as it maps them. -/
def acquire (kernel : Kernel) (ticket size : Nat) (strategy : Strategy) :
    Except Error Region × List Event :=
  acquireIn pageSize kernel ticket size strategy

/-- The report of giving the region back. -/
def release (r : Region) : Event := .released r.ticket r.base r.capacity

end Region

end Emplace
