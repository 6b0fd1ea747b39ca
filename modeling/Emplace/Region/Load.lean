import Emplace.Region
import Emplace.Image

/-
  Loading: storing an image at the base of a region.

  `load` checks everything it can before it writes: no site may be pending, the image must fit, and
  the region must not hold a payload already.  A staged region is made executable right after the
  bytes are stored; a kernel that refuses leaves the region without a mapping.  Success answers a
  `Payload`, the view of the loaded bytes that can be called.
-/

namespace Emplace

/-- The code at the base of a region that was loaded. -/
structure Payload where
  region : Region
  /-- The number of bytes that were loaded. -/
  length : Nat

namespace Payload

/-- The address of the first instruction. -/
def entry (p : Payload) : Word := p.region.base

def bytes (p : Payload) : List UInt8 := p.region.readable.take p.length

end Payload

namespace Region

/-- What an attempt to use a region leaves behind. -/
structure Attempt (α : Type) where
  answer : Except Error α
  region : Region
  events : List Event

/-- Stores the bytes and leaves the region executable.  The bytes must fit. -/
def store (kernel : Kernel) (r : Region) (bytes : List UInt8) : Attempt Unit :=
  if r.loaded then ⟨.error .alreadyLoaded, r, []⟩
  else
    match r.mapping with
    | .both pages => ⟨.ok (), { r with mapping := .both (pages.store bytes), loaded := true }, []⟩
    | .writable pages =>
        match kernel.permitExecute r.ticket with
        | .ok () =>
            ⟨.ok (), { r with mapping := .executable (pages.store bytes), loaded := true }, []⟩
        | .error errno =>
            ⟨.error (.mappingDenied r.size (.kernel errno)), { r with mapping := .gone },
              [.sealRefused r.ticket (.kernel errno)]⟩
    | .executable _ => ⟨.error .alreadyLoaded, r, []⟩
    | .gone => ⟨.error .mappingReleased, r, []⟩

/-- Loads an image.  Either all of its bytes are stored or the region holds none of them. -/
def load (kernel : Kernel) (image : Image) (r : Region) : Attempt Payload :=
  match image.pending with
  | s :: _ => ⟨.error (.unresolved s.field), r, []⟩
  | [] =>
      if r.size < image.size then ⟨.error (.regionTooSmall image.size r.size), r, []⟩
      else
        let stored := r.store kernel image.bytes
        match stored.answer with
        | .error e => ⟨.error e, stored.region, stored.events⟩
        | .ok () =>
            ⟨.ok ⟨stored.region, image.size⟩, stored.region,
              stored.events ++ [.payloadLoaded r.ticket image.size stored.region.base]⟩

end Region

end Emplace
