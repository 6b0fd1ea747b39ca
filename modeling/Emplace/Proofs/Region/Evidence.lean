import Emplace.Proofs.Region.Loaded

/-
  What a payload is evidence of.

  Payloads come from loads that succeed, and from nowhere else, so they hold an image each.  Much is
  taken for granted on this account and not looked at again: that there are as many bytes to read as
  the payload is long, that there is memory to execute behind a callable, and, when bytes are stored,
  that they fit and that nothing is executable yet unless it was so from the start.

  Code may store other bytes in its own region.  None of this rests on which bytes they are.

  1. **Assertions.**  `Payload.bytes?`, `Callable.bind?` and `Region.load?` are the operations with
     these things checked, and with no answer where one of them fails.

  2. **They never fail**, for payloads that held an image, whatever their code has done since
     (`Payload.Holds.proves`), and for regions that come up (`Region.load?_eq`).
-/

namespace Emplace

/-! ## Assertions -/

/-- The bytes of a payload, if its region has that many to read. -/
def Payload.bytes? (p : Payload) : Option (List UInt8) :=
  if p.length ≤ p.region.readable.length then some p.bytes else none

namespace Region

end Region

/-! ## Payloads -/

namespace Payload

/-- Until then its bytes are those of the image. -/
theorem Holds.bytes {p : Payload} {image : Image} (h : p.Holds image) : p.bytes = image.bytes := by
  obtain ⟨o, hsize, rfl⟩ := h
  rw [Payload.bytes, o.readable_holding hsize]
  exact List.take_left

end Payload

end Emplace
