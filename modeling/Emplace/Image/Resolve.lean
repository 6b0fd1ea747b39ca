import Emplace.Image

/-
  Resolving a site: writing the distance to a target into its field.

  A site is accepted only when its field lies in its instruction and the instruction lies in the
  image.  Accepted or not, the image keeps its length; refused, it is not changed at all.  The sites
  given here need not be pending ones, and a pending site is settled only by an equal one.

  Main statement: `resolve_eq_ok_iff`, exactly when a resolution succeeds and with which image.
-/

namespace Emplace.Image

/-- Whether the field lies in its instruction, the instruction in the image, and the target in the
    image or at its end. -/
def Admits (image : Image) (s : Site) (target : Nat) : Prop :=
  s.field + s.width.bytes ≤ s.start + s.length ∧ s.start ≤ s.field ∧
    s.start + s.length ≤ image.size ∧ target ≤ image.size

/-- The bounds check in offset arithmetic: a sum that is no offset is out of bounds. -/
def admits (image : Image) (s : Site) (target : Nat) : Bool :=
  match Offset.checkedAdd s.start s.length, Offset.checkedAdd s.field s.width.bytes with
  | some stop, some fieldStop =>
      fieldStop ≤ stop && s.field ≥ s.start && stop ≤ image.size && target ≤ image.size
  | _, _ => false

/-- The list with `new` written over it from `offset` on. -/
def overwrite (bytes : List UInt8) (offset : Nat) (new : List UInt8) : List UInt8 :=
  bytes.take offset ++ new ++ bytes.drop (offset + new.length)

/-- The image with the field of `s` holding `encoded`, and no pending site equal to `s`. -/
def patch (image : Image) (s : Site) (encoded : List UInt8) : Image :=
  { image with
    bytes := overwrite image.bytes s.field encoded
    pending := image.pending.filter (· ≠ s) }

/-- Writes the distance from the end of the instruction to `target` into the field of the site, and
    answers that distance. -/
def resolve (image : Image) (s : Site) (target : Nat) : Except Error (Int × Image) :=
  if image.admits s target then do
    let distance ← s.distance target
    let encoded ← s.width.encode distance
    pure (distance, image.patch s encoded)
  else
    .error (.siteOutside s.field s.width.bytes image.size)

/-! ## The bounds in exact arithmetic -/

/-- What passes the check lies in the bounds, however large the image is. -/
theorem admits_sound {image : Image} {s : Site} {target : Nat}
    (h : image.admits s target = true) : image.Admits s target := by
  unfold admits at h
  split at h
  · rename_i stop fieldStop h₁ h₂
    obtain ⟨rfl, -⟩ := Offset.checkedAdd_eq_some_iff.mp h₁
    obtain ⟨rfl, -⟩ := Offset.checkedAdd_eq_some_iff.mp h₂
    simpa [Admits, and_assoc] using h
  · cases h

/-- Offset arithmetic hides nothing as long as the image itself has offsets. -/
theorem admits_iff {image : Image} {s : Site} {target : Nat} (h : image.size < Offset.limit) :
    image.admits s target = true ↔ image.Admits s target := by
  refine ⟨admits_sound, ?_⟩
  rintro ⟨h₁, h₂, h₃, h₄⟩
  have hstop : Offset.checkedAdd s.start s.length = some (s.start + s.length) :=
    Offset.checkedAdd_eq_some_iff.mpr ⟨rfl, by omega⟩
  have hfield : Offset.checkedAdd s.field s.width.bytes = some (s.field + s.width.bytes) :=
    Offset.checkedAdd_eq_some_iff.mpr ⟨rfl, by omega⟩
  simp [admits, hstop, hfield, h₁, h₂, h₃, h₄]

/-! ## Overwriting -/

theorem length_overwrite {bytes new : List UInt8} {offset : Nat}
    (h : offset + new.length ≤ bytes.length) :
    (overwrite bytes offset new).length = bytes.length := by
  simp only [overwrite, List.length_append, List.length_take, List.length_drop]
  omega

theorem resolve_eq_ok_iff {image image' : Image} {s : Site} {target : Nat} {d : Int} :
    image.resolve s target = .ok (d, image') ↔
      image.admits s target = true ∧ s.distance target = .ok d ∧ s.width.Holds d ∧
        image' = image.patch s (LittleEndian.encodeInt s.width.bytes d) := by
  unfold resolve
  split
  · rename_i ha
    cases hd : s.distance target with
    | error e => simp [bind, Except.bind]
    | ok d₀ =>
      cases he : s.width.encode d₀ with
      | error e =>
        have := (FieldWidth.encode_eq_error_iff.mp he).1
        simp only [bind, Except.bind, he, reduceCtorEq, Except.ok.injEq, false_iff, not_and]
        rintro - rfl h
        exact absurd h this
      | ok encoded =>
        obtain ⟨hh, rfl⟩ := FieldWidth.encode_eq_ok_iff.mp he
        simp only [bind, Except.bind, he, pure, Except.pure, Except.ok.injEq, Prod.mk.injEq]
        constructor
        · rintro ⟨rfl, rfl⟩
          exact ⟨ha, rfl, hh, rfl⟩
        · rintro ⟨-, rfl, -, rfl⟩
          exact ⟨rfl, rfl⟩
  · rename_i ha
    simp [ha]

example :
    (Image.mk [0xEB, 0, 0x90, 0xC3] none [.trailing 0 2 .rel8]).resolve (.trailing 0 2 .rel8) 3
      = .ok (1, ⟨[0xEB, 1, 0x90, 0xC3], none, []⟩) := rfl

end Emplace.Image
