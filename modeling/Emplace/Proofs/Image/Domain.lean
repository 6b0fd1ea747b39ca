import Mathlib.Algebra.Group.Int.Defs
import Emplace.Session
import Emplace.Proofs.Image.Relocation

/-
  The domain of a resolution.

  A resolution takes any site at all, a recorded one or one that was made up, and any target.  Four
  bounds and one range decide what becomes of it, and all of them are bounds on exact sums
  (`resolve_domain`):

    * the four bounds of `Image.Admits` hold and the field can hold the displacement: the
      displacement is written and answered (`resolve_of_holds`);
    * the bounds hold, but the field is too narrow: the answer is the displacement that would have
      been needed (`resolve_of_not_holds`);
    * one of the bounds fails: the answer is the field and the size of the image
      (`resolve_of_not_admits`).

  The arithmetic of offsets that the check is made in saturates in one place and refuses in others.
  None of this can be seen from outside: where the bounds hold, all sums are offsets, and both ends
  of the distance are signed words (`distance_of_admits`).
-/

namespace Emplace

/-! ## Widths in numbers -/

/-- The values of a field are those of two's complement with as many bits. -/
theorem FieldWidth.holds_iff {w : FieldWidth} {d : Int} :
    w.Holds d ↔ -2 ^ (8 * w.bytes - 1) ≤ d ∧ d ≤ 2 ^ (8 * w.bytes - 1) - 1 := by
  have hbound : w.bound = 2 ^ (8 * w.bytes - 1) := by
    cases w <;> rfl
  rw [FieldWidth.Holds, hbound]
  constructor
  · rintro ⟨hlow, hhigh⟩
    exact ⟨hlow, by omega⟩
  · rintro ⟨hlow, hhigh⟩
    exact ⟨hlow, by omega⟩

/-- No field is as wide as a word. -/
theorem FieldWidth.bits_ne (w : FieldWidth) : w.bits ≠ 64 := by
  cases w <;> decide

namespace Image

variable {image : Image} {s : Site} {target : Nat}

/-! ## The three outcomes -/

/-- Within the bounds, the distance is measured exactly. -/
theorem distance_of_admits (hsize : image.size < Offset.signedLimit)
    (h : image.Admits s target) : s.distance target = .ok (s.displacement target) := by
  obtain ⟨-, -, hstop, htarget⟩ := h
  apply Site.distance_eq_ok_iff.mpr
  refine ⟨?_, ?_, rfl⟩
  · exact Nat.lt_of_le_of_lt htarget hsize
  · exact Nat.lt_of_le_of_lt hstop hsize

/-- The distance of two signed words that are not negative is a signed word. -/
theorem displacement_bounds_of_admits (hsize : image.size < Offset.signedLimit)
    (h : image.Admits s target) :
    -(Offset.signedLimit : Int) < s.displacement target ∧
      s.displacement target < Offset.signedLimit := by
  obtain ⟨-, -, hstop, htarget⟩ := h
  unfold Site.displacement
  constructor
  · omega
  · omega

theorem resolve_of_holds (hsize : image.size < Offset.signedLimit) (h : image.Admits s target)
    (hholds : s.width.Holds (s.displacement target)) :
    image.resolve s target = .ok (s.displacement target,
      image.patch s (LittleEndian.encodeInt s.width.bytes (s.displacement target))) := by
  have hlimit : image.size < Offset.limit := Offset.lt_limit_of_lt_signedLimit hsize
  apply resolve_eq_ok_iff.mpr
  exact ⟨(admits_iff hlimit).mpr h, distance_of_admits hsize h, hholds, rfl⟩

theorem resolve_of_not_holds (hsize : image.size < Offset.signedLimit)
    (h : image.Admits s target) (hholds : ¬ s.width.Holds (s.displacement target)) :
    image.resolve s target = .error (.fieldOverflow (s.displacement target) s.width.bits) := by
  have hlimit : image.size < Offset.limit := Offset.lt_limit_of_lt_signedLimit hsize
  have hencode : s.width.encode (s.displacement target) =
      .error (.fieldOverflow (s.displacement target) s.width.bits) :=
    FieldWidth.encode_eq_error_iff.mpr ⟨hholds, rfl⟩
  rw [resolve, if_pos ((admits_iff hlimit).mpr h), distance_of_admits hsize h]
  show (do
    let encoded ← s.width.encode (s.displacement target)
    pure (s.displacement target, image.patch s encoded)) = _
  rw [hencode]
  rfl

theorem resolve_of_not_admits (hsize : image.size < Offset.signedLimit)
    (h : ¬ image.Admits s target) :
    image.resolve s target = .error (.siteOutside s.field s.width.bytes image.size) := by
  have hlimit : image.size < Offset.limit := Offset.lt_limit_of_lt_signedLimit hsize
  have hadmits : ¬ image.admits s target = true := fun ha => h ((admits_iff hlimit).mp ha)
  rw [resolve, if_neg hadmits]

/-- There is no fourth outcome. -/
theorem resolve_cases (hsize : image.size < Offset.signedLimit) (s : Site) (target : Nat) :
    (image.Admits s target ∧ s.width.Holds (s.displacement target) ∧
      image.resolve s target = .ok (s.displacement target,
        image.patch s (LittleEndian.encodeInt s.width.bytes (s.displacement target)))) ∨
    (image.Admits s target ∧ ¬ s.width.Holds (s.displacement target) ∧
      image.resolve s target = .error (.fieldOverflow (s.displacement target) s.width.bits)) ∨
    (¬ image.Admits s target ∧
      image.resolve s target = .error (.siteOutside s.field s.width.bytes image.size)) := by
  by_cases hadmits : image.Admits s target
  · by_cases hholds : s.width.Holds (s.displacement target)
    · exact .inl ⟨hadmits, hholds, resolve_of_holds hsize hadmits hholds⟩
    · exact .inr (.inl ⟨hadmits, hholds, resolve_of_not_holds hsize hadmits hholds⟩)
  · exact .inr (.inr ⟨hadmits, resolve_of_not_admits hsize hadmits⟩)

/-- Exactly when a resolution succeeds. -/
theorem exists_resolve_iff (hsize : image.size < Offset.signedLimit) :
    (∃ answer, image.resolve s target = .ok answer) ↔
      image.Admits s target ∧ s.width.Holds (s.displacement target) := by
  rcases resolve_cases hsize s target with
    ⟨hadmits, hholds, h⟩ | ⟨-, hholds, h⟩ | ⟨hadmits, h⟩
  · exact ⟨fun _ => ⟨hadmits, hholds⟩, fun _ => ⟨_, h⟩⟩
  · rw [h]
    exact ⟨fun hok => (nomatch hok), fun hboth => absurd hboth.2 hholds⟩
  · rw [h]
    exact ⟨fun hok => (nomatch hok), fun hboth => absurd hboth.1 hadmits⟩

/-- A distance that is no word is never what a resolution fails with. -/
theorem resolve_ne_word (hsize : image.size < Offset.signedLimit) (s : Site) (target : Nat)
    (value : Int) : image.resolve s target ≠ .error (.fieldOverflow value 64) := by
  rcases resolve_cases hsize s target with ⟨-, -, h⟩ | ⟨-, -, h⟩ | ⟨-, h⟩
  · rw [h]
    nofun
  · rw [h]
    intro hword
    obtain ⟨-, hbits⟩ := Error.fieldOverflow.inj (Except.error.inj hword)
    exact s.width.bits_ne hbits
  · rw [h]
    nofun

/-! ## What is written -/

/-- `image'` is `image` with a displacement in the field of a site, which lies in the image, and the
    site is pending no longer. -/
structure Patched (image : Image) (s : Site) (d : Int) (image' : Image) : Prop where
  within : s.field + s.width.bytes ≤ image.size
  size : image'.size = image.size
  data : image'.data = image.data
  pending : image'.pending = image.pending.filter (· ≠ s)
  field : s.contents image'.bytes = LittleEndian.encodeInt s.width.bytes d
  frame : ∀ i, ¬ s.Covers i → image'.bytes[i]? = image.bytes[i]?

theorem patched_of_admits (h : image.Admits s target) (d : Int) :
    image.Patched s d (image.patch s (LittleEndian.encodeInt s.width.bytes d)) := by
  obtain ⟨hfield, -, hstop, -⟩ := h
  have hwithin : s.field + s.width.bytes ≤ image.size := Nat.le_trans hfield hstop
  have hlength : (LittleEndian.encodeInt s.width.bytes d).length = s.width.bytes :=
    LittleEndian.length_encodeInt _ _
  have hroom : s.field + (LittleEndian.encodeInt s.width.bytes d).length ≤ image.bytes.length := by
    rw [hlength]
    exact hwithin
  constructor
  · exact hwithin
  · exact length_overwrite hroom
  · rfl
  · rfl
  · exact contents_overwrite hlength hroom
  · intro i hi
    exact getElem?_overwrite_of_not_covers hlength hroom hi

end Image

/-! ## A resolution as a step of a session -/

namespace Session

/-- Whether the name stands for the site. -/
def Names (session : Session) (s : Site) : SiteName → Prop
  | .given site => site = s
  | .listed index => session.sites[index]? = some s

theorem Names.withSite {session : Session} {s : Site} {siteName : SiteName}
    (h : session.Names s siteName) (k : Site → Outcome) : session.withSite siteName k = k s := by
  cases siteName with
  | given site =>
    obtain rfl : site = s := h
    rfl
  | listed index =>
    have hsite : session.sites[index]? = some s := h
    unfold Session.withSite
    dsimp only
    rw [hsite]

/-- A resolution that is refused leaves no trace, neither in the session nor in the log. -/
theorem perform_resolve_error {session : Session} {name : String} {siteName : SiteName} {s : Site}
    {image : Image} {target : Nat} {cause : Error} (kernel : Kernel)
    (himage : session.images.get? name = some image) (hsite : session.Names s siteName)
    (h : image.resolve s target = .error cause) :
    session.perform kernel (.resolve name siteName target) =
      ⟨.notResolved cause image, session, []⟩ := by
  show session.withSite siteName (fun site =>
    session.withImage name fun image => session.resolve name site target image) = _
  rw [hsite.withSite, withImage, himage]
  show session.resolve name s target image = _
  rw [resolve, h]
  rfl

end Session

namespace Image

/-- **The domain of a resolution**, in exact arithmetic.  It succeeds just when the field lies in its
    instruction, the instruction and the target in the image, and the displacement in the range of
    the field.  Outside the bounds the answer is the site, and outside the range the displacement;
    it is never that of a distance that could not be measured.  What is written stays in the field,
    and a refusal leaves image, session and log as they were. -/
theorem resolve_domain (image : Image) (hsize : image.size < Offset.signedLimit) (s : Site)
    (target : Nat) :
    let d : Int := target - (s.start + s.length : Nat)
    let inBounds := s.start ≤ s.field ∧ s.field + s.width.bytes ≤ s.start + s.length ∧
      s.start + s.length ≤ image.size ∧ target ≤ image.size
    let inRange := -2 ^ (8 * s.width.bytes - 1) ≤ d ∧ d ≤ 2 ^ (8 * s.width.bytes - 1) - 1
    ((∃ answer, image.resolve s target = .ok answer) ↔ inBounds ∧ inRange) ∧
    (∀ d' image', image.resolve s target = .ok (d', image') →
      d' = d ∧ image.Patched s d image') ∧
    (¬ inBounds →
      image.resolve s target = .error (.siteOutside s.field s.width.bytes image.size)) ∧
    (inBounds → -(Offset.signedLimit : Int) < d ∧ d < Offset.signedLimit) ∧
    (inBounds → ¬ inRange →
      image.resolve s target = .error (.fieldOverflow d (8 * s.width.bytes))) ∧
    (∀ value, image.resolve s target ≠ .error (.fieldOverflow value 64)) ∧
    ∀ (kernel : Kernel) (session : Session) (name : String) (siteName : Session.SiteName),
      session.images.get? name = some image → session.Names s siteName →
        ∀ cause, image.resolve s target = .error cause →
          session.perform kernel (.resolve name siteName target) =
            ⟨.notResolved cause image, session, []⟩ := by
  intro d inBounds inRange
  have hbounds : inBounds ↔ image.Admits s target := by
    constructor
    · rintro ⟨hstart, hfield, hstop, htarget⟩
      exact ⟨hfield, hstart, hstop, htarget⟩
    · rintro ⟨hfield, hstart, hstop, htarget⟩
      exact ⟨hstart, hfield, hstop, htarget⟩
  have hrange : inRange ↔ s.width.Holds (s.displacement target) := FieldWidth.holds_iff.symm
  rw [hbounds, hrange]
  refine ⟨exists_resolve_iff hsize, ?_, resolve_of_not_admits hsize,
    displacement_bounds_of_admits hsize, resolve_of_not_holds hsize, resolve_ne_word hsize s target,
    ?_⟩
  · intro d' image' hok
    have hlimit : image.size < Offset.limit := Offset.lt_limit_of_lt_signedLimit hsize
    obtain ⟨hadmits, hdistance, -, rfl⟩ := resolve_eq_ok_iff.mp hok
    obtain ⟨-, -, rfl⟩ := Site.distance_eq_ok_iff.mp hdistance
    exact ⟨rfl, patched_of_admits ((admits_iff hlimit).mp hadmits) _⟩
  · intro kernel session name siteName himage hsite cause hcause
    exact Session.perform_resolve_error kernel himage hsite hcause

/-- A short jump over bytes up to as many as it can jump over, one further, and a made-up site whose
    instruction ends where no offset is. -/
theorem resolve_domain_jmp :
    let jmp : Site := .trailing 0 2 .rel8
    let image : Image := ⟨0xEB :: 0 :: List.replicate 128 0x90, none, [jmp]⟩
    let beyond : Site := ⟨0xFFFFFFFFFFFFFFFF, 3, 0xFFFFFFFFFFFFFFFF, .rel8⟩
    image.size < Offset.signedLimit ∧
    (∃ answer, image.resolve jmp 129 = .ok answer) ∧
    image.resolve jmp 130 = .error (.fieldOverflow 128 8) ∧
    image.resolve beyond 0 = .error (.siteOutside 0xFFFFFFFFFFFFFFFF 1 130) := by
  intro jmp image beyond
  have hlength : image.size = 130 := by simp [image, Image.size]
  have hsize : image.size < Offset.signedLimit := by
    rw [hlength]
    decide
  obtain ⟨hok, -⟩ := resolve_domain image hsize jmp 129
  obtain ⟨-, -, -, -, hrange, -⟩ := resolve_domain image hsize jmp 130
  obtain ⟨-, -, houtside, -⟩ := resolve_domain image hsize beyond 0
  have hdistance : ((130 : Nat) : Int) - (jmp.start + jmp.length : Nat) = 128 := by decide
  rw [hlength] at hok hrange houtside
  rw [hdistance] at hrange
  exact ⟨hsize, hok.mpr (by decide), hrange (by decide) (by decide), houtside (by decide)⟩

end Image

end Emplace
