import Mathlib.Algebra.Group.Nat.Defs
import Emplace.Proofs.Image.Domain

/-
  Where the sums of a site saturate.

  Two sums are taken of a site without a check.  The end of its instruction (`Site.stop`) is the
  largest offset when the exact end is none.  A trailing field (`Site.trailing`) is computed from
  that end by going back its own width, and stays at zero when there is not as much in front of it.
  Either sum may be wrong, and nothing is said about it.

  Nothing has to be: both are caught by what is looked at later.

    * A distance is measured only between signed words.  A saturated end is larger than all of
      these, so the distance is exact or refused (`Site.distance_exact`).
    * A resolution checks its bounds with sums of its own, which are refused where they are no
      offsets.  A trailing field that is not where it should be ends behind the instruction or
      starts before it (`Site.not_admits_trailing`), so what is written is the end of the
      instruction (`Image.resolve_trailing`).
-/

namespace Emplace

namespace Offset

/-- A sum saturates exactly where it is no offset. -/
theorem saturatingAdd_ne_iff {a b : Nat} : saturatingAdd a b ≠ a + b ↔ limit ≤ a + b := by
  simp only [saturatingAdd, limit]
  omega

end Offset

namespace Site

variable {start length : Nat} {width : FieldWidth}

/-! ## The end of an instruction -/

theorem stop_ne_iff {s : Site} :
    s.stop ≠ s.start + s.length ↔ Offset.limit ≤ s.start + s.length :=
  Offset.saturatingAdd_ne_iff

/-- From a saturated end no distance is measured. -/
theorem stop_eq_of_distance {s : Site} {target : Nat} {d : Int}
    (h : s.distance target = .ok d) : s.stop = s.start + s.length := by
  obtain ⟨-, hstop, -⟩ := distance_eq_ok_iff.mp h
  exact Offset.saturatingAdd_of_lt_signedLimit hstop

/-- Both ends of a distance are signed words, so their difference is one. -/
theorem ssubOverflow_of_distance {s : Site} {target : Nat} {d : Int}
    (h : s.distance target = .ok d) :
    (BitVec.ofNat 64 target).ssubOverflow (BitVec.ofNat 64 s.stop) = false := by
  obtain ⟨htarget, hstop, -⟩ := distance_eq_ok_iff.mp h
  rw [stop_eq_of_distance h]
  exact Offset.ssubOverflow_eq_false htarget hstop

/-- **A distance is exact or refused.**  It is measured just when the target and the exact end of
    the instruction are signed words, and then it is their exact difference, which the subtraction
    of words gives without overflow.  In particular a saturated end is always refused, and moving
    instruction and target together does not change the distance. -/
theorem distance_exact (s : Site) (target : Nat) :
    (∀ d, s.distance target = .ok d ↔
      target ≤ 2 ^ 63 - 1 ∧ s.start + s.length ≤ 2 ^ 63 - 1 ∧
        d = (target : Int) - ((s.start : Int) + s.length)) ∧
    (¬ (target ≤ 2 ^ 63 - 1 ∧ s.start + s.length ≤ 2 ^ 63 - 1) →
      s.distance target = .error (.fieldOverflow (2 ^ 63 - 1) 64)) ∧
    (s.stop ≠ s.start + s.length →
      s.distance target = .error (.fieldOverflow (2 ^ 63 - 1) 64)) ∧
    (∀ d, s.distance target = .ok d →
      (BitVec.ofNat 64 target).ssubOverflow (BitVec.ofNat 64 s.stop) = false ∧
        -(2 ^ 63 : Int) < d ∧ d < 2 ^ 63) ∧
    ∀ (shift : Int) (s' : Site) (target' : Nat), s'.length = s.length →
      (s'.start : Int) = s.start + shift → (target' : Int) = target + shift →
        ∀ d d', s.distance target = .ok d → s'.distance target' = .ok d' → d' = d := by
  have hsigned : Offset.signedLimit = 2 ^ 63 := by decide
  have hrefused (h : ¬ (target ≤ 2 ^ 63 - 1 ∧ s.start + s.length ≤ 2 ^ 63 - 1)) :
      s.distance target = .error (.fieldOverflow (2 ^ 63 - 1) 64) := by
    apply distance_eq_error_iff.mpr
    rw [hsigned]
    exact ⟨by omega, rfl⟩
  refine ⟨?_, hrefused, ?_, ?_, ?_⟩
  · intro d
    rw [distance_eq_ok_iff, hsigned]
    omega
  · intro hstop
    have hlong : Offset.limit ≤ s.start + s.length := stop_ne_iff.mp hstop
    apply hrefused
    simp only [Offset.limit] at hlong
    omega
  · intro d h
    obtain ⟨htarget, hstop, rfl⟩ := distance_eq_ok_iff.mp h
    refine ⟨ssubOverflow_of_distance h, ?_⟩
    rw [hsigned] at htarget hstop
    omega
  · intro shift s' target' hlength hstart htarget d d' h h'
    obtain ⟨-, -, rfl⟩ := distance_eq_ok_iff.mp h
    obtain ⟨-, -, rfl⟩ := distance_eq_ok_iff.mp h'
    omega

/-- The longest distance there is, backwards from the last signed word, and two ends that are
    refused, one of which saturates. -/
theorem distance_exact_last :
    (trailing (2 ^ 63 - 3) 2 .rel8).distance 0 = .ok (-(2 ^ 63 - 1)) ∧
    (trailing (2 ^ 63 - 3) 3 .rel8).distance 0 = .error (.fieldOverflow (2 ^ 63 - 1) 64) ∧
    (trailing (2 ^ 64 - 1) 2 .rel8).stop ≠ 2 ^ 64 - 1 + 2 ∧
    (trailing (2 ^ 64 - 1) 2 .rel8).distance 0 = .error (.fieldOverflow (2 ^ 63 - 1) 64) := by
  obtain ⟨hexact, -⟩ := distance_exact (trailing (2 ^ 63 - 3) 2 .rel8) 0
  obtain ⟨-, hrefused, -⟩ := distance_exact (trailing (2 ^ 63 - 3) 3 .rel8) 0
  obtain ⟨-, -, hsaturated, -⟩ := distance_exact (trailing (2 ^ 64 - 1) 2 .rel8) 0
  have hstop : (trailing (2 ^ 64 - 1) 2 .rel8).stop ≠ 2 ^ 64 - 1 + 2 := by decide
  exact ⟨(hexact _).mpr (by decide), hrefused (by decide), hstop, hsaturated hstop⟩

/-! ## A trailing field -/

/-- A trailing field is not where the exact sum says just when the end of the instruction is no
    offset, or when there are fewer bytes in front of that end than the field has. -/
theorem field_trailing_ne_iff (start length : Nat) (width : FieldWidth) :
    ((trailing start length width).field : Int) ≠ (start : Int) + length - width.bytes ↔
      Offset.limit ≤ start + length ∨ start + length < width.bytes := by
  have hwidth : width.bytes < Offset.limit := by cases width <;> decide
  simp only [trailing, Offset.saturatingAdd, Offset.limit] at hwidth ⊢
  omega

/-- Otherwise it is the end of the instruction. -/
theorem field_trailing (width : FieldWidth) (hstop : start + length < Offset.limit) :
    (trailing start length width).field = start + length - width.bytes := by
  rw [trailing, Offset.saturatingAdd_eq_of_lt hstop]

/-- The bounds of a trailing field in exact arithmetic: the instruction is as long as its field, and
    it lies in the image. -/
theorem admits_trailing_iff {image : Image} (hsize : image.size < Offset.limit) {target : Nat} :
    image.admits (trailing start length width) target = true ↔
      width.bytes ≤ length ∧ start + length ≤ image.size ∧ target ≤ image.size := by
  rw [Image.admits_iff hsize]
  constructor
  · rintro ⟨hfield, hstart, hstop, htarget⟩
    -- the field starts in the instruction and ends in it, wherever the saturated sums have put it
    have hlength : start + width.bytes ≤ start + length :=
      Nat.le_trans (Nat.add_le_add_right hstart width.bytes) hfield
    exact ⟨by omega, hstop, htarget⟩
  · rintro ⟨hlength, hstop, htarget⟩
    have hat := field_trailing width (Nat.lt_of_le_of_lt hstop hsize)
    refine ⟨?_, ?_, hstop, htarget⟩
    · rw [hat]
      show start + length - width.bytes + width.bytes ≤ start + length
      omega
    · rw [hat]
      show start ≤ start + length - width.bytes
      omega

/-- No trailing field is admitted where a sum saturates, and none that is longer than its
    instruction. -/
theorem not_admits_trailing {image : Image} (hsize : image.size < Offset.limit) {target : Nat}
    (h : Offset.limit ≤ start + length ∨ start + length < width.bytes ∨ length < width.bytes) :
    ¬ image.admits (trailing start length width) target = true := by
  rw [admits_trailing_iff hsize]
  omega

end Site

namespace Image

variable {image image' : Image} {start length target : Nat} {width : FieldWidth} {d : Int}

/-- A resolution is refused for its bounds exactly when it fails their check. -/
theorem resolve_eq_siteOutside_iff {s : Site} :
    image.resolve s target = .error (.siteOutside s.field s.width.bytes image.size) ↔
      ¬ image.admits s target = true := by
  constructor
  · intro h hadmits
    rw [resolve, if_pos hadmits] at h
    cases hd : s.distance target with
    | error e =>
      obtain ⟨-, rfl⟩ := Site.distance_eq_error_iff.mp hd
      rw [hd] at h
      cases h
    | ok d =>
      cases he : s.width.encode d with
      | error e =>
        obtain ⟨-, rfl⟩ := FieldWidth.encode_eq_error_iff.mp he
        rw [hd] at h
        simp only [bind, Except.bind, he, Except.error.injEq, reduceCtorEq] at h
      | ok encoded =>
        rw [hd] at h
        simp only [bind, Except.bind, he, pure, Except.pure, reduceCtorEq] at h
  · intro hadmits
    rw [resolve, if_neg hadmits]

/-- What a resolution of a trailing field leaves: other bytes at the end of the instruction. -/
theorem bytes_of_resolve_trailing (hsize : image.size < Offset.limit)
    (h : image.resolve (.trailing start length width) target = .ok (d, image')) :
    image'.bytes = image.bytes.take (start + length - width.bytes) ++
      LittleEndian.encodeInt width.bytes d ++ image.bytes.drop (start + length) := by
  obtain ⟨hadmits, -, -, rfl⟩ := resolve_eq_ok_iff.mp h
  obtain ⟨hlength, hstop, -⟩ := (Site.admits_trailing_iff hsize).mp hadmits
  have hat := Site.field_trailing width (Nat.lt_of_le_of_lt hstop hsize)
  have hend : start + length - width.bytes + width.bytes = start + length := by omega
  show overwrite image.bytes _ _ = _
  rw [overwrite, hat, LittleEndian.length_encodeInt]
  show _ ++ LittleEndian.encodeInt width.bytes d ++
    image.bytes.drop (start + length - width.bytes + width.bytes) = _
  rw [hend]

/-- **A trailing field is never written outside its instruction.**  Its bounds pass the check just
    when they hold in exact arithmetic: the instruction is as long as its field, and instruction and
    target lie in the image.  A resolution that succeeds then writes the last bytes of the
    instruction, all others are as they were, and none in front of the instruction is among those
    that are written.  Where the end or the field is not what exact sums make it, or the field is
    longer than its instruction, the answer is that the site lies outside, and image, session and
    log are as they were. -/
theorem resolve_trailing (image : Image) (hsize : image.size < Offset.limit) (start length : Nat)
    (width : FieldWidth) (target : Nat) :
    let s := Site.trailing start length width
    let inBounds := width.bytes ≤ length ∧ start + length ≤ image.size ∧ target ≤ image.size
    let outside : Error := .siteOutside s.field width.bytes image.size
    (image.admits s target = true ↔ inBounds) ∧
    (image.resolve s target = .error outside ↔ ¬ inBounds) ∧
    (∀ d image', image.resolve s target = .ok (d, image') →
      inBounds ∧
      image'.bytes = image.bytes.take (start + length - width.bytes) ++
        LittleEndian.encodeInt width.bytes d ++ image.bytes.drop (start + length) ∧
      (LittleEndian.encodeInt width.bytes d).length = width.bytes ∧
      image'.bytes.take start = image.bytes.take start) ∧
    (s.stop ≠ start + length ↔ Offset.limit ≤ start + length) ∧
    ((s.field : Int) ≠ (start : Int) + length - width.bytes ↔
      Offset.limit ≤ start + length ∨ start + length < width.bytes) ∧
    (s.stop ≠ start + length ∨ (s.field : Int) ≠ (start : Int) + length - width.bytes ∨
        length < width.bytes →
      image.resolve s target = .error outside ∧
      ∀ (kernel : Kernel) (session : Session) (name : String) (siteName : Session.SiteName),
        session.images.get? name = some image → session.Names s siteName →
          session.perform kernel (.resolve name siteName target) =
            ⟨.notResolved outside image, session, []⟩) := by
  intro s inBounds outside
  have hadmits : image.admits s target = true ↔ inBounds := Site.admits_trailing_iff hsize
  have hstop : s.stop ≠ start + length ↔ Offset.limit ≤ start + length := Site.stop_ne_iff
  have hfield := Site.field_trailing_ne_iff start length width
  refine ⟨hadmits, ?_, ?_, hstop, hfield, ?_⟩
  · rw [← hadmits]
    exact resolve_eq_siteOutside_iff
  · intro d image' hok
    have hbounds := hadmits.mp (resolve_eq_ok_iff.mp hok).1
    have hlength : width.bytes ≤ length := hbounds.1
    have hwithin : start + length ≤ image.size := hbounds.2.1
    have hbytes := bytes_of_resolve_trailing hsize hok
    refine ⟨hbounds, hbytes, LittleEndian.length_encodeInt .., ?_⟩
    have hfront : start ≤ (image.bytes.take (start + length - width.bytes)).length := by
      have hbehind : start + length ≤ image.bytes.length := hwithin
      rw [List.length_take]
      omega
    rw [hbytes, List.append_assoc, List.take_append_of_le_length hfront, List.take_take]
    congr 1
    omega
  · intro hshort
    rw [hstop, hfield] at hshort
    have houtside : image.resolve s target = .error outside :=
      resolve_eq_siteOutside_iff.mpr (Site.not_admits_trailing hsize (by omega))
    exact ⟨houtside, fun kernel session name siteName himage hsite =>
      Session.perform_resolve_error kernel himage hsite houtside⟩

/-- A reference back over the whole instruction, an instruction shorter than its field in front of
    which there is nothing, one that there is enough in front of, and one that ends where no offset
    is. -/
theorem resolve_trailing_short :
    let image : Image := ⟨List.replicate 8 0x90, none, []⟩
    image.size < Offset.limit ∧
    (∃ image', image.resolve (.trailing 2 5 .rel32) 0 = .ok (-7, image') ∧
      image'.bytes = [0x90, 0x90, 0x90, 0xF9, 0xFF, 0xFF, 0xFF, 0x90]) ∧
    image.resolve (.trailing 0 2 .rel32) 0 = .error (.siteOutside 0 4 8) ∧
    image.resolve (.trailing 4 3 .rel32) 0 = .error (.siteOutside 3 4 8) ∧
    image.resolve (.trailing 0xFFFFFFFFFFFFFFFF 4 .rel8) 0 =
      .error (.siteOutside 0xFFFFFFFFFFFFFFFE 1 8) := by
  intro image
  have hsize : image.size < Offset.limit := by decide
  have hok : image.resolve (.trailing 2 5 .rel32) 0 = .ok (-7, ⟨_, none, []⟩) := rfl
  obtain ⟨-, -, hwritten, -⟩ := resolve_trailing image hsize 2 5 .rel32 0
  obtain ⟨-, -, -, -, -, hfront⟩ := resolve_trailing image hsize 0 2 .rel32 0
  obtain ⟨-, -, -, -, -, hshort⟩ := resolve_trailing image hsize 4 3 .rel32 0
  obtain ⟨-, -, -, -, -, hbehind⟩ := resolve_trailing image hsize 0xFFFFFFFFFFFFFFFF 4 .rel8 0
  refine ⟨hsize, ⟨_, hok, ?_⟩, (hfront (by decide)).1, (hshort (by decide)).1,
    (hbehind (by decide)).1⟩
  exact (hwritten _ _ hok).2.1.trans (by decide)

end Image

end Emplace
